import Mathlib.Data.List.Chain
import TagSchema.Proofs.FaultPlaces

/-! Which nodes come to stand inside which. A file that is read to its end leaves no scope open, so that all
that it holds is of that file. A file that fails leaves its scopes open, and the tags of the next file then
go into them. -/
namespace TagSchema
open Grammar Node

namespace Node

variable {R : Place → Place → Prop} {start node child : Node}

def Links (R : Place → Place → Prop) (node : Node) : Prop :=
  ∀ child ∈ node.children, R node.place child.place

theorem every_links_leaf (h : node.children = []) : node.Every (Links R) := by
  refine every_iff.mpr ⟨?_, ?_⟩
  · simp [Links, h]
  · simp [h]

theorem Links.of_site (hsite : child.site = node.site) (links : node.Links R) : child.Links R := by
  obtain ⟨-, hplace, hchildren⟩ : child.tag = node.tag ∧ child.place = node.place ∧
      child.children = node.children := by
    simpa [site] using hsite
  unfold Links
  rw [hplace, hchildren]
  exact links

theorem Closed.every_links (hrefl : ∀ place, R place place) (closed : Closed start node)
    (links : start.Every (Links R)) : node.Every (Links R) := by
  refine every_iff.mpr ⟨fun child hchild => ?_, fun child hchild => ?_⟩
  · rw [closed.place]
    rcases closed.grows.children_cases hchild with ⟨earlier, hearlier, hsite⟩ | ⟨hplace, -⟩
    · have hplace : child.place = earlier.place := congrArg (·.2.1) hsite
      rw [hplace]
      exact links.self earlier hearlier
    · rw [hplace]
      exact hrefl _
  · rcases closed.grows.children_cases hchild with ⟨earlier, hearlier, hsite⟩ | ⟨-, hleaf⟩
    · exact (links.child hearlier).of_site (fun _ _ => Links.of_site) hsite
    · exact every_links_leaf hleaf

theorem Every.links_attach (links : node.Every (Links R)) (hchild : child.Every (Links R))
    (hplace : R node.place child.place) : (node.attach child).Every (Links R) := by
  refine every_iff.mpr ⟨fun inner hinner => ?_, fun inner hinner => ?_⟩
  · rcases mem_children_attach.mp hinner with hinner | rfl
    · exact links.self inner hinner
    · exact hplace
  · rcases mem_children_attach.mp hinner with hinner | rfl
    · exact links.child hinner
    · exact hchild

end Node

namespace Reading

variable {reading : Reading} {R : Place → Place → Prop} {name : String}

inductive Has (reading : Reading) (node : Node) : Prop where
  | closed {child : Node} : child ∈ reading.root.node.children → node.Occurs child → Has reading node
  | opened {scope : Scope} : scope ∈ reading.opened → node.Occurs scope.node → Has reading node

/-- A node other than the root contains its children, and an open scope the one that is open inside it. -/
inductive Contains (reading : Reading) : Node → Node → Prop where
  | child {outer inner : Node} : reading.Has outer → inner ∈ outer.children → Contains reading outer inner
  | scope {before behind : List Scope} {inner outer : Scope} :
    reading.opened = before ++ inner :: outer :: behind → Contains reading outer.node inner.node

structure Linked (R : Place → Place → Prop) (reading : Reading) : Prop where
  trunk : ∀ child ∈ reading.root.node.children, child.Every (Links R)
  scopes : ∀ scope ∈ reading.opened, scope.node.Every (Links R)
  chain : reading.opened.IsChain fun inner outer => R outer.node.place inner.node.place

theorem Linked.of_contains (linked : reading.Linked R) {outer inner : Node}
    (h : reading.Contains outer inner) : R outer.place inner.place := by
  cases h with
  | child houter hinner =>
    cases houter with
    | closed hchild hoccurs => exact linked.trunk _ hchild outer hoccurs inner hinner
    | opened hscope hoccurs => exact linked.scopes _ hscope outer hoccurs inner hinner
  | scope hopened =>
    have hchain := linked.chain
    rw [hopened] at hchain
    exact (List.isChain_append_cons_cons.mp hchain).2.1

theorem linked_standard : standard.Linked R :=
  ⟨List.forall_mem_nil _, List.forall_mem_nil _, .nil⟩

theorem Linked.mono {S : Place → Place → Prop} (linked : reading.Linked R)
    (h : ∀ outer inner, R outer inner → S outer inner) : reading.Linked S := by
  have hlinks (node : Node) (links : Links R node) : Links S node :=
    fun child hchild => h _ _ (links child hchild)
  exact ⟨fun child hchild => (linked.trunk child hchild).imp hlinks,
    fun scope hscope => (linked.scopes scope hscope).imp hlinks, linked.chain.imp fun _ _ => h _ _⟩

theorem isChain_congr_head {scope other : Scope} {outer : List Scope}
    (chain : (scope :: outer).IsChain fun inner outer => R outer.node.place inner.node.place)
    (hplace : other.node.place = scope.node.place) :
    (other :: outer).IsChain fun inner outer => R outer.node.place inner.node.place := by
  cases outer with
  | nil => exact .singleton _
  | cons next outer =>
    rw [List.isChain_cons_cons] at chain ⊢
    rw [hplace]
    exact chain

structure Receives (R : Place → Place → Prop) (name : String) (reading : Reading) : Prop extends
    Sound reading, Linked R reading where
  receives : ∀ scope ∈ reading.opened, ∀ line, R scope.node.place ⟨name, line⟩

section steps

variable (hsame : ∀ outer inner : Place, outer.file = inner.file → R outer inner)

include hsame

theorem receives_closeInnermost : Keeps (Receives R name) closeInnermost := by
  intro reading hreading
  have sound := (keeps_closeInnermost reading hreading.toSound.extends).toSound
  have hrefl (place : Place) : R place place := hsame place place rfl
  unfold after at sound ⊢
  rcases hreading.toSound.closeInnermost_cases with
    ⟨hrun, -⟩ | ⟨scope, outer, symbols, hopened, hcases⟩
  · rw [hrun]
    exact hreading
  · have hscopes := hreading.scopes
    have hchain := hreading.chain
    have hreceives := hreading.receives
    rw [hopened] at hscopes hchain hreceives
    rw [List.forall_mem_cons] at hscopes hreceives
    rcases hcases with ⟨fault, hrun, -⟩ | ⟨child, hrun, closed⟩
    · rw [hrun] at sound ⊢
      exact ⟨sound, ⟨hreading.trunk, hscopes.2, hchain.tail⟩, hreceives.2⟩
    · have hchild := closed.every_links hrefl hscopes.1
      rw [hrun] at sound ⊢
      cases outer with
      | nil =>
        refine ⟨sound, ⟨fun inner hinner => ?_, nofun, .nil⟩, nofun⟩
        rcases mem_children_attach.mp hinner with hinner | rfl
        · exact hreading.trunk inner hinner
        · exact hchild
      | cons around rest =>
        rw [List.isChain_cons_cons] at hchain
        rw [List.forall_mem_cons] at hscopes hreceives
        have haround : (around.including child).node.Every (Links R) := by
          refine hscopes.2.1.links_attach hchild ?_
          rw [closed.place]
          exact hchain.1
        exact ⟨sound, ⟨hreading.trunk, List.forall_mem_cons.mpr ⟨haround, hscopes.2.2⟩,
          isChain_congr_head hchain.2 rfl⟩, List.forall_mem_cons.mpr hreceives.2⟩

theorem receives_closeScopes (n : Nat) : Keeps (Receives R name) (closeScopes n) := by
  induction n with
  | zero => exact fun _ hreading => hreading
  | succ n ih => exact (receives_closeInnermost hsame).bind fun _ => ih

theorem receives_openTag (key : Keyword) (line : Nat) :
    Keeps (Receives R name) (openTag key ⟨name, line⟩) := by
  intro reading hreading
  have sound := (keeps_openTag key ⟨name, line⟩ reading hreading.toSound.extends).toSound
  have hclose := receives_closeInnermost hsame reading hreading
  unfold after openTag at *
  rcases Scope.child_cases (reading.opened.headD reading.root) key ⟨name, line⟩ with
    ⟨fault, hchild, -⟩ | hchild | ⟨schema, hchild, -⟩
  · simpa only [hchild] using hreading
  · simpa only [hchild] using hclose
  · simp only [hchild] at sound ⊢
    refine ⟨sound, ⟨hreading.trunk, ?_, ?_⟩, ?_⟩
    · exact List.forall_mem_cons.mpr ⟨every_links_leaf rfl, hreading.scopes⟩
    · have hchain := hreading.chain
      have hreceives := hreading.receives
      revert hchain hreceives
      dsimp only
      cases reading.opened with
      | nil => exact fun _ _ => .singleton _
      | cons outer rest =>
        intro hchain hreceives
        exact List.isChain_cons_cons.mpr ⟨hreceives outer List.mem_cons_self line, hchain⟩
    · exact List.forall_mem_cons.mpr ⟨fun other => hsame _ _ rfl, hreading.receives⟩

theorem receives_word (line : Nat) (text : String) :
    Keeps (Receives R name) (word ⟨name, line⟩ text) := by
  intro reading hreading
  have sound := (keeps_word ⟨name, line⟩ text reading hreading.toSound.extends).toSound
  rcases tag_or_data text with ⟨tag, rfl⟩ | hdata
  · rw [word_tag] at sound ⊢
    rcases hreading.toSound.enter_cases tag ⟨name, line⟩ with ⟨-, henter⟩ | ⟨key, inside, -, -, henter⟩
    · unfold after
      rw [henter]
      exact hreading
    · have hsteps := ((receives_closeScopes hsame inside).bind fun _ =>
        receives_openTag hsame key line) reading hreading
      unfold after at hsteps ⊢
      rw [henter]
      exact hsteps
  · rw [word_data hdata] at sound ⊢
    obtain ⟨grammar, root, opened, symbols⟩ := reading
    cases opened with
    | nil => exact hreading
    | cons scope outer =>
      obtain ⟨-, ⟨trunk, scopes, chain⟩, receives⟩ := hreading
      rw [List.forall_mem_cons] at scopes receives
      have hadded : (scope.node.addWord text).Every (Links R) :=
        scopes.1.of_site (fun _ _ => Links.of_site) rfl
      exact ⟨sound, ⟨trunk, List.forall_mem_cons.mpr ⟨hadded, scopes.2⟩, isChain_congr_head chain rfl⟩,
        List.forall_mem_cons.mpr receives⟩

theorem receives_file (text : String) : Keeps (Receives R name) (file name text) :=
  .bind (.forM fun _ _ => receives_word hsame _ _) fun _ reading hreading =>
    receives_closeScopes hsame reading.depth reading hreading

end steps

/-- The state after a call for each source, whatever the calls returned. -/
def afterAll (sources : List (String × String)) : Reading :=
  sources.foldl (fun reading source => after (file source.1 source.2) reading) standard

theorem afterAll_concat (sources : List (String × String)) (last : String × String) :
    afterAll (sources ++ [last]) = after (file last.1 last.2) (afterAll sources) := by
  unfold afterAll
  rw [List.foldl_append, List.foldl_cons, List.foldl_nil]

theorem reachable_afterAll (sources : List (String × String)) : Reachable (afterAll sources) := by
  induction sources using List.reverseRecOn with
  | nil => exact .standard
  | append_singleton sources last ih =>
    rw [afterAll_concat]
    exact .file last.1 last.2 ih

/-- A call failed with a scope open at the place, and the next call was for a file of the name. -/
def LeftOpen (sources : List (String × String)) (place : Place) (name : String) : Prop :=
  ∃ before failed source behind, sources = before ++ failed :: source :: behind ∧ source.1 = name ∧
    (∃ fault lost, file failed.1 failed.2 (afterAll before) = .error fault lost) ∧
    place ∈ (afterAll (before ++ [failed])).openPlaces

theorem LeftOpen.concat {sources : List (String × String)} {place : Place} (last : String × String)
    (h : LeftOpen sources place name) : LeftOpen (sources ++ [last]) place name := by
  obtain ⟨before, failed, source, behind, rfl, hrest⟩ := h
  exact ⟨before, failed, source, behind ++ [last], by simp, hrest⟩

theorem leftOpen_of_mem {sources : List (String × String)} {place : Place} (last : String × String)
    (h : place ∈ (afterAll sources).openPlaces) : LeftOpen (sources ++ [last]) place last.1 := by
  rcases List.eq_nil_or_concat sources with rfl | ⟨before, failed, rfl⟩
  · cases h
  · rw [List.concat_eq_append] at h ⊢
    refine ⟨before, failed, last, [], by simp, rfl, ?_, h⟩
    rw [afterAll_concat] at h
    cases hrun : file failed.1 failed.2 (afterAll before) with
    | error fault lost => exact ⟨fault, lost, rfl⟩
    | ok _ between =>
      unfold after openPlaces at h
      rw [hrun, opened_of_file hrun] at h
      cases h

theorem linked_afterAll (sources : List (String × String)) : (afterAll sources).Linked fun outer inner =>
    outer.file = inner.file ∨ LeftOpen sources outer inner.file := by
  induction sources using List.reverseRecOn with
  | nil => exact linked_standard
  | append_singleton sources last ih =>
    rw [afterAll_concat]
    refine (receives_file (fun _ _ => .inl) last.2 _ ⟨?_, ih.mono fun outer inner => ?_, ?_⟩).toLinked
    · exact (reachable_afterAll sources).sound
    · exact Or.imp_right (.concat last)
    · intro scope hscope line
      exact .inr (leftOpen_of_mem last (List.mem_map_of_mem hscope))

/-- Whatever the calls returned, a node is of the file of the node that contains it, unless a failed call
left that one open for the file. -/
theorem of_one_file_or_left_open (sources : List (String × String)) {outer inner : Node}
    (h : (afterAll sources).Contains outer inner) :
    outer.place.file = inner.place.file ∨ LeftOpen sources outer.place inner.place.file :=
  (linked_afterAll sources).of_contains h

theorem contains_of_openPlaces {inner outer : Place} {rest : List Place}
    (h : reading.openPlaces = inner :: outer :: rest) :
    ∃ around scope, reading.Contains around scope ∧ around.place = outer ∧ scope.place = inner := by
  unfold openPlaces at h
  obtain ⟨scope, opened, hopened, rfl, hrest⟩ := List.map_eq_cons_iff.mp h
  obtain ⟨around, behind, rfl, rfl, -⟩ := List.map_eq_cons_iff.mp hrest
  have hinside : reading.opened = [] ++ scope :: around :: behind := hopened
  exact ⟨around.node, scope.node, .scope hinside, rfl, rfl⟩

/-- Here a field is open in the class of another file, which a failed call left open. -/
theorem of_one_file_or_left_open_twice :
    let sources := [("a.talk", "@class A\n@bogus\n"), ("b.talk", "@field real x\n@bogus\n")]
    ∃ outer inner : Node, (afterAll sources).Contains outer inner ∧ outer.place = ⟨"a.talk", 1⟩ ∧
      inner.place = ⟨"b.talk", 1⟩ ∧ LeftOpen sources ⟨"a.talk", 1⟩ "b.talk" := by
  intro sources
  have hopened : (afterAll sources).openPlaces = [⟨"b.talk", 1⟩, ⟨"a.talk", 1⟩] := by decide +kernel
  obtain ⟨outer, inner, hcontains, houter, hinner⟩ := contains_of_openPlaces hopened
  have hfiles := of_one_file_or_left_open sources hcontains
  rw [houter, hinner] at hfiles
  exact ⟨outer, inner, hcontains, houter, hinner, hfiles.resolve_left (by decide)⟩

def pairs (reading : Reading) : List (Place × Place) :=
  reading.root.node.children.flatMap fun node =>
    node.children.map fun child => (node.place, child.place)

theorem contains_of_mem_pairs {outer inner : Place} (h : (outer, inner) ∈ reading.pairs) :
    ∃ node child, reading.Contains node child ∧ node.place = outer ∧ child.place = inner := by
  obtain ⟨node, hnode, hpair⟩ := List.mem_flatMap.mp h
  obtain ⟨child, hchild, hplaces⟩ := List.mem_map.mp hpair
  obtain ⟨hnodePlace, hchildPlace⟩ := Prod.mk.inj hplaces
  exact ⟨node, child, .child (.closed hnode .here) hchild, hnodePlace, hchildPlace⟩

/-- Here the class of a file that failed takes in a field of the next file, which is read to its end. -/
theorem field_in_class_of_another_file :
    let sources := [("a.talk", "@class A\n@bogus\n"), ("b.talk", "@field real x\n@end\n@end\n")]
    (afterAll sources).depth = 0 ∧
      ¬ ∀ outer inner : Node, (afterAll sources).Contains outer inner →
        outer.place.file = inner.place.file := by
  intro sources
  have hdepth : (afterAll sources).depth = 0 := by decide +kernel
  refine ⟨hdepth, fun hfiles => ?_⟩
  have hpair : (⟨"a.talk", 1⟩, ⟨"b.talk", 1⟩) ∈ (afterAll sources).pairs := by decide +kernel
  obtain ⟨outer, inner, hcontains, houter, hinner⟩ := contains_of_mem_pairs hpair
  have hsame := hfiles outer inner hcontains
  rw [houter, hinner] at hsame
  exact absurd hsame (by decide)

end Reading
end TagSchema
