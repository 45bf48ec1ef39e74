import TagSchema.Proofs.Growth
import TagSchema.Proofs.Moving

/-! Tracing the nodes of a tree back to the words of a file. Children are attached when their scopes
close, yet they come to stand in the order in which these were opened: all that a scope holds was opened
before the scopes that are open inside it. -/
namespace TagSchema
open Grammar Node

/-- Where tags are written, and which places come before which. -/
structure Chart where
  written : Keyword → Place → Prop
  before : Place → Place → Prop

structure Chart.Covers (chart : Chart) (spoken : List (Place × String)) : Prop where
  written : ∀ (key : Keyword) (place : Place), (place, "@" ++ key.spelling) ∈ spoken →
    chart.written key place
  sorted : (spoken.map (·.1)).Pairwise chart.before
  start : ∀ place ∈ spoken.map (·.1), chart.before ⟨"", 0⟩ place

variable {chart : Chart} {later : List Place}

theorem Chart.Covers.tail {first : Place × String} {spoken : List (Place × String)}
    (covers : chart.Covers (first :: spoken)) : chart.Covers spoken := by
  obtain ⟨written, sorted, start⟩ := covers
  rw [List.map_cons, List.pairwise_cons] at sorted
  rw [List.map_cons, List.forall_mem_cons] at start
  exact ⟨fun key place h => written key place (List.mem_cons_of_mem _ h), sorted.2, start.2⟩

namespace Node

def placesOf (node : Node) (key : Keyword) : List Place := (node.childrenOf key).map (·.place)

/-- The children of a tag stand where the tag was written, behind their parent and one behind the other. -/
structure Strung (chart : Chart) (node : Node) (key : Keyword) : Prop where
  written : ∀ place ∈ node.placesOf key, chart.written key place
  behind : ∀ place ∈ node.placesOf key, chart.before node.place place
  sorted : (node.placesOf key).Pairwise chart.before

/-- The only child of a tag is one that was filled in, and so stands where its parent stands. -/
def FilledIn (node : Node) (key : Keyword) : Prop :=
  ∃ child : Node, node.childrenOf key = [child] ∧ child.place = node.place ∧ child.children = []

def Ordered (chart : Chart) (node : Node) : Prop :=
  ∀ key, node.FilledIn key ∨ node.Strung chart key

structure Gathers (chart : Chart) (later : List Place) (node : Node) : Prop where
  strung : ∀ key, node.Strung chart key
  ordered : ∀ child ∈ node.children, child.Every (Ordered chart)
  ahead : ∀ place ∈ later, chart.before node.place place
  within : ∀ child ∈ node.children, ∀ place ∈ later, chart.before child.place place

theorem placesOf_of_site {node after : Node} {key : Keyword}
    (h : (after.childrenOf key).map site = (node.childrenOf key).map site) :
    after.placesOf key = node.placesOf key := by
  have hplaces (nodes : List Node) : nodes.map (·.place) = (nodes.map site).map (·.2.1) := by
    rw [List.map_map]
    rfl
  unfold placesOf
  rw [hplaces, hplaces, h]

theorem Strung.congr {node after : Node} {key : Keyword} (strung : node.Strung chart key)
    (hplace : after.place = node.place) (h : after.placesOf key = node.placesOf key) :
    after.Strung chart key := by
  refine ⟨?_, ?_, ?_⟩
  · rw [h]
    exact strung.written
  · rw [h, hplace]
    exact strung.behind
  · rw [h]
    exact strung.sorted

theorem strung_of_placesOf_eq_nil {node : Node} {key : Keyword} (h : node.placesOf key = []) :
    node.Strung chart key := by
  refine ⟨?_, ?_, ?_⟩
  · simp [h]
  · simp [h]
  · simp [h]

theorem every_ordered_leaf {node : Node} (h : node.children = []) : node.Every (Ordered chart) := by
  refine every_iff.mpr ⟨fun key => .inr (strung_of_placesOf_eq_nil ?_), by simp [h]⟩
  simp [placesOf, childrenOf, h]

theorem Ordered.of_site {node after : Node} (hsite : after.site = node.site)
    (ordered : node.Ordered chart) : after.Ordered chart := by
  obtain ⟨-, hplace, hchildren⟩ : after.tag = node.tag ∧ after.place = node.place ∧
      after.children = node.children := by
    simpa [site] using hsite
  have hof (key : Keyword) : after.childrenOf key = node.childrenOf key := by
    unfold childrenOf
    rw [hchildren]
  intro key
  rcases ordered key with ⟨child, honly, hsame, hleaf⟩ | strung
  · exact .inl ⟨child, (hof key).trans honly, hsame.trans hplace.symm, hleaf⟩
  · refine .inr (strung.congr hplace ?_)
    unfold placesOf
    rw [hof]

theorem Closed.every_ordered {start node : Node} (closed : Closed start node)
    (gathers : start.Gathers chart later) : node.Every (Ordered chart) := by
  refine every_iff.mpr ⟨fun key => ?_, fun child hchild => ?_⟩
  · rcases closed.grows key with hkept | ⟨-, child, honly, hplace, hleaf⟩
    · exact .inr ((gathers.strung key).congr closed.place (placesOf_of_site hkept))
    · exact .inl ⟨child, honly, hplace.trans closed.place.symm, hleaf⟩
  · rcases closed.grows.children_cases hchild with ⟨earlier, hearlier, hsite⟩ | ⟨-, hleaf⟩
    · exact (gathers.ordered earlier hearlier).of_site (fun _ _ => Ordered.of_site) hsite
    · exact every_ordered_leaf hleaf

theorem Gathers.attach {node child : Node} (gathers : node.Gathers chart later)
    (ordered : child.Every (Ordered chart)) (hwritten : chart.written child.tag child.place)
    (hbehind : chart.before node.place child.place)
    (hlast : ∀ sibling ∈ node.children, chart.before sibling.place child.place)
    (hahead : ∀ place ∈ later, chart.before child.place place) :
    (node.attach child).Gathers chart later := by
  refine ⟨fun key => ?_, fun inner hinner => ?_, gathers.ahead, fun inner hinner => ?_⟩
  · have strung := gathers.strung key
    by_cases hkey : key = child.tag
    · subst hkey
      have hplaces : (node.attach child).placesOf child.tag =
          node.placesOf child.tag ++ [child.place] := by
        unfold placesOf
        rw [childrenOf_attach, if_pos rfl, List.map_append, List.map_singleton]
      refine ⟨?_, ?_, ?_⟩
      · rw [hplaces, List.forall_mem_append]
        exact ⟨strung.written, List.forall_mem_singleton.mpr hwritten⟩
      · rw [hplaces, List.forall_mem_append]
        exact ⟨strung.behind, List.forall_mem_singleton.mpr hbehind⟩
      · rw [hplaces, List.pairwise_append]
        refine ⟨strung.sorted, List.pairwise_singleton _ _, fun place hplace last hlast' => ?_⟩
        obtain ⟨sibling, hsibling, rfl⟩ := List.mem_map.mp hplace
        cases List.mem_singleton.mp hlast'
        exact hlast sibling (mem_childrenOf.mp hsibling).1
    · refine strung.congr rfl ?_
      unfold placesOf
      rw [childrenOf_attach, if_neg hkey]
  · rcases mem_children_attach.mp hinner with hinner | rfl
    · exact gathers.ordered inner hinner
    · exact ordered
  · rcases mem_children_attach.mp hinner with hinner | rfl
    · exact gathers.within inner hinner
    · exact hahead

theorem Gathers.tail {node : Node} {place : Place} (gathers : node.Gathers chart (place :: later)) :
    node.Gathers chart later :=
  ⟨gathers.strung, gathers.ordered, fun other hother => gathers.ahead other (List.mem_cons_of_mem _ hother),
    fun child hchild other hother => gathers.within child hchild other (List.mem_cons_of_mem _ hother)⟩

theorem gathers_start {tag : Keyword} {signature : Signature} {place : Place}
    (h : ∀ other ∈ later, chart.before place other) :
    (start tag signature place).Gathers chart later :=
  ⟨fun _ => strung_of_placesOf_eq_nil rfl, nofun, h, nofun⟩

end Node

structure Scope.Behind (chart : Chart) (scope outer : Scope) : Prop where
  written : chart.written scope.node.tag scope.node.place
  parent : chart.before outer.node.place scope.node.place
  siblings : ∀ child ∈ outer.node.children, chart.before child.place scope.node.place

structure Charted (chart : Chart) (later : List Place) (frames : List Scope) : Prop where
  gathers : ∀ frame ∈ frames, frame.node.Gathers chart later
  nested : frames.IsChain (Scope.Behind chart)

namespace Charted

variable {scope outer : Scope} {rest frames : List Scope}

theorem fold (charted : Charted chart later (scope :: outer :: rest)) {child : Node}
    (closed : Closed scope.node child) : Charted chart later (outer.including child :: rest) := by
  obtain ⟨hgathers, hnested⟩ := charted
  rw [List.forall_mem_cons, List.forall_mem_cons] at hgathers
  obtain ⟨hscope, houter, hrest⟩ := hgathers
  rw [List.isChain_cons_cons] at hnested
  obtain ⟨hbehind, hnested⟩ := hnested
  constructor
  · rw [List.forall_mem_cons]
    refine ⟨?_, hrest⟩
    refine houter.attach (closed.every_ordered hscope) ?_ ?_ ?_ ?_
    · rw [closed.tag, closed.place]
      exact hbehind.written
    · rw [closed.place]
      exact hbehind.parent
    · rw [closed.place]
      exact hbehind.siblings
    · rw [closed.place]
      exact hscope.ahead
  · cases rest with
    | nil => exact .singleton _
    | cons next rest =>
      rw [List.isChain_cons_cons] at hnested ⊢
      exact ⟨⟨hnested.1.written, hnested.1.parent, hnested.1.siblings⟩, hnested.2⟩

theorem tail {place : Place} (charted : Charted chart (place :: later) frames) :
    Charted chart later frames :=
  ⟨fun frame hframe => (charted.gathers frame hframe).tail, charted.nested⟩

theorem openScope {place : Place} {key : Keyword} (schema : Schema)
    (charted : Charted chart (place :: later) (outer :: rest)) (hwritten : chart.written key place)
    (hlater : ∀ other ∈ later, chart.before place other) :
    Charted chart later (.start key schema place :: outer :: rest) := by
  have houter := charted.gathers outer List.mem_cons_self
  constructor
  · rw [List.forall_mem_cons]
    exact ⟨gathers_start hlater, charted.tail.gathers⟩
  · rw [List.isChain_cons_cons]
    refine ⟨⟨hwritten, houter.ahead place List.mem_cons_self, ?_⟩, charted.nested⟩
    exact fun child hchild => houter.within child hchild place List.mem_cons_self

theorem addWord (charted : Charted chart later (scope :: rest)) (word : String) :
    Charted chart later ({ scope with node := scope.node.addWord word } :: rest) := by
  obtain ⟨hgathers, hnested⟩ := charted
  rw [List.forall_mem_cons] at hgathers
  obtain ⟨⟨strung, ordered, ahead, within⟩, hrest⟩ := hgathers
  constructor
  · rw [List.forall_mem_cons]
    refine ⟨⟨fun key => ?_, ordered, ahead, within⟩, hrest⟩
    exact (strung key).congr rfl rfl
  · cases rest with
    | nil => exact .singleton _
    | cons next rest =>
      rw [List.isChain_cons_cons] at hnested ⊢
      exact ⟨⟨hnested.1.written, hnested.1.parent, hnested.1.siblings⟩, hnested.2⟩

end Charted

namespace Reading

variable {reading after : Reading}

theorem Sound.charted_closeInnermost (sound : reading.Sound) (charted : Charted chart later reading.frames)
    (h : Reading.closeInnermost reading = .ok () after) : Charted chart later after.frames := by
  rcases sound.frames_of_closeInnermost h with
    ⟨rfl, -⟩ | ⟨scope, outer, rest, child, hframes, closed, hfolded⟩
  · exact charted
  · rw [hfolded]
    rw [hframes] at charted
    exact charted.fold closed

theorem Sound.charted_closeScopes (sound : reading.Sound) {n : Nat}
    (charted : Charted chart later reading.frames) (h : closeScopes n reading = .ok () after) :
    Charted chart later after.frames := by
  induction n generalizing reading with
  | zero =>
    cases h
    exact charted
  | succ n ih =>
    obtain ⟨_, between, hclose, hrest⟩ := bind_eq_ok h
    exact ih (sound.closeInnermost hclose) (sound.charted_closeInnermost charted hclose) hrest

theorem frames_eq_cons (reading : Reading) :
    ∃ rest, reading.frames = reading.opened.headD reading.root :: rest := by
  unfold frames
  cases reading.opened with
  | nil => exact ⟨[], rfl⟩
  | cons scope outer => exact ⟨outer ++ [reading.root], rfl⟩

theorem Sound.charted_openTag (sound : reading.Sound) {key : Keyword} {place : Place}
    (charted : Charted chart (place :: later) reading.frames) (hwritten : chart.written key place)
    (hlater : ∀ other ∈ later, chart.before place other)
    (h : openTag key place reading = .ok () after) : Charted chart later after.frames := by
  obtain ⟨rest, hframes⟩ := reading.frames_eq_cons
  unfold openTag at h
  rcases Scope.child_cases (reading.opened.headD reading.root) key place with
    ⟨fault, hchild, -⟩ | hchild | ⟨schema, hchild, -⟩
  · rw [hchild] at h
    cases h
  · rw [hchild] at h
    exact (sound.charted_closeInnermost charted h).tail
  · rw [hchild] at h
    cases h
    rw [hframes] at charted
    have hopened := charted.openScope schema hwritten hlater
    rw [← hframes] at hopened
    exact hopened

theorem Sound.charted_word (sound : reading.Sound) {place : Place} {text : String}
    (charted : Charted chart (place :: later) reading.frames)
    (hwritten : ∀ key : Keyword, text = "@" ++ key.spelling → chart.written key place)
    (hlater : ∀ other ∈ later, chart.before place other)
    (h : word place text reading = .ok () after) : Charted chart later after.frames := by
  rcases tag_or_data text with ⟨name, rfl⟩ | hdata
  · rw [word_tag] at h
    rcases sound.enter_cases name place with ⟨-, henter⟩ | ⟨key, inside, rfl, -, henter⟩
    · cases henter.symm.trans h
    · obtain ⟨_, between, hclose, hopen⟩ := bind_eq_ok (henter.symm.trans h)
      have hbetween := ((keeps_closeScopes inside).ok sound.extends hclose).toSound
      have hcharted := sound.charted_closeScopes charted hclose
      exact hbetween.charted_openTag hcharted (hwritten key rfl) hlater hopen
  · rw [word_data hdata] at h
    unfold keep at h
    obtain ⟨grammar, root, opened, symbols⟩ := reading
    cases opened with
    | nil => cases h
    | cons scope outer =>
      cases h
      exact charted.tail.addWord text

theorem Sound.charted_recite {spoken : List (Place × String)} (sound : reading.Sound)
    (covers : chart.Covers spoken) (charted : Charted chart (spoken.map (·.1)) reading.frames)
    (h : recite spoken reading = .ok () after) : Charted chart [] after.frames := by
  -- Induction on the words: each is read while it is the next of those to come.
  induction spoken generalizing reading with
  | nil =>
    cases h
    exact charted
  | cons first spoken ih =>
    obtain ⟨_, between, hword, hrest⟩ := bind_eq_ok h
    have hbetween := ((keeps_word first.1 first.2).ok sound.extends hword).toSound
    have hsorted := covers.sorted
    rw [List.map_cons, List.pairwise_cons] at hsorted
    refine ih hbetween covers.tail ?_ hrest
    refine sound.charted_word charted (fun key hkey => ?_) hsorted.1 hword
    exact covers.written key first.1 (by rw [← hkey]; exact List.mem_cons_self)

/-- Once the words of a file are read and its scopes are closed, all nodes are in order. -/
theorem gathers_of_recite {spoken : List (Place × String)} (covers : chart.Covers spoken)
    (h : (recite spoken >>= fun _ => closeAll) standard = .ok () after) :
    after.root.node.Gathers chart [] := by
  obtain ⟨_, between, hrecite, hclose⟩ := bind_eq_ok h
  have hstart : Charted chart (spoken.map (·.1)) standard.frames :=
    ⟨List.forall_mem_singleton.mpr (gathers_start covers.start), .singleton _⟩
  have hbetween := sound_standard.charted_recite covers hstart hrecite
  have hkeeps : Keeps (Extends standard) (recite spoken) := .forM fun _ _ => keeps_word _ _
  have sound := (hkeeps.ok sound_standard.extends hrecite).toSound
  have hafter := sound.charted_closeScopes hbetween hclose
  refine hafter.gathers after.root ?_
  unfold frames
  exact List.mem_append_right _ (List.mem_singleton_self _)

end Reading
end TagSchema
