import TagSchema.Proofs.SourceOrder

/-! Where faults lie. A fault of a file lies at a word of the file: at the word that is read, or at the tag
of a scope that was opened for a word before it. A fault of the end lies in a node, and so at the tag that
the node, or the node it was filled in for, was written with. The root has no place in any file, and no
fault lies there. -/
namespace TagSchema
open Grammar Node

/-- The fault knows its scope and lies on a line of the text that has words and is not a comment. -/
structure Fault.LiesIn (fault : Fault) (name text : String) : Prop where
  file : fault.place.file = name
  first : 1 ≤ fault.place.line
  last : fault.place.line ≤ (Text.lines text).length
  words : ∃ line, (Text.lines text)[fault.place.line - 1]? = some line ∧
    Text.isComment (Text.words line) = false ∧ Text.words line ≠ []
  tag : fault.tag.isSome

structure Fault.LiesAtTag (fault : Fault) (name text : String) : Prop extends
    Fault.LiesIn fault name text where
  written : ∃ key : Keyword, (fault.place.line, "@" ++ key.spelling) ∈ Text.numberedWords text

theorem Node.written_of_occurs {chart : Chart} {node inner : Node} (ordered : node.Every (Ordered chart))
    (hwritten : ∃ key, chart.written key node.place) (h : inner.Occurs node) :
    ∃ key, chart.written key inner.place := by
  induction h with
  | here => exact hwritten
  | @inside node child hchild _ ih =>
    refine ih (ordered.child hchild) ?_
    have hmem : child ∈ node.childrenOf child.tag := mem_childrenOf.mpr ⟨hchild, rfl⟩
    rcases ordered.self child.tag with ⟨only, honly, hplace, -⟩ | strung
    · rw [honly, List.mem_singleton] at hmem
      subst hmem
      rw [hplace]
      exact hwritten
    · exact ⟨child.tag, strung.written _ (List.mem_map_of_mem hmem)⟩

namespace Reading

variable {reading after : Reading} {places : List Place}

theorem liesIn_of_spoken {source : String × String} {fault : Fault} {word : String}
    (hplace : (fault.place, word) ∈ spoken source) (htag : fault.tag.isSome) :
    fault.LiesIn source.1 source.2 ∧ (fault.place.line, word) ∈ Text.numberedWords source.2 := by
  obtain ⟨⟨number, text⟩, hword, hpair⟩ := List.mem_map.mp hplace
  obtain ⟨hsame, rfl⟩ := Prod.mk.inj hpair
  have hfile : fault.place.file = source.1 := by rw [← hsame]
  obtain rfl : fault.place.line = number := by rw [← hsame]
  obtain ⟨line, hline, hfirst, hlast, hcomment, hmem⟩ := Text.mem_numberedWords hword
  have hwords : Text.words line ≠ [] := List.ne_nil_of_mem hmem
  exact ⟨⟨hfile, hfirst, hlast, ⟨line, hline, hcomment, hwords⟩, htag⟩, hword⟩

def openPlaces (reading : Reading) : List Place := reading.opened.map (·.node.place)

theorem Sound.openPlaces_of_closeInnermost (sound : reading.Sound)
    (h : Reading.closeInnermost reading = .ok () after) : after.openPlaces = reading.openPlaces.tail := by
  have hplaces (reading : Reading) :
      reading.openPlaces = (reading.frames.map (·.node.place)).dropLast := by
    unfold openPlaces frames
    rw [List.map_append, List.map_singleton, List.dropLast_concat]
  rcases sound.frames_of_closeInnermost h with
    ⟨rfl, hnone⟩ | ⟨scope, outer, rest, child, hframes, -, hfolded⟩
  · simp [openPlaces, hnone]
  · rw [hplaces, hplaces, hfolded, hframes]
    rfl

def Within (places : List Place) : EStateM.Result Fault Reading Unit → Prop
  | .ok () after => after.openPlaces ⊆ places
  | .error fault _ => fault.place ∈ places ∧ fault.tag.isSome

structure Blames (places : List Place) (step : Step Unit) : Prop where
  keeps : ∀ start, Keeps (Extends start) step
  within : ∀ reading, reading.Sound → reading.openPlaces ⊆ places → Within places (step reading)

namespace Blames

theorem pure : Blames places (Pure.pure () : Step Unit) :=
  ⟨fun _ _ hreading => hreading, fun _ _ hplaces => hplaces⟩

theorem bind {step : Step Unit} {next : Unit → Step Unit} (hstep : Blames places step)
    (hnext : Blames places (next ())) : Blames places (step >>= next) := by
  refine ⟨fun start => (hstep.keeps start).bind fun _ => hnext.keeps start, fun reading sound hplaces => ?_⟩
  have hwithin := hstep.within reading sound hplaces
  cases hrun : step reading with
  | error fault lost =>
    rw [hrun] at hwithin
    rw [bind_of_error hrun]
    exact hwithin
  | ok _ between =>
    rw [hrun] at hwithin
    rw [bind_of_ok hrun]
    exact hnext.within between ((hstep.keeps reading).ok sound.extends hrun).toSound hwithin

theorem forM {body : β → Step Unit} {items : List β} (h : ∀ item ∈ items, Blames places (body item)) :
    Blames places (items.forM body) := by
  induction items with
  | nil => exact pure
  | cons item items ih =>
    rw [List.forall_mem_cons] at h
    rw [List.forM_eq_forM, List.forM_cons]
    exact bind h.1 (ih h.2)

theorem closeInnermost : Blames places Reading.closeInnermost := by
  refine ⟨fun _ => keeps_closeInnermost, fun reading sound hplaces => ?_⟩
  cases hrun : Reading.closeInnermost reading with
  | ok _ after =>
    change after.openPlaces ⊆ places
    rw [sound.openPlaces_of_closeInnermost hrun]
    exact List.Subset.trans (List.tail_sublist _).subset hplaces
  | error fault lost =>
    obtain ⟨scope, hscope, hfault⟩ := sound.ofTag_of_closeInnermost hrun
    refine ⟨?_, hfault.tag⟩
    rw [hfault.place]
    exact hplaces (List.mem_map_of_mem hscope)

theorem closeScopes (n : Nat) : Blames places (Reading.closeScopes n) := by
  induction n with
  | zero => exact pure
  | succ n ih => exact closeInnermost.bind ih

theorem closeAll : Blames places Reading.closeAll :=
  ⟨fun _ => keeps_closeAll, fun reading => (closeScopes reading.depth).within reading⟩

variable {place : Place}

theorem openTag (key : Keyword) (hplace : place ∈ places) : Blames places (Reading.openTag key place) := by
  refine ⟨fun _ => keeps_openTag key place, fun reading sound hplaces => ?_⟩
  unfold Reading.openTag
  rcases Scope.child_cases (reading.opened.headD reading.root) key place with
    ⟨fault, hchild, hfault, htag⟩ | hchild | ⟨schema, hchild, -⟩
  · rw [hchild]
    exact ⟨hfault ▸ hplace, htag⟩
  · rw [hchild]
    exact closeInnermost.within reading sound hplaces
  · rw [hchild]
    exact List.cons_subset.mpr ⟨hplace, hplaces⟩

theorem enter (word : String) (hplace : place ∈ places) : Blames places (Reading.enter word place) := by
  refine ⟨fun _ => keeps_enter word place, fun reading sound hplaces => ?_⟩
  rcases sound.enter_cases word place with ⟨-, henter⟩ | ⟨key, inside, -, -, henter⟩
  · rw [henter]
    exact ⟨hplace, rfl⟩
  · rw [henter]
    exact ((closeScopes inside).bind (openTag key hplace)).within reading sound hplaces

theorem keep (word : String) (hplace : place ∈ places) : Blames places (Reading.keep word place) := by
  refine ⟨fun _ => keeps_keep word place, ?_⟩
  rintro ⟨grammar, root, opened, symbols⟩ - hplaces
  cases opened with
  | nil => exact ⟨hplace, rfl⟩
  | cons scope outer => exact hplaces

theorem word (text : String) (hplace : place ∈ places) : Blames places (Reading.word place text) := by
  unfold Reading.word
  split
  · exact enter _ hplace
  · exact keep text hplace

theorem file (source : String × String) :
    Blames ((spoken source).map (·.1)) (Reading.file source.1 source.2) := by
  rw [file_eq_recite]
  exact bind (forM fun first hfirst => word first.2 (List.mem_map_of_mem hfirst)) closeAll

end Blames

theorem Sound.finish_fault {fault : Fault} (sound : reading.Sound) (hopened : reading.opened = [])
    (h : reading.finish = .error fault) :
    ∃ child ∈ reading.root.node.children, ∃ inner : Node, inner.Occurs child ∧
      fault.place = inner.place ∧ fault.tag = some inner.tag := by
  rcases sound.finish_cases hopened with ⟨_, hok, -⟩ | ⟨_, herror, inner, hinner, hfault⟩
  · cases hok.symm.trans h
  · cases herror.symm.trans h
    obtain ⟨-, htag, hplace⟩ := referenceFault?_eq_some hfault
    cases hinner with
    | here =>
      have hnone : reading.root.node.referenceFault? reading.symbols = none := by
        rw [referenceFault?_eq_none, sound.root.signature]
        nofun
      cases hnone.symm.trans hfault
    | inside hchild hinner => exact ⟨_, hchild, inner, hinner, hplace, htag⟩

/-- A file that cannot be read behind files that could be read fails at a line of its own, and the end
after them fails at a tag of one of them. -/
theorem faults_lie_in_sources {sources : List (String × String)} {reading : Reading}
    (h : files sources standard = .ok () reading) :
    (∀ name text fault lost, file name text reading = .error fault lost → fault.LiesIn name text) ∧
      ∀ fault, reading.finish = .error fault →
        ∃ source ∈ sources, fault.LiesAtTag source.1 source.2 := by
  obtain ⟨sound, hopened, -⟩ := sound_standard.files_yield rfl h
  constructor
  · intro name text fault lost hfile
    have hplaces : reading.openPlaces ⊆ (spoken (name, text)).map (·.1) := by
      unfold openPlaces
      rw [hopened]
      exact List.nil_subset _
    have hwithin := (Blames.file (name, text)).within reading sound hplaces
    rw [hfile] at hwithin
    obtain ⟨hplace, htag⟩ := hwithin
    obtain ⟨⟨place, word⟩, hword, rfl⟩ := List.mem_map.mp hplace
    exact (liesIn_of_spoken hword htag).1
  · intro fault hfinish
    -- The node is inside a child of the root, and each of these came from one of the files.
    obtain ⟨child, hchild, inner, hinner, hplace, htag⟩ := sound.finish_fault hopened hfinish
    have hmem : child ∈ reading.root.node.childrenOf child.tag := mem_childrenOf.mpr ⟨hchild, rfl⟩
    rw [childrenOf_files h] at hmem
    obtain ⟨source, hsource, hyield⟩ := List.mem_flatMap.mp hmem
    obtain ⟨-, -, strung, ordered⟩ := files_in_order h source hsource
    have hwritten := (strung child.tag).written child.place (List.mem_map_of_mem hyield)
    obtain ⟨key, hkey⟩ := Node.written_of_occurs (ordered child (mem_childrenOf.mp hyield).1)
      ⟨child.tag, hwritten⟩ hinner
    rw [← hplace] at hkey
    obtain ⟨hlies, hword⟩ := liesIn_of_spoken hkey (by rw [htag]; rfl)
    exact ⟨source, hsource, hlies, key, hword⟩

/-- Here a field lacks its words, which shows only when another class closes it, and a reference has no
symbol. -/
theorem faults_lie_in_sources_twice :
    let sources := [("a.talk", "# note\n\n@class A\n\t@field B x")]
    ∃ reading, files sources standard = .ok () reading ∧
      (∃ fault lost, file "b.talk" "@class C\n@field\n\n# note\n@class D" reading = .error fault lost ∧
        fault.LiesIn "b.talk" "@class C\n@field\n\n# note\n@class D" ∧ fault.place.line = 2) ∧
      ∃ fault, reading.finish = .error fault ∧
        (∃ source ∈ sources, fault.LiesAtTag source.1 source.2) ∧ fault.place.line = 4 := by
  intro sources
  have hlines : (match files sources standard with
      | .ok () reading =>
        ((match file "b.talk" "@class C\n@field\n\n# note\n@class D" reading with
          | .ok .. => 0
          | .error fault _ => fault.place.line),
        (match reading.finish with
          | .ok _ => 0
          | .error fault => fault.place.line))
      | .error .. => (0, 0)) = (2, 4) := by
    decide +kernel
  cases hread : files sources standard with
  | error fault lost =>
    rw [hread] at hlines
    cases hlines
  | ok _ reading =>
    rw [hread] at hlines
    obtain ⟨hfile, hfinish⟩ := Prod.mk.inj hlines
    obtain ⟨hlies, hends⟩ := faults_lie_in_sources hread
    refine ⟨reading, rfl, ?_, ?_⟩
    · cases hrun : file "b.talk" "@class C\n@field\n\n# note\n@class D" reading with
      | ok _ after =>
        rw [hrun] at hfile
        cases hfile
      | error fault lost =>
        rw [hrun] at hfile
        exact ⟨fault, lost, rfl, hlies _ _ fault lost hrun, hfile⟩
    · cases hrun : reading.finish with
      | ok corpus =>
        rw [hrun] at hfinish
        cases hfinish
      | error fault =>
        rw [hrun] at hfinish
        exact ⟨fault, rfl, hends fault hrun, hfinish⟩

end Reading
end TagSchema
