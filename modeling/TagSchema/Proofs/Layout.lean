import TagSchema.Proofs.Lines
import TagSchema.Proofs.Moving
import TagSchema.Proofs.Rendering

/-! The layout of a text means nothing. Two texts that say the same words are read alike, whatever the
lines, the comments and the names of the files: read at no place at all, they are one and the same. -/
namespace TagSchema
open Grammar Node

def nowhere : Place → Place := fun _ => ⟨"", 0⟩

def Fault.Agrees (fault other : Fault) : Prop :=
  fault.cause.unplaced = other.cause.unplaced ∧ fault.tag = other.tag

theorem Fault.Agrees.kind {fault other : Fault} (h : fault.Agrees other) : fault.kind = other.kind := by
  unfold Fault.kind
  rw [← Fault.Cause.kind_unplaced, h.1, Fault.Cause.kind_unplaced]

section moved

variable {move : Place → Place}

theorem MovedValue.agree {carry : α → α} {first second moved : Except Fault α}
    (h : MovedValue move carry first moved) (h' : MovedValue move carry second moved) :
    (∃ a b, first = .ok a ∧ second = .ok b ∧ carry a = carry b) ∨
      ∃ fault other, first = .error fault ∧ second = .error other ∧ fault.Agrees other := by
  cases h with
  | ok a =>
    generalize hmoved : Except.ok (carry a) = moved at h'
    cases h' with
    | ok b => exact .inl ⟨a, b, rfl, rfl, Except.ok.inj hmoved⟩
    | error => cases hmoved
  | error hmoves =>
    cases h' with
    | error hmoves' =>
      exact .inr ⟨_, _, rfl, rfl, hmoves.cause.symm.trans hmoves'.cause,
        hmoves.tag.symm.trans hmoves'.tag⟩

theorem Moved.agree {carry : σ → σ} {first second moved : EStateM.Result Fault σ α}
    (h : Moved move carry first moved) (h' : Moved move carry second moved) :
    (∃ a after other, first = .ok a after ∧ second = .ok a other ∧ carry after = carry other) ∨
      ∃ fault lost other lost', first = .error fault lost ∧ second = .error other lost' ∧
        fault.Agrees other := by
  cases h with
  | ok a after =>
    generalize hmoved : EStateM.Result.ok a (carry after) = moved at h'
    cases h' with
    | ok b other =>
      obtain ⟨rfl, hcarry⟩ := EStateM.Result.ok.inj hmoved
      exact .inl ⟨a, after, other, rfl, rfl, hcarry⟩
    | error => cases hmoved
  | @error fault found lost hmoves =>
    generalize hmoved : EStateM.Result.error found (carry lost) = moved at h'
    cases h' with
    | ok => cases hmoved
    | error lost' hmoves' =>
      obtain ⟨rfl, -⟩ := EStateM.Result.error.inj hmoved
      exact .inr ⟨_, _, _, _, rfl, rfl, hmoves.cause.symm.trans hmoves'.cause,
        hmoves.tag.symm.trans hmoves'.tag⟩

end moved

theorem Fault.Cause.unplaced_of_kind {cause : Fault.Cause} (h : cause.kind = .crossReference) :
    cause.unplaced = cause := by
  cases cause with
  | repeatedSibling => cases h
  | registeredBefore => cases h
  | _ => rfl

namespace Node

theorem relocate_nowhere (node : Node) : node.relocate nowhere = node.unplaced := by
  induction node using induct with
  | parent node ih =>
    cases node
    rw [relocate, unplaced, relocateAll_eq_map, unplacedAll_eq_map]
    congr 1
    exact List.map_congr_left ih

theorem mapping_relocate (move : Place → Place) (node : Node) :
    (node.relocate move).mapping = node.mapping := by
  -- Induction on the tree: what a node shows does not depend on where it stands.
  induction node using induct with
  | parent node ih =>
    have hshown (key : Keyword) : ((node.relocate move).childrenOf key).map shown =
        (node.childrenOf key).map shown := by
      rw [childrenOf_relocate, List.map_map]
      refine List.map_congr_left fun child hchild => ?_
      have hmapping := ih child (mem_childrenOf.mp hchild).1
      simp only [Function.comp_apply, shown, signature_relocate, values_relocate, hmapping]
    rw [mapping_eq, mapping_eq, signature_relocate]
    refine congrArg Json.record (List.filterMap_congr fun slot _ => ?_)
    cases slot with
    | inl property => simp only [slotJson, values_relocate]
    | inr tag => simp only [slotJson, shownAt, hshown]

end Node

structure Symbols.SameNames (symbols other : Symbols) : Prop where
  listed : ∀ space, (symbols.byName space).map (·.name) = (other.byName space).map (·.name)
  lookup : ∀ name space,
    (symbols.lookup name space).map (·.name) = (other.lookup name space).map (·.name)
  resolves : ∀ name space, symbols.resolves name space = other.resolves name space

theorem Symbols.SameNames.of_relocate {symbols other : Symbols}
    (h : symbols.relocate nowhere = other.relocate nowhere) : symbols.SameNames other := by
  have hname (list : List Symbol) : (list.map (Symbol.relocate nowhere)).map (·.name) =
      list.map (·.name) := by
    rw [List.map_map]
    rfl
  refine ⟨fun space => ?_, fun name space => ?_, fun name space => ?_⟩
  · rw [← hname, ← hname (other.byName space), ← byName_relocate, ← byName_relocate, h]
  · rw [← hname, ← hname (other.lookup name space), ← lookup_relocate, ← lookup_relocate, h]
  · rw [← resolves_relocate nowhere, ← resolves_relocate nowhere other, h]

structure Corpus.SameUpToPlaces (corpus other : Corpus) : Prop where
  root : corpus.root.unplaced = other.root.unplaced
  json : corpus.json = other.json
  symbols : corpus.symbols.SameNames other.symbols

theorem Corpus.SameUpToPlaces.of_relocate {corpus other : Corpus}
    (h : corpus.relocate nowhere = other.relocate nowhere) : corpus.SameUpToPlaces other := by
  have hroot : corpus.root.relocate nowhere = other.root.relocate nowhere := congrArg Corpus.root h
  refine ⟨?_, ?_, .of_relocate (congrArg Corpus.symbols h)⟩
  · rw [← relocate_nowhere, ← relocate_nowhere, hroot]
  · change corpus.root.mapping = other.root.mapping
    rw [← mapping_relocate nowhere, hroot, mapping_relocate]

namespace Reading

/-- Both readings end well and in the same way, or both end with a fault that says the same. -/
def EndAlike : Except Fault Corpus → Except Fault Corpus → Prop
  | .ok corpus, .ok other => corpus.SameUpToPlaces other
  | .error fault, .error other =>
    fault.kind = other.kind ∧ fault.tag = other.tag ∧ fault.message = other.message
  | _, _ => False

/-- Both files can be read and then end alike, or neither can be read, for faults of one kind in scopes of
one tag. -/
def ReadAlike : EStateM.Result Fault Reading Unit → EStateM.Result Fault Reading Unit → Prop
  | .ok () reading, .ok () other => EndAlike reading.finish other.finish
  | .error fault _, .error other _ => fault.kind = other.kind ∧ fault.tag = other.tag
  | _, _ => False

theorem moved_file (name text : String) : Moved nowhere (relocate nowhere) (file name text standard)
    ((recite ((Text.content text).map (⟨"", 0⟩, ·)) >>= fun _ => closeAll) standard) := by
  have hwords : displace nowhere (spoken (name, text)) = (Text.content text).map (⟨"", 0⟩, ·) := by
    unfold displace spoken
    rw [← Text.map_numberedWords, List.map_map, List.map_map]
    rfl
  have hmoved := moved_recite nowhere rfl (spoken (name, text))
  rwa [hwords, ← file_eq_recite] at hmoved

theorem Sound.kind_of_finish_error {reading : Reading} (sound : reading.Sound)
    (hopened : reading.opened = []) {fault : Fault} (h : reading.finish = .error fault) :
    fault.kind = .crossReference := by
  rcases sound.finish_cases hopened with ⟨_, hok, -⟩ | ⟨_, herror, _, -, hfound⟩
  · cases hok.symm.trans h
  · cases herror.symm.trans h
    exact (referenceFault?_eq_some hfound).1

theorem Sound.endAlike {reading other : Reading} (sound : reading.Sound) (sound' : other.Sound)
    (hopened : reading.opened = []) (hopened' : other.opened = [])
    (h : reading.relocate nowhere = other.relocate nowhere) : EndAlike reading.finish other.finish := by
  have hends := finish_relocate nowhere sound
  rw [h] at hends
  rcases hends.agree (finish_relocate nowhere sound') with
    ⟨corpus, corpus', hfinish, hfinish', hsame⟩ | ⟨fault, fault', hfinish, hfinish', hagrees⟩
  · rw [hfinish, hfinish']
    exact .of_relocate hsame
  · -- Since the causes mention no place, they are the same, and not only up to places.
    have hcause := hagrees.1
    rw [Fault.Cause.unplaced_of_kind (sound.kind_of_finish_error hopened hfinish),
      Fault.Cause.unplaced_of_kind (sound'.kind_of_finish_error hopened' hfinish')] at hcause
    rw [hfinish, hfinish']
    exact ⟨hagrees.kind, hagrees.2, congrArg Fault.Cause.message hcause⟩

/-- Texts that say the same words outside of comments are read alike, whatever their files. -/
theorem layout_irrelevant {text text' : String} (h : Text.content text = Text.content text')
    (name name' : String) :
    ReadAlike (file name text standard) (file name' text' standard) := by
  have hmoved := moved_file name text
  rw [h] at hmoved
  rcases hmoved.agree (moved_file name' text') with
    ⟨_, reading, other, hread, hread', hsame⟩ | ⟨fault, _, fault', _, hread, hread', hagrees⟩
  · have sound := ((keeps_file name text).ok sound_standard.extends hread).toSound
    have sound' := ((keeps_file name' text').ok sound_standard.extends hread').toSound
    rw [hread, hread']
    exact sound.endAlike sound' (opened_of_file hread) (opened_of_file hread') hsame
  · rw [hread, hread']
    exact ⟨hagrees.kind, hagrees.2⟩

/-- One text has everything on a line of its own, the other has comments, blank lines and other line
endings. -/
theorem layout_irrelevant_two_layouts :
    let text := "@class\nA\n@field\nuint8[]\nx\n@inherits\nB\n@class\nB"
    let text' := "# two classes\r\n\r\n  @class A\t@field uint8[] x\r\n#\n @inherits B\r\n@class B\r\n\r\n"
    Text.content text = Text.content text' ∧
      ReadAlike (file "a.talk" text standard) (file "b.talk" text' standard) ∧
      ∃ reading corpus, file "a.talk" text standard = .ok () reading ∧ reading.finish = .ok corpus := by
  intro text text'
  have hcontent : Text.content text = Text.content text' := by decide +kernel
  have hends : (match file "a.talk" text standard with
      | .ok () reading => reading.finish.toOption.isSome
      | .error .. => false) = true := by
    decide +kernel
  refine ⟨hcontent, layout_irrelevant hcontent _ _, ?_⟩
  cases hread : file "a.talk" text standard with
  | error fault lost =>
    rw [hread] at hends
    cases hends
  | ok _ reading =>
    rw [hread] at hends
    dsimp only at hends
    cases hfinish : reading.finish with
    | error fault =>
      rw [hfinish] at hends
      cases hends
    | ok corpus => exact ⟨reading, corpus, rfl, hfinish⟩

end Reading
end TagSchema
