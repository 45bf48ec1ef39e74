import TagSchema.Proofs.Finishing
import TagSchema.Proofs.Typing

/-! A corpus that was read to its end conforms to the language, node by node, however many files
before it could not be read. -/
namespace TagSchema
open Grammar

theorem Grammar.Standard.unique_required (name : SchemaName) :
    ∀ tag ∈ (signature name).tags, ∀ key ∈ tag.unique, ∀ child ∈ tag.schema,
      ∃ property ∈ (signature child).properties, property.key = key ∧ property.required := by
  cases name <;> decide

namespace Node

/-- The kinds and the forms of values that the language asks for. -/
structure Typed (node : Node) : Prop where
  fieldType : node.signature.name = .field →
    ∃ base containers, node.values .type = some (.list (base :: containers))
  fieldName : node.signature.name = .field →
    ∃ content, node.values .name = some (.text content) ∧ content.startsWith "__" = false
  constant : node.signature.name = .constant →
    ∀ value, node.values .value = some value → ∃ number, value = .integer number
  boolean : node.signature.name = .boolean →
    ∃ truth, node.values .value = some (.boolean truth)
  reference : node.signature.name = .reference →
    ∃ kind ∈ ["class", "enumeration", "glossary"], node.values .type = some (.text kind)

theorem Conforms.typed {node : Node} (conforms : node.Conforms) : node.Typed where
  fieldType := conforms.field_type
  fieldName := conforms.field_name
  constant := conforms.constant_value
  boolean := conforms.boolean_value
  reference := by
    intro hname
    obtain ⟨kind, space, hkind, hvalue⟩ := conforms.reference_type hname
    exact ⟨kind, List.mem_map_of_mem (f := Prod.fst) hkind, hvalue⟩

/-- Siblings have values where they must differ, and differ there. -/
def Differs (node : Node) : Prop :=
  ∀ tag ∈ node.signature.tags, ∀ key ∈ tag.unique,
    (∀ child ∈ node.childrenOf tag.key, (child.values key).isSome) ∧
      (node.childrenOf tag.key).Pairwise fun child sibling => child.values key ≠ sibling.values key

theorem Final.differs {node : Node} (final : node.Every Final) : node.Differs := by
  have sound := final.self.conforms.toSound
  intro tag htag key hkey
  have hvalue : ∀ child ∈ node.childrenOf tag.key, (child.values key).isSome := by
    intro child hchild
    obtain ⟨name, hname, hsignature⟩ := sound.schema_of_mem_childrenOf htag hchild
    rw [sound.standard] at htag
    obtain ⟨property, hproperty, rfl, hrequired⟩ :=
      Standard.unique_required _ tag htag key hkey name hname
    rw [← hsignature] at hproperty
    have conforms := (final.child (mem_childrenOf.mp hchild).1).self.conforms
    exact conforms.required property hproperty hrequired
  refine ⟨hvalue, ?_⟩
  have hdistinct := sound.distinct tag htag key hkey
  rw [List.Nodup, List.pairwise_filterMap] at hdistinct
  refine hdistinct.imp_of_mem fun {child sibling} hchild _ hdiffer hequal => ?_
  obtain ⟨value, hheld⟩ := Option.isSome_iff_exists.mp (hvalue child hchild)
  exact hdiffer value hheld value (hequal ▸ hheld) rfl

end Node

namespace Reading
open Node

theorem Sound.closed_of_finish {reading : Reading} {corpus : Corpus} (sound : reading.Sound)
    (hfinish : reading.finish = .ok corpus) :
    ∃ after : Reading, after.Sound ∧ after.opened = [] ∧ after.finish = .ok corpus := by
  cases hclose : closeAll reading with
  | error fault after =>
    unfold finish at hfinish
    rw [hclose] at hfinish
    cases hfinish
  | ok _ after =>
    refine ⟨after, (keeps_closeAll.ok sound.extends hclose).toSound, opened_of_closeAll hclose, ?_⟩
    rw [← finish_of_closeAll hclose, hfinish]

theorem Sound.final {reading : Reading} {corpus : Corpus} (sound : reading.Sound)
    (hfinish : reading.finish = .ok corpus) : corpus.root.Every Final := by
  obtain ⟨after, hafter, hopened, hsame⟩ := sound.closed_of_finish hfinish
  rcases hafter.finish_cases hopened with ⟨found, hfound, hfinal, -⟩ | ⟨fault, hfault, -⟩
  · cases hfound.symm.trans hsame
    exact hfinal
  · cases hfault.symm.trans hsame

theorem Sound.root_of_finish {reading : Reading} {corpus : Corpus} (sound : reading.Sound)
    (hfinish : reading.finish = .ok corpus) :
    corpus.root.tag = .base ∧ corpus.root.signature = Standard.signature .base := by
  obtain ⟨after, hafter, hopened, hsame⟩ := sound.closed_of_finish hfinish
  rw [hafter.finish_eq hopened] at hsame
  rcases finalizes after.symbols _ hafter.root.settled with
    ⟨root, hrun, hlike, -⟩ | ⟨fault, lost, hrun, -⟩
  · rw [hrun] at hsame
    cases hsame
    exact ⟨hlike.tag.trans hafter.root.tag, hlike.signature.trans hafter.root.signature⟩
  · rw [hrun] at hsame
    cases hsame

/-- Every node of a corpus conforms to the schema of its tag: it has all that the schema requires,
and nothing that the schema does not declare or that its checks refuse. -/
theorem corpus_conforms {reading : Reading} {corpus : Corpus} (h : Reachable reading)
    (hfinish : reading.finish = .ok corpus) :
    corpus.root.Every fun node =>
      node.Conforms ∧ node.phase = .finalized ∧ node.Typed ∧ node.Differs := by
  have hfinal := h.sound.final hfinish
  intro node hnode
  have final := hfinal.every node hnode
  have conforms := final.self.conforms
  exact ⟨conforms, final.self.finalized, conforms.typed, Final.differs final⟩

theorem corpus_conforms_after_failure :
    let reading :=
      after (file "b.talk" "@enumeration E\n@constant one 1\n@constant two\n")
        (after (file "a.talk" "@class A\n@field uint8 x\n@see enum E\n@class B more\n@bogus\n")
          standard)
    ∃ corpus, reading.finish = .ok corpus ∧ corpus.root.Every fun node =>
      node.Conforms ∧ node.phase = .finalized ∧ node.Typed ∧ node.Differs := by
  intro reading
  have hsome : reading.finish.toOption.isSome := by
    decide +kernel
  cases hfinish : reading.finish with
  | error fault =>
    rw [hfinish] at hsome
    cases hsome
  | ok corpus =>
    have hreachable : Reachable reading := .file _ _ (.file _ _ .standard)
    exact ⟨corpus, rfl, corpus_conforms hreachable hfinish⟩

end Reading
end TagSchema
