import TagSchema.Proofs.Declared
import TagSchema.Proofs.Finishing
import TagSchema.Proofs.Typing

/-! References resolve just if what they name is declared under the root: by its whole name or, for a
class, by a suffix of its name that starts behind a dot. -/
namespace TagSchema
open Grammar

theorem Grammar.Standard.references_schema (name : SchemaName) :
    (signature name).references =
      match name with
      | .classSchema => [⟨.inherits, .fixed .classes, []⟩]
      | .field => [⟨.type, .fixed .classes, builtInTypes⟩]
      | .reference => [⟨.name, .computed spaceOfType, []⟩]
      | .method => [⟨.request, .fixed .classes, ["none"]⟩, ⟨.response, .fixed .classes, ["none"]⟩]
      | _ => [] := by
  cases name <;> rfl

theorem Grammar.Standard.spaceOfType_of_mem {values : Keyword → Option Datum} {kind : String}
    {space : Namespace} (hkind : (kind, space) ∈ referenceKinds)
    (htype : values .type = some (.text kind)) : spaceOfType values = some space := by
  simp only [referenceKinds, List.mem_cons, Prod.mk.injEq, List.not_mem_nil, or_false] at hkind
  unfold spaceOfType
  rw [htype]
  rcases hkind with ⟨rfl, rfl⟩ | ⟨rfl, rfl⟩ | ⟨rfl, rfl⟩
  · rfl
  · rfl
  · rfl

namespace Node

/-- Something under the root answers to the name in the namespace. -/
def Declares (root : Node) (space : Namespace) (name : String) : Prop :=
  ∃ node ∈ root.childrenOf space.tag, ∃ full, node.text? .name = some full ∧
    (full = name ∨ space = .classes ∧ ∃ container : String, full = container ++ "." ++ name)

/-- All that the node refers to is built in or declared. -/
structure Resolved (root node : Node) : Prop where
  inherits : node.signature.name = .classSchema → ∀ child ∈ node.childrenOf .inherits,
    ∃ name, child.text? .value = some name ∧ root.Declares .classes name
  type : node.signature.name = .field → ∃ base containers,
    node.values .type = some (.list (base :: containers)) ∧
      (base ∈ Standard.builtInTypes ∨ root.Declares .classes base)
  message : node.signature.name = .method → ∀ key ∈ [.request, .response],
    ∀ child ∈ node.childrenOf key, ∃ name, child.text? .value = some name ∧
      (name = "none" ∨ root.Declares .classes name)
  see : node.signature.name = .reference → ∃ kind space name, (kind, space) ∈ referenceKinds ∧
    node.text? .type = some kind ∧ node.text? .name = some name ∧ root.Declares space name

variable {node : Node}

theorem forall_symbolsAt_text (conforms : node.Every Conforms) (tag : Tag)
    (htag : tag ∈ node.signature.tags) (hschema : tag.schema = some .string) (P : String → Prop) :
    (∀ name ∈ node.symbolsAt tag.key, P name) ↔
      ∀ child ∈ node.childrenOf tag.key, ∃ name, child.text? .value = some name ∧ P name := by
  have sound := conforms.self.toSound
  have htext : ∀ child ∈ node.childrenOf tag.key, ∃ name, child.text? .value = some name ∧
      child.scalar?.bind (·.symbol?) = some name := by
    intro child hchild
    obtain ⟨name, hname, hsignature⟩ := sound.schema_of_mem_childrenOf htag hchild
    cases hschema.symm.trans hname
    have conforms := (conforms.child (mem_childrenOf.mp hchild).1).self
    obtain ⟨content, hcontent⟩ := conforms.text_value (by rw [hsignature, Standard.name_signature])
    have hscalar : child.signature.scalar = some .value := by
      rw [hsignature]
      rfl
    exact ⟨content, by simp [text?, hcontent, Datum.text?],
      by simp [scalar?, hscalar, hcontent, Datum.symbol?]⟩
  unfold symbolsAt
  rw [sound.values_tag htag]
  dsimp only
  constructor
  · intro hall child hchild
    obtain ⟨name, hname, hsymbol⟩ := htext child hchild
    exact ⟨name, hname, hall name (List.mem_filterMap.mpr ⟨child, hchild, hsymbol⟩)⟩
  · intro hall name hname
    obtain ⟨child, hchild, hsymbol⟩ := List.mem_filterMap.mp hname
    obtain ⟨found, hfound, hsame⟩ := htext child hchild
    obtain ⟨given, hgiven, hholds⟩ := hall child hchild
    rw [hsymbol] at hsame
    rw [hfound] at hgiven
    rwa [Option.some.inj hsame, Option.some.inj hgiven]

section schemas

variable {root : Node}

theorem resolved_of_class (conforms : node.Every Conforms)
    (hname : node.signature.name = .classSchema) :
    Resolved root node ↔ ∀ name ∈ node.symbolsAt .inherits, root.Declares .classes name := by
  have htag : Standard.text .inherits ∈ node.signature.tags := by
    rw [conforms.self.standard, hname]
    decide
  refine Iff.trans ?_ (forall_symbolsAt_text conforms _ htag rfl _).symm
  refine ⟨fun resolved => resolved.inherits hname, fun h => ⟨fun _ => h, ?_, ?_, ?_⟩⟩
  all_goals simp [hname]

theorem resolved_of_method (conforms : node.Every Conforms) (hname : node.signature.name = .method) :
    Resolved root node ↔ ∀ key ∈ [.request, .response], ∀ name ∈ node.symbolsAt key,
      name = "none" ∨ root.Declares .classes name := by
  have htext (key : Keyword) (hkey : key ∈ [.request, .response]) :=
    forall_symbolsAt_text conforms (Standard.text key)
      (by rw [conforms.self.standard, hname]; revert key; decide) rfl
      fun name => name = "none" ∨ root.Declares .classes name
  refine Iff.trans ?_ (forall₂_congr htext).symm
  refine ⟨fun resolved => resolved.message hname, fun h => ⟨?_, ?_, fun _ => h, ?_⟩⟩
  all_goals simp [hname]

theorem resolved_of_field (conforms : node.Conforms) (hname : node.signature.name = .field) :
    Resolved root node ↔ ∀ name ∈ node.symbolsAt .type,
      name ∈ Standard.builtInTypes ∨ root.Declares .classes name := by
  -- The containers of a type are not names, so its base is all there is to resolve.
  obtain ⟨base, containers, hvalue⟩ := conforms.field_type hname
  have hsymbols : node.symbolsAt .type = [base] := by
    simp [symbolsAt, hvalue, Datum.symbol?]
  rw [hsymbols, List.forall_mem_singleton]
  constructor
  · intro resolved
    obtain ⟨base', containers', hvalue', hresolved⟩ := resolved.type hname
    rw [hvalue] at hvalue'
    cases hvalue'
    exact hresolved
  · intro h
    refine ⟨?_, fun _ => ⟨base, containers, hvalue, h⟩, ?_, ?_⟩
    all_goals simp [hname]

theorem resolved_of_reference (conforms : node.Conforms) (hname : node.signature.name = .reference) :
    Resolved root node ↔ ∀ space ∈ Standard.spaceOfType node.values,
      ∀ name ∈ node.symbolsAt .name, root.Declares space name := by
  obtain ⟨kind, space, hkind, htype⟩ := conforms.reference_type hname
  obtain ⟨content, hcontent⟩ := conforms.reference_name hname
  have hsymbols : node.symbolsAt .name = [content] := by
    simp [symbolsAt, hcontent, Datum.symbol?]
  rw [hsymbols]
  simp only [List.forall_mem_singleton]
  constructor
  · intro resolved found hfound
    obtain ⟨kind', space', name', hkind', htype', hname', hdeclared⟩ := resolved.see hname
    rw [text?, htype] at htype'
    rw [text?, hcontent] at hname'
    cases htype'
    cases hname'
    cases hfound.symm.trans (Standard.spaceOfType_of_mem hkind' htype)
    exact hdeclared
  · intro h
    have hdeclared := h space (Standard.spaceOfType_of_mem hkind htype)
    refine ⟨?_, ?_, ?_, fun _ => ⟨kind, space, content, hkind, ?_, ?_, hdeclared⟩⟩
    · simp [hname]
    · simp [hname]
    · simp [hname]
    · simp [text?, htype, Datum.text?]
    · simp [text?, hcontent, Datum.text?]

end schemas

end Node

namespace Reading
open Node

variable {reading : Reading}

theorem Sound.resolves_iff (sound : reading.Sound) {space : Namespace} {name : String} :
    reading.symbols.resolves name space ↔ reading.root.node.Declares space name := by
  rw [sound.symbols.resolves_iff]
  have hanswers (full : String) : Answers space.delimiter name full ↔
      full = name ∨ space = .classes ∧ ∃ container : String, full = container ++ "." ++ name := by
    unfold Answers
    cases space with
    | classes => simp [Namespace.delimiter]; rfl
    | enumerations => simp [Namespace.delimiter]
    | glossaries => simp [Namespace.delimiter]
    | protocols => simp [Namespace.delimiter]
  constructor
  · rintro ⟨symbol, hsymbol, hname⟩
    obtain ⟨node, hnode, hstands⟩ := List.mem_filterMap.mp hsymbol
    obtain ⟨full, hfull, rfl⟩ := Option.map_eq_some_iff.mp hstands
    exact ⟨node, hnode, full, hfull, (hanswers full).mp hname⟩
  · rintro ⟨node, hnode, full, hfull, hname⟩
    refine ⟨⟨full, node.place⟩, List.mem_filterMap.mpr ⟨node, hnode, ?_⟩, (hanswers full).mpr hname⟩
    simp [symbol?, hfull]

theorem Sound.conforms (sound : reading.Sound) : reading.root.node.Every Conforms := by
  refine every_iff.mpr ⟨?_, fun child hchild => ?_⟩
  · exact sound.root.settled.self.conforms.of_phase
  · exact (sound.root.gathering.settled child hchild).imp fun _ settled => settled.conforms

theorem Sound.resolved_iff (sound : reading.Sound) {node : Node} (conforms : node.Every Conforms) :
    node.referenceFault? reading.symbols = none ↔ Resolved reading.root.node node := by
  -- One case for each schema that refers to anything.
  have hstandard := conforms.self.standard
  rw [referenceFault?_eq_none, hstandard, Standard.references_schema]
  simp only [sound.resolves_iff]
  cases hname : node.signature.name with
  | classSchema =>
    rw [resolved_of_class conforms hname]
    simp [Target.space?]
  | field =>
    rw [resolved_of_field conforms.self hname]
    simp [Target.space?]
  | method =>
    rw [resolved_of_method conforms hname]
    simp [Target.space?]
  | reference =>
    rw [resolved_of_reference conforms.self hname]
    simp [Target.space?]
  | _ =>
    refine iff_of_true (List.forall_mem_nil _) ⟨?_, ?_, ?_, ?_⟩
    all_goals simp [hname]

/-- Between files, a reading can be ended just if all references resolve. Otherwise the fault is that
of a reference, and it lies where a reference does not resolve. -/
theorem finish_iff_resolved (h : Reachable reading) (hopened : reading.opened = []) :
    ((∃ corpus, reading.finish = .ok corpus) ↔
      reading.root.node.Every (Resolved reading.root.node)) ∧
    ∀ fault, reading.finish = .error fault → fault.kind = .crossReference ∧
      ∃ node : Node, node.Occurs reading.root.node ∧ ¬ Resolved reading.root.node node ∧
        fault.tag = some node.tag ∧ fault.place = node.place := by
  have sound := h.sound
  have hresolved {node : Node} (hnode : node.Occurs reading.root.node) :=
    sound.resolved_iff (sound.conforms.every node hnode)
  refine ⟨?_, fun fault hfault => ?_⟩
  · rw [sound.finish_ok_iff hopened]
    exact forall₂_congr fun node hnode => hresolved hnode
  · rcases sound.finish_cases hopened with ⟨corpus, hfinish, -⟩ | ⟨found, hfinish, inner, hinner, hfound⟩
    · rw [hfinish] at hfault
      cases hfault
    · rw [hfinish] at hfault
      cases hfault
      obtain ⟨hkind, htag, hplace⟩ := referenceFault?_eq_some hfound
      refine ⟨hkind, inner, hinner, ?_, htag, hplace⟩
      rw [← hresolved hinner, hfound]
      exact Option.some_ne_none fault

/-- The file can be read, but there is no class for the type. -/
theorem finish_of_missing_type :
    let reading := after (file "t.talk" "@class a.B\n@field C[] x\n@class D\n@inherits B\n") standard
    reading.opened = [] ∧
      ((∃ corpus, reading.finish = .ok corpus) ↔
        reading.root.node.Every (Resolved reading.root.node)) ∧
      ∀ fault, reading.finish = .error fault → fault.kind = .crossReference ∧
        ∃ node : Node, node.Occurs reading.root.node ∧ ¬ Resolved reading.root.node node ∧
          fault.tag = some node.tag ∧ fault.place = node.place := by
  intro reading
  have hopened : reading.opened = [] := by
    apply List.isEmpty_iff.mp
    decide +kernel
  exact ⟨hopened, finish_iff_resolved (.file _ _ .standard) hopened⟩

end Reading
end TagSchema
