import TagSchema.Grammar.Standard

/-! What the declarations of the language have in common. Each fact is checked schema by schema, so
that later proofs need not look at a single declaration. -/
namespace TagSchema

def Namespace.delimiter : Namespace → Option Char
  | classes => some '.'
  | enumerations | glossaries | protocols => none

def Namespace.tag : Namespace → Keyword
  | classes => .classWord
  | enumerations => .enumeration
  | glossaries => .glossary
  | protocols => .protocol

def SchemaName.space? : SchemaName → Option Namespace
  | classSchema => some .classes
  | enumeration => some .enumerations
  | glossary => some .glossaries
  | protocol => some .protocols
  | _ => none

namespace Grammar.Standard

def signature (name : SchemaName) : Signature := (schema name).toSignature

@[simp] theorem name_signature (name : SchemaName) : (signature name).name = name :=
  name_schema name

theorem properties_nodup (name : SchemaName) :
    ((signature name).properties.map (·.key)).Nodup := by
  cases name <;> decide

theorem property_ne_tag (name : SchemaName) :
    ∀ property ∈ (signature name).properties, ∀ tag ∈ (signature name).tags,
      property.key ≠ tag.key := by
  cases name <;> decide

theorem tag?_of_mem (name : SchemaName) :
    ∀ tag ∈ (signature name).tags, (signature name).tag? tag.key = some tag := by
  cases name <;> decide

theorem mem_of_tag? {name : SchemaName} {key : Keyword} {tag : Tag}
    (h : (signature name).tag? key = some tag) : tag ∈ (signature name).tags ∧ tag.key = key :=
  ⟨List.mem_of_find?_eq_some h, by simpa using List.find?_some h⟩

/-- Nodes of these schemas are a single value. -/
def isScalar (name : SchemaName) : Bool := (signature name).scalar.isSome

/-- Only scalars are ever filled in for words or defaults. -/
theorem filled_scalar (name : SchemaName) :
    ∀ tag ∈ (signature name).tags, tag.implicit ∨ tag.default.isSome →
      (∃ scalar, tag.schema = some scalar ∧ isScalar scalar) ∧
        tag.allowed = none ∧ tag.unique = none := by
  cases name <;> decide

theorem allowed_text (name : SchemaName) :
    ∀ tag ∈ (signature name).tags, tag.allowed.isSome →
      tag.schema = some .string ∧ tag.unique = none := by
  cases name <;> decide

theorem registrations_scalar (name : SchemaName) (h : isScalar name) :
    (schema name).registrations = [] := by
  cases name <;> first | rfl | exact absurd h (by decide)

theorem required_opens (name : SchemaName) :
    ∀ tag ∈ (signature name).tags, tag.required → tag.closes = false := by
  cases name <;> decide

theorem endWord_closes (name : SchemaName) :
    ∀ tag ∈ (signature name).tags, tag.key = .endWord → tag.schema = none := by
  cases name <;> decide

theorem text_property {key : Keyword} (h : (signature .string).scalar = some key) :
    ∃ property ∈ (signature .string).properties, property.key = key ∧
      property.conversions = [] ∧ property.rules = [] := by
  cases h
  exact ⟨.range .value 1 none, List.mem_singleton_self _, rfl, rfl, rfl⟩

theorem tags_scalar (name : SchemaName) (h : isScalar name) : (signature name).tags = [] := by
  cases name <;> first | rfl | exact absurd h (by decide)

/-- Only terms and enumerations are completed. -/
theorem mem_completions {name : SchemaName} {completion : Completion}
    (h : completion ∈ (schema name).completions) :
    name = .term ∧ completion = standForItself ∨
      name = .enumeration ∧ completion = numberInOrder := by
  cases name <;> first
    | exact .inl ⟨rfl, List.mem_singleton.mp h⟩
    | exact .inr ⟨rfl, List.mem_singleton.mp h⟩
    | cases h

theorem term_properties :
    ∀ property ∈ (signature .term).properties, property.conversions = [] ∧ property.rules = [] := by
  intro property hproperty
  change property ∈ [name, .range .value 0 none] at hproperty
  rcases List.mem_cons.mp hproperty with rfl | hproperty
  · exact ⟨rfl, rfl⟩
  · cases List.mem_singleton.mp hproperty
    exact ⟨rfl, rfl⟩

theorem term_value : Property.range .value 0 none ∈ (signature .term).properties :=
  List.mem_cons_of_mem _ List.mem_cons_self

theorem constant_value :
    (Property.fixed .value 1).optional.withConversion .integer ∈
      (signature .constant).properties :=
  List.mem_cons_of_mem _ List.mem_cons_self

theorem constant_schema (name : SchemaName) :
    ∀ tag ∈ (signature name).tags, tag.key = .constant →
      tag.schema = some .constant ∧ tag.allowed = none ∧ tag.unique = some .name := by
  cases name <;> decide

theorem impliedChecks_subset (name : SchemaName) :
    (schema name).impliedChecks ⊆ (schema name).checks := by
  cases name <;> exact List.subset_append_left _ _

theorem requiredProperty_mem_checks {name : SchemaName} {property : Property}
    (h : property ∈ (signature name).properties) (hrequired : property.required) :
    .requiredProperty property.key ∈ (schema name).checks := by
  refine impliedChecks_subset name ?_
  simp only [Schema.impliedChecks, List.mem_append, List.mem_map, List.mem_filter]
  exact .inl ⟨property, ⟨h, hrequired⟩, rfl⟩

theorem singularTag_mem_checks {name : SchemaName} {tag : Tag} (h : tag ∈ (signature name).tags)
    (hopens : tag.closes = false) (hmulti : tag.multi = false) :
    .singularTag tag.key ∈ (schema name).checks := by
  refine impliedChecks_subset name ?_
  simp only [Schema.impliedChecks, List.mem_append, List.mem_flatMap, List.mem_filter]
  exact .inr ⟨tag, ⟨h, by simp [hopens]⟩, by simp [hmulti]⟩

theorem requiredTag_mem_checks {name : SchemaName} {tag : Tag} (h : tag ∈ (signature name).tags)
    (hrequired : tag.required) : .requiredTag tag.key ∈ (schema name).checks := by
  have hopens : tag.closes = false := required_opens name tag h hrequired
  refine impliedChecks_subset name ?_
  simp only [Schema.impliedChecks, List.mem_append, List.mem_flatMap, List.mem_filter]
  exact .inr ⟨tag, ⟨h, by simp [hopens]⟩, by simp [hrequired]⟩

/-- Every check is called for by a property or a tag, but for one of classes. -/
theorem mem_checks {name : SchemaName} {check : NodeCheck} (h : check ∈ (schema name).checks) :
    (∃ property ∈ (signature name).properties, property.required ∧
      check = .requiredProperty property.key) ∨
    (∃ tag ∈ (signature name).tags, tag.multi = false ∧ check = .singularTag tag.key) ∨
    (∃ tag ∈ (signature name).tags, tag.required ∧ check = .requiredTag tag.key) ∨
    name = .classSchema ∧ check = .predicate "class cannot inherit from itself" hasOtherParent := by
  have hchecks : check ∈ (schema name).impliedChecks ∨
      name = .classSchema ∧ check = .predicate "class cannot inherit from itself" hasOtherParent := by
    by_cases hname : name = .classSchema
    · subst hname
      have hall : (schema .classSchema).checks = (schema .classSchema).impliedChecks ++
          [.predicate "class cannot inherit from itself" hasOtherParent] := rfl
      rw [hall, List.mem_append, List.mem_singleton] at h
      exact h.imp_right fun hlast => ⟨rfl, hlast⟩
    · have hall : (schema name).checks = (schema name).impliedChecks := by
        cases name <;> first | rfl | exact absurd rfl hname
      exact .inl (hall ▸ h)
  rcases hchecks with himplied | hlast
  · simp only [Schema.impliedChecks, List.mem_append, List.mem_map, List.mem_filter, List.mem_flatMap]
      at himplied
    rcases himplied with ⟨property, ⟨hmem, hrequired⟩, rfl⟩ | ⟨tag, ⟨hmem, -⟩, hsingular | hrequired⟩
    · exact .inl ⟨property, hmem, hrequired, rfl⟩
    · split at hsingular
      · cases hsingular
      · next hmulti =>
        exact .inr (.inl ⟨tag, hmem, by simpa using hmulti, List.mem_singleton.mp hsingular⟩)
    · split at hrequired
      · next hwanted => exact .inr (.inr (.inl ⟨tag, hmem, hwanted, List.mem_singleton.mp hrequired⟩))
      · cases hrequired
  · exact .inr (.inr (.inr hlast))

theorem predicate_mem_checks {name : SchemaName} {complaint : String} {holds : Node → Bool}
    (h : .predicate complaint holds ∈ (schema name).checks) :
    name = .classSchema ∧ holds = hasOtherParent := by
  have hcheck := mem_checks h
  simp only [reduceCtorEq, and_false, exists_false, false_or, NodeCheck.predicate.injEq] at hcheck
  exact ⟨hcheck.1, hcheck.2.2⟩

theorem registrations_schema (name : SchemaName) :
    (schema name).registrations =
      name.space?.toList.map fun space => ⟨.name, space, space.delimiter⟩ := by
  cases name <;> rfl

theorem name_property (name : SchemaName) (h : name.space?.isSome) :
    Standard.name ∈ (signature name).properties := by
  cases name <;> first | exact List.mem_cons_self | exact absurd h (by decide)

theorem registers_base (name : SchemaName) :
    ∀ tag ∈ (signature name).tags, ∀ child ∈ tag.schema, child.space?.isSome → name = .base := by
  cases name <;> decide

/-- The base declares nothing but what registers, one tag for each namespace. -/
theorem base_registers : ∀ tag ∈ (signature .base).tags,
    (tag.schema.bind SchemaName.space?).map Namespace.tag = some tag.key ∧
      tag.allowed = none ∧ tag.unique = none := by
  decide

theorem schema_ne_base (name : SchemaName) :
    ∀ tag ∈ (signature name).tags, tag.schema ≠ some .base := by
  cases name <;> decide

end Grammar.Standard
end TagSchema
