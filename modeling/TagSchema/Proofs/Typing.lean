import TagSchema.Proofs.Scopes
import TagSchema.Proofs.TypeChains

/-! The kinds of the values that conforming nodes hold, property by property. -/
namespace TagSchema
open Grammar

theorem Property.Admits.converted {property : Property} {value : Datum}
    (admits : property.Admits value) (before : List Conversion) (last : Conversion)
    (h : property.conversions = before ++ [last]) : ∃ text, last.applyText text = .ok value := by
  obtain ⟨text, hproduced⟩ := admits.produced
  rw [h, Conversion.applyAll, List.foldlM_append] at hproduced
  cases hbefore : before.foldlM (fun value conversion => conversion.apply value)
      (Datum.text text) with
  | error failure => simp [hbefore, bind, Except.bind] at hproduced
  | ok between =>
    rw [hbefore] at hproduced
    change (last.apply between >>= fun made => [].foldlM _ made) = .ok value at hproduced
    have hlast : last.apply between = .ok value := by
      cases hrun : last.apply between with
      | error failure => simp [hrun, bind, Except.bind] at hproduced
      | ok made => simpa [hrun, bind, Except.bind, pure, Except.pure] using hproduced
    cases between with
    | text content => exact ⟨content, hlast⟩
    | integer number => cases hlast
    | boolean truth => cases hlast
    | list items => cases hlast

theorem Conversion.eq_of_elim {read : Option α} {make : α → Datum} {failure : Conversion.Failure}
    {value : Datum} (h : (read.map make).elim (Except.error failure) Except.ok = Except.ok value) :
    ∃ made, read = some made ∧ value = make made := by
  cases read with
  | none => cases h
  | some made => exact ⟨made, rfl, (Except.ok.inj h).symm⟩

def referenceKinds : List (String × Namespace) :=
  [("class", .classes), ("enumeration", .enumerations), ("glossary", .glossaries)]

theorem Vocabulary.lead_of_contains {words : Vocabulary} {text : String}
    (h : words.contains ((words.canonical? text).getD text)) :
    ∃ group ∈ words.groups, (words.canonical? text).getD text = group.lead := by
  cases hcanonical : words.canonical? text with
  | none => simp [contains, hcanonical] at h
  | some lead =>
    obtain ⟨group, hgroup, hlead⟩ := Option.map_eq_some_iff.mp hcanonical
    exact ⟨group, List.mem_of_find?_eq_some hgroup, hlead.symm⟩

namespace Node.Conforms

variable {node : Node}

theorem admitted (conforms : node.Conforms) {property : Property} {name : SchemaName}
    (hname : node.signature.name = name) (hproperty : property ∈ (Standard.signature name).properties)
    (hrequired : property.required) :
    ∃ value, node.values property.key = some value ∧ property.Admits value := by
  rw [← hname, ← conforms.standard] at hproperty
  obtain ⟨value, hvalue⟩ :=
    Option.isSome_iff_exists.mp (conforms.required property hproperty hrequired)
  exact ⟨value, hvalue, conforms.admits hproperty hvalue⟩

theorem text_value (conforms : node.Conforms) (hname : node.signature.name = .string) :
    ∃ content, node.values .value = some (.text content) := by
  obtain ⟨value, hvalue, admits⟩ := conforms.admitted hname List.mem_cons_self rfl
  obtain ⟨content, rfl⟩ := admits.text rfl
  exact ⟨content, hvalue⟩

theorem boolean_value (conforms : node.Conforms) (hname : node.signature.name = .boolean) :
    ∃ truth, node.values .value = some (.boolean truth) := by
  obtain ⟨value, hvalue, admits⟩ := conforms.admitted hname List.mem_cons_self rfl
  obtain ⟨text, hconverted⟩ := admits.converted [.lowercase] .boolean rfl
  obtain ⟨truth, -, rfl⟩ := Conversion.eq_of_elim hconverted
  exact ⟨truth, hvalue⟩

theorem field_type (conforms : node.Conforms) (hname : node.signature.name = .field) :
    ∃ base containers, node.values .type = some (.list (base :: containers)) := by
  obtain ⟨value, hvalue, admits⟩ := conforms.admitted hname List.mem_cons_self rfl
  obtain ⟨text, hconverted⟩ := admits.converted [] .typeChain rfl
  obtain ⟨chain, hread, rfl⟩ := Conversion.eq_of_elim hconverted
  obtain ⟨hchain, -⟩ := Literal.typeChain?_eq_some_iff.mp hread
  cases chain with
  | nil => cases hchain
  | cons base containers => exact ⟨base, containers, hvalue⟩

theorem field_name (conforms : node.Conforms) (hname : node.signature.name = .field) :
    ∃ content, node.values .name = some (.text content) ∧ content.startsWith "__" = false := by
  obtain ⟨value, hvalue, admits⟩ :=
    conforms.admitted hname (List.mem_cons_of_mem _ List.mem_cons_self) rfl
  obtain ⟨content, rfl⟩ := admits.text rfl
  have haccepts := admits.accepted _ List.mem_cons_self
  refine ⟨content, hvalue, ?_⟩
  simpa [ValueCheck.accepts, Datum.text?] using haccepts

theorem constant_value (conforms : node.Conforms) (hname : node.signature.name = .constant) :
    ∀ value, node.values .value = some value → ∃ number, value = .integer number := by
  intro value hvalue
  have hproperty := Standard.constant_value
  rw [← hname, ← conforms.standard] at hproperty
  obtain ⟨text, hconverted⟩ :=
    (conforms.admits hproperty hvalue).converted [] .integer rfl
  obtain ⟨number, -, hmade⟩ := Conversion.eq_of_elim hconverted
  exact ⟨number, hmade⟩

theorem reference_type (conforms : node.Conforms) (hname : node.signature.name = .reference) :
    ∃ kind space, (kind, space) ∈ referenceKinds ∧ node.values .type = some (.text kind) := by
  obtain ⟨value, hvalue, admits⟩ := conforms.admitted hname List.mem_cons_self rfl
  obtain ⟨text, hconverted⟩ := admits.converted [.lowercase] _ rfl
  simp only [Conversion.applyText, Except.ok.injEq] at hconverted
  subst hconverted
  have haccepts := admits.accepted _ List.mem_cons_self
  obtain ⟨group, hgroup, hlead⟩ := Vocabulary.lead_of_contains haccepts
  have hkinds : ∀ group ∈ (Standard.literals [["class"], ["enumeration", "enum"], ["glossary"]]).groups,
      ∃ space ∈ Namespace.all, (group.lead, space) ∈ referenceKinds := by
    decide
  obtain ⟨space, -, hspace⟩ := hkinds group hgroup
  exact ⟨group.lead, space, hspace, by rw [← hlead]; exact hvalue⟩

theorem reference_name (conforms : node.Conforms) (hname : node.signature.name = .reference) :
    ∃ content, node.values .name = some (.text content) := by
  obtain ⟨value, hvalue, admits⟩ :=
    conforms.admitted hname (List.mem_cons_of_mem _ List.mem_cons_self) rfl
  obtain ⟨content, rfl⟩ := admits.text rfl
  exact ⟨content, hvalue⟩

end Node.Conforms
end TagSchema
