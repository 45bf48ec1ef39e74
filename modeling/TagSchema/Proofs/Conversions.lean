import TagSchema.Conversion
import TagSchema.Proofs.Literals
import TagSchema.Proofs.TypeChains

/-! What conversions make of a text, told without running them, and that running them makes just that. -/
namespace TagSchema

namespace Vocabulary

variable {words : Vocabulary} {literal lead : String}

def FirstFor (words : Vocabulary) (literal : String) (group : Synonyms) : Prop :=
  ∃ before behind, words.groups = before ++ group :: behind ∧ literal ∈ group.members ∧
    ∀ earlier ∈ before, literal ∉ earlier.members

theorem canonical?_eq_some :
    words.canonical? literal = some lead ↔ ∃ group, words.FirstFor literal group ∧ group.lead = lead := by
  simp only [canonical?, Option.map_eq_some_iff, List.find?_eq_some_iff_append, FirstFor]
  refine exists_congr fun group => and_congr_left fun _ => ?_
  constructor
  · rintro ⟨hmem, before, behind, hgroups, hearlier⟩
    exact ⟨before, behind, hgroups, by simpa using hmem, by simpa using hearlier⟩
  · rintro ⟨before, behind, hgroups, hmem, hearlier⟩
    exact ⟨by simpa using hmem, before, behind, hgroups, by simpa using hearlier⟩

theorem canonical?_eq_none :
    words.canonical? literal = none ↔ ∀ group ∈ words.groups, literal ∉ group.members := by
  simp [canonical?]

end Vocabulary

namespace Literal

def Affirms (text : String) (truth : Bool) : Prop :=
  Text.lowercase text ∈ if truth then ["true", "yes", "on", "1"] else ["false", "no", "off", "0"]

theorem boolean?_eq_some_iff {text : String} {truth : Bool} :
    boolean? text = some truth ↔ Affirms text truth := by
  unfold boolean? Affirms
  dsimp only
  generalize Text.lowercase text = word
  -- No word stands for both.
  have hapart : ∀ word ∈ ["false", "no", "off", "0"], word ∉ ["true", "yes", "on", "1"] := by decide
  by_cases htrue : word ∈ ["true", "yes", "on", "1"]
  · rw [if_pos (List.contains_iff_mem.mpr htrue)]
    cases truth with
    | true => exact iff_of_true rfl htrue
    | false => exact iff_of_false (by simp) fun hfalse => hapart word hfalse htrue
  · rw [if_neg (mt List.contains_iff_mem.mp htrue)]
    by_cases hfalse : word ∈ ["false", "no", "off", "0"]
    · rw [if_pos (List.contains_iff_mem.mpr hfalse)]
      cases truth with
      | true => exact iff_of_false (by simp) htrue
      | false => exact iff_of_true rfl hfalse
    · rw [if_neg (mt List.contains_iff_mem.mp hfalse)]
      cases truth with
      | true => exact iff_of_false (by simp) htrue
      | false => exact iff_of_false (by simp) hfalse

end Literal

namespace Conversion

/-- What a conversion makes of a text. Only numbers, truth values and types can fail to be made. -/
inductive Turns : Conversion → String → Datum → Prop where
  | lowercase (text : String) : Turns .lowercase text (.text (Text.lowercase text))
  | synonym {words : Vocabulary} {text : String} {group : Synonyms} (hgroup : words.FirstFor text group) :
    Turns (.canonical words) text (.text group.lead)
  | unlisted {words : Vocabulary} {text : String} (hnone : ∀ group ∈ words.groups, text ∉ group.members) :
    Turns (.canonical words) text (.text text)
  | integer {text : String} {number : Int64} (hnumber : Literal.Denotes text.toList number.toInt) :
    Turns .integer text (.integer number)
  | boolean {text : String} {truth : Bool} (htruth : Literal.Affirms text truth) :
    Turns .boolean text (.boolean truth)
  | typeChain {chain : List String} (hchain : Literal.IsChain chain) :
    Turns .typeChain (String.join chain) (.list chain)

/-- The conversions, one after the other, make one value of another. Each starts from a text. -/
inductive Converts : List Conversion → Datum → Datum → Prop where
  | done (value : Datum) : Converts [] value value
  | step {conversion : Conversion} {conversions : List Conversion} {text : String} {between value : Datum}
    (hturns : conversion.Turns text between) (hrest : Converts conversions between value) :
    Converts (conversion :: conversions) (.text text) value

variable {conversion : Conversion} {conversions : List Conversion} {text : String} {value made : Datum}

theorem elim_eq_ok_iff {read : Option Datum} {failure : Failure} :
    read.elim (.error failure) .ok = (.ok value : Except Failure Datum) ↔ read = some value := by
  cases read <;> simp

theorem turns_of_applyText (h : conversion.applyText text = .ok value) : conversion.Turns text value := by
  cases conversion with
  | lowercase =>
    cases h
    exact .lowercase text
  | canonical words =>
    cases h
    cases hcanonical : words.canonical? text with
    | none => exact .unlisted (Vocabulary.canonical?_eq_none.mp hcanonical)
    | some lead =>
      obtain ⟨group, hgroup, rfl⟩ := Vocabulary.canonical?_eq_some.mp hcanonical
      exact .synonym hgroup
  | integer =>
    obtain ⟨number, hnumber, rfl⟩ := Option.map_eq_some_iff.mp (elim_eq_ok_iff.mp h)
    exact .integer (Literal.integer?_eq_some_iff.mp hnumber)
  | boolean =>
    obtain ⟨truth, htruth, rfl⟩ := Option.map_eq_some_iff.mp (elim_eq_ok_iff.mp h)
    exact .boolean (Literal.boolean?_eq_some_iff.mp htruth)
  | typeChain =>
    obtain ⟨chain, hread, rfl⟩ := Option.map_eq_some_iff.mp (elim_eq_ok_iff.mp h)
    obtain ⟨hchain, rfl⟩ := Literal.typeChain?_eq_some_iff.mp hread
    exact .typeChain hchain

theorem Turns.applyText (h : conversion.Turns text value) : conversion.applyText text = .ok value := by
  cases h with
  | lowercase => rfl
  | synonym hgroup => rw [Conversion.applyText, Vocabulary.canonical?_eq_some.mpr ⟨_, hgroup, rfl⟩]; rfl
  | unlisted hnone => rw [Conversion.applyText, Vocabulary.canonical?_eq_none.mpr hnone]; rfl
  | integer hnumber => rw [Conversion.applyText, Literal.integer?_eq_some_iff.mpr hnumber]; rfl
  | boolean htruth => rw [Conversion.applyText, Literal.boolean?_eq_some_iff.mpr htruth]; rfl
  | typeChain hchain => rw [Conversion.applyText, Literal.typeChain?_eq_some_iff.mpr ⟨hchain, rfl⟩]; rfl

theorem apply_eq_ok_iff :
    conversion.apply value = .ok made ↔ ∃ text, value = .text text ∧ conversion.Turns text made := by
  constructor
  · intro h
    cases value with
    | text text => exact ⟨text, rfl, turns_of_applyText h⟩
    | _ => cases h
  · rintro ⟨text, rfl, hturns⟩
    exact hturns.applyText

theorem applyAll_eq_ok_iff : applyAll conversions value = .ok made ↔ Converts conversions value made := by
  induction conversions generalizing value with
  | nil =>
    constructor
    · intro h
      cases h
      exact .done made
    · intro h
      cases h
      rfl
  | cons conversion conversions ih =>
    rw [applyAll, List.foldlM_cons]
    constructor
    · intro h
      cases happly : conversion.apply value with
      | error failure =>
        rw [happly] at h
        cases h
      | ok between =>
        rw [happly] at h
        obtain ⟨text, rfl, hturns⟩ := apply_eq_ok_iff.mp happly
        exact .step hturns (ih.mp h)
    · rintro (_ | ⟨hturns, hrest⟩)
      rw [apply_eq_ok_iff.mpr ⟨_, rfl, hturns⟩]
      exact ih.mpr hrest

end Conversion
end TagSchema
