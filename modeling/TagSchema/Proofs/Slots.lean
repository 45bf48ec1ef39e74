import Mathlib.Data.List.Nodup
import TagSchema.Node.Closing
import TagSchema.Proofs.Conversions
import TagSchema.Schema.Declaration

/-! What the properties of a schema make of a list of words, told of the words alone: each property in turn
takes the next words, stays unset or falls short. -/
namespace TagSchema

namespace Property

/-- The property takes words from the front of those that remain, and leaves a rest. -/
inductive Takes (property : Property) : List String → List String → List String → Prop where
  | fixed (taken rest : List String) (harity : property.arity = .fixed taken.length) :
    Takes property (taken ++ rest) taken rest
  | all (words : List String) {least : Nat} {most : Option Nat} (harity : property.arity = .range least most)
    (hwords : words ≠ []) (hleast : least ≤ words.length)
    (hmost : ∀ bound, most = some bound → words.length ≤ bound) : Takes property words words []
  | most (taken rest : List String) {least : Nat} (harity : property.arity = .range least (some taken.length))
    (htaken : taken ≠ []) (hleast : least ≤ taken.length) : Takes property (taken ++ rest) taken rest

inductive Leaves (property : Property) : List String → Prop where
  | omitted {wanted : Nat} (harity : property.arity = .fixed wanted) (hwanted : wanted ≠ 0)
    (hoptional : property.required = false) : Leaves property []
  | nothing {words : List String} {most : Option Nat} (harity : property.arity = .range 0 most)
    (hnone : words = [] ∨ most = some 0) : Leaves property words

inductive Short (property : Property) : List String → Prop where
  | fixed {words : List String} {wanted : Nat} (harity : property.arity = .fixed wanted)
    (hfew : words.length < wanted) (hneeded : words ≠ [] ∨ property.required) : Short property words
  | range {words : List String} {least : Nat} {most : Option Nat}
    (harity : property.arity = .range least most)
    (hfew : words.length < least ∨ ∃ bound, most = some bound ∧ bound < least) : Short property words

/-- The words, joined by single spaces, convert to a value that all rules accept. -/
structure Makes (property : Property) (words : List String) (value : Datum) : Prop where
  converted : Conversion.Converts property.conversions (.text (" ".intercalate words)) value
  accepted : ∀ rule ∈ property.rules, rule.check.accepts value

variable {property : Property} {words taken rest : List String} {value : Datum}

theorem Takes.append (h : property.Takes words taken rest) : taken ++ rest = words := by
  cases h with
  | fixed => rfl
  | all => exact List.append_nil _
  | most => rfl

theorem slice_of_takes (tag : Keyword) (h : property.Takes words taken rest) :
    property.slice tag words = .ok (some taken, rest) := by
  unfold slice
  cases h with
  | fixed taken rest harity => simp [harity]
  | @all _ least most harity hwords hleast hmost =>
    have hall : most.elim words.length (fun bound => Nat.min words.length bound) = words.length := by
      cases most with
      | none => rfl
      | some bound => exact Nat.min_eq_left (hmost bound rfl)
    have hpositive : words.length ≠ 0 := by simpa using hwords
    simp only [harity, hall]
    rw [if_neg (by omega), if_neg hpositive, List.take_length, List.drop_length]
  | @most _ _ least harity htaken hleast =>
    have hbound : (some taken.length).elim (taken ++ rest).length
        (fun bound => Nat.min (taken ++ rest).length bound) = taken.length := Nat.min_eq_right (by simp)
    have hpositive : taken.length ≠ 0 := by simpa using htaken
    simp only [harity, hbound]
    rw [if_neg (by omega), if_neg hpositive, List.take_left, List.drop_left]

theorem slice_of_leaves (tag : Keyword) (h : property.Leaves words) :
    property.slice tag words = .ok (none, words) := by
  unfold slice
  cases h with
  | omitted harity hwanted hoptional => simp [harity, hwanted, hoptional]
  | @nothing _ most harity hnone =>
    have hzero : most.elim words.length (fun bound => Nat.min words.length bound) = 0 := by
      rcases hnone with rfl | rfl
      · cases most with
        | none => rfl
        | some bound => exact Nat.zero_min bound
      · exact Nat.min_zero _
    simp [harity, hzero]

theorem slice_of_short (tag : Keyword) (h : property.Short words) :
    ∃ cause, property.slice tag words = .error cause := by
  unfold slice
  cases h with
  | @fixed wanted harity hfew hneeded =>
    have hneeded : ¬((words.isEmpty && !property.required) = true) := by
      rcases hneeded with hwords | hrequired
      · simp [hwords]
      · simp [hrequired]
    simp only [harity]
    rw [if_neg (by omega), if_neg hneeded]
    exact ⟨_, rfl⟩
  | @range least most harity hfew =>
    have hless : most.elim words.length (fun bound => Nat.min words.length bound) < least := by
      cases most with
      | none =>
        rcases hfew with hfew | ⟨bound, hbound, -⟩
        · exact hfew
        · cases hbound
      | some bound =>
        rcases hfew with hfew | ⟨_, ⟨⟩, hbound⟩
        · exact Nat.lt_of_le_of_lt (Nat.min_le_left _ _) hfew
        · exact Nat.lt_of_le_of_lt (Nat.min_le_right _ _) hbound
    simp only [harity]
    rw [if_pos hless]
    exact ⟨_, rfl⟩

theorem takes_or_leaves_or_short (property : Property) (words : List String) :
    (∃ taken rest, property.Takes words taken rest) ∨ property.Leaves words ∨ property.Short words := by
  cases harity : property.arity with
  | fixed wanted =>
    by_cases henough : wanted ≤ words.length
    · have hlength : (words.take wanted).length = wanted := List.length_take_of_le henough
      have htakes := Takes.fixed (words.take wanted) (words.drop wanted) (harity.trans (by rw [hlength]))
      rw [List.take_append_drop] at htakes
      exact .inl ⟨_, _, htakes⟩
    · by_cases hneeded : words ≠ [] ∨ property.required
      · exact .inr (.inr (.fixed harity (by omega) hneeded))
      · rw [not_or, not_not, Bool.not_eq_true] at hneeded
        obtain ⟨rfl, hoptional⟩ := hneeded
        exact .inr (.inl (.omitted harity (by rintro rfl; exact henough (Nat.zero_le _)) hoptional))
  | range least most =>
    by_cases hfew : words.length < least ∨ ∃ bound, most = some bound ∧ bound < least
    · exact .inr (.inr (.range harity hfew))
    · rw [not_or, Nat.not_lt] at hfew
      obtain ⟨hleast, hbound⟩ := hfew
      by_cases hnone : words = [] ∨ most = some 0
      · have hzero : least = 0 := by
          rcases hnone with rfl | rfl
          · exact Nat.le_zero.mp hleast
          · by_contra hpositive
            exact hbound ⟨0, rfl, Nat.pos_of_ne_zero hpositive⟩
        exact .inr (.inl (.nothing (hzero ▸ harity) hnone))
      · rw [not_or] at hnone
        by_cases hmost : ∀ bound, most = some bound → words.length ≤ bound
        · exact .inl ⟨_, _, .all words harity hnone.1 hleast hmost⟩
        · simp only [not_forall, Nat.not_le] at hmost
          obtain ⟨bound, rfl, hmore⟩ := hmost
          have hlength : (words.take bound).length = bound := List.length_take_of_le (Nat.le_of_lt hmore)
          have htaken : words.take bound ≠ [] := by
            rw [← List.length_pos_iff, hlength]
            exact Nat.pos_of_ne_zero fun hzero => hnone.2 (by rw [hzero])
          have hle : least ≤ bound := Nat.not_lt.mp fun hless => hbound ⟨bound, rfl, hless⟩
          have htakes := Takes.most (words.take bound) (words.drop bound) (harity.trans (by rw [hlength]))
            htaken (by rwa [hlength])
          rw [List.take_append_drop] at htakes
          exact .inl ⟨_, _, htakes⟩

theorem read_eq_ok_iff : property.read words = .ok value ↔ property.Makes words value := by
  unfold read
  refine ⟨fun h => ?_, fun h => ?_⟩
  · cases hconversion : Conversion.applyAll property.conversions (.text (" ".intercalate words)) with
    | error failure =>
      simp only [hconversion, Except.mapError, bind, Except.bind] at h
      cases h
    | ok converted =>
      simp only [hconversion, Except.mapError, bind, Except.bind] at h
      split at h
      · cases h
      · next hrules =>
        cases h
        exact ⟨Conversion.applyAll_eq_ok_iff.mp hconversion, by simpa using hrules⟩
  · have hrules : property.rules.find? (!·.check.accepts value) = none := by simpa using h.accepted
    simp only [Conversion.applyAll_eq_ok_iff.mpr h.converted, Except.mapError, bind, Except.bind, hrules]

end Property

structure Slot where
  property : Property
  words : List String
  value : Datum

/-- The properties in turn fill slots from words, and leave a rest. -/
inductive Slices : List Property → List String → List Slot → List String → Prop where
  | done {words : List String} : Slices [] words [] words
  | taken {property : Property} {properties : List Property} {words taken between rest : List String}
    {value : Datum} {slots : List Slot} (htakes : property.Takes words taken between)
    (hmakes : property.Makes taken value) (hslices : Slices properties between slots rest) :
    Slices (property :: properties) words (⟨property, taken, value⟩ :: slots) rest
  | unset {property : Property} {properties : List Property} {words rest : List String} {slots : List Slot}
    (hleaves : property.Leaves words) (hslices : Slices properties words slots rest) :
    Slices (property :: properties) words slots rest

namespace Slices

variable {properties : List Property} {words rest : List String} {slots : List Slot}

theorem append (h : Slices properties words slots rest) : slots.flatMap (·.words) ++ rest = words := by
  induction h with
  | done => rfl
  | taken htakes hmakes hslices ih => rw [List.flatMap_cons, List.append_assoc, ih, htakes.append]
  | unset hleaves hslices ih => exact ih

theorem makes (h : Slices properties words slots rest) :
    ∀ slot ∈ slots, slot.property.Makes slot.words slot.value := by
  induction h with
  | done => exact fun _ hslot => nomatch hslot
  | taken htakes hmakes hslices ih => exact List.forall_mem_cons.mpr ⟨hmakes, ih⟩
  | unset hleaves hslices ih => exact ih

theorem sublist (h : Slices properties words slots rest) : (slots.map (·.property)).Sublist properties := by
  induction h with
  | done => exact .slnil
  | taken htakes hmakes hslices ih => exact ih.cons_cons _
  | unset hleaves hslices ih => exact ih.cons _

theorem key_not_mem (h : Slices properties words slots rest) {key : Keyword}
    (hkey : ∀ property ∈ properties, property.key ≠ key) : key ∉ slots.map (·.property.key) := by
  intro hmem
  obtain ⟨slot, hslot, hsame⟩ := List.mem_map.mp hmem
  exact hkey _ (h.sublist.subset (List.mem_map.mpr ⟨slot, hslot, rfl⟩)) hsame

end Slices

namespace Schema

def keys (schema : Schema) : List Keyword := schema.properties.map (·.key) ++ schema.tags.map (·.key)

theorem uses_of_mem_keys {schema : Schema} {key : Keyword} (h : key ∈ schema.keys) :
    schema.uses key = true := by
  rw [Signature.uses, Bool.or_eq_true, Signature.property?, Signature.tag?, List.find?_isSome,
    List.find?_isSome]
  rcases List.mem_append.mp h with h | h
  · obtain ⟨property, hproperty, hkey⟩ := List.mem_map.mp h
    exact .inl ⟨property, hproperty, by simpa using hkey⟩
  · obtain ⟨tag, htag, hkey⟩ := List.mem_map.mp h
    exact .inr ⟨tag, htag, by simpa using hkey⟩

theorem map_key_addRule (key : Keyword) (rule : ValueRule) (properties : List Property) :
    (addRule key rule properties).map (·.key) = properties.map (·.key) := by
  induction properties with
  | nil => rfl
  | cons property properties ih =>
    rw [addRule]
    split
    · rfl
    · rw [List.map_cons, List.map_cons, ih]

theorem keys_nodup_of_declare {schema after : Schema} {declaration : Declaration}
    (h : schema.declare declaration = .ok after) (hnodup : schema.keys.Nodup) : after.keys.Nodup := by
  have hfresh {key : Keyword} (hunused : ¬schema.uses key = true) : key ∉ schema.keys :=
    fun hkey => hunused (uses_of_mem_keys hkey)
  cases declaration with
  | property property =>
    rw [declare] at h
    split at h
    · cases h
    · next hunused =>
      cases h
      have hkeys : List.Perm (property.key :: schema.keys)
          (({ schema with properties := schema.properties ++ [property] } : Schema).keys) := by
        simp [keys, List.perm_middle.symm]
      exact hkeys.nodup_iff.mp (List.nodup_cons.mpr ⟨hfresh hunused, hnodup⟩)
  | tag tag =>
    rw [declare] at h
    split at h
    · cases h
    · next hunused =>
      cases h
      have hkeys : List.Perm (tag.key :: schema.keys)
          (({ schema with tags := schema.tags ++ [tag] } : Schema).keys) := by
        simp only [keys, List.map_append, ← List.append_assoc]
        exact (List.perm_append_singleton _ _).symm
      exact hkeys.nodup_iff.mp (List.nodup_cons.mpr ⟨hfresh hunused, hnodup⟩)
  | rule key complaint holds =>
    rw [declare] at h
    split at h
    · cases h
    · cases h
      rwa [keys, map_key_addRule]
  | checkNode | complete | register | refer | scalar =>
    cases h
    exact hnodup

theorem property_ne_tag (schema : Schema) (hnodup : schema.keys.Nodup) {property : Property}
    (hproperty : property ∈ schema.properties) {tag : Tag} (htag : tag ∈ schema.tags) :
    property.key ≠ tag.key :=
  (List.nodup_append.mp hnodup).2.2 _ (List.mem_map.mpr ⟨property, hproperty, rfl⟩) _
    (List.mem_map.mpr ⟨tag, htag, rfl⟩)

theorem tag?_of_mem (schema : Schema) (hnodup : schema.keys.Nodup) {tag : Tag} (htag : tag ∈ schema.tags) :
    schema.tag? tag.key = some tag := by
  have hkeys : (schema.tags.map (·.key)).Nodup := (List.nodup_append.mp hnodup).2.1
  obtain ⟨found, hfound⟩ : ∃ found, schema.tag? tag.key = some found :=
    Option.isSome_iff_exists.mp (List.find?_isSome.mpr ⟨tag, htag, by simp⟩)
  have hkey : found.key = tag.key := by simpa using List.find?_some hfound
  rw [hfound, List.inj_on_of_nodup_map hkeys (List.mem_of_find?_eq_some hfound) htag hkey]

theorem keys_nodup {name : SchemaName} {declarations : List Declaration} {schema : Schema}
    (h : ofDeclarations name declarations = .ok schema) : schema.keys.Nodup := by
  have hfold : ∀ (declarations : List Declaration) (start schema : Schema), start.keys.Nodup →
      declarations.foldlM declare start = .ok schema → schema.keys.Nodup := by
    intro declarations
    induction declarations with
    | nil =>
      rintro start schema hstart h
      cases h
      exact hstart
    | cons declaration declarations ih =>
      intro start schema hstart h
      rw [List.foldlM_cons] at h
      cases hdeclare : start.declare declaration with
      | error defect =>
        rw [hdeclare] at h
        cases h
      | ok after =>
        rw [hdeclare] at h
        exact ih after schema (keys_nodup_of_declare hdeclare hstart) h
  unfold ofDeclarations at h
  cases hdeclared : declarations.foldlM declare { name } with
  | error defect =>
    simp only [hdeclared] at h
    cases h
  | ok declared =>
    simp only [hdeclared, bind, Except.bind] at h
    split at h
    · cases h
    · cases h
      have hempty : ({ name } : Schema).keys.Nodup := .nil
      exact hfold declarations _ declared hempty hdeclared

end Schema

namespace Node

def filling (slots : List Slot) (node : Node) : Node :=
  slots.foldl (fun node slot => node.set slot.property.key slot.value) node

variable {slots : List Slot}

@[simp] theorem tag_filling (slots : List Slot) (node : Node) : (node.filling slots).tag = node.tag := by
  induction slots generalizing node with
  | nil => rfl
  | cons slot slots ih => exact ih _

@[simp] theorem place_filling (slots : List Slot) (node : Node) :
    (node.filling slots).place = node.place := by
  induction slots generalizing node with
  | nil => rfl
  | cons slot slots ih => exact ih _

@[simp] theorem signature_filling (slots : List Slot) (node : Node) :
    (node.filling slots).signature = node.signature := by
  induction slots generalizing node with
  | nil => rfl
  | cons slot slots ih => exact ih _

@[simp] theorem fault_filling (slots : List Slot) (node : Node) (cause : Fault.Cause) :
    (node.filling slots).fault cause = node.fault cause := by
  simp [fault]

theorem filling_eq (slots : List Slot) (node : Node) :
    node.filling slots =
      { node with values := (node.filling slots).values, children := (node.filling slots).children } := by
  induction slots generalizing node with
  | nil =>
    cases node
    rfl
  | cons slot slots ih => exact ih (node.set slot.property.key slot.value)

theorem holding_filling {key : Keyword} (h : key ∉ slots.map (·.property.key)) (node : Node) :
    (node.filling slots).values key = node.values key ∧
      (node.filling slots).childrenOf key = node.childrenOf key := by
  induction slots generalizing node with
  | nil => exact ⟨rfl, rfl⟩
  | cons slot slots ih =>
    rw [List.map_cons, List.mem_cons, not_or] at h
    obtain ⟨hvalues, hchildren⟩ := ih h.2 (node.set slot.property.key slot.value)
    rw [values_set, if_neg h.1] at hvalues
    rw [childrenOf_set, if_neg h.1] at hchildren
    exact ⟨hvalues, hchildren⟩

theorem values_filling (hnodup : (slots.map (·.property.key)).Nodup) (node : Node) :
    ∀ slot ∈ slots, (node.filling slots).values slot.property.key = some slot.value := by
  induction slots generalizing node with
  | nil => exact fun _ hslot => nomatch hslot
  | cons slot slots ih =>
    rw [List.map_cons, List.nodup_cons] at hnodup
    refine List.forall_mem_cons.mpr ⟨?_, ih hnodup.2 _⟩
    change ((node.set slot.property.key slot.value).filling slots).values _ = _
    rw [(holding_filling hnodup.1 _).1, values_set, if_pos rfl]

end Node

end TagSchema
