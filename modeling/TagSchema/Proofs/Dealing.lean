import TagSchema.Proofs.Draft
import TagSchema.Proofs.Quiet

/-! Dealing words to properties. Where the words suit the properties, assigning them does not fail, and
the node then has exactly the values that its words make. -/
namespace TagSchema
open Grammar Closing

@[simp] theorem Node.eta (node : Node) : (⟨node.tag, node.signature, node.place, node.words, node.values,
    node.children, node.phase⟩ : Node) = node := by
  cases node
  rfl

namespace Property

def Lenient (property : Property) : Prop :=
  property.arity ≠ .fixed 0 ∧
    (property.required = false → property.arity.isVariable → property.fewest = 0)

instance (property : Property) : Decidable property.Lenient :=
  inferInstanceAs (Decidable (_ ∧ (_ → _ → _)))

theorem read_eq_ok {property : Property} {words : List String} {value : Datum}
    (h : property.value? words = some value) : property.read words = .ok value :=
  read_eq_ok_iff.mpr (value?_eq_some_iff.mp h).2

theorem slice_eq_ok {property : Property} {words : List String} (tag : Keyword)
    (lenient : property.Lenient) (suits : property.Suits (words.take (property.share words.length))) :
    property.slice tag words =
      .ok (if words.take (property.share words.length) = [] then none
        else some (words.take (property.share words.length)),
        words.drop (property.share words.length)) := by
  obtain ⟨hempty, hsome⟩ := suits
  obtain ⟨hfixed, hrange⟩ := lenient
  unfold slice
  unfold share at *
  unfold fewest at hsome hrange
  cases harity : property.arity with
  | fixed wanted =>
    simp only [harity, ne_eq, Arity.fixed.injEq] at hempty hsome hfixed ⊢
    by_cases henough : wanted ≤ words.length
    · rw [if_pos henough, Nat.min_eq_left henough, if_neg]
      rw [List.take_eq_nil_iff]
      rintro (hzero | rfl)
      · exact hfixed hzero
      · exact hfixed (Nat.le_zero.mp henough)
    · rw [Nat.min_eq_right (by omega), List.take_length] at hempty hsome ⊢
      have hnone : words = [] := by
        by_contra hne
        exact henough (hsome hne).1
      subst hnone
      simp [hfixed, hempty rfl]
  | range least most =>
    simp only [harity, Arity.isVariable, forall_const] at hempty hsome hrange ⊢
    have hsame : (most.elim words.length fun most => Nat.min words.length most) =
        most.elim words.length (min words.length) := rfl
    have hbound : most.elim words.length (min words.length) ≤ words.length := by
      cases most with
      | none => exact Nat.le_refl _
      | some most => exact Nat.min_le_left _ _
    rw [hsame]
    generalize most.elim words.length (min words.length) = taken at *
    by_cases hnone : words.take taken = []
    · have hzero : taken = 0 := by
        rcases List.take_eq_nil_iff.mp hnone with hzero | rfl
        · exact hzero
        · simpa using hbound
      have hleast : least = 0 := hrange (hempty hnone)
      simp [hzero, hleast]
    · have hleast := (hsome hnone).1
      rw [List.length_take] at hleast
      have hpositive : taken ≠ 0 := by
        rintro rfl
        exact hnone rfl
      rw [if_neg (by omega), if_neg hpositive, if_neg hnone]

def taking (property : Property) (words : List String) (values : Keyword → Option Datum)
    (key : Keyword) : Option Datum :=
  (if property.key = key then property.value? words else none).or (values key)

theorem taking_nil (property : Property) (values : Keyword → Option Datum) :
    property.taking [] values = values := by
  funext key
  simp [taking, value?]

theorem set_eq_taking {property : Property} {words : List String} {value : Datum} {node : Node}
    (hvalue : property.value? words = some value)
    (hchildren : ∀ child ∈ node.children, child.tag ≠ property.key) :
    node.set property.key value = { node with values := property.taking words node.values } := by
  have hvalues : (fun key => if key = property.key then some value else node.values key) =
      property.taking words node.values := by
    funext key
    by_cases hkey : property.key = key
    · simp [taking, hkey, hvalue]
    · simp [taking, hkey, Ne.symm hkey]
  have hkept : node.children.filter (·.tag ≠ property.key) = node.children :=
    List.filter_eq_self.mpr (by simpa using hchildren)
  rw [Node.set, hvalues, hkept]

end Property

section dealing

variable {property : Property} {properties : List Property} {words : List String}

theorem dealt_cons (key : Keyword) :
    dealt (property :: properties) words key =
      if property.key = key then property.value? (words.take (property.share words.length))
      else dealt properties (words.drop (property.share words.length)) key := by
  rw [dealt, dealt, deal]
  by_cases hkey : property.key = key
  · simp [hkey]
  · simp [hkey]

theorem dealt_eq_none {key : Keyword} (h : ∀ property ∈ properties, property.key ≠ key) :
    dealt properties words key = none := by
  induction properties generalizing words with
  | nil => rfl
  | cons property properties ih =>
    rw [List.forall_mem_cons] at h
    rw [dealt_cons, if_neg h.1, ih h.2]

theorem dealt_or_taking (h : property.key ∉ properties.map (·.key)) (values : Keyword → Option Datum)
    (key : Keyword) :
    (dealt properties (words.drop (property.share words.length)) key).or
        (property.taking (words.take (property.share words.length)) values key) =
      (dealt (property :: properties) words key).or (values key) := by
  rw [dealt_cons, Property.taking]
  split
  · next hkey =>
    rw [dealt_eq_none, Option.none_or]
    rintro other hother rfl
    exact h (List.mem_map.mpr ⟨other, hother, hkey.symm⟩)
  · rw [Option.none_or]

end dealing

namespace Closing

section assign

variable {property : Property} {properties : List Property} {words taken rest : List String}
  {node : Node} {symbols : Symbols}

theorem assign_cons_of_none (hslice : property.slice node.tag words = .ok (none, rest)) :
    assign (property :: properties) words (node, symbols) = assign properties rest (node, symbols) := by
  rw [assign]
  change (attempt (property.slice node.tag words) >>= _ : Closing _) (node, symbols) = _
  rw [hslice]
  rfl

theorem assign_cons_of_some {value : Datum}
    (hslice : property.slice node.tag words = .ok (some taken, rest))
    (hread : property.read taken = .ok value) :
    assign (property :: properties) words (node, symbols) =
      assign properties rest (node.set property.key value, symbols) := by
  rw [assign]
  change (attempt (property.slice node.tag words) >>= _ : Closing _) (node, symbols) = _
  rw [hslice]
  change (attempt (property.read taken) >>= _ : Closing _) (node, symbols) = _
  rw [hread]
  rfl

theorem assign_cons (lenient : property.Lenient)
    (suits : property.Suits (words.take (property.share words.length)))
    (hchildren : ∀ child ∈ node.children, child.tag ≠ property.key) :
    assign (property :: properties) words (node, symbols) =
      assign properties (words.drop (property.share words.length))
        ({ node with values := property.taking (words.take (property.share words.length)) node.values },
          symbols) := by
  have hslice := Property.slice_eq_ok node.tag lenient suits
  by_cases hnone : words.take (property.share words.length) = []
  · rw [if_pos hnone] at hslice
    rw [assign_cons_of_none hslice, hnone, Property.taking_nil, Node.eta]
  · rw [if_neg hnone] at hslice
    obtain ⟨value, hvalue⟩ := Option.isSome_iff_exists.mp (suits.2 hnone).2
    rw [assign_cons_of_some hslice (Property.read_eq_ok hvalue), Property.set_eq_taking hvalue hchildren]

theorem assign_eq_ok {properties : List Property} {words : List String} {node : Node}
    (hnodup : (properties.map (·.key)).Nodup) (lenient : ∀ property ∈ properties, property.Lenient)
    (hsuits : ∀ dealt ∈ deal properties words, dealt.1.Suits dealt.2)
    (hchildren : ∀ property ∈ properties, ∀ child ∈ node.children, child.tag ≠ property.key)
    (symbols : Symbols) :
    assign properties words (node, symbols) =
      .ok (leftover properties words)
        ({ node with values := fun key => (dealt properties words key).or (node.values key) },
          symbols) := by
  induction properties generalizing words node with
  | nil =>
    have hnone (key : Keyword) : dealt [] words key = none := rfl
    simp only [assign, leftover, hnone, Option.none_or, Node.eta]
    rfl
  | cons property properties ih =>
    rw [List.map_cons, List.nodup_cons] at hnodup
    rw [List.forall_mem_cons] at lenient hchildren
    simp only [deal, List.forall_mem_cons] at hsuits
    rw [assign_cons lenient.1 hsuits.1 hchildren.1, ih hnodup.2 lenient.2 hsuits.2]
    · simp only [dealt_or_taking hnodup.1, leftover]
    · exact hchildren.2

end assign

end Closing
end TagSchema
