import TagSchema.Datum
import TagSchema.Literal
import Mathlib.Data.List.Forall2
import Mathlib.Data.Nat.Digits.Defs
import Mathlib.Tactic.Ring

/-! Reading and spelling numbers. A literal is a sign, a mark of its base and a numeral, and what it
denotes is said by a grammar of its own. Reading gives the number that the grammar gives, if it is
one of the signed 64-bit numbers, and each of these has a literal in both bases. -/
namespace TagSchema.Literal

/-- A digit stands at the place of its value, in either letter case. -/
def HasValue (c : Char) (value : Nat) : Prop :=
  "0123456789abcdef".toList[value]? = some c ∨ "0123456789ABCDEF".toList[value]? = some c

def IsDigit (base : Nat) (c : Char) (value : Nat) : Prop :=
  HasValue c value ∧ value < base

def IsNumeral (base : Nat) (digits : List Char) (number : Nat) : Prop :=
  digits ≠ [] ∧ ∃ values, List.Forall₂ (IsDigit base) digits values ∧
    Nat.ofDigits base values.reverse = number

inductive IsMagnitude : List Char → Nat → Prop where
  | decimal {digits : List Char} {number : Nat} (numeral : IsNumeral 10 digits number) :
      IsMagnitude digits number
  | hexadecimal {mark : Char} {digits : List Char} {number : Nat} (hmark : mark = 'x' ∨ mark = 'X')
      (numeral : IsNumeral 16 digits number) : IsMagnitude ('0' :: mark :: digits) number

/-- The integers that literals denote, in whatever range. -/
inductive Denotes : List Char → Int → Prop where
  | unsigned {body : List Char} {number : Nat} (magnitude : IsMagnitude body number) :
      Denotes body number
  | plus {body : List Char} {number : Nat} (magnitude : IsMagnitude body number) :
      Denotes ('+' :: body) number
  | minus {body : List Char} {number : Nat} (magnitude : IsMagnitude body number) :
      Denotes ('-' :: body) (-number)

variable {base n value : Nat} {k : Int} {c : Char} {digits body : List Char}

theorem getElem?_of_range {first last : Char} (start : Nat)
    (hat : ∀ i ≤ last.toNat - first.toNat, digits[i + start]? = some (Char.ofNat (first.toNat + i)))
    (hrange : (first ≤ c && c ≤ last) = true) :
    digits[c.toNat - first.toNat + start]? = some c := by
  simp only [Bool.and_eq_true, decide_eq_true_eq] at hrange
  have hlow : first.toNat ≤ c.toNat := UInt32.le_iff_toNat_le.mp hrange.1
  have hhigh : c.toNat ≤ last.toNat := UInt32.le_iff_toNat_le.mp hrange.2
  rw [hat _ (by omega), Nat.add_sub_cancel' hlow, Char.ofNat_toNat]

theorem digitValue?_eq_some_iff : Text.digitValue? c = some value ↔ HasValue c value := by
  constructor
  · intro h
    unfold Text.digitValue? at h
    split at h
    · next hrange =>
      cases h
      exact .inl (getElem?_of_range 0 (by decide) hrange)
    · split at h
      · next hrange =>
        cases h
        exact .inl (getElem?_of_range 10 (by decide) hrange)
      · split at h
        · next hrange =>
          cases h
          exact .inr (getElem?_of_range 10 (by decide) hrange)
        · cases h
  · -- Every place of the two rows is looked up.
    have hlower : ∀ place ∈ "0123456789abcdef".toList.zipIdx,
        Text.digitValue? place.1 = some place.2 := by decide
    have hupper : ∀ place ∈ "0123456789ABCDEF".toList.zipIdx,
        Text.digitValue? place.1 = some place.2 := by decide
    rintro (h | h)
    · exact hlower (c, value) (List.mk_mem_zipIdx_iff_getElem?.mpr h)
    · exact hupper (c, value) (List.mk_mem_zipIdx_iff_getElem?.mpr h)

theorem digitsFrom?_cons_eq_some_iff {read : Nat} {rest : List Char} :
    digitsFrom? base read (c :: rest) = some n ↔
      ∃ value, IsDigit base c value ∧ digitsFrom? base (read * base + value) rest = some n := by
  simp only [digitsFrom?, IsDigit, ← digitValue?_eq_some_iff, bind, Option.bind_eq_some_iff]
  apply exists_congr
  intro value
  split
  · next hlt => simp [hlt]
  · next hlt => simp [hlt]

theorem digitsFrom?_eq_some_iff {read : Nat} :
    digitsFrom? base read digits = some n ↔
      ∃ values, List.Forall₂ (IsDigit base) digits values ∧
        read * base ^ values.length + Nat.ofDigits base values.reverse = n := by
  induction digits generalizing read with
  | nil => simp [digitsFrom?]
  | cons c rest ih =>
    -- The digit joins what is read, which the remaining digits move up by one place each.
    have hplaces (value : Nat) (values : List Nat) :
        read * base ^ (value :: values).length + Nat.ofDigits base (value :: values).reverse =
          (read * base + value) * base ^ values.length + Nat.ofDigits base values.reverse := by
      rw [List.reverse_cons, Nat.ofDigits_append, Nat.ofDigits_singleton, List.length_reverse,
        List.length_cons]
      ring
    rw [digitsFrom?_cons_eq_some_iff]
    constructor
    · rintro ⟨value, hvalue, hrest⟩
      obtain ⟨values, hvalues, hn⟩ := ih.mp hrest
      exact ⟨value :: values, .cons hvalue hvalues, (hplaces value values).trans hn⟩
    · rintro ⟨_, hdigits, hn⟩
      obtain ⟨value, values, hvalue, hvalues, rfl⟩ := List.forall₂_cons_left_iff.mp hdigits
      exact ⟨value, hvalue, ih.mpr ⟨values, hvalues, (hplaces value values).symm.trans hn⟩⟩

theorem digits?_eq_some_iff : digits? base digits = some n ↔ IsNumeral base digits n := by
  cases digits with
  | nil => simp [digits?, IsNumeral]
  | cons c rest => simp [digits?, IsNumeral, digitsFrom?_eq_some_iff]

/-! A sign or a mark is no digit, so a literal can be taken apart in one way only. -/

theorem IsNumeral.not_mem (numeral : IsNumeral base digits n) (hc : Text.digitValue? c = none) :
    c ∉ digits := by
  obtain ⟨-, values, hvalues, -⟩ := numeral
  induction hvalues with
  | nil => exact List.not_mem_nil
  | cons hvalue _ ih =>
    rw [List.mem_cons, not_or]
    refine ⟨?_, ih⟩
    rintro rfl
    rw [digitValue?_eq_some_iff.mpr hvalue.1] at hc
    cases hc

theorem IsMagnitude.ne_cons {rest : List Char} (magnitude : IsMagnitude body n)
    (hc : Text.digitValue? c = none) : body ≠ c :: rest := by
  rintro rfl
  cases magnitude with
  | decimal numeral => exact numeral.not_mem hc List.mem_cons_self
  | hexadecimal => cases hc

theorem magnitude?_eq_some_iff : magnitude? body = some n ↔ IsMagnitude body n := by
  constructor
  · intro h
    unfold magnitude? at h
    split at h
    · exact .hexadecimal (.inl rfl) (digits?_eq_some_iff.mp h)
    · exact .hexadecimal (.inr rfl) (digits?_eq_some_iff.mp h)
    · exact .decimal (digits?_eq_some_iff.mp h)
  · intro h
    cases h with
    | decimal numeral =>
      -- The letter of a mark is no decimal digit.
      unfold magnitude?
      split
      · exact absurd (by simp) (numeral.not_mem (c := 'x') (by decide))
      · exact absurd (by simp) (numeral.not_mem (c := 'X') (by decide))
      · exact digits?_eq_some_iff.mpr numeral
    | hexadecimal hmark numeral =>
      rcases hmark with rfl | rfl
      · exact digits?_eq_some_iff.mpr numeral
      · exact digits?_eq_some_iff.mpr numeral

theorem map_magnitude_eq_some_iff {read : Option Nat} {sign : Int → Int} :
    (Option.map sign do let n ← read; pure (n : Int)) = some k ↔
      ∃ n : Nat, read = some n ∧ sign n = k := by
  cases read <;> simp

theorem signed?_eq_some_iff {text : List Char} : signed? text = some k ↔ Denotes text k := by
  constructor
  · intro h
    unfold signed? at h
    split at h
    all_goals
      obtain ⟨n, hread, rfl⟩ := map_magnitude_eq_some_iff.mp h
      have magnitude := magnitude?_eq_some_iff.mp hread
    · exact .minus magnitude
    · exact .plus magnitude
    · exact .unsigned magnitude
  · intro h
    cases h with
    | @unsigned body n magnitude =>
      have hread := magnitude?_eq_some_iff.mpr magnitude
      unfold signed?
      split
      · exact absurd rfl (magnitude.ne_cons (by decide))
      · exact absurd rfl (magnitude.ne_cons (by decide))
      · exact map_magnitude_eq_some_iff.mpr ⟨n, hread, rfl⟩
    | @plus body n magnitude =>
      exact map_magnitude_eq_some_iff.mpr ⟨n, magnitude?_eq_some_iff.mpr magnitude, rfl⟩
    | @minus body n magnitude =>
      exact map_magnitude_eq_some_iff.mpr ⟨n, magnitude?_eq_some_iff.mpr magnitude, rfl⟩

theorem toInt64?_eq_some_iff {n : Int64} : toInt64? k = some n ↔ n.toInt = k := by
  unfold toInt64?
  split
  · next hrange =>
    have hlow : -2 ^ 63 ≤ k := hrange.1
    have hhigh : k < 2 ^ 63 := Int.lt_add_one_of_le hrange.2
    rw [Option.some.injEq, ← Int64.toInt_inj, Int64.toInt_ofInt_of_le hlow hhigh, eq_comm]
  · next hrange =>
    refine iff_of_false (by simp) ?_
    rintro rfl
    exact hrange ⟨n.minValue_le_toInt, n.toInt_le⟩

theorem integer?_eq_some_iff {text : String} {n : Int64} :
    integer? text = some n ↔ Denotes text.toList n.toInt := by
  simp [integer?, Option.bind_eq_some_iff, signed?_eq_some_iff, toInt64?_eq_some_iff]

/-! Each number has a numeral in every base up to sixteen, with any number of zeros in front. -/

theorem isDigit_digitChar (hbase : base ≤ 16) (hvalue : value < base) :
    IsDigit base value.digitChar value := by
  have hplace : ∀ i < 16, "0123456789abcdef".toList[i]? = some i.digitChar := by decide
  exact ⟨.inl (hplace value (Nat.lt_of_lt_of_le hvalue hbase)), hvalue⟩

theorem isNumeral_singleton (hc : IsDigit base c value) : IsNumeral base [c] value :=
  ⟨List.cons_ne_nil c [], [value], .cons hc .nil, Nat.ofDigits_singleton⟩

theorem IsNumeral.concat (numeral : IsNumeral base digits n) (hc : IsDigit base c value) :
    IsNumeral base (digits ++ [c]) (n * base + value) := by
  obtain ⟨-, values, hvalues, rfl⟩ := numeral
  refine ⟨by simp, values ++ [value], List.rel_append hvalues (.cons hc .nil), ?_⟩
  rw [List.reverse_concat, Nat.ofDigits_cons]
  ring

theorem IsNumeral.zero_cons (numeral : IsNumeral base digits n) (hbase : 0 < base) :
    IsNumeral base ('0' :: digits) n := by
  obtain ⟨-, values, hvalues, rfl⟩ := numeral
  refine ⟨List.cons_ne_nil _ _, 0 :: values, .cons ⟨.inl (by decide), hbase⟩ hvalues, ?_⟩
  rw [List.reverse_cons, Nat.ofDigits_append, Nat.ofDigits_singleton, Nat.mul_zero, Nat.add_zero]

theorem IsNumeral.padded (numeral : IsNumeral base digits n) (hbase : 0 < base) (zeros : Nat) :
    IsNumeral base (List.replicate zeros '0' ++ digits) n := by
  induction zeros with
  | zero => exact numeral
  | succ zeros ih => exact ih.zero_cons hbase

theorem isNumeral_toDigits (hone : 1 < base) (hbase : base ≤ 16) (n : Nat) :
    IsNumeral base (Nat.toDigits base n) n := by
  induction n using Nat.strongRecOn with
  | ind n ih =>
    rcases Nat.lt_or_ge n base with hlt | hge
    · rw [Nat.toDigits_of_lt_base hlt]
      exact isNumeral_singleton (isDigit_digitChar hbase hlt)
    · have hpositive : 0 < n := by omega
      have hlast : n % base < base := Nat.mod_lt n (by omega)
      have hconcat := (ih (n / base) (Nat.div_lt_self hpositive hone)).concat
        (isDigit_digitChar hbase hlast)
      rw [Nat.div_add_mod'] at hconcat
      rw [Nat.toDigits_of_base_le hone hge]
      exact hconcat

def withSign (n : Int) (body : List Char) : List Char :=
  if n < 0 then '-' :: body else body

theorem denotes_withSign (magnitude : IsMagnitude body k.natAbs) : Denotes (withSign k body) k := by
  unfold withSign
  split
  · have hk : -(k.natAbs : Int) = k := by omega
    have hdenotes := Denotes.minus magnitude
    rwa [hk] at hdenotes
  · have hk : (k.natAbs : Int) = k := by omega
    have hdenotes := Denotes.unsigned magnitude
    rwa [hk] at hdenotes

def decimal (zeros : Nat) (n : Int) : List Char :=
  withSign n (List.replicate zeros '0' ++ Nat.toDigits 10 n.natAbs)

def hexadecimal (zeros : Nat) (n : Int) : List Char :=
  withSign n ('0' :: 'x' :: (List.replicate zeros '0' ++ Nat.toDigits 16 n.natAbs))

theorem denotes_decimal (zeros : Nat) (n : Int) : Denotes (decimal zeros n) n := by
  have numeral : IsNumeral 10 (Nat.toDigits 10 n.natAbs) n.natAbs :=
    isNumeral_toDigits (by decide) (by decide) n.natAbs
  exact denotes_withSign (.decimal (numeral.padded (by decide) zeros))

theorem denotes_hexadecimal (zeros : Nat) (n : Int) : Denotes (hexadecimal zeros n) n := by
  have numeral : IsNumeral 16 (Nat.toDigits 16 n.natAbs) n.natAbs :=
    isNumeral_toDigits (by decide) (by decide) n.natAbs
  exact denotes_withSign (.hexadecimal (.inl rfl) (numeral.padded (by decide) zeros))

def spelling (n : Int) : List Char :=
  if n < 0 then '-' :: Nat.toDigits 10 n.natAbs else Nat.toDigits 10 n.natAbs

theorem spelling_eq_decimal (n : Int) : spelling n = decimal 0 n := rfl

theorem display_integer (n : Int64) :
    (Datum.integer n).display = String.ofList (spelling n.toInt) := by
  change n.toInt.repr = _
  cases n.toInt with
  | ofNat m => exact Nat.repr_eq_ofList_toDigits
  | negSucc m =>
    have hneg : Int.negSucc m < 0 := Int.negSucc_lt_zero m
    rw [spelling, if_pos hneg, String.ofList_cons]
    exact congrArg ("-" ++ ·) Nat.repr_eq_ofList_toDigits

theorem integer?_of_denotes {text : List Char} {n : Int64} (h : Denotes text n.toInt) :
    integer? (String.ofList text) = some n := by
  rwa [integer?_eq_some_iff, String.toList_ofList]

theorem integer?_spelling (n : Int64) : integer? (String.ofList (spelling n.toInt)) = some n := by
  rw [spelling_eq_decimal]
  exact integer?_of_denotes (denotes_decimal 0 n.toInt)

/-- A text is read exactly if it is the literal of a signed 64-bit number, and then as that number.
Each of them is read back from its decimal and from its hexadecimal digits, behind any number of
zeros. -/
theorem integers_read_exactly :
    (∀ (text : String) (k : Int), (integer? text).map Int64.toInt = some k ↔
      Denotes text.toList k ∧ -2 ^ 63 ≤ k ∧ k ≤ 2 ^ 63 - 1) ∧
    ∀ (n : Int64) (zeros : Nat),
      integer? (Datum.integer n).display = some n ∧
      integer? (String.ofList (decimal zeros n.toInt)) = some n ∧
      integer? (String.ofList (hexadecimal zeros n.toInt)) = some n := by
  refine ⟨fun text k => ?_, fun n zeros => ⟨?_, ?_, ?_⟩⟩
  · simp only [Option.map_eq_some_iff, integer?_eq_some_iff]
    constructor
    · rintro ⟨n, hn, rfl⟩
      exact ⟨hn, n.minValue_le_toInt, n.toInt_le⟩
    · rintro ⟨hk, hlow, hhigh⟩
      have hofInt : (Int64.ofInt k).toInt = k :=
        Int64.toInt_ofInt_of_le hlow (Int.lt_of_le_sub_one hhigh)
      exact ⟨Int64.ofInt k, by rwa [hofInt], hofInt⟩
  · rw [display_integer]
    exact integer?_spelling n
  · exact integer?_of_denotes (denotes_decimal zeros n.toInt)
  · exact integer?_of_denotes (denotes_hexadecimal zeros n.toInt)

/-- The range has one number more below zero than above it. -/
example : integer? "-0x8000000000000000" = some Int64.minValue ∧
    integer? "0x8000000000000000" = none := by decide

end TagSchema.Literal
