import TagSchema.Datum
import TagSchema.Literal
import Mathlib.Data.List.TakeWhile

/-! Splitting type chains and printing them. A chain is a base without brackets and the containers
behind it, and it prints as their concatenation. Since a base ends where the first bracket stands,
a text is printed by one chain at most, and splitting finds it. -/
namespace TagSchema.Literal

def IsBase (base : String) : Prop :=
  base ≠ "" ∧ ∀ c ∈ base.toList, c ∉ ['[', ']', '\x7b', '\x7d']

def IsContainer (part : String) : Prop :=
  part = "[]" ∨ part = "\x7b\x7d"

def IsChain : List String → Prop
  | [] => False
  | base :: containers => IsBase base ∧ ∀ part ∈ containers, IsContainer part

variable {text : String} {containers chain : List String} {cs : List Char}

theorem isBracket_eq_false_iff {c : Char} :
    isBracket c = false ↔ c ∉ ['[', ']', '\x7b', '\x7d'] := by
  simp [isBracket, and_assoc]

theorem containers?_append {part : String} (hpart : IsContainer part) (cs : List Char) :
    containers? (part.toList ++ cs) = (containers? cs).map (part :: ·) := by
  rcases hpart with rfl | rfl
  · rfl
  · rfl

theorem containers?_join (h : ∀ part ∈ containers, IsContainer part) :
    containers? (String.join containers).toList = some containers := by
  induction containers with
  | nil => rfl
  | cons part parts ih =>
    rw [List.forall_mem_cons] at h
    rw [String.join_cons, String.toList_append, containers?_append h.1, ih h.2, Option.map_some]

def Spell (containers : List String) (cs : List Char) : Prop :=
  (∀ part ∈ containers, IsContainer part) ∧ (String.join containers).toList = cs

theorem Spell.cons {part : String} (hpart : IsContainer part) (h : Spell containers cs) :
    Spell (part :: containers) (part.toList ++ cs) := by
  obtain ⟨hcontainers, rfl⟩ := h
  refine ⟨List.forall_mem_cons.mpr ⟨hpart, hcontainers⟩, ?_⟩
  rw [String.join_cons, String.toList_append]

theorem spell_of_containers? (h : containers? cs = some containers) : Spell containers cs := by
  fun_induction containers? cs generalizing containers with
  | case1 =>
    cases h
    exact ⟨nofun, rfl⟩
  | case2 rest ih =>
    obtain ⟨parts, hparts, rfl⟩ := Option.map_eq_some_iff.mp h
    exact (ih hparts).cons (.inl rfl)
  | case3 rest ih =>
    obtain ⟨parts, hparts, rfl⟩ := Option.map_eq_some_iff.mp h
    exact (ih hparts).cons (.inr rfl)
  | case4 => cases h

theorem takeWhile_join (h : ∀ part ∈ containers, IsContainer part) :
    (String.join containers).toList.takeWhile (!isBracket ·) = [] := by
  cases containers with
  | nil => rfl
  | cons part parts =>
    rw [String.join_cons, String.toList_append]
    rcases (List.forall_mem_cons.mp h).1 with rfl | rfl
    · rfl
    · rfl

theorem dropWhile_join (h : ∀ part ∈ containers, IsContainer part) :
    (String.join containers).toList.dropWhile (!isBracket ·) = (String.join containers).toList := by
  have happend := List.takeWhile_append_dropWhile (p := (!isBracket ·))
    (l := (String.join containers).toList)
  rwa [takeWhile_join h, List.nil_append] at happend

theorem typeChain?_of_base (hne : text.toList.takeWhile (!isBracket ·) ≠ []) :
    typeChain? text = (containers? (text.toList.dropWhile (!isBracket ·))).map
      (String.ofList (text.toList.takeWhile (!isBracket ·)) :: ·) := by
  unfold typeChain?
  split
  · next hnil => exact absurd hnil hne
  · rfl

theorem typeChain?_append {base : String} (hbase : IsBase base)
    (h : ∀ part ∈ containers, IsContainer part) :
    typeChain? (base ++ String.join containers) = some (base :: containers) := by
  have hplain : ∀ c ∈ base.toList, (!isBracket c) = true := by
    intro c hc
    rw [isBracket_eq_false_iff.mpr (hbase.2 c hc), Bool.not_false]
  have htake : (base ++ String.join containers).toList.takeWhile (!isBracket ·) = base.toList := by
    rw [String.toList_append, List.takeWhile_append_of_pos hplain, takeWhile_join h,
      List.append_nil]
  have hdrop : (base ++ String.join containers).toList.dropWhile (!isBracket ·) =
      (String.join containers).toList := by
    rw [String.toList_append, List.dropWhile_append_of_pos hplain, dropWhile_join h]
  have hne : base.toList ≠ [] := fun hnil => hbase.1 (String.toList_eq_nil_iff.mp hnil)
  rw [typeChain?_of_base (by rwa [htake]), htake, hdrop, containers?_join h, Option.map_some,
    String.ofList_toList]

theorem typeChain?_eq_some_iff :
    typeChain? text = some chain ↔ IsChain chain ∧ String.join chain = text := by
  constructor
  · intro h
    have hne : text.toList.takeWhile (!isBracket ·) ≠ [] := by
      intro hnil
      simp [typeChain?, hnil] at h
    rw [typeChain?_of_base hne] at h
    obtain ⟨containers, hread, rfl⟩ := Option.map_eq_some_iff.mp h
    obtain ⟨hcontainers, hjoin⟩ := spell_of_containers? hread
    refine ⟨⟨⟨by simpa using hne, fun c hc => ?_⟩, hcontainers⟩, ?_⟩
    · rw [String.toList_ofList] at hc
      have hplain := List.mem_takeWhile_imp hc
      exact isBracket_eq_false_iff.mp (by simpa using hplain)
    · apply String.toList_injective
      rw [String.join_cons, String.toList_append, String.toList_ofList, hjoin,
        List.takeWhile_append_dropWhile]
  · rintro ⟨hchain, rfl⟩
    cases chain with
    | nil => cases hchain
    | cons base containers =>
      rw [String.join_cons]
      exact typeChain?_append hchain.1 hchain.2

/-- Splitting succeeds on types only. It gives the one chain that prints as the text, and whatever
is put together from a base and containers is taken apart into them again. -/
theorem type_chains_split_and_print :
    (∀ text, (∃ chain, typeChain? text = some chain) ↔
      ∃ base containers, IsBase base ∧ (∀ part ∈ containers, IsContainer part) ∧
        text = base ++ String.join containers) ∧
    (∀ text chain, typeChain? text = some chain ↔
      (IsChain chain ∧ (Datum.list chain).display = text) ∧
        ∀ other, IsChain other ∧ (Datum.list other).display = text → other = chain) ∧
    ∀ base containers,
      (typeChain? (Datum.list (base :: containers)).display = some (base :: containers) ↔
        IsBase base ∧ ∀ part ∈ containers, IsContainer part) ∧
      (Datum.list (base :: containers)).symbol? = some base := by
  refine ⟨fun text => ?_, fun text chain => ?_, fun base containers => ⟨?_, rfl⟩⟩
  · constructor
    · rintro ⟨chain, h⟩
      obtain ⟨hchain, rfl⟩ := typeChain?_eq_some_iff.mp h
      cases chain with
      | nil => cases hchain
      | cons base containers =>
        exact ⟨base, containers, hchain.1, hchain.2, String.join_cons⟩
    · rintro ⟨base, containers, hbase, hcontainers, rfl⟩
      exact ⟨base :: containers, typeChain?_append hbase hcontainers⟩
  · constructor
    · intro h
      refine ⟨typeChain?_eq_some_iff.mp h, fun other hother => ?_⟩
      have hsplit : typeChain? text = some other := typeChain?_eq_some_iff.mpr hother
      exact Option.some.inj (hsplit.symm.trans h)
    · rintro ⟨hchain, -⟩
      exact typeChain?_eq_some_iff.mpr hchain
  · exact typeChain?_eq_some_iff.trans (and_iff_left rfl)

/-- Containers of both kinds follow each other in any order. -/
theorem type_chains_split_and_print_nested :
    (IsBase "Point" ∧ ∀ part ∈ ["[]", "\x7b\x7d", "[]"], IsContainer part) ∧
    typeChain? "Point[]\x7b\x7d[]" = some ["Point", "[]", "\x7b\x7d", "[]"] := by
  have hbase : IsBase "Point" := by simp [IsBase]
  have hcontainers : ∀ part ∈ ["[]", "\x7b\x7d", "[]"], IsContainer part := by
    simp [IsContainer]
  exact ⟨⟨hbase, hcontainers⟩,
    (type_chains_split_and_print.2.2 "Point" _).1.mpr ⟨hbase, hcontainers⟩⟩

end TagSchema.Literal
