import TagSchema.Proofs.Standard
import TagSchema.Symbols

/-! A table into which all names came with one delimiter is determined by its symbols in the order
of their registration. Registering, resolving and listing are then questions about that list. -/
namespace TagSchema

/-- The full name itself, or a suffix of it that starts behind a delimiter. -/
def Answers (delimiter : Option Char) (name full : String) : Prop :=
  full = name ∨ ∃ c ∈ delimiter, ∃ container : String, full = container ++ String.singleton c ++ name

namespace Symbols

def Table.listing (delimiter : Option Char) (symbols : List Symbol) : Table where
  delimiter := if symbols = [] then none else delimiter
  entries := symbols.map fun symbol => ⟨symbol, Table.split { delimiter } symbol.name⟩

namespace Table

theorem join_split (table : Table) (name : String) : table.join (table.split name) = name := by
  unfold join split
  cases table.delimiter with
  | none => simp
  | some c =>
    apply String.toList_inj.mp
    simp [Function.comp_def, List.intercalate_splitOn]

theorem split_injective (table : Table) {name other : String}
    (h : table.split name = table.split other) : name = other := by
  rw [← table.join_split name, h, table.join_split]

theorem mem_suffixNames {table : Table} {name : String} {segments : List String} :
    name ∈ table.suffixNames segments ↔
      ∃ before suffix, segments = before ++ suffix ∧ suffix ≠ [] ∧ name = table.join suffix := by
  induction segments with
  | nil =>
    simp only [suffixNames, List.not_mem_nil, false_iff]
    rintro ⟨before, suffix, hnil, hsuffix, -⟩
    exact hsuffix (List.append_eq_nil_iff.mp hnil.symm).2
  | cons segment rest ih =>
    rw [suffixNames, List.mem_cons, ih]
    constructor
    · rintro (rfl | ⟨before, suffix, rfl, hsuffix, rfl⟩)
      · exact ⟨[], segment :: rest, rfl, List.cons_ne_nil _ _, rfl⟩
      · exact ⟨segment :: before, suffix, rfl, hsuffix, rfl⟩
    · rintro ⟨before, suffix, happend, hsuffix, rfl⟩
      cases before with
      | nil => exact .inl (by rw [happend, List.nil_append])
      | cons head before =>
        rw [List.cons_append, List.cons.injEq] at happend
        exact .inr ⟨before, suffix, happend.2, hsuffix, rfl⟩

theorem split_ne_nil (table : Table) (name : String) : table.split name ≠ [] := by
  unfold split
  split
  · simp
  · simp [List.splitOn_ne_nil]

theorem mem_suffixNames_split {table : Table} {name full : String} :
    name ∈ table.suffixNames (table.split full) ↔ Answers table.delimiter name full := by
  rw [mem_suffixNames]
  constructor
  · rintro ⟨before, suffix, hsplit, hsuffix, rfl⟩
    by_cases hbefore : before = []
    · left
      rw [← table.join_split full, hsplit, hbefore, List.nil_append]
    · right
      cases hdelimiter : table.delimiter with
      | none =>
        -- Here a path is a single segment, so no proper suffix is left.
        have hlength := congrArg List.length hsplit
        have hbefore' := List.length_pos_iff.mpr hbefore
        have hsuffix' := List.length_pos_iff.mpr hsuffix
        simp only [split, hdelimiter, List.length_append, List.length_singleton] at hlength
        omega
      | some c =>
        refine ⟨c, rfl, (String.singleton c).intercalate before, ?_⟩
        rw [← table.join_split full, hsplit]
        simp only [join, hdelimiter]
        exact String.intercalate_append_of_ne_nil hbefore hsuffix
  · rintro (rfl | ⟨c, hc, container, rfl⟩)
    · exact ⟨[], table.split full, rfl, table.split_ne_nil full, (table.join_split full).symm⟩
    · refine ⟨table.split container, table.split name, ?_, table.split_ne_nil name,
        (table.join_split name).symm⟩
      rw [Option.mem_def] at hc
      simp [split, hc, List.splitOn_append_cons_self]

theorem adoptDelimiter_listing (delimiter : Option Char) (symbols : List Symbol) :
    (listing delimiter symbols).adoptDelimiter delimiter =
      { delimiter, entries := (listing delimiter symbols).entries } := by
  unfold adoptDelimiter listing
  split
  · rw [Option.none_or]
  · rw [Option.or_self]

theorem find?_listing (delimiter : Option Char) (symbols : List Symbol) (name : String) :
    ((listing delimiter symbols).adoptDelimiter delimiter).find?
        (((listing delimiter symbols).adoptDelimiter delimiter).split name) =
      (symbols.find? (·.name = name)).map (·.place) := by
  have hsame (symbol : Symbol) :
      (split { delimiter } symbol.name == split { delimiter } name) = decide (symbol.name = name) := by
    rw [Bool.beq_eq_decide_eq, decide_eq_decide]
    exact ⟨split_injective _, fun h => h ▸ rfl⟩
  rw [adoptDelimiter_listing]
  simp only [find?, listing, List.find?_map, Option.map_map]
  change Option.map _ (symbols.find? fun symbol =>
    split { delimiter } symbol.name == split { delimiter } name) = _
  simp only [hsame]
  rfl

theorem add_listing (delimiter : Option Char) (symbols : List Symbol) (name : String)
    (place : Place) :
    ((listing delimiter symbols).adoptDelimiter delimiter).add name place =
      listing delimiter (symbols ++ [⟨name, place⟩]) := by
  rw [adoptDelimiter_listing, add, join_split]
  simp [listing, split]

theorem resolves_listing {delimiter : Option Char} {symbols : List Symbol} {name : String} :
    (listing delimiter symbols).resolves name ↔
      ∃ symbol ∈ symbols, Answers delimiter name symbol.name := by
  -- The exact path adds nothing: the full name is its own suffix.
  by_cases hnil : symbols = []
  · simp [hnil, resolves, listing, find?]
  · have hlisting : listing delimiter symbols =
        (listing delimiter symbols).adoptDelimiter delimiter := by
      rw [adoptDelimiter_listing]
      simp [listing, hnil]
    have hexact : ((symbols.find? (·.name = name)).map (·.place)).isSome ↔
        ∃ symbol ∈ symbols, symbol.name = name := by
      simp
    have hany : ((listing delimiter symbols).adoptDelimiter delimiter).entries.any
        (((listing delimiter symbols).adoptDelimiter delimiter).answersTo name) ↔
        ∃ symbol ∈ symbols, Answers delimiter name symbol.name := by
      rw [adoptDelimiter_listing]
      simp only [listing, List.any_map, List.any_eq_true, Function.comp_apply, answersTo,
        List.contains_iff_mem]
      exact exists_congr fun symbol => and_congr_right fun _ => mem_suffixNames_split
    rw [hlisting, resolves, find?_listing, Bool.or_eq_true, hexact, hany]
    constructor
    · rintro (⟨symbol, hsymbol, hname⟩ | hsuffix)
      · exact ⟨symbol, hsymbol, .inl hname⟩
      · exact hsuffix
    · exact .inr

@[simp] theorem byName_listing (delimiter : Option Char) (symbols : List Symbol) :
    (listing delimiter symbols).byName = symbols.mergeSort fun a b => decide (a.name ≤ b.name) := by
  simp [byName, listing, Function.comp_def]

theorem byName_listing_perm (delimiter : Option Char) (symbols : List Symbol) :
    (listing delimiter symbols).byName.Perm symbols := by
  rw [byName_listing]
  exact List.mergeSort_perm _ _

theorem byName_listing_pairwise (delimiter : Option Char) {symbols : List Symbol}
    (hdistinct : (symbols.map (·.name)).Nodup) :
    (listing delimiter symbols).byName.Pairwise (·.name < ·.name) := by
  have hnodup : ((listing delimiter symbols).byName.map (·.name)).Nodup :=
    ((byName_listing_perm delimiter symbols).map _).nodup_iff.mpr hdistinct
  have hsorted : (listing delimiter symbols).byName.Pairwise (·.name ≤ ·.name) := by
    rw [byName_listing]
    have htrans : ∀ a b c : Symbol, decide (a.name ≤ b.name) → decide (b.name ≤ c.name) →
        decide (a.name ≤ c.name) := by
      intro a b c hab hbc
      simp only [decide_eq_true_eq] at hab hbc ⊢
      exact String.le_trans hab hbc
    have htotal : ∀ a b : Symbol, decide (a.name ≤ b.name) || decide (b.name ≤ a.name) := by
      intro a b
      simpa using String.le_total a.name b.name
    have hsorted := List.pairwise_mergeSort htrans htotal symbols
    simpa using hsorted
  refine hsorted.imp₂ (fun a b hle hne => ?_) (List.pairwise_map.mp hnodup)
  rw [← String.not_le]
  intro hge
  exact hne (String.le_antisymm hle hge)

end Table

def Lists (symbols : Symbols) (listed : Namespace → List Symbol) : Prop :=
  ∀ space, symbols.table space = .listing space.delimiter (listed space)

theorem lists_empty : empty.Lists fun _ => [] := by
  intro space
  cases space <;> rfl

theorem setTable_table (symbols : Symbols) (space : Namespace) :
    symbols.setTable space (symbols.table space) = symbols := by
  cases space <;> rfl

section register

variable {symbols : Symbols} {delimiter : Option Char} {space : Namespace} {listed : List Symbol}
  {name : String}

theorem register_listing_new (h : symbols.table space = .listing delimiter listed)
    (hnew : ∀ symbol ∈ listed, symbol.name ≠ name) (place : Place) :
    register name space place delimiter symbols =
      .ok () (symbols.setTable space (.listing delimiter (listed ++ [⟨name, place⟩]))) := by
  have hnone : listed.find? (·.name = name) = none := by
    simpa using hnew
  simp only [register, h, Table.find?_listing, hnone, Option.map_none, Table.add_listing]

theorem register_listing_taken (h : symbols.table space = .listing delimiter listed)
    {first : Symbol} (hfirst : listed.find? (·.name = name) = some first) (place : Place) :
    register name space place delimiter symbols =
      .error ⟨.registeredBefore name space first.place, none, place⟩ symbols := by
  have hnonempty : listed ≠ [] := List.ne_nil_of_mem (List.mem_of_find?_eq_some hfirst)
  have hlisting : (Table.listing delimiter listed).adoptDelimiter delimiter =
      symbols.table space := by
    rw [Table.adoptDelimiter_listing, h]
    simp [Table.listing, hnonempty]
  simp only [register, h, Table.find?_listing, hfirst, Option.map_some]
  rw [hlisting, setTable_table]

end register

namespace Lists

variable {symbols : Symbols} {listed : Namespace → List Symbol}

theorem register_new (lists : symbols.Lists listed) {name : String} {space : Namespace}
    (hnew : ∀ symbol ∈ listed space, symbol.name ≠ name) (place : Place) :
    ∃ after, register name space place space.delimiter symbols = .ok () after ∧
      after.Lists fun other =>
        if other = space then listed other ++ [⟨name, place⟩] else listed other := by
  refine ⟨_, register_listing_new (lists space) hnew place, fun other => ?_⟩
  rw [table_setTable]
  split
  · next hsame => simp [hsame]
  · next hother => simpa [hother] using lists other

theorem register_taken (lists : symbols.Lists listed) {name : String} {space : Namespace}
    {taken : Symbol} (htaken : taken ∈ listed space) (hname : taken.name = name) (place : Place) :
    ∃ fault, register name space place space.delimiter symbols = .error fault symbols := by
  have hsome : ((listed space).find? (·.name = name)).isSome := by
    rw [List.find?_isSome]
    exact ⟨taken, htaken, by simpa using hname⟩
  obtain ⟨first, hfirst⟩ := Option.isSome_iff_exists.mp hsome
  exact ⟨_, register_listing_taken (lists space) hfirst place⟩

theorem byName_perm (lists : symbols.Lists listed) (space : Namespace) :
    (symbols.byName space).Perm (listed space) := by
  rw [byName, lists space]
  exact Table.byName_listing_perm _ _

theorem byName_pairwise (lists : symbols.Lists listed) {space : Namespace}
    (hdistinct : ((listed space).map (·.name)).Nodup) :
    (symbols.byName space).Pairwise (·.name < ·.name) := by
  rw [byName, lists space]
  exact Table.byName_listing_pairwise _ hdistinct

theorem resolves_iff (lists : symbols.Lists listed) {name : String} {space : Namespace} :
    symbols.resolves name space ↔ ∃ symbol ∈ listed space, Answers space.delimiter name symbol.name := by
  rw [resolves, lists space, Table.resolves_listing]

section perm

variable {other : Symbols} {listed' : Namespace → List Symbol} {space : Namespace}

/-- The order of the registrations cannot be told from the symbols by name. -/
theorem byName_of_perm (lists : symbols.Lists listed) (lists' : other.Lists listed')
    (hperm : (listed space).Perm (listed' space)) (hdistinct : ((listed space).map (·.name)).Nodup) :
    symbols.byName space = other.byName space := by
  have hdistinct' : ((listed' space).map (·.name)).Nodup := (hperm.map _).nodup_iff.mp hdistinct
  have hsame : (symbols.byName space).Perm (other.byName space) :=
    (lists.byName_perm space).trans (hperm.trans (lists'.byName_perm space).symm)
  refine hsame.eq_of_pairwise (fun a b _ _ hab hba => ?_) (lists.byName_pairwise hdistinct)
    (lists'.byName_pairwise hdistinct')
  exact absurd hba (String.lt_asymm hab)

theorem resolves_of_perm (lists : symbols.Lists listed) (lists' : other.Lists listed')
    (hperm : (listed space).Perm (listed' space)) (name : String) :
    symbols.resolves name space = other.resolves name space := by
  rw [Bool.eq_iff_iff, lists.resolves_iff, lists'.resolves_iff]
  simp only [hperm.mem_iff]

end perm

end Lists
end Symbols
end TagSchema
