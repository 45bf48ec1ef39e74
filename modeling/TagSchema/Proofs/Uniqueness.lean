import TagSchema.Proofs.Calls

/-! How often one name can be registered. A table refuses a path that is taken, and a name has two paths at
most: the whole name, which it takes while there is no delimiter, and the name cut by the delimiter. -/
namespace TagSchema.Symbols

/-- The name was called in the namespace while that had no delimiter, and then with a delimiter that occurs
in the name. -/
def Recut (calls : List Call) (space : Namespace) (name : String) : Prop :=
  CalledUnder calls space none name ∧ ∃ c ∈ name.toList, CalledUnder calls space (some c) name

namespace Table

variable {table : Table} {name : String}

theorem split_eq_singleton_iff : table.split name = [name] ↔ ∀ c ∈ table.delimiter, c ∉ name.toList := by
  unfold split
  cases table.delimiter with
  | none => simp
  | some c =>
    simp only [Option.mem_def, Option.some.injEq, forall_eq']
    constructor
    · intro hsplit hc
      obtain ⟨before, behind, hname⟩ := List.append_of_mem hc
      have hlength := congrArg List.length hsplit
      rw [hname, List.splitOn_append_cons_self, List.length_map, List.length_append] at hlength
      have hbefore := List.length_pos_iff.mpr (List.splitOn_ne_nil c before)
      have hbehind := List.length_pos_iff.mpr (List.splitOn_ne_nil c behind)
      simp only [List.length_singleton] at hlength
      omega
    · intro hc
      rw [List.splitOn_eq_singleton hc, List.map_singleton, String.ofList_toList]

theorem WellCut.name_iff (wellCut : table.WellCut) {entry : Symbol.Entry} (h : entry ∈ table.entries) :
    entry.name = name ↔ entry.segments = [name] ∨ entry.segments = table.split name := by
  constructor
  · rintro rfl
    exact wellCut.cut entry h
  · rintro (hwhole | hsplit)
    · rw [← wellCut.join_segments h, hwhole, join_singleton]
    · rw [← wellCut.join_segments h, hsplit, join_split]

theorem WellCut.count_name (wellCut : table.WellCut) (name : String) :
    (table.entries.map (·.name)).count name =
      (if [name] ∈ table.paths then 1 else 0) +
        if table.split name ≠ [name] ∧ table.split name ∈ table.paths then 1 else 0 := by
  have hpaths : (table.entries.map (·.name)).count name =
      table.paths.countP fun path => path = [name] ∨ path = table.split name := by
    unfold paths
    rw [List.count, List.countP_map, List.countP_map]
    refine List.countP_congr fun entry hentry => ?_
    simpa using wellCut.name_iff hentry
  rw [hpaths]
  by_cases hsame : table.split name = [name]
  · have hone : (table.paths.countP fun path => path = [name] ∨ path = table.split name) =
        table.paths.count [name] := by
      rw [List.count, hsame]
      exact List.countP_congr fun path _ => by simp
    rw [hone, wellCut.distinct.count]
    simp only [ne_eq, hsame, not_true_eq_false, false_and, if_false, Nat.add_zero]
  · have hboth : (table.paths.countP fun path => path = [name] ∨ path = table.split name) =
        table.paths.count [name] + table.paths.count (table.split name) := by
      generalize table.paths = paths
      induction paths with
      | nil => rfl
      | cons path paths ih =>
        rw [List.countP_cons, List.count_cons, List.count_cons, ih]
        by_cases hwhole : path = [name]
        · subst hwhole
          simp [Ne.symm hsame, Nat.add_right_comm]
        · by_cases hsplit : path = table.split name
          · simp [hsplit, hsame, Nat.add_assoc]
          · simp [hwhole, hsplit]
    rw [hboth, wellCut.distinct.count, wellCut.distinct.count]
    simp only [ne_eq, hsame, not_false_eq_true, true_and]

end Table

namespace Ledger

variable {ledger : Ledger} {calls : List Call} {space : Namespace} {name : String}

def grants (ledger : Ledger) (space : Namespace) (name : String) : Nat :=
  ledger.granted.countP fun request => request.space = space ∧ request.name = name

theorem count_registered (ledger : Ledger) (space : Namespace) (name : String) :
    ((ledger.registered space).map (·.name)).count name = ledger.grants space name := by
  unfold registered grants
  rw [List.map_map, List.count, List.countP_map, List.countP_filter]
  refine List.countP_congr fun request _ => ?_
  simp [and_comm]

theorem Follows.count_name (follows : ledger.Follows calls) (space : Namespace) (name : String) :
    ((ledger.symbols.table space).entries.map (·.name)).count name = ledger.grants space name := by
  rw [← count_registered, ← follows.entries, List.map_map]
  rfl

theorem Follows.byName_perm (follows : ledger.Follows calls) (space : Namespace) :
    (ledger.symbols.byName space).Perm (ledger.registered space) := by
  rw [← follows.entries]
  exact byName_perm_entries _ _

theorem Follows.delimiter_of_called (follows : ledger.Follows calls) {c : Char}
    (h : CalledUnder calls space (some c) name) : (ledger.symbols.table space).delimiter = some c :=
  (follows.delimiter space).trans h.delimiter_eq

theorem Follows.whole_mem_paths_iff (follows : ledger.Follows calls)
    (h : (ledger.symbols.table space).split name ≠ [name]) :
    [name] ∈ (ledger.symbols.table space).paths ↔ CalledUnder calls space none name := by
  rw [follows.paths]
  constructor
  · rintro ⟨delimiter, other, hcalled, hpath⟩
    have hname : other = name := by
      rw [← Table.join_split { delimiter } other, ← hpath, Table.join_singleton]
    subst hname
    cases delimiter with
    | none => exact hcalled
    | some c =>
      refine absurd ?_ h
      rw [hpath, Table.split, Table.split, follows.delimiter_of_called hcalled]
  · exact fun hcalled => ⟨none, name, hcalled, rfl⟩

theorem Follows.split_mem_paths_iff (follows : ledger.Follows calls)
    (h : (ledger.symbols.table space).split name ≠ [name]) :
    (ledger.symbols.table space).split name ∈ (ledger.symbols.table space).paths ↔
      ∃ c ∈ name.toList, CalledUnder calls space (some c) name := by
  rw [follows.paths]
  constructor
  · rintro ⟨delimiter, other, hcalled, hpath⟩
    cases delimiter with
    | none =>
      have hwhole : (ledger.symbols.table space).split name = [other] := hpath
      have hname := congrArg (ledger.symbols.table space).join hwhole
      rw [Table.join_split, Table.join_singleton] at hname
      exact absurd (hname ▸ hwhole) h
    | some c =>
      have hdelimiter := follows.delimiter_of_called hcalled
      have hsplit : (ledger.symbols.table space).split other =
          Table.split { delimiter := some c } other := by
        rw [Table.split, Table.split, hdelimiter]
      obtain rfl := Table.split_injective _ (hpath.trans hsplit.symm)
      rw [Ne, Table.split_eq_singleton_iff, hdelimiter] at h
      exact ⟨c, by simpa using h, hcalled⟩
  · rintro ⟨c, hc, hcalled⟩
    refine ⟨some c, name, hcalled, ?_⟩
    rw [Table.split, Table.split, follows.delimiter_of_called hcalled]

/-- Of the calls for one name two may be granted: one for the whole name and one for the name cut by the
delimiter. -/
theorem Follows.grants_eq (follows : ledger.Follows calls) (space : Namespace) (name : String) :
    ledger.grants space name ≤ 2 ∧ (ledger.grants space name ≤ 1 ↔ ¬ Recut calls space name) := by
  have hcount := (follows.wellCut space).count_name name
  rw [follows.count_name] at hcount
  by_cases hsame : (ledger.symbols.table space).split name = [name]
  · have hone : ledger.grants space name ≤ 1 := by
      rw [hcount]
      simp only [ne_eq, hsame, not_true_eq_false, false_and, if_false, Nat.add_zero]
      split <;> decide
    refine ⟨by omega, fun _ => ?_, fun _ => hone⟩
    rintro ⟨-, c, hc, hcalled⟩
    exact Table.split_eq_singleton_iff.mp hsame c (follows.delimiter_of_called hcalled) hc
  · simp only [ne_eq, hsame, not_false_eq_true, true_and] at hcount
    rw [Recut, ← follows.whole_mem_paths_iff hsame, ← follows.split_mem_paths_iff hsame, hcount]
    split <;> split <;> simp_all

/-- A name is granted at most once, and listed at most once, just if it was not called for without a
delimiter first and then with one that occurs in it. -/
theorem granted_once_iff (calls : List Call) (space : Namespace) :
    (∀ name, (ofCalls calls).grants space name ≤ 2 ∧
      ((ofCalls calls).grants space name ≤ 1 ↔ ¬ Recut calls space name)) ∧
    ((((ofCalls calls).symbols.byName space).map (·.name)).Nodup ↔
      ∀ name, ¬ Recut calls space name) := by
  have follows := follows_ofCalls calls
  refine ⟨follows.grants_eq space, ?_⟩
  rw [((follows.byName_perm space).map _).nodup_iff, List.nodup_iff_count_le_one]
  refine forall_congr' fun name => ?_
  rw [count_registered]
  exact (follows.grants_eq space name).2

/-- Here the name is taken while it is whole, and free again once there is a delimiter to cut it. -/
theorem granted_twice :
    let calls : List Call := [⟨⟨"a.b", .classes, ⟨"t.talk", 1⟩⟩, none⟩,
      ⟨⟨"a.b", .classes, ⟨"t.talk", 2⟩⟩, none⟩, ⟨⟨"a.b", .classes, ⟨"t.talk", 3⟩⟩, some '.'⟩]
    (ofCalls calls).granted.map (·.place.line) = [1, 3] ∧ (ofCalls calls).grants .classes "a.b" = 2 ∧
      ¬ (((ofCalls calls).symbols.byName .classes).map (·.name)).Nodup := by
  intro calls
  have hgranted : (ofCalls calls).granted.map (·.place.line) = [1, 3] := by decide +kernel
  have hgrants : (ofCalls calls).grants .classes "a.b" = 2 := by decide +kernel
  refine ⟨hgranted, hgrants, fun hnodup => ?_⟩
  have hperm := ((follows_ofCalls calls).byName_perm .classes).map (·.name)
  have hone := List.nodup_iff_count_le_one.mp (hperm.nodup_iff.mp hnodup) "a.b"
  rw [count_registered, hgrants] at hone
  exact absurd hone (by decide)

end Ledger
end TagSchema.Symbols
