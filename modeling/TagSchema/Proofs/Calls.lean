import Mathlib.Data.List.Induction
import TagSchema.Proofs.Registration

/-! Whole runs of registrations in which each call may bring a delimiter of its own. A name is cut by the
delimiter that its namespace has at the time. So a table may hold names that were cut in two ways: whole
names from before there was a delimiter, and names cut by the one delimiter that stays. -/
namespace TagSchema.Symbols

/-- One attempt to register a name, with the delimiter that it brings. -/
structure Call extends Request where
  delimiter : Option Char
  deriving DecidableEq, Repr

/-- The delimiter that a namespace has after some calls: the first that any of them brought, whether it
was granted or not. -/
def delimiterAfter (space : Namespace) (calls : List Call) : Option Char :=
  (calls.filter (·.space = space)).findSome? (·.delimiter)

/-- The name was called in the namespace while that had the delimiter, which the call itself may have
brought. -/
def CalledUnder (calls : List Call) (space : Namespace) (delimiter : Option Char) (name : String) : Prop :=
  ∃ before call, before ++ [call] <+: calls ∧ call.space = space ∧ call.name = name ∧
    delimiterAfter space (before ++ [call]) = delimiter

section delimiters

variable {calls : List Call} {call : Call} {space : Namespace} {delimiter : Option Char} {name : String}

theorem delimiterAfter_concat (space : Namespace) (calls : List Call) (call : Call) :
    delimiterAfter space (calls ++ [call]) =
      if call.space = space then (delimiterAfter space calls).or call.delimiter
      else delimiterAfter space calls := by
  unfold delimiterAfter
  rw [List.filter_append, List.findSome?_append]
  by_cases h : call.space = space <;> simp [h]

theorem calledUnder_concat : CalledUnder (calls ++ [call]) space delimiter name ↔
    CalledUnder calls space delimiter name ∨
      call.space = space ∧ call.name = name ∧ delimiterAfter space (calls ++ [call]) = delimiter := by
  unfold CalledUnder
  constructor
  · rintro ⟨before, last, hprefix, hspace, hname, hdelimiter⟩
    rcases List.prefix_concat_iff.mp hprefix with hsame | hbefore
    · obtain ⟨rfl, hlast⟩ := List.append_inj' hsame rfl
      cases hlast
      exact .inr ⟨hspace, hname, hdelimiter⟩
    · exact .inl ⟨before, last, hbefore, hspace, hname, hdelimiter⟩
  · rintro (⟨before, last, hbefore, hrest⟩ | hlast)
    · exact ⟨before, last, hbefore.trans (List.prefix_append _ _), hrest⟩
    · exact ⟨calls, call, List.prefix_rfl, hlast⟩

theorem CalledUnder.delimiter_eq {c : Char} (h : CalledUnder calls space (some c) name) :
    delimiterAfter space calls = some c := by
  obtain ⟨before, call, ⟨behind, rfl⟩, -, -, hdelimiter⟩ := h
  unfold delimiterAfter at hdelimiter ⊢
  rw [List.filter_append, List.findSome?_append, hdelimiter, Option.some_or]

end delimiters

namespace Table

variable {table : Table} {name : String} {path : List String}

theorem split_of_none (h : table.delimiter = none) (name : String) : table.split name = [name] := by
  rw [split, h]

theorem adoptDelimiter_of_some {c : Char} (h : table.delimiter = some c) (delimiter : Option Char) :
    table.adoptDelimiter delimiter = table := by
  rw [adoptDelimiter, h, Option.some_or, ← h]

theorem join_singleton (table : Table) (name : String) : table.join [name] = name := by
  unfold join
  cases table.delimiter <;> simp

def paths (table : Table) : List (List String) := table.entries.map (·.segments)

theorem paths_add (table : Table) (name : String) (place : Place) :
    (table.add name place).paths = table.paths ++ [table.split name] := by
  unfold paths add
  rw [List.map_append, List.map_singleton]

theorem toSymbol_add (table : Table) (name : String) (place : Place) :
    (table.add name place).entries.map (·.toSymbol) =
      table.entries.map (·.toSymbol) ++ [⟨name, place⟩] := by
  unfold add
  rw [List.map_append, List.map_singleton, join_split]

theorem find?_eq_none : table.find? path = none ↔ path ∉ table.paths := by
  unfold find? paths
  simp

/-- Each entry stands at its whole name or at its name as the delimiter cuts it, and no path is taken
twice. -/
structure WellCut (table : Table) : Prop where
  cut : ∀ entry ∈ table.entries,
    entry.segments = [entry.name] ∨ entry.segments = table.split entry.name
  distinct : table.paths.Nodup

namespace WellCut

theorem empty : WellCut {} := ⟨nofun, .nil⟩

theorem join_segments (wellCut : table.WellCut) {entry : Symbol.Entry} (h : entry ∈ table.entries) :
    table.join entry.segments = entry.name := by
  rcases wellCut.cut entry h with hwhole | hsplit
  · rw [hwhole, join_singleton]
  · rw [hsplit, join_split]

theorem segments_ne_nil (wellCut : table.WellCut) {entry : Symbol.Entry} (h : entry ∈ table.entries) :
    entry.segments ≠ [] := by
  rcases wellCut.cut entry h with hwhole | hsplit
  · rw [hwhole]
    exact List.cons_ne_nil _ _
  · rw [hsplit]
    exact table.split_ne_nil _

theorem whole (wellCut : table.WellCut) (hnone : table.delimiter = none) {entry : Symbol.Entry}
    (hentry : entry ∈ table.entries) : entry.segments = [entry.name] :=
  (wellCut.cut entry hentry).elim id fun hsplit => hsplit.trans (split_of_none hnone _)

theorem adoptDelimiter (wellCut : table.WellCut) (delimiter : Option Char) :
    (table.adoptDelimiter delimiter).WellCut := by
  refine ⟨fun entry hentry => ?_, wellCut.distinct⟩
  cases h : table.delimiter with
  | none => exact .inl (wellCut.whole h hentry)
  | some c =>
    rw [adoptDelimiter_of_some h]
    exact wellCut.cut entry hentry

theorem add (wellCut : table.WellCut) (hnew : table.split name ∉ table.paths) (place : Place) :
    (table.add name place).WellCut := by
  constructor
  · change ∀ entry ∈ table.entries ++ [⟨⟨table.join (table.split name), place⟩, table.split name⟩],
      entry.segments = [entry.name] ∨ entry.segments = table.split entry.name
    rw [List.forall_mem_append, List.forall_mem_singleton, join_split]
    exact ⟨wellCut.cut, .inr rfl⟩
  · rw [paths_add, List.nodup_append]
    refine ⟨wellCut.distinct, List.nodup_singleton _, fun path hpath last hlast => ?_⟩
    cases List.mem_singleton.mp hlast
    rintro rfl
    exact hnew hpath

end WellCut
end Table

theorem byName_perm_entries (symbols : Symbols) (space : Namespace) :
    (symbols.byName space).Perm ((symbols.table space).entries.map (·.toSymbol)) :=
  List.mergeSort_perm _ _

/-- A call is granted just if its path is free, and only then is there a new entry. -/
theorem register_cases (symbols : Symbols) (call : Call) :
    let table := (symbols.table call.space).adoptDelimiter call.delimiter
    (table.split call.name ∉ table.paths ∧
      register call.name call.space call.place call.delimiter symbols =
        .ok () (symbols.setTable call.space (table.add call.name call.place))) ∨
    table.split call.name ∈ table.paths ∧
      ∃ fault, register call.name call.space call.place call.delimiter symbols =
        .error fault (symbols.setTable call.space table) := by
  intro table
  cases hfound : table.find? (table.split call.name) with
  | none =>
    refine .inl ⟨Table.find?_eq_none.mp hfound, ?_⟩
    simp only [register, table, hfound]
  | some previous =>
    refine .inr ⟨?_, ⟨.registeredBefore call.name call.space previous, none, call.place⟩, ?_⟩
    · by_contra hfree
      rw [Table.find?_eq_none.mpr hfree] at hfound
      cases hfound
    · simp only [register, table, hfound]

namespace Ledger

def call (ledger : Ledger) (call : Call) : Ledger :=
  match register call.name call.space call.place call.delimiter ledger.symbols with
  | .ok () symbols => ⟨symbols, ledger.granted ++ [call.toRequest]⟩
  | .error _ symbols => ⟨symbols, ledger.granted⟩

def ofCalls (calls : List Call) : Ledger := calls.foldl call {}

theorem ofCalls_concat (calls : List Call) (last : Call) :
    ofCalls (calls ++ [last]) = (ofCalls calls).call last := by
  unfold ofCalls
  rw [List.foldl_append, List.foldl_cons, List.foldl_nil]

/-- The tables hold what the calls asked for: the entries are those of the granted calls, and the paths
are those of all calls, also of the refused ones. -/
structure Follows (ledger : Ledger) (calls : List Call) : Prop where
  delimiter : ∀ space, (ledger.symbols.table space).delimiter = delimiterAfter space calls
  wellCut : ∀ space, (ledger.symbols.table space).WellCut
  entries : ∀ space, (ledger.symbols.table space).entries.map (·.toSymbol) = ledger.registered space
  paths : ∀ space path, path ∈ (ledger.symbols.table space).paths ↔
    ∃ delimiter name, CalledUnder calls space delimiter name ∧ path = Table.split { delimiter } name

theorem follows_nil : Follows {} [] where
  delimiter := fun space => by cases space <;> rfl
  wellCut := fun space => by cases space <;> exact .empty
  entries := fun space => by cases space <;> rfl
  paths := fun space path => by
    refine ⟨fun h => ?_, ?_⟩
    · cases space <;> cases h
    · rintro ⟨delimiter, name, ⟨before, call, hprefix, -⟩, -⟩
      exact absurd (List.prefix_nil.mp hprefix) (by simp)

theorem mem_paths_concat {calls : List Call} {last : Call} {space : Namespace} {path : List String} :
    (∃ delimiter name, CalledUnder (calls ++ [last]) space delimiter name ∧
        path = Table.split { delimiter } name) ↔
      (∃ delimiter name, CalledUnder calls space delimiter name ∧
        path = Table.split { delimiter } name) ∨
      last.space = space ∧
        path = Table.split { delimiter := delimiterAfter space (calls ++ [last]) } last.name := by
  simp only [calledUnder_concat, or_and_right, exists_or]
  refine or_congr_right ⟨?_, ?_⟩
  · rintro ⟨_, _, ⟨hspace, rfl, rfl⟩, hpath⟩
    exact ⟨hspace, hpath⟩
  · rintro ⟨hspace, hpath⟩
    exact ⟨_, _, ⟨hspace, rfl, rfl⟩, hpath⟩

section step

variable {ledger : Ledger} {calls : List Call} {last : Call} {table : Table} {granted : List Request}

theorem Follows.setTable (follows : ledger.Follows calls)
    (hdelimiter : table.delimiter = delimiterAfter last.space (calls ++ [last]))
    (wellCut : table.WellCut)
    (hentries : ∀ space, (Ledger.mk ledger.symbols granted).registered space =
      if space = last.space then table.entries.map (·.toSymbol) else ledger.registered space)
    (hpaths : ∀ path, path ∈ table.paths ↔
      path ∈ (ledger.symbols.table last.space).paths ∨ path = table.split last.name) :
    Follows ⟨ledger.symbols.setTable last.space table, granted⟩ (calls ++ [last]) := by
  constructor
  · intro space
    dsimp only
    rw [table_setTable]
    by_cases hspace : space = last.space
    · rw [if_pos hspace, hdelimiter, hspace]
    · rw [if_neg hspace, follows.delimiter, delimiterAfter_concat, if_neg (Ne.symm hspace)]
  · intro space
    dsimp only
    rw [table_setTable]
    split
    · exact wellCut
    · exact follows.wellCut space
  · intro space
    change _ = (Ledger.mk ledger.symbols granted).registered space
    dsimp only
    rw [table_setTable, hentries]
    split
    · rfl
    · exact follows.entries space
  · intro space path
    dsimp only
    rw [table_setTable, mem_paths_concat, ← follows.paths]
    by_cases hspace : space = last.space
    · subst hspace
      have hsplit : Table.split { delimiter := delimiterAfter last.space (calls ++ [last]) } last.name =
          table.split last.name := by
        rw [← hdelimiter]
        rfl
      rw [if_pos rfl, hpaths, hsplit]
      simp only [true_and]
    · rw [if_neg hspace]
      simp only [Ne.symm hspace, false_and, or_false]

theorem Follows.call (follows : ledger.Follows calls) (last : Call) :
    (ledger.call last).Follows (calls ++ [last]) := by
  have hdelimiter : ((ledger.symbols.table last.space).adoptDelimiter last.delimiter).delimiter =
      delimiterAfter last.space (calls ++ [last]) := by
    rw [delimiterAfter_concat, if_pos rfl, ← follows.delimiter]
    rfl
  have wellCut := (follows.wellCut last.space).adoptDelimiter last.delimiter
  unfold Ledger.call
  rcases register_cases ledger.symbols last with ⟨hfree, hgranted⟩ | ⟨htaken, fault, hrefused⟩
  · rw [hgranted]
    refine follows.setTable hdelimiter (wellCut.add hfree last.place) (fun space => ?_) fun path => ?_
    · rw [registered_append, Table.toSymbol_add]
      by_cases hspace : space = last.space
      · subst hspace
        rw [if_pos rfl, if_pos rfl]
        exact congrArg (· ++ [_]) (follows.entries _).symm
      · rw [if_neg hspace, if_neg (Ne.symm hspace), List.append_nil]
    · rw [Table.paths_add, List.mem_append, List.mem_singleton]
      rfl
  · rw [hrefused]
    refine follows.setTable hdelimiter wellCut (fun space => ?_) fun path => ?_
    · split
      · next hspace =>
        subst hspace
        exact (follows.entries _).symm
      · rfl
    · refine ⟨.inl, ?_⟩
      rintro (hpath | rfl)
      · exact hpath
      · exact htaken

end step

theorem follows_ofCalls (calls : List Call) : (ofCalls calls).Follows calls := by
  induction calls using List.reverseRecOn with
  | nil => exact follows_nil
  | append_singleton calls last ih =>
    rw [ofCalls_concat]
    exact ih.call last

end Ledger
end TagSchema.Symbols
