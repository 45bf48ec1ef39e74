import Mathlib.Data.List.Nodup
import TagSchema.Proofs.Listing

/-! Whole runs of registrations in which each namespace keeps to one delimiter. All that the symbols
can be asked afterwards is determined by the requests that were granted, in their order. -/
namespace TagSchema

instance (delimiter : Option Char) (name full : String) : Decidable (Answers delimiter name full) :=
  decidable_of_iff (name ∈ Symbols.Table.suffixNames { delimiter }
    (Symbols.Table.split { delimiter } full)) Symbols.Table.mem_suffixNames_split

namespace Symbols

theorem Table.delimiter_listing {delimiter : Option Char} {symbols : List Symbol} (h : symbols ≠ []) :
    (listing delimiter symbols).delimiter = delimiter := by
  simp [listing, h]

theorem Table.suffixNames_congr {table other : Table} (h : table.delimiter = other.delimiter) :
    table.suffixNames = other.suffixNames := by
  funext segments
  induction segments with
  | nil => rfl
  | cons segment rest ih => rw [suffixNames, suffixNames, ih, join, join, h]

theorem Table.suffixNames_listing {delimiter : Option Char} {symbols : List Symbol} (h : symbols ≠ []) :
    (listing delimiter symbols).suffixNames = suffixNames { delimiter } :=
  suffixNames_congr (delimiter_listing h)

theorem Table.answersTo_listing {delimiter : Option Char} {symbols : List Symbol} (h : symbols ≠ [])
    (name : String) (symbol : Symbol) :
    (listing delimiter symbols).answersTo name ⟨symbol, split { delimiter } symbol.name⟩ =
      decide (Answers delimiter name symbol.name) := by
  rw [answersTo, suffixNames_listing h, List.contains_eq_mem, decide_eq_decide]
  exact mem_suffixNames_split

theorem filter_answers_name (delimiter : Option Char) (symbols : List Symbol) (name : String) :
    (symbols.filter fun symbol => Answers delimiter name symbol.name).filter (·.name == name) =
      symbols.filter (·.name = name) := by
  rw [List.filter_filter]
  refine List.filter_congr fun symbol _ => ?_
  by_cases hname : symbol.name = name <;> simp [hname, Answers]

theorem Table.lookup_listing (delimiter : Option Char) (symbols : List Symbol) (name : String) :
    (listing delimiter symbols).lookup name =
      match symbols.filter (·.name = name) with
      | [] => symbols.filter fun symbol => Answers delimiter name symbol.name
      | exact => exact := by
  by_cases hnil : symbols = []
  · simp [hnil, lookup, listing]
  · have hentries : (listing delimiter symbols).entries =
        symbols.map fun symbol => ⟨symbol, split { delimiter } symbol.name⟩ := rfl
    have hfound : ((listing delimiter symbols).entries.filter
        ((listing delimiter symbols).answersTo name)).map (·.toSymbol) =
        symbols.filter fun symbol => Answers delimiter name symbol.name := by
      simp [hentries, List.filter_map, Function.comp_def, answersTo_listing hnil]
    cases hnamed : symbols.filter (·.name = name) <;>
      simp only [lookup, hfound, filter_answers_name, hnamed]

structure Request where
  name : String
  space : Namespace
  place : Place
  deriving DecidableEq, Repr

/-- Symbols with the requests that were granted on the way to them, in their order. -/
structure Ledger where
  symbols : Symbols := {}
  granted : List Request := []
  deriving DecidableEq, Repr

namespace Ledger

def registered (ledger : Ledger) (space : Namespace) : List Symbol :=
  (ledger.granted.filter (·.space = space)).map fun request => ⟨request.name, request.place⟩

variable (delimiter : Namespace → Option Char)

def enter (ledger : Ledger) (request : Request) : Ledger :=
  match register request.name request.space request.place (delimiter request.space)
      ledger.symbols with
  | .ok () symbols => ⟨symbols, ledger.granted ++ [request]⟩
  | .error _ symbols => ⟨symbols, ledger.granted⟩

def ofRequests (requests : List Request) : Ledger := requests.foldl (enter delimiter) {}

structure Exact (ledger : Ledger) : Prop where
  tables : ∀ space, ledger.symbols.table space = .listing (delimiter space) (ledger.registered space)
  distinct : ∀ space, ((ledger.registered space).map (·.name)).Nodup

variable {delimiter} {ledger : Ledger}

theorem registered_append (granted : List Request) (symbols : Symbols) (request : Request)
    (space : Namespace) :
    (Ledger.mk symbols (granted ++ [request])).registered space =
      (Ledger.mk symbols granted).registered space ++
        if request.space = space then [⟨request.name, request.place⟩] else [] := by
  by_cases h : request.space = space <;> simp [registered, h]

theorem exact_empty : Exact delimiter {} :=
  ⟨fun space => by cases space <;> rfl, fun _ => .nil⟩

theorem Exact.register_cases (exact : Exact delimiter ledger) (request : Request) :
    ((∀ symbol ∈ ledger.registered request.space, symbol.name ≠ request.name) ∧
      register request.name request.space request.place (delimiter request.space) ledger.symbols =
        .ok () (ledger.symbols.setTable request.space (.listing (delimiter request.space)
          (ledger.registered request.space ++ [⟨request.name, request.place⟩])))) ∨
    ∃ first ∈ ledger.registered request.space, first.name = request.name ∧
      register request.name request.space request.place (delimiter request.space) ledger.symbols =
        .error ⟨.registeredBefore request.name request.space first.place, none, request.place⟩
          ledger.symbols := by
  have htable := exact.tables request.space
  cases hfirst : (ledger.registered request.space).find? (·.name = request.name) with
  | none =>
    have hnew : ∀ symbol ∈ ledger.registered request.space, symbol.name ≠ request.name := by
      simpa using hfirst
    exact .inl ⟨hnew, register_listing_new htable hnew request.place⟩
  | some first =>
    have hname : first.name = request.name := by simpa using List.find?_some hfirst
    exact .inr ⟨first, List.mem_of_find?_eq_some hfirst, hname,
      register_listing_taken htable hfirst request.place⟩

theorem Exact.enter (exact : Exact delimiter ledger) (request : Request) :
    Exact delimiter (ledger.enter delimiter request) := by
  unfold Ledger.enter
  rcases exact.register_cases request with ⟨hnew, hgranted⟩ | ⟨first, -, -, hrefused⟩
  · rw [hgranted]
    refine ⟨fun space => ?_, fun space => ?_⟩
    · rw [registered_append, table_setTable]
      by_cases hspace : space = request.space
      · simp [hspace, registered]
      · simp [hspace, Ne.symm hspace, exact.tables space, registered]
    · rw [registered_append]
      by_cases hspace : request.space = space
      · subst hspace
        rw [if_pos rfl, List.map_append, List.nodup_append]
        refine ⟨exact.distinct _, List.nodup_singleton _, ?_⟩
        intro name hname last hlast
        obtain ⟨symbol, hsymbol, rfl⟩ := List.mem_map.mp hname
        cases List.mem_singleton.mp hlast
        exact hnew symbol hsymbol
      · rw [if_neg hspace, List.append_nil]
        exact exact.distinct space
  · rw [hrefused]
    exact exact

theorem exact_ofRequests (requests : List Request) :
    Exact delimiter (ofRequests delimiter requests) := by
  have run (requests : List Request) (ledger : Ledger) (exact : Exact delimiter ledger) :
      Exact delimiter (requests.foldl (Ledger.enter delimiter) ledger) := by
    induction requests generalizing ledger with
    | nil => exact exact
    | cons request rest ih => exact ih _ (exact.enter request)
  exact run requests {} exact_empty

/-- What can be asked about the names of a namespace, by the requests that were granted. -/
structure Answered (delimiter : Namespace → Option Char) (ledger : Ledger) (space : Namespace) :
    Prop where
  refused_iff : ∀ name place,
    (∃ fault after, register name space place (delimiter space) ledger.symbols = .error fault after) ↔
      ∃ first ∈ ledger.registered space, first.name = name
  conflict : ∀ name place fault after,
    register name space place (delimiter space) ledger.symbols = .error fault after →
      fault.kind = .registrationConflict ∧ fault.place = place ∧
        ∃ first ∈ ledger.registered space, first.name = name ∧ fault.message =
          s!"duplicate registration {name} in {space}; previously defined at {first.place}"
  resolves_iff : ∀ name, ledger.symbols.resolves name space ↔
    ∃ symbol ∈ ledger.registered space, Answers (delimiter space) name symbol.name
  lookup_exact : ∀ symbol ∈ ledger.registered space,
    ledger.symbols.lookup symbol.name space = [symbol]
  lookup_suffix : ∀ name, (∀ symbol ∈ ledger.registered space, symbol.name ≠ name) →
    ledger.symbols.lookup name space =
      (ledger.registered space).filter fun symbol => Answers (delimiter space) name symbol.name
  byName_perm : (ledger.symbols.byName space).Perm (ledger.registered space)
  byName_ascending : (ledger.symbols.byName space).Pairwise (·.name < ·.name)

theorem filter_name_of_mem {symbols : List Symbol} (hdistinct : (symbols.map (·.name)).Nodup)
    {symbol : Symbol} (hsymbol : symbol ∈ symbols) :
    symbols.filter (·.name = symbol.name) = [symbol] := by
  induction symbols with
  | nil => cases hsymbol
  | cons head rest ih =>
    rw [List.map_cons, List.nodup_cons] at hdistinct
    rcases List.mem_cons.mp hsymbol with rfl | hrest
    · have hnone : rest.filter (·.name = symbol.name) = [] := by
        simp only [List.filter_eq_nil_iff, decide_eq_true_eq]
        intro other hother hname
        exact hdistinct.1 (List.mem_map.mpr ⟨other, hother, hname⟩)
      simp [hnone]
    · have hne : head.name ≠ symbol.name := by
        intro hname
        exact hdistinct.1 (List.mem_map.mpr ⟨symbol, hrest, hname.symm⟩)
      simpa [hne] using ih hdistinct.2 hrest

section answers

variable {space : Namespace} {name : String} {place : Place}

theorem Exact.refused_iff (exact : Exact delimiter ledger) :
    (∃ fault after, register name space place (delimiter space) ledger.symbols = .error fault after) ↔
      ∃ first ∈ ledger.registered space, first.name = name := by
  rcases exact.register_cases ⟨name, space, place⟩ with
    ⟨hnew, hgranted⟩ | ⟨first, hfirst, hname, hrefused⟩
  · simpa [hgranted] using hnew
  · exact ⟨fun _ => ⟨first, hfirst, hname⟩, fun _ => ⟨_, _, hrefused⟩⟩

theorem Exact.conflict (exact : Exact delimiter ledger) {fault : Fault} {after : Symbols}
    (h : register name space place (delimiter space) ledger.symbols = .error fault after) :
    fault.kind = .registrationConflict ∧ fault.place = place ∧
      ∃ first ∈ ledger.registered space, first.name = name ∧ fault.message =
        s!"duplicate registration {name} in {space}; previously defined at {first.place}" := by
  rcases exact.register_cases ⟨name, space, place⟩ with
    ⟨-, hgranted⟩ | ⟨first, hfirst, hname, hrefused⟩
  · cases hgranted.symm.trans h
  · cases hrefused.symm.trans h
    exact ⟨rfl, rfl, first, hfirst, hname, rfl⟩

theorem Exact.resolves_iff (exact : Exact delimiter ledger) : ledger.symbols.resolves name space ↔
    ∃ symbol ∈ ledger.registered space, Answers (delimiter space) name symbol.name := by
  rw [resolves, exact.tables space, Table.resolves_listing]

theorem Exact.lookup_exact (exact : Exact delimiter ledger) {symbol : Symbol}
    (hsymbol : symbol ∈ ledger.registered space) :
    ledger.symbols.lookup symbol.name space = [symbol] := by
  rw [lookup, exact.tables space, Table.lookup_listing,
    filter_name_of_mem (exact.distinct space) hsymbol]

theorem Exact.lookup_suffix (exact : Exact delimiter ledger)
    (hnew : ∀ symbol ∈ ledger.registered space, symbol.name ≠ name) :
    ledger.symbols.lookup name space =
      (ledger.registered space).filter fun symbol => Answers (delimiter space) name symbol.name := by
  have hnone : (ledger.registered space).filter (·.name = name) = [] := by
    simpa using hnew
  rw [lookup, exact.tables space, Table.lookup_listing, hnone]

end answers

theorem answered_ofRequests (delimiter : Namespace → Option Char) (requests : List Request)
    (space : Namespace) : Answered delimiter (ofRequests delimiter requests) space := by
  have exact : Exact delimiter (ofRequests delimiter requests) := exact_ofRequests requests
  refine ⟨fun name place => exact.refused_iff, fun name place fault after => exact.conflict,
    fun name => exact.resolves_iff, fun symbol => exact.lookup_exact, fun name => exact.lookup_suffix,
    ?_, ?_⟩
  · rw [byName, exact.tables space]
    exact Table.byName_listing_perm _ _
  · rw [byName, exact.tables space]
    exact Table.byName_listing_pairwise _ (exact.distinct space)

end Ledger
end Symbols
end TagSchema
