import Mathlib.Data.Fintype.EquivFin
import TagSchema.Proofs.Uniqueness
import TagSchema.Proofs.Concordance

/-! What a refused registration leaves behind. It adds no symbol, so every question is answered as before.
But it may have brought its namespace the delimiter, and then later names are cut that would have stayed
whole. -/
namespace TagSchema.Symbols

structure SameAnswers (symbols other : Symbols) : Prop where
  resolves : ∀ name space, symbols.resolves name space = other.resolves name space
  lookup : ∀ name space, symbols.lookup name space = other.lookup name space
  byName : ∀ space, symbols.byName space = other.byName space
  isEmpty : symbols.isEmpty = other.isEmpty
  display : symbols.display = other.display

theorem SameAnswers.refl (symbols : Symbols) : symbols.SameAnswers symbols :=
  ⟨fun _ _ => rfl, fun _ _ => rfl, fun _ => rfl, rfl, rfl⟩

theorem SameAnswers.symm {symbols other : Symbols} (h : symbols.SameAnswers other) :
    other.SameAnswers symbols :=
  ⟨fun name space => (h.resolves name space).symm, fun name space => (h.lookup name space).symm,
    fun space => (h.byName space).symm, h.isEmpty.symm, h.display.symm⟩

theorem SameAnswers.trans {symbols between other : Symbols} (h : symbols.SameAnswers between)
    (hother : between.SameAnswers other) : symbols.SameAnswers other :=
  ⟨fun name space => (h.resolves name space).trans (hother.resolves name space),
    fun name space => (h.lookup name space).trans (hother.lookup name space),
    fun space => (h.byName space).trans (hother.byName space), h.isEmpty.trans hother.isEmpty,
    h.display.trans hother.display⟩

theorem sameAnswers_of_tables {symbols other : Symbols} (wellCut : ∀ space, (symbols.table space).WellCut)
    (wellCut' : ∀ space, (other.table space).WellCut)
    (hentries : ∀ space, (symbols.table space).entries = (other.table space).entries)
    (hindex : ∀ space, (symbols.table space).index = (other.table space).index) :
    symbols.SameAnswers other := by
  have houtline (space : Namespace) : (symbols.table space).outline = (other.table space).outline := by
    rw [Table.outline, Table.outline, hentries]
  have hempty : symbols.isEmpty = other.isEmpty := by
    simp only [isEmpty, hentries]
  refine ⟨fun name space => ?_, fun name space => ?_, fun space => ?_, hempty, ?_⟩
  · rw [Bool.eq_iff_iff, resolves, resolves, (wellCut space).resolves_iff, (wellCut' space).resolves_iff,
      hindex]
  · rw [lookup, lookup, (wellCut space).lookup_eq, (wellCut' space).lookup_eq, hindex]
  · rw [byName, byName, Table.byName, Table.byName, hentries]
  · simp only [display, hempty, hentries, houtline]

def attempt (symbols : Symbols) (call : Call) : Option Fault × Symbols :=
  match register call.name call.space call.place call.delimiter symbols with
  | .ok () after => (none, after)
  | .error fault after => (some fault, after)

theorem attempt_eq_some {symbols after : Symbols} {call : Call} {fault : Fault} :
    symbols.attempt call = (some fault, after) ↔
      register call.name call.space call.place call.delimiter symbols = .error fault after := by
  unfold attempt
  cases register call.name call.space call.place call.delimiter symbols <;> simp

theorem kind_of_refused {symbols after : Symbols} {name : String} {space : Namespace} {place : Place}
    {delimiter : Option Char} {fault : Fault}
    (h : register name space place delimiter symbols = .error fault after) :
    fault.kind = .registrationConflict := by
  unfold register at h
  dsimp only at h
  split at h
  · cases h
    rfl
  · cases h

def attemptAll (symbols : Symbols) : List Call → List (Option Fault) × Symbols
  | [] => ([], symbols)
  | call :: calls =>
    let (outcome, after) := symbols.attempt call
    let (outcomes, last) := after.attemptAll calls
    (outcome :: outcomes, last)

/-- No later calls tell the symbols apart, neither by what becomes of them nor by the answers then. -/
def Indistinguishable (symbols other : Symbols) : Prop :=
  ∀ later, (symbols.attemptAll later).1 = (other.attemptAll later).1 ∧
    (symbols.attemptAll later).2.SameAnswers (other.attemptAll later).2

theorem Indistinguishable.refl (symbols : Symbols) : symbols.Indistinguishable symbols :=
  fun _ => ⟨rfl, .refl _⟩

namespace Table.WellCut

variable {table : Table}

theorem resolves_iff_of_none (wellCut : table.WellCut) (hnone : table.delimiter = none) (name : String) :
    table.resolves name ↔ ∃ entry ∈ table.entries, entry.name = name := by
  rw [wellCut.resolves_iff, exists_mem_index]
  refine exists_congr fun entry => and_congr_right fun hentry => ?_
  rw [answersTo, wellCut.whole hnone hentry, suffixNames, suffixNames, join_singleton, List.contains_iff_mem,
    List.mem_singleton, eq_comm]

theorem split_not_mem_paths (wellCut : table.WellCut) (hnone : table.delimiter = none) {c : Char}
    {name : String} (hc : c ∈ name.toList) :
    (table.adoptDelimiter (some c)).split name ∉ (table.adoptDelimiter (some c)).paths := by
  intro hmem
  obtain ⟨entry, hentry, hsegments⟩ := List.mem_map.mp hmem
  have hname : entry.name = name :=
    ((wellCut.adoptDelimiter (some c)).name_iff hentry).mpr (.inr hsegments)
  have huncut := split_eq_singleton_iff.mp (hsegments.symm.trans (hname ▸ wellCut.whole hnone hentry))
  have hdelimiter : (table.adoptDelimiter (some c)).delimiter = some c := by
    rw [Table.adoptDelimiter, hnone, Option.none_or]
  exact huncut c hdelimiter hc

theorem resolves_add (wellCut : table.WellCut) {name suffix : String}
    (hfree : table.split name ∉ table.paths) (hanswers : Answers table.delimiter suffix name)
    (place : Place) : (table.add name place).resolves suffix := by
  rw [(wellCut.add hfree place).resolves_iff, index_add]
  have hsuffix : suffix ∈ table.suffixNames (table.split name) := mem_suffixNames_split.mpr hanswers
  exact ⟨_, List.mem_append_right _ (List.mem_map_of_mem hsuffix)⟩

end Table.WellCut

namespace Ledger

variable {ledger : Ledger} {calls : List Call} {last : Call} {fault : Fault} {after : Symbols}

/-- A refused call leaves its table with the delimiter that it brought, and nothing else. -/
theorem eq_of_refused
    (h : register last.name last.space last.place last.delimiter ledger.symbols = .error fault after) :
    after = ledger.symbols.setTable last.space
      ((ledger.symbols.table last.space).adoptDelimiter last.delimiter) := by
  rcases register_cases ledger.symbols last with ⟨-, hgranted⟩ | ⟨-, refusal, hrefused⟩
  · cases hgranted.symm.trans h
  · cases hrefused.symm.trans h
    rfl

theorem Follows.sameAnswers_of_refused (follows : ledger.Follows calls)
    (h : register last.name last.space last.place last.delimiter ledger.symbols = .error fault after) :
    after.SameAnswers ledger.symbols := by
  have hadopted := (follows.wellCut last.space).index_adoptDelimiter last.delimiter
  obtain rfl := eq_of_refused h
  refine sameAnswers_of_tables (fun space => ?_) follows.wellCut (fun space => ?_) fun space => ?_ <;>
    rw [table_setTable] <;> split
  · exact (follows.wellCut _).adoptDelimiter _
  · exact follows.wellCut space
  · next hspace =>
    subst hspace
    rfl
  · rfl
  · next hspace =>
    subst hspace
    exact hadopted
  · rfl

theorem eq_of_refused_of_delimiter
    (h : register last.name last.space last.place last.delimiter ledger.symbols = .error fault after)
    (hdelimiter : last.delimiter = none ∨ (ledger.symbols.table last.space).delimiter ≠ none) :
    after = ledger.symbols := by
  have hsame : (ledger.symbols.table last.space).adoptDelimiter last.delimiter =
      ledger.symbols.table last.space := by
    rcases hdelimiter with hnone | hsome
    · rw [Table.adoptDelimiter, hnone, Option.or_none]
    · obtain ⟨c, hc⟩ := Option.ne_none_iff_exists'.mp hsome
      exact Table.adoptDelimiter_of_some hc _
  rw [eq_of_refused h, hsame, setTable_table]

theorem Follows.not_resolves_attempt (follows : ledger.Follows calls) (call : Call)
    (hnone : (ledger.symbols.table call.space).delimiter = none) (hcall : call.delimiter = none)
    {name : String} (hname : call.name ≠ name)
    (hfresh : ∀ entry ∈ (ledger.symbols.table call.space).entries, entry.name ≠ name) :
    (ledger.symbols.attempt call).2.resolves name call.space = false := by
  have wellCut := follows.wellCut call.space
  have hadopted : (ledger.symbols.table call.space).adoptDelimiter call.delimiter =
      ledger.symbols.table call.space := by
    rw [Table.adoptDelimiter, hcall, Option.or_none]
  rw [← Bool.not_eq_true, attempt, resolves]
  rcases register_cases ledger.symbols call with ⟨hfree, hgranted⟩ | ⟨-, refusal, hrefused⟩
  · rw [hadopted] at hfree hgranted
    rw [hgranted]
    dsimp only
    rw [table_setTable, if_pos rfl, (wellCut.add hfree call.place).resolves_iff_of_none hnone]
    rintro ⟨entry, hentry, rfl⟩
    rcases List.mem_append.mp hentry with hold | hnew
    · exact hfresh entry hold rfl
    · cases List.mem_singleton.mp hnew
      exact hname (Table.join_split _ _).symm
  · rw [hadopted] at hrefused
    rw [hrefused]
    dsimp only
    rw [table_setTable, if_pos rfl, wellCut.resolves_iff_of_none hnone]
    rintro ⟨entry, hentry, rfl⟩
    exact hfresh entry hentry rfl

/-- Once a refused call has brought the delimiter, a call that brings none makes what is behind a delimiter
in its name known as well. -/
theorem Follows.resolves_attempt (follows : ledger.Follows calls)
    (h : register last.name last.space last.place last.delimiter ledger.symbols = .error fault after)
    {c : Char} (hc : last.delimiter = some c)
    (hnone : (ledger.symbols.table last.space).delimiter = none) (tail : String) :
    (after.attempt ⟨⟨String.singleton c ++ tail, last.space, last.place⟩, none⟩).2.resolves tail last.space := by
  have wellCut := follows.wellCut last.space
  have hdelimiter : ((ledger.symbols.table last.space).adoptDelimiter (some c)).delimiter = some c := by
    rw [Table.adoptDelimiter, hnone, Option.none_or]
  have htable : after.table last.space = (ledger.symbols.table last.space).adoptDelimiter (some c) := by
    rw [eq_of_refused h, table_setTable, if_pos rfl, hc]
  have hcut : c ∈ (String.singleton c ++ tail).toList := by simp
  have hfree := wellCut.split_not_mem_paths hnone hcut
  have hanswers : Answers (some c) tail (String.singleton c ++ tail) := .inr ⟨c, rfl, "", by simp⟩
  rcases register_cases after ⟨⟨String.singleton c ++ tail, last.space, last.place⟩, none⟩ with
    ⟨-, hgranted⟩ | ⟨htaken, -⟩
  · rw [attempt, hgranted, resolves]
    dsimp only
    rw [table_setTable, if_pos rfl, htable, Table.adoptDelimiter_of_some hdelimiter]
    exact (wellCut.adoptDelimiter (some c)).resolves_add hfree (hdelimiter.symm ▸ hanswers) _
  · dsimp only at htaken
    rw [htable, Table.adoptDelimiter_of_some hdelimiter] at htaken
    exact absurd htaken hfree

theorem Follows.not_indistinguishable (follows : ledger.Follows calls)
    (h : register last.name last.space last.place last.delimiter ledger.symbols = .error fault after)
    {c : Char} (hc : last.delimiter = some c)
    (hnone : (ledger.symbols.table last.space).delimiter = none) :
    ¬ after.Indistinguishable ledger.symbols := by
  intro hsame
  obtain ⟨tail, htail⟩ := Infinite.exists_notMem_finset
    ((ledger.symbols.table last.space).entries.map (·.name)).toFinset
  have hfresh : ∀ entry ∈ (ledger.symbols.table last.space).entries, entry.name ≠ tail := by
    rintro entry hentry rfl
    exact htail (List.mem_toFinset.mpr (List.mem_map_of_mem hentry))
  let later : Call := ⟨⟨String.singleton c ++ tail, last.space, last.place⟩, none⟩
  have hname : later.name ≠ tail := by
    intro heq
    have hlength := congrArg String.length heq
    simp [later] at hlength
  have hbefore : (ledger.symbols.attempt later).2.resolves tail later.space = false :=
    follows.not_resolves_attempt later hnone rfl hname hfresh
  have hafter : (after.attempt later).2.resolves tail later.space = true :=
    follows.resolves_attempt h hc hnone tail
  have hanswer : (after.attempt later).2.resolves tail later.space =
      (ledger.symbols.attempt later).2.resolves tail later.space := (hsame [later]).2.resolves tail later.space
  rw [hbefore, hafter] at hanswer
  cases hanswer

/-- A refused call changes no answer. Later calls tell of it just if it brought a delimiter to a namespace to
which no call before had brought one. -/
theorem refused_traceless_iff (calls : List Call) (last : Call) {fault : Fault} {after : Symbols}
    (h : register last.name last.space last.place last.delimiter (ofCalls calls).symbols =
      .error fault after) :
    fault.kind = .registrationConflict ∧ after.SameAnswers (ofCalls calls).symbols ∧
      (after.Indistinguishable (ofCalls calls).symbols ↔
        last.delimiter = none ∨ delimiterAfter last.space calls ≠ none) := by
  have follows := follows_ofCalls calls
  refine ⟨kind_of_refused h, follows.sameAnswers_of_refused h, ?_⟩
  rw [← follows.delimiter]
  constructor
  · intro hsame
    by_contra hboth
    obtain ⟨hsome, hnone⟩ := not_or.mp hboth
    obtain ⟨c, hc⟩ := Option.ne_none_iff_exists'.mp hsome
    exact follows.not_indistinguishable h hc (not_not.mp hnone) hsame
  · intro hdelimiter
    rw [eq_of_refused_of_delimiter h hdelimiter]
    exact .refl _

/-- Here the delimiter of the refused call comes too late: there is one already. -/
theorem refused_traceless_behind_delimiter :
    let calls : List Call := [⟨⟨"geo.Point", .classes, ⟨"a.talk", 1⟩⟩, some '.'⟩]
    let last : Call := ⟨⟨"geo.Point", .classes, ⟨"b.talk", 1⟩⟩, some '/'⟩
    ∃ fault after, register last.name last.space last.place last.delimiter (ofCalls calls).symbols =
        .error fault after ∧ fault.message =
          "duplicate registration geo.Point in classes; previously defined at a.talk:1" ∧
      after.Indistinguishable (ofCalls calls).symbols := by
  intro calls last
  have h : register last.name last.space last.place last.delimiter (ofCalls calls).symbols =
      .error ⟨.registeredBefore "geo.Point" .classes ⟨"a.talk", 1⟩, none, ⟨"b.talk", 1⟩⟩
        (ofCalls calls).symbols :=
    attempt_eq_some.mp (by decide +kernel)
  obtain ⟨-, -, hlater⟩ := refused_traceless_iff calls last h
  exact ⟨_, _, h, by decide +kernel, hlater.mpr (.inr (by decide))⟩

/-- Here a refused call brings the delimiter that cuts the next name. -/
theorem refused_call_cuts_next_name :
    let calls : List Call := [⟨⟨"a", .classes, ⟨"t.talk", 1⟩⟩, none⟩]
    let refused : Call := ⟨⟨"a", .classes, ⟨"t.talk", 2⟩⟩, some '.'⟩
    let next : Call := ⟨⟨"a.b", .classes, ⟨"t.talk", 3⟩⟩, none⟩
    ∃ fault after, register refused.name refused.space refused.place refused.delimiter
        (ofCalls calls).symbols = .error fault after ∧
      (after.attempt next).2.resolves "b" .classes = true ∧
      ((ofCalls calls).symbols.attempt next).2.resolves "b" .classes = false ∧
      ¬ after.Indistinguishable (ofCalls calls).symbols := by
  intro calls refused next
  have h : register refused.name refused.space refused.place refused.delimiter (ofCalls calls).symbols =
      .error ⟨.registeredBefore "a" .classes ⟨"t.talk", 1⟩, none, ⟨"t.talk", 2⟩⟩
        ((ofCalls calls).symbols.setTable .classes
          { (ofCalls calls).symbols.table .classes with delimiter := some '.' }) :=
    attempt_eq_some.mp (by decide +kernel)
  refine ⟨_, _, h, by decide +kernel, by decide +kernel, fun hsame => ?_⟩
  have hanswer := (hsame [next]).2.resolves "b" .classes
  revert hanswer
  decide +kernel

end Ledger
end TagSchema.Symbols
