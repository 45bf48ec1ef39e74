import TagSchema.Proofs.Calls
import TagSchema.Proofs.Outline

/-! The outline and the index of a table. Both are made from the entries: the outline holds each path with
the place where it was registered, and the index holds each symbol under all suffixes of its path. They
tell of the same symbols, whatever was registered with whatever delimiters. -/
namespace TagSchema.Symbols

structure Leaf where
  path : List String
  place : Place

def Leaf.below (segment : String) (leaf : Leaf) : Leaf := ⟨segment :: leaf.path, leaf.place⟩

namespace Branch

mutual

def leaves : Branch → List Leaf
  | ⟨segment, place, inner⟩ => (place.toList.map (Leaf.mk []) ++ leavesAll inner).map (.below segment)

def leavesAll : List Branch → List Leaf
  | [] => []
  | branch :: level => branch.leaves ++ leavesAll level

end

theorem leaves_eq (branch : Branch) : branch.leaves =
    (branch.place.toList.map (Leaf.mk []) ++ leavesAll branch.inner).map (.below branch.segment) := by
  cases branch
  rw [leaves]

theorem mem_leavesAll {leaf : Leaf} {level : List Branch} :
    leaf ∈ leavesAll level ↔ ∃ branch ∈ level, leaf ∈ branch.leaves := by
  induction level with
  | nil => simp [leavesAll]
  | cons branch level ih => simp [leavesAll, ih]

inductive Within (branch : Branch) : List Branch → Prop where
  | here {level : List Branch} : branch ∈ level → Within branch level
  | inside {level : List Branch} {outer : Branch} : outer ∈ level → Within branch outer.inner →
    Within branch level

def Bears (level : List Branch) : Prop := ∀ branch, Within branch level → branch.leaves ≠ []

theorem bears_nil : Bears [] := by
  rintro branch (hnone | ⟨hnone, -⟩)
  · cases hnone
  · cases hnone

theorem bears_cons {branch : Branch} {level : List Branch} :
    Bears (branch :: level) ↔ branch.leaves ≠ [] ∧ Bears branch.inner ∧ Bears level := by
  constructor
  · intro bears
    refine ⟨bears branch (.here List.mem_cons_self), fun inner hinner => ?_, fun inner hinner => ?_⟩
    · exact bears inner (.inside List.mem_cons_self hinner)
    · refine bears inner ?_
      cases hinner with
      | here hmem => exact .here (List.mem_cons_of_mem _ hmem)
      | inside hmem hinner => exact .inside (List.mem_cons_of_mem _ hmem) hinner
  · rintro ⟨hleaves, hinside, hlevel⟩ inner (hmem | ⟨hmem, hinner⟩)
    · rcases List.mem_cons.mp hmem with rfl | hmem
      · exact hleaves
      · exact hlevel inner (.here hmem)
    · rcases List.mem_cons.mp hmem with rfl | hmem
      · exact hinside inner hinner
      · exact hlevel inner (.inside hmem hinner)

section alter

variable {segment : String} {change : Branch → Branch} {leaf : Leaf} {level : List Branch}

theorem leavesAll_alter (h : ∀ branch ∈ ⟨segment, none, []⟩ :: level, branch.segment = segment →
      (change branch).leaves.Perm (leaf :: branch.leaves)) :
    (leavesAll (alter segment change level)).Perm (leaf :: leavesAll level) := by
  have hnew := h ⟨segment, none, []⟩ List.mem_cons_self rfl
  induction level with
  | nil =>
    rw [alter, leavesAll]
    exact hnew.append_right _
  | cons branch level ih =>
    rcases segment_cases segment branch.segment with hsame | hbefore | hbehind
    · rw [alter_same hsame, leavesAll, leavesAll]
      exact (h branch (by simp) hsame.symm).append_right _
    · rw [alter_before hbefore, leavesAll]
      exact hnew.append_right _
    · rw [alter_behind hbehind, leavesAll, leavesAll]
      have hrest := ih fun other hother => h other (by
        rcases List.mem_cons.mp hother with rfl | hother
        · exact List.mem_cons_self
        · exact List.mem_cons_of_mem _ (List.mem_cons_of_mem _ hother))
      exact (hrest.append_left _).trans List.perm_middle

theorem bears_alter (bears : Bears level)
    (h : ∀ branch ∈ ⟨segment, none, []⟩ :: level, branch.segment = segment →
      Bears branch.inner → Bears [change branch]) : Bears (alter segment change level) := by
  have hnew := h ⟨segment, none, []⟩ List.mem_cons_self rfl bears_nil
  rw [bears_cons] at hnew
  induction level with
  | nil => exact bears_cons.mpr ⟨hnew.1, hnew.2.1, bears_nil⟩
  | cons branch level ih =>
    obtain ⟨hleaves, hinside, hlevel⟩ := bears_cons.mp bears
    rcases segment_cases segment branch.segment with hsame | hbefore | hbehind
    · obtain ⟨hchanged, hbelow, -⟩ := bears_cons.mp (h branch (by simp) hsame.symm hinside)
      rw [alter_same hsame]
      exact bears_cons.mpr ⟨hchanged, hbelow, hlevel⟩
    · rw [alter_before hbefore]
      exact bears_cons.mpr ⟨hnew.1, hnew.2.1, bears⟩
    · rw [alter_behind hbehind]
      refine bears_cons.mpr ⟨hleaves, hinside, ih hlevel fun other hother => h other ?_⟩
      rcases List.mem_cons.mp hother with rfl | hother
      · exact List.mem_cons_self
      · exact List.mem_cons_of_mem _ (List.mem_cons_of_mem _ hother)

end alter

theorem mem_leaves_of_place {branch : Branch} {place : Place} (h : branch.place = some place) :
    ⟨[branch.segment], place⟩ ∈ branch.leaves := by
  rw [leaves_eq, h]
  exact List.mem_cons_self

theorem mem_leaves_of_inner {branch : Branch} {leaf : Leaf} (h : leaf ∈ leavesAll branch.inner) :
    leaf.below branch.segment ∈ branch.leaves := by
  rw [leaves_eq]
  exact List.mem_map_of_mem (List.mem_append_right _ h)

theorem leaves_mark {place : Place} {rest : List String} {branch : Branch}
    (hfree : ∀ leaf ∈ branch.leaves, leaf.path ≠ branch.segment :: rest)
    (hinside : rest ≠ [] → (∀ leaf ∈ leavesAll branch.inner, leaf.path ≠ rest) →
      (leavesAll (insert place rest branch.inner)).Perm (⟨rest, place⟩ :: leavesAll branch.inner)) :
    (mark place rest branch).leaves.Perm (⟨branch.segment :: rest, place⟩ :: branch.leaves) := by
  cases rest with
  | nil =>
    have hnone : branch.place = none := by
      by_contra hplace
      obtain ⟨found, hfound⟩ := Option.ne_none_iff_exists'.mp hplace
      exact hfree _ (mem_leaves_of_place hfound) rfl
    rw [leaves_eq, leaves_eq, hnone]
    rfl
  | cons inner rest =>
    have hgains := hinside (List.cons_ne_nil _ _) fun leaf hleaf hpath =>
      hfree _ (mem_leaves_of_inner hleaf) (congrArg (branch.segment :: ·) hpath)
    have hadded := ((hgains.append_left (branch.place.toList.map (Leaf.mk []))).trans
      List.perm_middle).map (Leaf.below branch.segment)
    rw [leaves_eq, leaves_eq]
    exact hadded

theorem leavesAll_insert {path : List String} (hpath : path ≠ []) (place : Place) {level : List Branch}
    (hfree : ∀ leaf ∈ leavesAll level, leaf.path ≠ path) :
    (leavesAll (insert place path level)).Perm (⟨path, place⟩ :: leavesAll level) := by
  induction path generalizing level with
  | nil => exact absurd rfl hpath
  | cons segment rest ih =>
    rw [insert_cons]
    refine leavesAll_alter fun branch hbranch hsegment => ?_
    subst hsegment
    refine leaves_mark (fun leaf hleaf => ?_) fun hrest hinside => ih hrest hinside
    rcases List.mem_cons.mp hbranch with hnew | hbranch
    · rw [hnew, leaves_eq] at hleaf
      cases hleaf
    · exact hfree leaf (mem_leavesAll.mpr ⟨branch, hbranch, hleaf⟩)

theorem leavesAll_ne_nil {level : List Branch} (bears : Bears level) (h : level ≠ []) :
    leavesAll level ≠ [] := by
  obtain ⟨branch, rest, rfl⟩ := List.exists_cons_of_ne_nil h
  rw [leavesAll]
  exact List.append_ne_nil_of_left_ne_nil (bears_cons.mp bears).1 _

theorem insert_ne_nil {path : List String} (hpath : path ≠ []) (place : Place) (level : List Branch) :
    insert place path level ≠ [] := by
  obtain ⟨segment, rest, rfl⟩ := List.exists_cons_of_ne_nil hpath
  rw [insert_cons]
  cases level with
  | nil => exact List.cons_ne_nil _ _
  | cons branch level =>
    rw [alter]
    split
    · exact List.cons_ne_nil _ _
    · split <;> exact List.cons_ne_nil _ _

theorem bears_insert {path : List String} (hpath : path ≠ []) (place : Place) {level : List Branch}
    (bears : Bears level) : Bears (insert place path level) := by
  induction path generalizing level with
  | nil => exact absurd rfl hpath
  | cons segment rest ih =>
    rw [insert_cons]
    refine bears_alter bears fun branch hbranch hsegment hinside => ?_
    cases rest with
    | nil =>
      have hplace : (⟨[branch.segment], place⟩ : Leaf) ∈ (mark place [] branch).leaves :=
        mem_leaves_of_place rfl
      exact bears_cons.mpr ⟨List.ne_nil_of_mem hplace, hinside, bears_nil⟩
    | cons inner rest =>
      have hbears := ih (List.cons_ne_nil inner rest) hinside
      have hleaves := leavesAll_ne_nil hbears (insert_ne_nil (List.cons_ne_nil inner rest) place _)
      obtain ⟨leaf, hleaf⟩ := List.exists_mem_of_ne_nil _ hleaves
      have hmarked : leaf.below branch.segment ∈ (mark place (inner :: rest) branch).leaves :=
        mem_leaves_of_inner hleaf
      exact bears_cons.mpr ⟨List.ne_nil_of_mem hmarked, hbears, bears_nil⟩

end Branch

namespace Table

variable {table : Table}

/-- Each symbol under every suffix of its path, in the order of registration. -/
def index (table : Table) : List (String × Symbol) :=
  table.entries.flatMap fun entry => (table.suffixNames entry.segments).map (·, entry.toSymbol)

def leafOf (entry : Symbol.Entry) : Leaf := ⟨entry.segments, entry.place⟩

theorem leavesAll_outline (wellCut : table.WellCut) :
    (Branch.leavesAll table.outline).Perm (table.entries.map leafOf) ∧ Branch.Bears table.outline := by
  -- Induction on the entries: each is inserted at a path that is still free.
  have hpath : ∀ entry ∈ table.entries, entry.segments ≠ [] := fun _ => wellCut.segments_ne_nil
  have hdistinct := wellCut.distinct
  unfold paths at hdistinct
  unfold outline
  generalize table.entries = entries at hpath hdistinct
  induction entries using List.reverseRecOn with
  | nil => exact ⟨.nil, Branch.bears_nil⟩
  | append_singleton entries last ih =>
    rw [List.forall_mem_append, List.forall_mem_singleton] at hpath
    rw [List.map_append, List.nodup_append, List.map_singleton] at hdistinct
    obtain ⟨hleaves, bears⟩ := ih hpath.1 hdistinct.1
    have hfree : ∀ leaf ∈ Branch.leavesAll (entries.foldl (fun level entry =>
        Branch.insert entry.place entry.segments level) []), leaf.path ≠ last.segments := by
      intro leaf hleaf
      obtain ⟨entry, hentry, rfl⟩ := List.mem_map.mp (hleaves.mem_iff.mp hleaf)
      exact hdistinct.2.2 _ (List.mem_map_of_mem hentry) _ (List.mem_singleton_self _)
    rw [List.foldl_append, List.foldl_cons, List.foldl_nil, List.map_append, List.map_singleton]
    refine ⟨?_, Branch.bears_insert hpath.2 _ bears⟩
    have hgains := Branch.leavesAll_insert hpath.2 last.place hfree
    exact (hgains.trans (hleaves.cons _)).trans (List.perm_append_singleton _ _).symm

theorem nodup_suffixNames {c : Char} (h : table.delimiter = some c) (segments : List String) :
    (table.suffixNames segments).Nodup := by
  -- Each suffix of a path is shorter than the path, so none comes twice.
  induction segments with
  | nil => exact .nil
  | cons segment rest ih =>
    rw [suffixNames, List.nodup_cons]
    refine ⟨fun hmem => ?_, ih⟩
    obtain ⟨before, suffix, rfl, hsuffix, hsame⟩ := mem_suffixNames.mp hmem
    have hlonger : table.join (segment :: (before ++ suffix)) =
        table.join (segment :: before) ++ String.singleton c ++ table.join suffix := by
      unfold join
      rw [h]
      exact String.intercalate_append_of_ne_nil (List.cons_ne_nil segment before) hsuffix
    have hlength := congrArg String.length (hsame.symm.trans hlonger)
    simp only [String.length_append, String.length_singleton] at hlength
    omega

theorem WellCut.nodup_suffixNames (wellCut : table.WellCut) {entry : Symbol.Entry}
    (h : entry ∈ table.entries) : (table.suffixNames entry.segments).Nodup := by
  cases hdelimiter : table.delimiter with
  | none =>
    rw [wellCut.whole hdelimiter h]
    exact List.nodup_singleton _
  | some c => exact Table.nodup_suffixNames hdelimiter _

theorem WellCut.name_mem_suffixNames (wellCut : table.WellCut) {entry : Symbol.Entry}
    (h : entry ∈ table.entries) : entry.name ∈ table.suffixNames entry.segments := by
  obtain ⟨segment, rest, hsegments⟩ := List.exists_cons_of_ne_nil (wellCut.segments_ne_nil h)
  rw [← wellCut.join_segments h, hsegments, suffixNames]
  exact List.mem_cons_self

theorem WellCut.filter_suffixNames (wellCut : table.WellCut) {entry : Symbol.Entry}
    (h : entry ∈ table.entries) (name : String) :
    (table.suffixNames entry.segments).filter (· = name) =
      if table.answersTo name entry then [name] else [] := by
  rw [List.filter_eq, (wellCut.nodup_suffixNames h).count, answersTo, List.contains_eq_mem]
  by_cases hname : name ∈ table.suffixNames entry.segments <;> simp [hname]

theorem WellCut.found_index (wellCut : table.WellCut) (name : String) :
    (table.index.filter (·.1 = name)).map (·.2) =
      (table.entries.filter (table.answersTo name)).map (·.toSymbol) := by
  have hentry : ∀ entry ∈ table.entries,
      (((table.suffixNames entry.segments).map (·, entry.toSymbol)).filter (·.1 = name)).map (·.2) =
        if table.answersTo name entry then [entry.toSymbol] else [] := by
    intro entry hentry
    rw [List.filter_map, List.map_map]
    have hsuffixes := wellCut.filter_suffixNames hentry name
    simp only [Function.comp_def] at hsuffixes ⊢
    rw [hsuffixes]
    split <;> rfl
  unfold index
  rw [List.filter_flatMap, List.map_flatMap, List.flatMap_congr hentry]
  induction table.entries with
  | nil => rfl
  | cons entry entries ih =>
    rw [List.flatMap_cons, ih, List.filter_cons]
    split <;> rfl

theorem WellCut.named_index (wellCut : table.WellCut) :
    (table.index.filter fun listed => listed.2.name = listed.1).map (·.2) =
      table.entries.map (·.toSymbol) := by
  have hentry : ∀ entry ∈ table.entries,
      (((table.suffixNames entry.segments).map (·, entry.toSymbol)).filter fun listed =>
        listed.2.name = listed.1).map (·.2) = [entry.toSymbol] := by
    intro entry hentry
    have hown : table.answersTo entry.name entry :=
      List.contains_iff_mem.mpr (wellCut.name_mem_suffixNames hentry)
    have hsuffixes := wellCut.filter_suffixNames hentry entry.name
    rw [if_pos hown] at hsuffixes
    rw [List.filter_map, List.map_map]
    simp only [Function.comp_def, eq_comm (a := entry.name)]
    rw [hsuffixes]
    rfl
  unfold index
  rw [List.filter_flatMap, List.map_flatMap, List.flatMap_congr hentry, List.map_eq_flatMap]

theorem WellCut.index_adoptDelimiter (wellCut : table.WellCut) (delimiter : Option Char) :
    (table.adoptDelimiter delimiter).index = table.index := by
  -- A delimiter that is new meets whole names only, which have one suffix.
  cases hdelimiter : table.delimiter with
  | none =>
    refine List.flatMap_congr fun entry hentry => ?_
    simp only [wellCut.whole hdelimiter hentry, suffixNames, join_singleton]
  | some c => rw [adoptDelimiter_of_some hdelimiter]

theorem delimiter_add (table : Table) (name : String) (place : Place) :
    (table.add name place).delimiter = table.delimiter := rfl

theorem index_add (table : Table) (name : String) (place : Place) :
    (table.add name place).index =
      table.index ++ (table.suffixNames (table.split name)).map (·, ⟨name, place⟩) := by
  unfold index
  rw [suffixNames_congr (delimiter_add table name place), add,
    List.flatMap_append, List.flatMap_singleton, join_split]

theorem WellCut.lookup_eq (wellCut : table.WellCut) (name : String) :
    let found := (table.index.filter (·.1 = name)).map (·.2)
    table.lookup name = if found.filter (·.name == name) = [] then found
      else found.filter (·.name == name) := by
  intro found
  have hfound : (table.entries.filter (table.answersTo name)).map (·.toSymbol) = found :=
    (wellCut.found_index name).symm
  simp only [lookup, hfound]
  cases hnamed : found.filter (·.name == name) with
  | nil => rw [if_pos rfl]
  | cons symbol rest => rw [if_neg (List.cons_ne_nil _ _)]

theorem outline_add (table : Table) (name : String) (place : Place) :
    (table.add name place).outline = Branch.insert place (table.split name) table.outline := by
  unfold outline add
  rw [List.foldl_append, List.foldl_cons, List.foldl_nil]

theorem exists_mem_index {name : String} : (∃ symbol, (name, symbol) ∈ table.index) ↔
    ∃ entry ∈ table.entries, table.answersTo name entry := by
  simp [index, answersTo]

theorem WellCut.resolves_iff (wellCut : table.WellCut) (name : String) :
    table.resolves name ↔ ∃ symbol, (name, symbol) ∈ table.index := by
  rw [exists_mem_index, resolves, Bool.or_eq_true, List.any_eq_true]
  refine or_iff_right_of_imp fun hexact => ?_
  have hpath : table.split name ∈ table.paths := by
    by_contra hfree
    rw [find?_eq_none.mpr hfree] at hexact
    cases hexact
  obtain ⟨entry, hentry, hsegments⟩ := List.mem_map.mp hpath
  have hname : entry.name = name := by
    rw [← wellCut.join_segments hentry, hsegments, join_split]
  subst hname
  exact ⟨entry, hentry, List.contains_iff_mem.mpr (wellCut.name_mem_suffixNames hentry)⟩

theorem WellCut.lookup_ne_nil_iff (wellCut : table.WellCut) (name : String) :
    table.lookup name ≠ [] ↔ ∃ symbol, (name, symbol) ∈ table.index := by
  have hfound : (table.index.filter (·.1 = name)).map (·.2) ≠ [] ↔
      ∃ symbol, (name, symbol) ∈ table.index := by
    simp [List.filter_eq_nil_iff]
  rw [wellCut.lookup_eq, ← hfound]
  split
  · exact Iff.rfl
  · next hnamed =>
    refine iff_of_true hnamed fun hnone => hnamed ?_
    rw [hnone, List.filter_nil]

end Table

section call

variable {ledger : Ledger} {calls : List Call}

/-- A call changes the outline and the index together, or neither. -/
theorem Ledger.Follows.call_views (follows : ledger.Follows calls) (last : Call) :
    let table := ledger.symbols.table last.space
    let after := (ledger.call last).symbols.table last.space
    (after.outline = table.outline ∧ after.index = table.index) ∨
      after.outline = Branch.insert last.place (after.split last.name) table.outline ∧
      after.index = table.index ++
        (after.suffixNames (after.split last.name)).map (·, ⟨last.name, last.place⟩) := by
  have hadopted := (follows.wellCut last.space).index_adoptDelimiter last.delimiter
  unfold Ledger.call
  rcases register_cases ledger.symbols last with ⟨-, hgranted⟩ | ⟨-, fault, hrefused⟩
  · rw [hgranted]
    dsimp only
    rw [table_setTable, if_pos rfl]
    refine .inr ⟨Table.outline_add _ _ _, ?_⟩
    rw [Table.index_add, hadopted, Table.suffixNames_congr (Table.delimiter_add _ _ _)]
    rfl
  · rw [hrefused]
    dsimp only
    rw [table_setTable, if_pos rfl]
    exact .inl ⟨rfl, hadopted⟩

end call

/-- The outline that is displayed, the index of suffixes and the list by name tell of the same symbols. -/
structure Concordant (symbols : Symbols) (space : Namespace) : Prop where
  leaves : ((Branch.leavesAll (symbols.table space).outline).map fun leaf =>
    (⟨(symbols.table space).join leaf.path, leaf.place⟩ : Symbol)).Perm (symbols.byName space)
  inner : ∀ branch, Branch.Within branch (symbols.table space).outline → branch.place = none →
    Branch.leavesAll branch.inner ≠ []
  named : (((symbols.table space).index.filter fun listed => listed.2.name = listed.1).map (·.2)).Perm
    (symbols.byName space)
  resolves_iff : ∀ name, symbols.resolves name space ↔ symbols.lookup name space ≠ []

theorem concordant_of_wellCut {symbols : Symbols} {space : Namespace}
    (wellCut : (symbols.table space).WellCut) : symbols.Concordant space := by
  have hsorted := byName_perm_entries symbols space
  obtain ⟨hleaves, bears⟩ := Table.leavesAll_outline wellCut
  constructor
  · refine ((hleaves.map _).trans (List.Perm.of_eq ?_)).trans hsorted.symm
    rw [List.map_map]
    refine List.map_congr_left fun entry hentry => ?_
    exact congrArg (Symbol.mk · entry.place) (wellCut.join_segments hentry)
  · intro branch hwithin hplace hnone
    refine bears branch hwithin ?_
    rw [Branch.leaves_eq, hplace, hnone]
    rfl
  · rw [wellCut.named_index]
    exact hsorted.symm
  · intro name
    exact (wellCut.resolves_iff name).trans (wellCut.lookup_ne_nil_iff name).symm

/-- Whatever the calls were and whatever became of them, the views agree in every namespace. -/
theorem Ledger.concordant_ofCalls (calls : List Call) (space : Namespace) :
    (ofCalls calls).symbols.Concordant space :=
  concordant_of_wellCut ((follows_ofCalls calls).wellCut space)

end TagSchema.Symbols
