import Mathlib.Data.String.Basic
import TagSchema.Disk.Search
import TagSchema.Proofs.Paths

/-! What a search finds. A directory stands for the sources below it, each of them once and in ascending order,
and of all that is found, a path that came before is dropped. -/
namespace TagSchema

/-- Induction on a tree: what passes from all entries to their directory holds of every tree. -/
theorem FileTree.induct {motive : FileTree → Prop} (file : ∀ contents, motive (file contents))
    (directory : ∀ entries, (∀ entry ∈ entries, motive entry.2) → motive (directory entries)) :
    ∀ tree, motive tree
  | .file contents => file contents
  | .directory entries => directory entries fun entry _ => induct file directory entry.2
termination_by tree => sizeOf tree
decreasing_by
  have hsize := List.sizeOf_lt_of_mem ‹entry ∈ entries›
  obtain ⟨name, inner⟩ := entry
  simp only [FileTree.directory.sizeOf_spec, Prod.mk.sizeOf_spec] at hsize ⊢
  omega

namespace Disk

variable {settings : Settings} {path name source : String} {tree inner : FileTree}
  {entries : List (String × FileTree)} {names : List String}

/-- Names lead from a directory to a source below it: to a file of the right extension, through no excluded
directory, and through none at all where the search does not descend. -/
structure IsSourceAt (settings : Settings) (tree : FileTree) (names : List String) : Prop where
  file : ∃ contents, tree.get? names = some (.file contents)
  extension : names.getLast?.bind Path.extension? = some settings.extension
  included : ∀ name ∈ names.dropLast, name ∉ settings.excluded
  near : settings.recursive = false → names.length = 1

def found (settings : Settings) (path : String) (entry : String × FileTree) : List String :=
  if entry.2.isDirectory then
    if descends settings entry.1 then sourcesIn settings (Path.join path entry.1) entry.2 else []
  else if isSource settings entry.1 then [Path.join path entry.1] else []

def inOrder (entries : List (String × FileTree)) : List (String × FileTree) :=
  entries.mergeSort fun a b => decide (a.1 ≤ b.1)

theorem sourcesByEntry_eq_map (settings : Settings) (path : String) (entries : List (String × FileTree)) :
    sourcesByEntry settings path entries = entries.map fun entry => (entry.1, found settings path entry) := by
  induction entries with
  | nil => rfl
  | cons entry entries ih => rw [sourcesByEntry, ih]; rfl

theorem sourcesIn_directory (settings : Settings) (path : String) (entries : List (String × FileTree)) :
    sourcesIn settings path (.directory entries) = (inOrder entries).flatMap (found settings path) := by
  have hsorted : ((entries.map fun entry => (entry.1, found settings path entry)).mergeSort
      fun a b => decide (a.1 ≤ b.1)) =
        (inOrder entries).map fun entry => (entry.1, found settings path entry) :=
    (List.map_mergeSort (f := fun entry => (entry.1, found settings path entry)) fun _ _ _ _ => rfl).symm
  rw [sourcesIn, sourcesByEntry_eq_map, hsorted, List.flatMap_map]

theorem mem_inOrder {entry : String × FileTree} : entry ∈ inOrder entries ↔ entry ∈ entries :=
  (List.mergeSort_perm entries _).mem_iff

theorem pairwise_inOrder (hnodup : (entries.map (·.1)).Nodup) : (inOrder entries).Pairwise (·.1 < ·.1) := by
  have hsorted : (inOrder entries).Pairwise fun a b => decide (a.1 ≤ b.1) = true :=
    List.pairwise_mergeSort
      (fun a b c hab hbc => by simpa using le_trans (of_decide_eq_true hab) (of_decide_eq_true hbc))
      (fun a b => by simpa using le_total a.1 b.1) entries
  have hdistinct : (inOrder entries).Pairwise (·.1 ≠ ·.1) := by
    rw [← List.pairwise_map (f := Prod.fst) (R := (· ≠ ·))]
    exact ((List.mergeSort_perm entries _).map _).nodup_iff.mpr hnodup
  exact (hsorted.and hdistinct).imp fun h => lt_of_le_of_ne (of_decide_eq_true h.1) h.2

theorem IsSourceAt.ne_nil (h : IsSourceAt settings tree names) : names ≠ [] := by
  rintro rfl
  cases h.extension

theorem not_isSourceAt_file (contents : ByteArray) : ¬IsSourceAt settings (.file contents) names := by
  intro h
  obtain ⟨name, names, rfl⟩ := List.exists_cons_of_ne_nil h.ne_nil
  obtain ⟨_, hfile⟩ := h.file
  cases hfile

theorem isSourceAt_singleton (hentry : FileTree.entry? (.directory entries) name = some inner) :
    IsSourceAt settings (.directory entries) [name] ↔ inner.isDirectory = false ∧ isSource settings name := by
  have hget : (FileTree.directory entries).get? [name] = some inner := by
    rw [FileTree.get?, hentry]
    rfl
  constructor
  · rintro ⟨⟨contents, hfile⟩, hextension, -, -⟩
    cases hget.symm.trans hfile
    exact ⟨rfl, beq_iff_eq.mpr hextension⟩
  · rintro ⟨hfile, hextension⟩
    cases inner with
    | directory entries => cases hfile
    | file contents => exact ⟨⟨contents, hget⟩, beq_iff_eq.mp hextension, fun _ h => (by cases h), fun _ => rfl⟩

theorem isSourceAt_cons (hentry : FileTree.entry? (.directory entries) name = some inner) (hnames : names ≠ []) :
    IsSourceAt settings (.directory entries) (name :: names) ↔
      descends settings name ∧ IsSourceAt settings inner names := by
  have hget : (FileTree.directory entries).get? (name :: names) = inner.get? names := by
    rw [FileTree.get?, hentry]
    rfl
  have hlast : (name :: names).getLast? = names.getLast? := List.getLast?_cons_of_ne_nil hnames
  have hbefore : (name :: names).dropLast = name :: names.dropLast := List.dropLast_cons_of_ne_nil hnames
  have hdescends : descends settings name ↔ settings.recursive = true ∧ name ∉ settings.excluded := by
    simp [descends]
  constructor
  · rintro ⟨hfile, hextension, hincluded, hnear⟩
    rw [hbefore, List.forall_mem_cons] at hincluded
    have hrecursive : settings.recursive = true := by
      by_contra hflat
      exact hnames (by simpa using hnear (Bool.not_eq_true _ ▸ hflat))
    exact ⟨hdescends.mpr ⟨hrecursive, hincluded.1⟩, hget ▸ hfile, hlast ▸ hextension, hincluded.2,
      fun hflat => by simp [hrecursive] at hflat⟩
  · rintro ⟨hdescend, hfile, hextension, hincluded, -⟩
    obtain ⟨hrecursive, hname⟩ := hdescends.mp hdescend
    refine ⟨hget ▸ hfile, hlast ▸ hextension, ?_, fun hflat => by simp [hrecursive] at hflat⟩
    rw [hbefore, List.forall_mem_cons]
    exact ⟨hname, hincluded⟩

theorem mem_found (hentry : FileTree.entry? (.directory entries) name = some inner) (path : String)
    (hinner : ∀ source, source ∈ sourcesIn settings (Path.join path name) inner ↔
      ∃ names, IsSourceAt settings inner names ∧ source = Path.below (Path.join path name) names) :
    source ∈ found settings path (name, inner) ↔
      ∃ names, IsSourceAt settings (.directory entries) (name :: names) ∧
        source = Path.below path (name :: names) := by
  cases inner with
  | file contents =>
    have hfound : source ∈ found settings path (name, .file contents) ↔
        isSource settings name ∧ source = Path.join path name := by
      rw [found, if_neg (by simp [FileTree.isDirectory])]
      split <;> simp [*]
    rw [hfound]
    constructor
    · rintro ⟨hsource, rfl⟩
      exact ⟨[], (isSourceAt_singleton hentry).mpr ⟨rfl, hsource⟩, rfl⟩
    · rintro ⟨names, hsource, rfl⟩
      by_cases hnames : names = []
      · subst hnames
        exact ⟨((isSourceAt_singleton hentry).mp hsource).2, rfl⟩
      · exact absurd ((isSourceAt_cons hentry hnames).mp hsource).2 (not_isSourceAt_file contents)
  | directory inner =>
    have hfound : source ∈ found settings path (name, .directory inner) ↔
        descends settings name ∧ source ∈ sourcesIn settings (Path.join path name) (.directory inner) := by
      have hdirectory : (FileTree.directory inner).isDirectory = true := rfl
      rw [found, if_pos hdirectory]
      split <;> simp [*]
    rw [hfound, hinner]
    constructor
    · rintro ⟨hdescends, names, hsource, rfl⟩
      exact ⟨names, (isSourceAt_cons hentry hsource.ne_nil).mpr ⟨hdescends, hsource⟩, rfl⟩
    · rintro ⟨names, hsource, rfl⟩
      have hnames : names ≠ [] := by
        rintro rfl
        cases ((isSourceAt_singleton hentry).mp hsource).1
      obtain ⟨hdescends, hsource⟩ := (isSourceAt_cons hentry hnames).mp hsource
      exact ⟨hdescends, names, hsource, rfl⟩

theorem mem_sourcesIn (settings : Settings) (proper : tree.Proper) (path source : String) :
    source ∈ sourcesIn settings path tree ↔
      ∃ names, IsSourceAt settings tree names ∧ source = Path.below path names := by
  induction tree using FileTree.induct generalizing path source with
  | file contents =>
    refine ⟨fun h => absurd h (List.not_mem_nil), ?_⟩
    rintro ⟨names, hsource, -⟩
    exact absurd hsource (not_isSourceAt_file contents)
  | directory entries ih =>
    simp only [sourcesIn_directory, List.mem_flatMap, mem_inOrder]
    constructor
    · rintro ⟨⟨name, inner⟩, hmem, hfound⟩
      have hentry := (FileTree.entry?_eq_some_iff proper.nodup).mpr hmem
      have hinner := ih _ hmem (proper.entry hmem) (Path.join path name)
      obtain ⟨names, hsource⟩ := (mem_found hentry path hinner).mp hfound
      exact ⟨name :: names, hsource⟩
    · rintro ⟨names, hsource, hpath⟩
      obtain ⟨name, names, rfl⟩ := List.exists_cons_of_ne_nil hsource.ne_nil
      obtain ⟨_, hfile⟩ := hsource.file
      obtain ⟨inner, hentry, -⟩ := Option.bind_eq_some_iff.mp hfile
      have hmem := (FileTree.entry?_eq_some_iff proper.nodup).mp hentry
      have hinner := ih _ hmem (proper.entry hmem) (Path.join path name)
      exact ⟨(name, inner), hmem, (mem_found hentry path hinner).mpr ⟨names, hsource, hpath⟩⟩

theorem parts_of_mem_found (proper : (FileTree.directory entries).Proper) (hpath : path ≠ "")
    {entry : String × FileTree} (hentry : entry ∈ entries) (hsource : source ∈ found settings path entry) :
    ∃ names, Path.parts source = Path.parts path ++ entry.1 :: names := by
  have hinner := mem_sourcesIn settings (proper.entry hentry) (Path.join path entry.1)
  obtain ⟨names, hbelow, rfl⟩ :=
    (mem_found ((FileTree.entry?_eq_some_iff proper.nodup).mpr hentry) path hinner).mp hsource
  obtain ⟨contents, hfile⟩ := hbelow.file
  exact ⟨names, Path.parts_below hpath (proper.isName_of_get? hfile)⟩

theorem pairwise_sourcesIn (proper : tree.Proper) (hpath : path ≠ "") :
    (sourcesIn settings path tree).Pairwise fun a b => Path.parts a < Path.parts b := by
  -- What is found in a directory ascends. All has the parts of the directory in front, so only
  -- names are compared.
  induction tree using FileTree.induct generalizing path with
  | file contents => exact .nil
  | directory entries ih =>
    rw [sourcesIn_directory, List.pairwise_flatMap]
    constructor
    · rintro ⟨name, inner⟩ hmem
      rw [mem_inOrder] at hmem
      unfold found
      split
      · split
        · exact ih _ hmem (proper.entry hmem) (Path.join_ne_empty path name)
        · exact .nil
      · split
        · exact List.pairwise_singleton _ _
        · exact .nil
    · refine (pairwise_inOrder proper.nodup).imp_of_mem fun {a b} ha hb hless => ?_
      intro source hsource other hother
      obtain ⟨names, hparts⟩ := parts_of_mem_found proper hpath (mem_inOrder.mp ha) hsource
      obtain ⟨names', hparts'⟩ := parts_of_mem_found proper hpath (mem_inOrder.mp hb) hother
      rw [hparts, hparts']
      exact List.append_left_lt (List.cons_lt_cons_iff.mpr (.inl hless))

/-- A path that leads to a file stands for itself, and one that leads to a directory for all sources below it in
ascending order. -/
inductive StandsFor (disk : Disk) (settings : Settings) (path : String) : List String → Prop
  | file {contents : ByteArray} (leads : disk.lookup path = some (.file contents)) :
    StandsFor disk settings path [path]
  | directory {entries : List (String × FileTree)} {sources : List String}
    (leads : disk.lookup path = some (.directory entries))
    (complete : ∀ source, source ∈ sources ↔
      ∃ names, IsSourceAt settings (.directory entries) names ∧ source = Path.below path names)
    (ascending : sources.Pairwise fun a b => Path.parts a < Path.parts b) :
    StandsFor disk settings path sources

/-- Of paths in a row, those are kept that have other parts than all before. -/
inductive Kept : List String → List String → Prop
  | nil : Kept [] []
  | fresh {paths kept : List String} {path : String} (before : Kept paths kept)
    (new : ∀ other ∈ paths, Path.parts other ≠ Path.parts path) : Kept (paths ++ [path]) (kept ++ [path])
  | repeated {paths kept : List String} {path : String} (before : Kept paths kept)
    (old : ∃ other ∈ paths, Path.parts other = Path.parts path) : Kept (paths ++ [path]) kept

section
variable {disk : Disk} {paths sources kept : List String}

theorem sourcesAt_eq_error_iff (disk : Disk) (settings : Settings) (path : String) :
    (∃ failure, disk.sourcesAt settings path = .error failure) ↔
      disk.isFile path = false ∧ disk.isDirectory path = false := by
  unfold sourcesAt isFile isDirectory
  cases disk.lookup path with
  | none => simp
  | some tree => cases tree <;> simp [FileTree.isDirectory]

theorem standsFor_of_sourcesAt (proper : disk.root.Proper) (h : disk.sourcesAt settings path = .ok sources) :
    StandsFor disk settings path sources := by
  unfold sourcesAt at h
  split at h
  · cases h
  · next contents hlookup =>
    cases h
    exact .file hlookup
  · next tree hfile hlookup =>
    cases h
    obtain ⟨trail, htrail, hget⟩ := Option.bind_eq_some_iff.mp hlookup
    have htree := proper.get? hget
    cases tree with
    | file contents => exact absurd rfl (hfile contents)
    | directory entries =>
      have hpath := ne_empty_of_trail? htrail
      exact .directory hlookup (mem_sourcesIn settings htree path) (pairwise_sourcesIn htree hpath)

theorem StandsFor.unique {other : List String} (h : StandsFor disk settings path sources)
    (h' : StandsFor disk settings path other) : sources = other := by
  -- A path stands for one list of sources only, since an ascending list is told by its members.
  cases h with
  | file leads =>
    cases h' with
    | file => rfl
    | directory leads' => cases leads.symm.trans leads'
  | directory leads complete ascending =>
    cases h' with
    | file leads' => cases leads.symm.trans leads'
    | directory leads' complete' ascending' =>
      cases leads.symm.trans leads'
      refine List.Perm.eq_of_pairwise (fun a b _ _ hab hba => absurd (lt_trans hab hba) (lt_irrefl _)) ascending
        ascending' ?_
      have hnodup := ascending.imp fun {a b} hless (heq : a = b) => lt_irrefl _ (heq ▸ hless)
      have hnodup' := ascending'.imp fun {a b} hless (heq : a = b) => lt_irrefl _ (heq ▸ hless)
      exact (List.perm_ext_iff_of_nodup hnodup hnodup').mpr fun source => by rw [complete, complete']

theorem Kept.covers (h : Kept paths kept) (parts : List String) :
    (∃ path ∈ kept, Path.parts path = parts) ↔ ∃ path ∈ paths, Path.parts path = parts := by
  induction h with
  | nil => rfl
  | fresh before new ih => simp only [List.mem_append, or_and_right, exists_or, ih]
  | @repeated paths kept path before old ih =>
    rw [ih]
    constructor
    · rintro ⟨other, hother, rfl⟩
      exact ⟨other, List.mem_append_left _ hother, rfl⟩
    · rintro ⟨other, hother, rfl⟩
      rcases List.mem_append.mp hother with hother | hother
      · exact ⟨other, hother, rfl⟩
      · rwa [List.mem_singleton.mp hother]

theorem kept_loop (h : Kept paths kept.reverse) (more : List String) :
    Kept (paths ++ more) (List.eraseDupsBy.loop (fun a b => Path.parts a == Path.parts b) more kept) := by
  induction more generalizing paths kept with
  | nil => rwa [List.append_nil]
  | cons path more ih =>
    have hseen : (kept.any fun other => Path.parts path == Path.parts other) = true ↔
        ∃ other ∈ paths, Path.parts other = Path.parts path := by
      rw [← h.covers, List.any_eq_true]
      simp only [List.mem_reverse, beq_iff_eq, eq_comm (a := Path.parts path)]
    rw [List.append_cons, List.eraseDupsBy.loop]
    split
    · next hany => exact ih (.repeated h (hseen.mp hany))
    · next hnone =>
      refine ih ?_
      rw [List.reverse_cons]
      refine .fresh h fun other hother hparts => ?_
      rw [hseen.mpr ⟨other, hother, hparts⟩] at hnone
      cases hnone

theorem kept_eraseDupsBy (paths : List String) :
    Kept paths (paths.eraseDupsBy fun a b => Path.parts a == Path.parts b) := by
  have hloop : Kept ([] ++ paths) (List.eraseDupsBy.loop _ paths []) := kept_loop .nil paths
  exact hloop

theorem Kept.sublist (h : Kept paths kept) : kept.Sublist paths := by
  induction h with
  | nil => exact .slnil
  | fresh before new ih => exact ih.append (.refl _)
  | repeated before old ih => exact ih.trans (List.sublist_append_left _ _)

theorem Kept.pairwise (h : Kept paths kept) : kept.Pairwise fun a b => Path.parts a ≠ Path.parts b := by
  induction h with
  | nil => exact .nil
  | fresh before new ih =>
    refine List.pairwise_append.mpr ⟨ih, List.pairwise_singleton _ _, fun a ha b hb => ?_⟩
    rw [List.mem_singleton.mp hb]
    exact new a (before.sublist.subset ha)
  | repeated before old ih => exact ih

theorem Kept.eq_nil_iff (h : Kept paths kept) : kept = [] ↔ paths = [] := by
  induction h with
  | nil => simp
  | fresh before new ih => simp
  | @repeated paths kept path before old ih =>
    obtain ⟨other, hother, -⟩ := old
    simp [ih, List.ne_nil_of_mem hother]

theorem mapM_sourcesAt_eq_error_iff (disk : Disk) (settings : Settings) (paths : List String) :
    (∃ failure, paths.mapM (disk.sourcesAt settings) = .error failure) ↔
      ∃ path ∈ paths, disk.isFile path = false ∧ disk.isDirectory path = false := by
  induction paths with
  | nil => simp [pure, Except.pure]
  | cons path paths ih =>
    rw [List.exists_mem_cons_iff, ← ih, ← sourcesAt_eq_error_iff disk settings path, List.mapM_cons]
    cases disk.sourcesAt settings path with
    | error failure => simp [bind, Except.bind]
    | ok sources =>
      cases paths.mapM (disk.sourcesAt settings) <;> simp [bind, Except.bind, pure, Except.pure]

theorem standsFor_of_mapM (proper : disk.root.Proper) {found : List (List String)}
    (h : paths.mapM (disk.sourcesAt settings) = .ok found) :
    List.Forall₂ (StandsFor disk settings) paths found := by
  induction paths generalizing found with
  | nil =>
    cases h
    exact .nil
  | cons path paths ih =>
    rw [List.mapM_cons] at h
    cases hpath : disk.sourcesAt settings path with
    | error failure =>
      rw [hpath] at h
      cases h
    | ok sources =>
      cases hrest : paths.mapM (disk.sourcesAt settings) with
      | error failure =>
        rw [hpath, hrest] at h
        cases h
      | ok rest =>
        rw [hpath, hrest] at h
        cases h
        exact .cons (standsFor_of_sourcesAt proper hpath) (ih hrest)

theorem StandsFor.isFile (proper : disk.root.Proper) (h : StandsFor disk settings path sources) :
    ∀ source ∈ sources, disk.isFile source := by
  intro source hsource
  cases h with
  | file leads =>
    cases List.mem_singleton.mp hsource
    rw [Disk.isFile, leads]
    rfl
  | @directory entries sources leads complete ascending =>
    obtain ⟨names, hbelow, rfl⟩ := (complete source).mp hsource
    obtain ⟨trail, htrail, hget⟩ := Option.bind_eq_some_iff.mp leads
    obtain ⟨contents, hfile⟩ := hbelow.file
    have hinner : disk.root.get? (trail ++ names) = some (.file contents) := by
      rw [FileTree.get?_append, hget]
      exact hfile
    rw [Disk.isFile, lookup, trail?_below ((proper.get? hget).isName_of_get? hfile) htrail hinner]
    change (disk.root.get? (trail ++ names)).any (!·.isDirectory) = true
    rw [hinner]
    rfl

theorem flatten_eq_nil_iff {found : List (List String)}
    (h : List.Forall₂ (StandsFor disk settings) paths found) :
    found.flatten = [] ↔ ∀ path ∈ paths, StandsFor disk settings path [] := by
  induction h with
  | nil => simp
  | @cons path sources paths found hpath hrest ih =>
    have hempty : sources = [] ↔ StandsFor disk settings path [] :=
      ⟨fun heq => heq ▸ hpath, fun h => hpath.unique h⟩
    rw [List.flatten_cons, List.append_eq_nil_iff, List.forall_mem_cons, ih, hempty]

theorem mem_flatten_iff {found : List (List String)}
    (h : List.Forall₂ (StandsFor disk settings) paths found) :
    source ∈ found.flatten ↔
      ∃ path ∈ paths, ∃ sources, StandsFor disk settings path sources ∧ source ∈ sources := by
  induction h with
  | nil => simp
  | @cons path sources paths found hpath hrest ih =>
    rw [List.flatten_cons, List.mem_append, List.exists_mem_cons_iff, ih]
    refine or_congr_left ⟨fun hsource => ⟨sources, hpath, hsource⟩, ?_⟩
    rintro ⟨other, hother, hsource⟩
    rwa [hpath.unique hother]

/-- A search fails at a path, or it comes to what is kept of all that the paths stand for, unless that is
nothing. -/
theorem sources_cases (settings : Settings) (paths : List String) (proper : disk.root.Proper) :
    ((∃ path ∈ paths, disk.isFile path = false ∧ disk.isDirectory path = false) ∧
        ∃ failure, disk.sources settings paths = .error failure) ∨
      (¬∃ path ∈ paths, disk.isFile path = false ∧ disk.isDirectory path = false) ∧
        ∃ found kept, List.Forall₂ (StandsFor disk settings) paths found ∧ Kept found.flatten kept ∧
          disk.sources settings paths =
            if kept = [] then .error (.nothingFound settings.extension) else .ok kept := by
  rw [← mapM_sourcesAt_eq_error_iff disk settings paths]
  cases hfound : paths.mapM (disk.sourcesAt settings) with
  | error failure =>
    refine .inl ⟨⟨failure, rfl⟩, failure, ?_⟩
    rw [sources, hfound]
    rfl
  | ok found =>
    refine .inr ⟨by simp, found, _, standsFor_of_mapM proper hfound, kept_eraseDupsBy found.flatten, ?_⟩
    simp only [sources, hfound, Except.bind, bind]
    split <;> simp_all

theorem kept_of_sources (proper : disk.root.Proper) (h : disk.sources settings paths = .ok sources) :
    ∃ found, List.Forall₂ (StandsFor disk settings) paths found ∧ Kept found.flatten sources := by
  obtain ⟨-, failure, hsearch⟩ | ⟨-, found, kept, hstands, hkept, hsearch⟩ :=
    sources_cases settings paths proper
  · cases hsearch.symm.trans h
  · rw [hsearch] at h
    split at h
    · cases h
    · cases h
      exact ⟨found, hstands, hkept⟩

/-- A search fails exactly if a path leads to neither a file nor a directory or if nothing is found. Otherwise
it comes to what each of the paths stands for, in their order and without what came before, and all that is
files. -/
theorem sources_spec (disk : Disk) (settings : Settings) (paths : List String) (proper : disk.root.Proper) :
    ((∃ failure, disk.sources settings paths = .error failure) ↔
      (∃ path ∈ paths, disk.isFile path = false ∧ disk.isDirectory path = false) ∨
        ∀ path ∈ paths, StandsFor disk settings path []) ∧
    ∀ sources, disk.sources settings paths = .ok sources →
      (∃ found, List.Forall₂ (StandsFor disk settings) paths found ∧ Kept found.flatten sources) ∧
        ∀ source ∈ sources, disk.isFile source := by
  constructor
  · obtain ⟨hmissing, hfailed⟩ | ⟨hpresent, found, kept, hstands, hkept, hsearch⟩ :=
      sources_cases settings paths proper
    · exact iff_of_true hfailed (.inl hmissing)
    · rw [or_iff_right hpresent, ← flatten_eq_nil_iff hstands, ← hkept.eq_nil_iff, hsearch]
      split <;> simp [*]
  · intro sources hsources
    obtain ⟨found, hstands, hkept⟩ := kept_of_sources proper hsources
    refine ⟨⟨found, hstands, hkept⟩, fun source hsource => ?_⟩
    obtain ⟨path, -, sources, hpath, hmem⟩ := (mem_flatten_iff hstands).mp (hkept.sublist.subset hsource)
    exact hpath.isFile proper source hmem

/-- The working directory is given beside the file in it. -/
theorem sources_spec_of_lone_file :
    let disk : Disk := ⟨.directory [("a.talk", .file .empty)], []⟩
    disk.root.Proper ∧ ∃ found, List.Forall₂ (StandsFor disk {}) [".", "./a.talk"] found ∧
      Kept found.flatten ["./a.talk"] := by
  have hname : Path.IsName "a.talk" := ⟨by decide, by decide, by decide, by decide⟩
  have proper : (FileTree.directory [("a.talk", .file .empty)]).Proper :=
    FileTree.proper_directory (by simp) (by simpa using hname) (by simpa using FileTree.proper_file _)
  exact ⟨proper, ((sources_spec _ _ _ proper).2 _ (by decide +kernel)).1⟩

end

end Disk
end TagSchema
