import Mathlib.Data.List.Nodup
import TagSchema.Disk

/-! Paths into a tree of files. A path that is lengthened by the name of an entry has one more part, and leads
one step further. -/
namespace TagSchema

structure Path.IsName (name : String) : Prop where
  nonempty : name ≠ ""
  not_dot : name ≠ "."
  not_dots : name ≠ ".."
  plain : '/' ∉ name.toList

namespace FileTree

variable {tree : FileTree} {entries : List (String × FileTree)}

/-- Every directory calls its entries what these can be called, and no two of them alike. -/
def Proper (tree : FileTree) : Prop :=
  ∀ names entries, tree.get? names = some (directory entries) →
    (entries.map (·.1)).Nodup ∧ ∀ name ∈ entries.map (·.1), Path.IsName name

theorem get?_append (tree : FileTree) (names more : List String) :
    tree.get? (names ++ more) = (tree.get? names).bind (·.get? more) := by
  induction names generalizing tree with
  | nil => rfl
  | cons name names ih =>
    rw [List.cons_append, get?, get?]
    cases tree.entry? name with
    | none => rfl
    | some entry => exact ih entry

theorem Proper.get? (proper : tree.Proper) {names : List String} {inner : FileTree}
    (h : tree.get? names = some inner) : inner.Proper := by
  intro more entries hentries
  refine proper (names ++ more) entries ?_
  rw [get?_append, h]
  exact hentries

theorem Proper.nodup (proper : (directory entries).Proper) : (entries.map (·.1)).Nodup :=
  (proper [] entries rfl).1

theorem Proper.isName (proper : (directory entries).Proper) {name : String} {inner : FileTree}
    (h : (name, inner) ∈ entries) : Path.IsName name :=
  (proper [] entries rfl).2 name (List.mem_map.mpr ⟨(name, inner), h, rfl⟩)

theorem entry?_eq_some_iff (hnodup : (entries.map (·.1)).Nodup) {name : String} {inner : FileTree} :
    entry? (directory entries) name = some inner ↔ (name, inner) ∈ entries := by
  constructor
  · intro h
    obtain ⟨⟨_, _⟩, hfound, rfl⟩ := Option.map_eq_some_iff.mp h
    obtain rfl : _ = name := by simpa using List.find?_some hfound
    exact List.mem_of_find?_eq_some hfound
  · intro h
    cases hfound : entries.find? (·.1 = name) with
    | none => simpa using List.find?_eq_none.mp hfound _ h
    | some found =>
      have hname : found.1 = name := by simpa using List.find?_some hfound
      have hsame := List.inj_on_of_nodup_map hnodup (List.mem_of_find?_eq_some hfound) h hname
      rw [FileTree.entry?, FileTree.entries, hfound, hsame]
      rfl

theorem Proper.entry (proper : (directory entries).Proper) {name : String} {inner : FileTree}
    (h : (name, inner) ∈ entries) : inner.Proper := by
  have hentry := (entry?_eq_some_iff proper.nodup).mpr h
  have hget : (directory entries).get? [name] = some inner := by
    rw [FileTree.get?, hentry]
    rfl
  exact proper.get? hget

theorem proper_file (contents : ByteArray) : (file contents).Proper := by
  intro names entries h
  cases names <;> cases h

theorem proper_directory (hnodup : (entries.map (·.1)).Nodup)
    (hnames : ∀ name ∈ entries.map (·.1), Path.IsName name) (hentries : ∀ entry ∈ entries, entry.2.Proper) :
    (directory entries).Proper := by
  intro names inner h
  cases names with
  | nil =>
    cases h
    exact ⟨hnodup, hnames⟩
  | cons name names =>
    obtain ⟨entry, hentry, hbelow⟩ := Option.bind_eq_some_iff.mp h
    exact hentries _ ((entry?_eq_some_iff hnodup).mp hentry) names inner hbelow

theorem Proper.isName_of_get? (proper : tree.Proper) {names : List String} {inner : FileTree}
    (h : tree.get? names = some inner) : ∀ name ∈ names, Path.IsName name := by
  induction names generalizing tree with
  | nil => exact List.forall_mem_nil _
  | cons name names ih =>
    cases tree with
    | file contents => cases h
    | directory entries =>
      obtain ⟨entry, hentry, hbelow⟩ := Option.bind_eq_some_iff.mp h
      have hmem := (entry?_eq_some_iff proper.nodup).mp hentry
      exact List.forall_mem_cons.mpr ⟨proper.isName hmem, ih (proper.entry hmem) hbelow⟩

end FileTree

namespace Path

variable {path name : String}

theorem pieces_ne_nil (path : String) : pieces path ≠ [] := by
  simp [pieces, List.splitOn_ne_nil]

theorem pieces_slash (path rest : String) : pieces (path ++ "/" ++ rest) = pieces path ++ pieces rest := by
  have hlist : (path ++ "/" ++ rest).toList = path.toList ++ '/' :: rest.toList := by simp
  rw [pieces, hlist, List.splitOn_append_cons_self, List.map_append]
  rfl

theorem pieces_name (hname : IsName name) : pieces name = [name] := by
  rw [pieces, List.splitOn_eq_singleton hname.plain]
  simp

theorem join_cases (path name : String) :
    join path name = path ++ "/" ++ name ∨
      ∃ short, path = short ++ "/" ++ "" ∧ join path name = short ++ "/" ++ name := by
  unfold join
  split
  · next hslash =>
    obtain ⟨front, hfront⟩ := List.getLast?_eq_some_iff.mp (beq_iff_eq.mp hslash)
    have hpath : path = String.ofList front ++ "/" := String.toList_injective (by simp [hfront])
    exact .inr ⟨String.ofList front, by rw [String.append_empty, ← hpath], by rw [← hpath]⟩
  · exact .inl rfl

theorem pieces_join (hname : IsName name) (path : String) :
    ∃ front, front ≠ [] ∧ pieces (join path name) = front ++ [name] ∧
      (pieces path = front ∨ pieces path = front ++ [""]) := by
  rcases join_cases path name with hjoin | ⟨short, hpath, hjoin⟩
  · exact ⟨pieces path, pieces_ne_nil path, by rw [hjoin, pieces_slash, pieces_name hname], .inl rfl⟩
  · refine ⟨pieces short, pieces_ne_nil short, by rw [hjoin, pieces_slash, pieces_name hname], .inr ?_⟩
    rw [hpath, pieces_slash]
    rfl

theorem join_ne_empty (path name : String) : join path name ≠ "" := by
  intro hempty
  have hchars : (join path name).toList = [] := by rw [hempty]; rfl
  rcases join_cases path name with hjoin | ⟨short, -, hjoin⟩ <;> simp [hjoin] at hchars

theorem isAbsolute_join (hpath : path ≠ "") (name : String) :
    isAbsolute (join path name) = isAbsolute path := by
  have hchars : path.toList ≠ [] := fun hnil => hpath (String.toList_injective hnil)
  rcases join_cases path name with hjoin | ⟨short, hshort, hjoin⟩
  · rw [isAbsolute, isAbsolute, hjoin, String.append_assoc, String.toList_append,
      List.head?_append_of_ne_nil _ hchars]
  · rw [isAbsolute, isAbsolute, hjoin, hshort]
    cases hhead : short.toList <;> simp [hhead]

theorem parts_join (hpath : path ≠ "") (hname : IsName name) :
    parts (join path name) = parts path ++ [name] := by
  obtain ⟨front, hfront, hpieces, hdirectory⟩ := pieces_join hname path
  have hhead : (pieces (join path name)).head? = (pieces path).head? := by
    rcases hdirectory with hdirectory | hdirectory <;>
      rw [hpieces, hdirectory, List.head?_append_of_ne_nil _ hfront]
    rw [List.head?_append_of_ne_nil _ hfront]
  have hfilter : (pieces (join path name)).filter (fun piece => piece ≠ "" && piece ≠ ".") =
      (pieces path).filter (fun piece => piece ≠ "" && piece ≠ ".") ++ [name] := by
    rcases hdirectory with hdirectory | hdirectory <;>
      simp [hpieces, hdirectory, hname.nonempty, hname.not_dot]
  rw [parts, parts, hhead, hfilter, isAbsolute_join hpath, List.append_assoc]

def below (path : String) (names : List String) : String := names.foldl join path

theorem parts_below (hpath : path ≠ "") {names : List String} (hnames : ∀ name ∈ names, IsName name) :
    parts (below path names) = parts path ++ names := by
  induction names generalizing path with
  | nil => exact (List.append_nil _).symm
  | cons name names ih =>
    rw [List.forall_mem_cons] at hnames
    have hjoin : parts (below path (name :: names)) = parts (join path name) ++ names :=
      ih (join_ne_empty path name) hnames.2
    rw [hjoin, parts_join hpath hnames.1, List.append_assoc, List.singleton_append]

end Path

namespace Disk

variable {disk : Disk} {path name : String} {trail : List String}

theorem ne_empty_of_trail? (h : disk.trail? path = some trail) : path ≠ "" := by
  rintro rfl
  cases h

theorem follow_name (hname : Path.IsName name) (trail : List String) :
    disk.follow trail name =
      if (disk.root.get? trail.reverse).any (·.isDirectory) then some (name :: trail) else none := by
  unfold follow
  split
  · split
    · next hempty => exact absurd rfl hname.nonempty
    · next hdot => exact absurd rfl hname.not_dot
    · next hdots => exact absurd rfl hname.not_dots
    · rfl
  · rfl

theorem eq_of_follow {piece : String} {after : List String} (hpiece : piece = "" ∨ piece = ".")
    (h : disk.follow trail piece = some after) : after = trail := by
  unfold follow at h
  split at h
  · rcases hpiece with rfl | rfl <;>
    · cases h
      rfl
  · cases h

theorem trail?_join (hname : Path.IsName name) (h : disk.trail? path = some trail)
    (hdirectory : (disk.root.get? trail).any (·.isDirectory)) :
    disk.trail? (Path.join path name) = some (trail ++ [name]) := by
  have hpath := ne_empty_of_trail? h
  rw [trail?, if_neg hpath] at h
  rw [trail?, if_neg (Path.join_ne_empty path name), Path.isAbsolute_join hpath]
  dsimp only at h ⊢
  generalize (if Path.isAbsolute path then [] else disk.workingDirectory).reverse = start at h ⊢
  obtain ⟨front, -, hpieces, hsame⟩ := Path.pieces_join hname path
  obtain ⟨last, hlast, rfl⟩ := Option.map_eq_some_iff.mp h
  have hfront : front.foldlM disk.follow start = some last := by
    rcases hsame with hsame | hsame
    · rwa [hsame] at hlast
    · rw [hsame, List.foldlM_append] at hlast
      obtain ⟨between, hbetween, hempty⟩ := Option.bind_eq_some_iff.mp hlast
      rw [List.foldlM_cons] at hempty
      obtain ⟨after, hafter, hdone⟩ := Option.bind_eq_some_iff.mp hempty
      cases hdone
      rw [eq_of_follow (.inl rfl) hafter]
      exact hbetween
  rw [hpieces, List.foldlM_append, hfront]
  change Option.map List.reverse ([name].foldlM disk.follow last) = _
  rw [List.foldlM_cons, follow_name hname, if_pos hdirectory]
  change some (name :: last).reverse = _
  rw [List.reverse_cons]

theorem trail?_below {names : List String} (hnames : ∀ name ∈ names, Path.IsName name)
    (h : disk.trail? path = some trail) {inner : FileTree}
    (hinner : disk.root.get? (trail ++ names) = some inner) :
    disk.trail? (Path.below path names) = some (trail ++ names) := by
  induction names generalizing path trail with
  | nil => rwa [List.append_nil]
  | cons name names ih =>
    rw [List.forall_mem_cons] at hnames
    have hdirectory : (disk.root.get? trail).any (·.isDirectory) := by
      rw [FileTree.get?_append] at hinner
      obtain ⟨tree, htree, hbelow⟩ := Option.bind_eq_some_iff.mp hinner
      cases tree with
      | file contents => cases hbelow
      | directory entries => rw [htree]; rfl
    rw [← List.singleton_append, ← List.append_assoc] at hinner ⊢
    exact ih hnames.2 (trail?_join hnames.1 h hdirectory) hinner

end Disk
end TagSchema
