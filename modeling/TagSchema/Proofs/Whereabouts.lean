import Mathlib.Data.List.Pairwise
import TagSchema.Disk.Corpus
import TagSchema.Proofs.Searching

/-! Where sources lie. A search tells paths apart by their parts, so it keeps a file once for each row of parts
that leads to it. -/
namespace TagSchema

namespace Path

theorem not_mem_of_mem_splitOn {separator : Char} {text piece : List Char}
    (h : piece ∈ text.splitOn separator) : separator ∉ piece := by
  induction text generalizing piece with
  | nil => simp_all
  | cons c text ih =>
    rw [List.splitOn_cons_eq_if_modifyHead] at h
    split at h
    · rcases List.mem_cons.mp h with rfl | h
      · exact List.not_mem_nil
      · exact ih h
    · next hc =>
      obtain ⟨first, rest, hsplit⟩ := List.exists_cons_of_ne_nil (List.splitOn_ne_nil separator text)
      rw [hsplit, List.modifyHead_cons] at h
      rw [hsplit] at ih
      rcases List.mem_cons.mp h with rfl | h
      · simpa [show separator ≠ c from fun heq => hc (by simp [heq])] using ih List.mem_cons_self
      · exact ih (List.mem_cons_of_mem _ h)

theorem slash_not_mem_of_mem_pieces {path piece : String} (h : piece ∈ pieces path) : '/' ∉ piece.toList := by
  obtain ⟨chars, hchars, rfl⟩ := List.mem_map.mp h
  rw [String.toList_ofList]
  exact not_mem_of_mem_splitOn hchars

theorem ne_slash_of_mem_pieces {path piece : String} (h : piece ∈ pieces path) : piece ≠ "/" := by
  rintro rfl
  exact slash_not_mem_of_mem_pieces h (by decide)

/-- All paths share a lead, behind which only names of entries come. -/
def Alike (paths : List String) : Prop :=
  ∃ lead, ∀ path ∈ paths, ∃ names, parts path = lead ++ names ∧ ∀ name ∈ names, IsName name

/-- What comes before the names in a path: the root, or a dot where the path starts with one. -/
def start (path : String) : List String :=
  if isAbsolute path then ["/"]
  else if (pieces path).head? = some "." then ["."]
  else []

theorem parts_eq_start_append (path : String) :
    parts path = start path ++ (pieces path).filter fun piece => piece ≠ "" && piece ≠ "." := rfl

/-- Such are paths without double dots that are all absolute, or all relative with a dot in front, or all
relative without. -/
theorem alike_of_start {paths : List String} (hplain : ∀ path ∈ paths, ".." ∉ pieces path)
    (hstart : ∀ path ∈ paths, ∀ other ∈ paths, start path = start other) : Alike paths := by
  cases paths with
  | nil => exact ⟨[], nofun⟩
  | cons first paths =>
    refine ⟨start first, fun path hpath => ?_⟩
    have hsame : start path = start first := hstart path hpath first List.mem_cons_self
    refine ⟨_, by rw [parts_eq_start_append, hsame], ?_⟩
    intro name hname
    obtain ⟨hpiece, hkept⟩ := List.mem_filter.mp hname
    obtain ⟨hnonempty, hdot⟩ : name ≠ "" ∧ name ≠ "." := by simpa using hkept
    refine ⟨hnonempty, hdot, ?_, slash_not_mem_of_mem_pieces hpiece⟩
    rintro rfl
    exact hplain path hpath hpiece

end Path

namespace Disk

variable {disk : Disk} {settings : Settings} {path : String} {trail : List String}

def trailOf? (disk : Disk) (parts : List String) : Option (List String) :=
  let start := if parts.head? = some "/" then [] else disk.workingDirectory
  ((parts.filter (· ≠ "/")).foldlM disk.follow start.reverse).map (·.reverse)

theorem foldlM_filter {pieces start last : List String} (h : pieces.foldlM disk.follow start = some last) :
    (pieces.filter fun piece => piece ≠ "" && piece ≠ ".").foldlM disk.follow start = some last := by
  induction pieces generalizing start with
  | nil => exact h
  | cons piece pieces ih =>
    rw [List.foldlM_cons] at h
    obtain ⟨after, hafter, hrest⟩ := Option.bind_eq_some_iff.mp h
    by_cases hpiece : piece = "" ∨ piece = "."
    · rw [List.filter_cons_of_neg (by simpa [or_iff_not_imp_left] using hpiece)]
      cases eq_of_follow hpiece hafter
      exact ih hrest
    · rw [List.filter_cons_of_pos (by simpa using hpiece), List.foldlM_cons, hafter]
      exact ih hrest

/-- Where a path leads is told by its parts. -/
theorem trailOf?_parts (h : disk.trail? path = some trail) : disk.trailOf? (Path.parts path) = some trail := by
  rw [trail?, if_neg (ne_empty_of_trail? h)] at h
  have hplain : ((Path.pieces path).filter fun piece => piece ≠ "" && piece ≠ ".").filter (· ≠ "/") =
      (Path.pieces path).filter fun piece => piece ≠ "" && piece ≠ "." := by
    refine List.filter_eq_self.mpr fun piece hpiece => ?_
    simpa using Path.ne_slash_of_mem_pieces (List.mem_of_mem_filter hpiece)
  dsimp only at h
  obtain ⟨last, hlast, rfl⟩ := Option.map_eq_some_iff.mp h
  unfold trailOf? Path.parts
  dsimp only
  by_cases habsolute : Path.isAbsolute path
  · rw [if_pos habsolute] at hlast ⊢
    rw [List.singleton_append, List.head?_cons, if_pos rfl, List.filter_cons_of_neg (by simp), hplain,
      foldlM_filter hlast]
    rfl
  · rw [if_neg habsolute] at hlast ⊢
    split
    · next hdot =>
      have hfilter := foldlM_filter hlast
      obtain ⟨rest, hpieces⟩ := List.head?_eq_some_iff.mp hdot
      rw [hpieces, List.foldlM_cons] at hlast
      obtain ⟨after, hafter, -⟩ := Option.bind_eq_some_iff.mp hlast
      cases eq_of_follow (.inr rfl) hafter
      rw [List.singleton_append, List.head?_cons, if_neg (by decide), List.filter_cons_of_pos (by decide),
        hplain, List.foldlM_cons, hafter]
      change Option.map List.reverse (List.foldlM _ _ _) = _
      rw [hfilter]
      rfl
    · next hdot =>
      have hhead : ((Path.pieces path).filter fun piece => piece ≠ "" && piece ≠ ".").head? ≠ some "/" := by
        intro hhead
        exact Path.ne_slash_of_mem_pieces (List.mem_of_mem_filter (List.mem_of_mem_head? hhead)) rfl
      rw [List.nil_append, if_neg hhead, hplain, foldlM_filter hlast]
      rfl

theorem foldlM_names {names start last : List String} (hnames : ∀ name ∈ names, Path.IsName name)
    (h : names.foldlM disk.follow start = some last) : last = names.reverse ++ start := by
  induction names generalizing start with
  | nil =>
    cases h
    rfl
  | cons name names ih =>
    rw [List.forall_mem_cons] at hnames
    rw [List.foldlM_cons, follow_name hnames.1] at h
    split at h
    · rw [ih hnames.2 h, List.reverse_cons, List.append_assoc, List.singleton_append]
    · cases h

theorem trailOf?_append {lead names : List String} (hnames : ∀ name ∈ names, Path.IsName name)
    (h : disk.trailOf? (lead ++ names) = some trail) :
    ∃ start, disk.trailOf? lead = some start ∧ trail = start ++ names := by
  have hslash : ∀ name ∈ names, name ≠ "/" := fun name hname heq =>
    (hnames name hname).plain (heq ▸ by decide)
  have hhead : (lead ++ names).head? = some "/" ↔ lead.head? = some "/" := by
    cases lead with
    | nil => exact ⟨fun h => absurd rfl (hslash _ (List.mem_of_mem_head? h)), fun h => by cases h⟩
    | cons part lead => rfl
  have hplain : names.filter (· ≠ "/") = names := List.filter_eq_self.mpr fun name hname => by
    simpa using hslash name hname
  unfold trailOf? at h ⊢
  simp only [hhead, List.filter_append, hplain, List.foldlM_append] at h ⊢
  obtain ⟨last, hlast, rfl⟩ := Option.map_eq_some_iff.mp h
  obtain ⟨between, hbetween, hbehind⟩ := Option.bind_eq_some_iff.mp hlast
  rw [hbetween, foldlM_names hnames hbehind, List.reverse_append, List.reverse_reverse]
  exact ⟨between.reverse, rfl, rfl⟩

/-- A file that two paths both find, they find under the same parts. -/
def FindAlike (disk : Disk) (settings : Settings) (path other : String) : Prop :=
  ∀ found found', StandsFor disk settings path found → StandsFor disk settings other found' →
    ∀ a ∈ found, ∀ b ∈ found', disk.trail? a = disk.trail? b → Path.parts a = Path.parts b

variable {paths sources : List String}

theorem trail?_of_isFile (h : disk.isFile path) : ∃ trail, disk.trail? path = some trail := by
  unfold isFile lookup at h
  cases htrail : disk.trail? path with
  | none => simp [htrail] at h
  | some trail => exact ⟨trail, rfl⟩

theorem trail?_eq_of_parts {a b : String} (ha : disk.isFile a) (hb : disk.isFile b)
    (hparts : Path.parts a = Path.parts b) : disk.trail? a = disk.trail? b := by
  obtain ⟨trail, htrail⟩ := trail?_of_isFile ha
  obtain ⟨trail', htrail'⟩ := trail?_of_isFile hb
  rw [htrail, htrail', ← trailOf?_parts htrail, ← trailOf?_parts htrail', hparts]

theorem StandsFor.lead (proper : disk.root.Proper) {lead : List String}
    (h : StandsFor disk settings path sources)
    (hpath : ∃ names, Path.parts path = lead ++ names ∧ ∀ name ∈ names, Path.IsName name) :
    ∀ source ∈ sources, ∃ names, Path.parts source = lead ++ names ∧ ∀ name ∈ names, Path.IsName name := by
  intro source hsource
  cases h with
  | file leads => rwa [List.mem_singleton.mp hsource]
  | directory leads complete ascending =>
    obtain ⟨names, hparts, hnames⟩ := hpath
    obtain ⟨inner, hbelow, rfl⟩ := (complete source).mp hsource
    obtain ⟨trail, htrail, hget⟩ := Option.bind_eq_some_iff.mp leads
    obtain ⟨contents, hfile⟩ := hbelow.file
    have hinner := (proper.get? hget).isName_of_get? hfile
    refine ⟨names ++ inner, ?_, List.forall_mem_append.mpr ⟨hnames, hinner⟩⟩
    rw [Path.parts_below (ne_empty_of_trail? htrail) hinner, hparts, List.append_assoc]

theorem findAlike_of_alike (proper : disk.root.Proper) (halike : Path.Alike paths) :
    ∀ path ∈ paths, ∀ other ∈ paths, disk.FindAlike settings path other := by
  obtain ⟨lead, hlead⟩ := halike
  intro path hpath other hother found found' hstands hstands' a ha b hb hsame
  obtain ⟨names, hparts, hnames⟩ := hstands.lead proper (hlead path hpath) a ha
  obtain ⟨names', hparts', hnames'⟩ := hstands'.lead proper (hlead other hother) b hb
  obtain ⟨trail, htrail⟩ := trail?_of_isFile (hstands.isFile proper a ha)
  have htrail' := hsame.symm.trans htrail
  obtain ⟨start, hstart, rfl⟩ := trailOf?_append hnames (hparts ▸ trailOf?_parts htrail)
  obtain ⟨start', hstart', hnames''⟩ := trailOf?_append hnames' (hparts' ▸ trailOf?_parts htrail')
  cases hstart.symm.trans hstart'
  rw [hparts, hparts', List.append_cancel_left hnames'']

/-- No two paths that are found have the same parts. Two of them lead to one file exactly if two of the given
paths find that file under different parts, which they do not if they share a lead. -/
theorem sources_distinct (disk : Disk) (settings : Settings) (paths sources : List String)
    (proper : disk.root.Proper) (h : disk.sources settings paths = .ok sources) :
    sources.Pairwise (fun a b => Path.parts a ≠ Path.parts b) ∧
      (sources.Pairwise (fun a b => disk.trail? a ≠ disk.trail? b) ↔
        ∀ path ∈ paths, ∀ other ∈ paths, disk.FindAlike settings path other) ∧
      (Path.Alike paths → sources.Pairwise fun a b => disk.trail? a ≠ disk.trail? b) := by
  obtain ⟨found, hstands, hkept⟩ := kept_of_sources proper h
  have hfile : ∀ source ∈ found.flatten, disk.isFile source := by
    intro source hsource
    obtain ⟨path, -, mine, hmine, hmem⟩ := (mem_flatten_iff hstands).mp hsource
    exact hmine.isFile proper source hmem
  have hdistinct : sources.Pairwise (fun a b => disk.trail? a ≠ disk.trail? b) ↔
      ∀ path ∈ paths, ∀ other ∈ paths, disk.FindAlike settings path other := by
    constructor
    · intro hpairwise path hpath other hother mine others hmine hothers a ha b hb hsame
      by_contra hparts
      have hmem := (mem_flatten_iff hstands).mpr ⟨path, hpath, mine, hmine, ha⟩
      have hmem' := (mem_flatten_iff hstands).mpr ⟨other, hother, others, hothers, hb⟩
      -- What is listed may be other spellings of the two.
      obtain ⟨a', ha', hparts'⟩ := (hkept.covers (Path.parts a)).mpr ⟨a, hmem, rfl⟩
      obtain ⟨b', hb', hparts''⟩ := (hkept.covers (Path.parts b)).mpr ⟨b, hmem', rfl⟩
      have hne : a' ≠ b' := fun heq => hparts (by rw [← hparts', ← hparts'', heq])
      have : Std.Symm fun a b => disk.trail? a ≠ disk.trail? b := ⟨fun _ _ h => h.symm⟩
      refine hpairwise.forall ha' hb' hne ?_
      rw [trail?_eq_of_parts (hfile a' (hkept.sublist.subset ha')) (hmine.isFile proper a ha) hparts',
        trail?_eq_of_parts (hfile b' (hkept.sublist.subset hb')) (hothers.isFile proper b hb) hparts'', hsame]
    · intro halike
      refine hkept.pairwise.imp_of_mem fun {a b} ha hb hparts hsame => hparts ?_
      obtain ⟨path, hpath, mine, hmine, ha⟩ := (mem_flatten_iff hstands).mp (hkept.sublist.subset ha)
      obtain ⟨other, hother, others, hothers, hb⟩ := (mem_flatten_iff hstands).mp (hkept.sublist.subset hb)
      exact halike path hpath other hother mine others hmine hothers a ha b hb hsame
  exact ⟨hkept.pairwise, hdistinct, fun halike => hdistinct.mpr (findAlike_of_alike proper halike)⟩

/-- A directory and a file in it are given, with two slashes between them. -/
theorem sources_distinct_of_directory_and_file :
    let disk : Disk := ⟨.directory [("a.talk", .file .empty), ("d", .directory [("b.talk", .file .empty)])], []⟩
    disk.root.Proper ∧ disk.sources {} ["a.talk", "d//b.talk", "d"] = .ok ["a.talk", "d//b.talk"] ∧
      Path.Alike ["a.talk", "d//b.talk", "d"] ∧
      ["a.talk", "d//b.talk"].Pairwise fun a b => disk.trail? a ≠ disk.trail? b := by
  intro disk
  have ha : Path.IsName "a.talk" := ⟨by decide, by decide, by decide, by decide⟩
  have hb : Path.IsName "b.talk" := ⟨by decide, by decide, by decide, by decide⟩
  have hd : Path.IsName "d" := ⟨by decide, by decide, by decide, by decide⟩
  have hinner : (FileTree.directory [("b.talk", .file .empty)]).Proper :=
    FileTree.proper_directory (by simp) (by simpa using hb) (by simpa using FileTree.proper_file _)
  have proper : disk.root.Proper :=
    FileTree.proper_directory (by decide) (by simpa using ⟨ha, hd⟩)
      (by simpa using ⟨FileTree.proper_file _, hinner⟩)
  have hsources : disk.sources {} ["a.talk", "d//b.talk", "d"] = .ok ["a.talk", "d//b.talk"] := by
    decide +kernel
  have halike : Path.Alike ["a.talk", "d//b.talk", "d"] :=
    Path.alike_of_start (by decide +kernel) (by decide +kernel)
  exact ⟨proper, hsources, halike, (sources_distinct _ _ _ _ proper hsources).2.2 halike⟩

/-- A dot in front makes another path that leads to the same file. So the file is loaded twice, and what it
registers comes in conflict with itself. -/
theorem sources_repeat_behind_dot :
    let disk : Disk := ⟨.directory [("a.talk", .file "@class a.A\n@end\n".toUTF8)], []⟩
    disk.root.Proper ∧ disk.sources {} ["a.talk", "./a.talk"] = .ok ["a.talk", "./a.talk"] ∧
      disk.trail? "a.talk" = some ["a.talk"] ∧ disk.trail? "./a.talk" = some ["a.talk"] ∧
      (disk.corpus ["a.talk"]).isOk ∧
      disk.corpus ["a.talk", "./a.talk"] = .error (.faulty
        ⟨.registeredBefore "a.A" .classes ⟨"a.talk", 1⟩, some .classWord, ⟨"./a.talk", 1⟩⟩) := by
  intro disk
  have hname : Path.IsName "a.talk" := ⟨by decide, by decide, by decide, by decide⟩
  have proper : disk.root.Proper :=
    FileTree.proper_directory (by simp) (by simpa using hname) (by simpa using FileTree.proper_file _)
  have hfailure : (match disk.corpus ["a.talk", "./a.talk"] with
      | .error failure => some failure
      | .ok _ => none) = some (.faulty
        ⟨.registeredBefore "a.A" .classes ⟨"a.talk", 1⟩, some .classWord, ⟨"./a.talk", 1⟩⟩) := by
    decide +kernel
  refine ⟨proper, by decide +kernel, by decide +kernel, by decide +kernel, by decide +kernel, ?_⟩
  split at hfailure
  · next hcorpus =>
    cases hfailure
    exact hcorpus
  · cases hfailure

end Disk
end TagSchema
