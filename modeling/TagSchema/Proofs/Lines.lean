import Mathlib.Data.List.Basic
import TagSchema.Text.Words

/-! The words of a text and the lines that they stand on. What a text says is the sequence of its words
outside comments; the lines only number them. -/
namespace TagSchema.Text

def chomp (line : List Char) : List Char :=
  if line.getLast? = some '\r' then line.dropLast else line

/-- A line ends at a line feed, or at a carriage return and a line feed. The last line need not have an
ending. -/
def lines (text : String) : List (List Char) :=
  let pieces := text.toList.splitOn '\n'
  pieces.dropLast.map chomp ++ pieces.getLast?.toList.filter (!·.isEmpty)

example : lines "a\r\n\nb\r" = [['a'], [], ['b', '\r']] := by decide

def content (text : String) : List String :=
  (((lines text).map words).filter (!isComment ·)).flatten

theorem words_append_blank (before after : List Char) {c : Char} (h : isBlank c) :
    words (before ++ c :: after) = words before ++ words after := by
  unfold words
  rw [List.splitOnP_append_cons before after h, List.filter_append, List.map_append]

@[simp] theorem words_nil : words [] = [] := by
  simp [words]

@[simp] theorem words_chomp (line : List Char) : words (chomp line) = words line := by
  unfold chomp
  split
  · next hlast =>
    obtain ⟨before, rfl⟩ := List.getLast?_eq_some_iff.mp hlast
    rw [words_append_blank before [] (by decide), words_nil, List.append_nil, List.dropLast_concat]
  · rfl

def number (first : Nat) (lines : List (List String)) : List (Nat × String) :=
  (lines.zipIdx first).flatMap fun (line, number) =>
    if isComment line then [] else line.map (number, ·)

theorem number_cons (first : Nat) (line : List String) (lines : List (List String)) :
    number first (line :: lines) =
      (if isComment line then [] else line.map (first, ·)) ++ number (first + 1) lines := by
  unfold number
  rw [List.zipIdx_cons, List.flatMap_cons]

theorem numberedWords_eq_number (text : String) :
    numberedWords text = number 1 ((lines text).map words) := by
  -- An empty last piece is no line, but has no words either.
  obtain ⟨pieces, last, hpieces⟩ : ∃ pieces last, text.toList.splitOn '\n' = pieces ++ [last] := by
    have hne : text.toList.splitOn '\n' ≠ [] := List.splitOn_ne_nil _ _
    exact ⟨_, _, (List.dropLast_append_getLast hne).symm⟩
  have hwords : (pieces.map chomp).map words = pieces.map words := by
    rw [List.map_map]
    exact List.map_congr_left fun line _ => words_chomp line
  unfold numberedWords lineWords lines
  simp only [hpieces, List.dropLast_concat, List.getLast?_concat, Option.toList_some, List.map_append,
    List.map_singleton, hwords]
  cases last with
  | cons c last => rfl
  | nil =>
    unfold number
    rw [List.zipIdx_append, List.flatMap_append]
    simp [isComment]

theorem map_number (first : Nat) (lines : List (List String)) :
    (number first lines).map (·.2) = (lines.filter (!isComment ·)).flatten := by
  induction lines generalizing first with
  | nil => rfl
  | cons line lines ih =>
    rw [number_cons, List.map_append, ih]
    by_cases hcomment : isComment line
    · simp [hcomment]
    · simp [hcomment, Function.comp_def]

theorem map_numberedWords (text : String) : (numberedWords text).map (·.2) = content text := by
  rw [numberedWords_eq_number, map_number, content]

theorem mem_number {first n : Nat} {lines : List (List String)} {word : String} :
    (n, word) ∈ number first lines ↔
      ∃ i line, lines[i]? = some line ∧ n = first + i ∧ isComment line = false ∧ word ∈ line := by
  induction lines generalizing first with
  | nil => simp [number]
  | cons line lines ih =>
    rw [number_cons, List.mem_append, ih]
    constructor
    · rintro (hhere | ⟨i, inner, hinner, hn, hword⟩)
      · by_cases hcomment : isComment line
        · simp [hcomment] at hhere
        · rw [if_neg hcomment] at hhere
          obtain ⟨found, hfound, hpair⟩ := List.mem_map.mp hhere
          cases hpair
          exact ⟨0, line, rfl, rfl, by simpa using hcomment, hfound⟩
      · exact ⟨i + 1, inner, by simpa using hinner, by omega, hword⟩
    · rintro ⟨i, inner, hinner, hn, hcomment, hword⟩
      cases i with
      | zero =>
        obtain rfl : line = inner := by simpa using hinner
        subst hn
        left
        rw [if_neg (by simp [hcomment])]
        exact List.mem_map_of_mem hword
      | succ i => exact .inr ⟨i, inner, by simpa using hinner, by omega, hcomment, hword⟩

theorem mem_numberedWords {text : String} {n : Nat} {word : String}
    (h : (n, word) ∈ numberedWords text) :
    ∃ line, (lines text)[n - 1]? = some line ∧ 1 ≤ n ∧ n ≤ (lines text).length ∧
      isComment (words line) = false ∧ word ∈ words line := by
  rw [numberedWords_eq_number, mem_number] at h
  obtain ⟨i, line, hline, rfl, hcomment, hword⟩ := h
  rw [List.getElem?_map] at hline
  obtain ⟨chars, hchars, rfl⟩ := Option.map_eq_some_iff.mp hline
  obtain ⟨hbound, -⟩ := List.getElem?_eq_some_iff.mp hchars
  refine ⟨chars, ?_, by omega, by omega, hcomment, hword⟩
  rw [Nat.add_sub_cancel_left]
  exact hchars

theorem pairwise_numberedWords (text : String) : (numberedWords text).Pairwise (·.1 ≤ ·.1) := by
  rw [numberedWords_eq_number]
  generalize (lines text).map words = lines
  generalize (1 : Nat) = first
  induction lines generalizing first with
  | nil => exact .nil
  | cons line lines ih =>
    rw [number_cons, List.pairwise_append]
    refine ⟨?_, ih (first + 1), fun (n, word) hword (n', word') hword' => ?_⟩
    · by_cases hcomment : isComment line
      · simp [hcomment]
      · rw [if_neg hcomment, List.pairwise_map]
        exact List.pairwise_of_forall fun _ _ => Nat.le_refl first
    · obtain ⟨i, _, -, hn', -⟩ := mem_number.mp hword'
      by_cases hcomment : isComment line
      · simp [hcomment] at hword
      · rw [if_neg hcomment] at hword
        obtain ⟨_, -, hpair⟩ := List.mem_map.mp hword
        cases hpair
        simp only
        omega

end TagSchema.Text
