import TagSchema.Proofs.Draft

/-! The words of a single line. Words without blanks, joined by single spaces, are read back as they
are, unless the line is a comment. -/
namespace TagSchema

namespace Text

theorem splitOnP_intercalate {p : Char → Bool} {sep : Char} (hsep : p sep)
    {parts : List (List Char)} (hne : parts ≠ []) (h : ∀ part ∈ parts, ∀ c ∈ part, p c = false) :
    ([sep].intercalate parts).splitOnP p = parts := by
  induction parts with
  | nil => exact absurd rfl hne
  | cons part parts ih =>
    rw [List.forall_mem_cons] at h
    cases parts with
    | nil => simpa using List.splitOnP_eq_singleton h.1
    | cons next parts =>
      rw [List.intercalate_cons_cons, List.append_assoc, List.singleton_append,
        List.splitOnP_append_cons_of_forall_mem h.1 sep hsep, ih (List.cons_ne_nil next parts) h.2]

def Plain (word : String) : Prop :=
  word.toList ≠ [] ∧ word.toList.all (!isBlank ·)

theorem Plain.isBlank_eq_false {word : String} (h : Plain word) {c : Char} (hc : c ∈ word.toList) :
    isBlank c = false := by
  simpa using List.all_eq_true.mp h.2 c hc

variable {words : List String}

theorem words_intercalate (h : ∀ word ∈ words, Plain word) :
    Text.words (" ".intercalate words).toList = words := by
  rw [String.toList_intercalate]
  by_cases hne : words = []
  · subst hne
    rfl
  · have hsplit : ([' '].intercalate (words.map String.toList)).splitOnP isBlank =
        words.map String.toList := by
      refine splitOnP_intercalate (by decide) (by simpa using hne) ?_
      simpa using fun word hword c => (h word hword).isBlank_eq_false
    have hfilter : (words.map String.toList).filter (!·.isEmpty) = words.map String.toList := by
      rw [List.filter_eq_self]
      simpa using fun word hword => (h word hword).1
    change ((([' '].intercalate _).splitOnP isBlank).filter (!·.isEmpty)).map String.ofList = _
    rw [hsplit, hfilter, List.map_map]
    simp [Function.comp_def]

theorem mem_intercalate_space {parts : List (List Char)} {c : Char}
    (h : c ∈ [' '].intercalate parts) : c = ' ' ∨ ∃ part ∈ parts, c ∈ part := by
  induction parts with
  | nil => cases h
  | cons part parts ih =>
    cases parts with
    | nil => exact .inr ⟨part, List.mem_cons_self, by simpa using h⟩
    | cons next parts =>
      rw [List.intercalate_cons_cons, List.mem_append, List.mem_append, List.mem_singleton] at h
      rcases h with (h | h) | h
      · exact .inr ⟨part, List.mem_cons_self, h⟩
      · exact .inl h
      · exact (ih h).imp_right fun ⟨found, hfound, hc⟩ => ⟨found, List.mem_cons_of_mem _ hfound, hc⟩

theorem intercalate_no_feed (h : ∀ word ∈ words, Plain word) :
    ∀ c ∈ (" ".intercalate words).toList, (c == '\n') = false := by
  rw [String.toList_intercalate]
  intro c hc
  rcases mem_intercalate_space hc with rfl | ⟨part, hpart, hc⟩
  · rfl
  · obtain ⟨word, hword, rfl⟩ := List.mem_map.mp hpart
    have hblank := (h word hword).isBlank_eq_false hc
    rw [beq_eq_false_iff_ne]
    rintro rfl
    cases hblank

theorem numberedWords_intercalate (h : ∀ word ∈ words, Plain word) (hcomment : isComment words = false) :
    numberedWords (" ".intercalate words) = words.map (1, ·) := by
  have hline : (" ".intercalate words).toList.splitOn '\n' = [(" ".intercalate words).toList] :=
    List.splitOnP_eq_singleton (intercalate_no_feed h)
  rw [numberedWords, lineWords, hline, List.map_singleton, words_intercalate h]
  simp [hcomment]

end Text

namespace Draft

theorem plain_tag (key : Keyword) : Text.Plain ("@" ++ key.spelling) := by
  cases key <;> exact ⟨by decide, by decide⟩

theorem IsWord.plain {word : String} (h : IsWord word) : Text.Plain word :=
  ⟨h.1, h.2.1⟩

theorem Legal.plain {draft : Draft} (legal : draft.Legal) : ∀ word ∈ draft.spelled, Text.Plain word := by
  induction draft using induct with
  | inner draft ih =>
    obtain ⟨fits, legal⟩ := legal_iff.mp legal
    rw [spelled_eq]
    simp only [List.forall_mem_append, List.forall_mem_cons, List.forall_mem_flatMap]
    refine ⟨⟨⟨plain_tag draft.tag, fun word hword => (fits.data word hword).plain⟩, ?_⟩, ?_⟩
    · exact fun child hchild => ih child hchild (legal child hchild)
    · split
      · simpa using plain_tag .endWord
      · nofun

theorem numberedWords_text {drafts : List Draft} (legal : ∀ draft ∈ drafts, draft.Legal) :
    Text.numberedWords (text drafts) = (spelledAll drafts).map (1, ·) := by
  rw [text, spelledAll_eq_flatMap]
  refine Text.numberedWords_intercalate ?_ ?_
  · simpa using fun word draft hdraft => (legal draft hdraft).plain word
  · cases drafts with
    | nil => rfl
    | cons draft drafts =>
      rw [List.flatMap_cons, spelled_eq]
      simp [Text.isComment]

end Draft
end TagSchema
