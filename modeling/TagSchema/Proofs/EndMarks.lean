import TagSchema.Proofs.Framing

/-! End marks. An end mark closes the innermost scope that declares it, with all scopes inside. A tag of
a scope further out, or the end of the file, closes the same scopes in the same order, so that the mark
may as well be left out before it. -/
namespace TagSchema.Reading
open Grammar Node

/-- The states that a reading comes into, between the files and between the words of a file. -/
inductive Visited : Reading → Prop where
  | between {reading : Reading} : Reachable reading → Visited reading
  | word {reading : Reading} (place : Place) (text : String) :
    Visited reading → Visited (after (word place text) reading)

theorem Visited.sound {reading : Reading} (h : Visited reading) : reading.Sound := by
  induction h with
  | between hreachable => exact hreachable.sound
  | word place text _ ih => exact (keeps_word place text _ ih.extends).toSound

theorem closeScopes_add (n m : Nat) : closeScopes (n + m) = closeScopes n >>= fun _ => closeScopes m := by
  induction n with
  | zero =>
    rw [Nat.zero_add]
    exact (pure_bind () fun _ => closeScopes m).symm
  | succ n ih =>
    rw [Nat.succ_add]
    change (closeInnermost >>= fun _ => closeScopes (n + m)) =
      (closeInnermost >>= fun _ => closeScopes n) >>= fun _ => closeScopes m
    rw [ih, bind_assoc]

theorem closeScopes_one : closeScopes 1 = closeInnermost := bind_pure_unit

section steps

variable {reading after : Reading} {key : Keyword} {inside : Nat}

theorem inside?_eq (reading : Reading) (key : Keyword) :
    reading.inside? key = reading.signatures.findIdx? fun signature => (signature.tag? key).isSome := by
  unfold inside? signatures
  rw [List.findIdx?_map]
  rfl

theorem Sound.enter_eq_openTag (sound : reading.Sound) (hinside : reading.inside? key = some inside)
    (place : Place) : enter key.spelling place reading =
      (closeScopes inside >>= fun _ => openTag key place) reading := by
  rw [Reading.enter_eq sound.grammar, Keyword.ofSpelling?_spelling, Option.bind_some, hinside]
  rfl

theorem Sound.inside_lt_depth (sound : reading.Sound) (hinside : reading.inside? .endWord = some inside) :
    inside < reading.depth := by
  obtain ⟨hlength, hdeclares, -⟩ := List.findIdx?_eq_some_iff_getElem.mp hinside
  have hbound : inside < reading.depth + 1 := by simpa [frames, depth] using hlength
  refine Nat.lt_of_le_of_ne (Nat.lt_succ_iff.mp hbound) ?_
  -- The root has no end mark.
  rintro rfl
  have hroot : reading.root.declares .endWord = false := by
    unfold Scope.declares
    rw [sound.root.signature]
    rfl
  simp [frames, depth, hroot] at hdeclares

theorem Sound.openTag_end (sound : reading.Sound)
    (h : ∃ tag, (reading.opened.headD reading.root).node.signature.tag? .endWord = some tag)
    (place : Place) : openTag .endWord place reading = Reading.closeInnermost reading := by
  obtain ⟨tag, htag⟩ := h
  obtain ⟨name, hopen⟩ := sound.stacked.open_head sound.root.toOpen
  have hfound := htag
  rw [hopen.signature] at hfound
  obtain ⟨hmem, hkey⟩ := Standard.mem_of_tag? hfound
  have hcloses := Standard.endWord_closes name tag hmem hkey
  simp only [openTag, Scope.child, htag, hcloses]

theorem Sound.enter_end (sound : reading.Sound) (hinside : reading.inside? .endWord = some inside)
    (place : Place) : word place "@end" reading = closeScopes (inside + 1) reading := by
  have hword : word place "@end" reading = enter Keyword.endWord.spelling place reading := rfl
  rw [hword, sound.enter_eq_openTag hinside, closeScopes_add, closeScopes_one]
  cases hclose : closeScopes inside reading with
  | error fault lost => rw [bind_of_error hclose, bind_of_error hclose]
  | ok _ between =>
    have hbetween := ((keeps_closeScopes inside).ok sound.extends hclose).toSound
    rw [bind_of_ok hclose, bind_of_ok hclose]
    exact hbetween.openTag_end (tag?_of_inside? hinside hclose) place

theorem inside?_of_closeScopes {n : Nat} (hdepth : n ≤ reading.depth)
    (hclose : closeScopes n reading = .ok () after)
    (hinside : reading.inside? key = some (n + inside)) : after.inside? key = some inside := by
  rw [inside?_eq] at hinside ⊢
  rw [signatures_of_closeScopes hdepth hclose]
  obtain ⟨hlength, hdeclares, hfirst⟩ := List.findIdx?_eq_some_iff_getElem.mp hinside
  refine List.findIdx?_eq_some_iff_getElem.mpr ⟨by rw [List.length_drop]; omega, ?_, ?_⟩
  · simpa using hdeclares
  · intro i hi
    simpa using hfirst (n + i) (by omega)

/-- The tag closes the scope that the end mark would close, and goes on to a scope around it. -/
theorem Sound.end_before_tag (sound : reading.Sound) {ended : Nat}
    (hended : reading.inside? .endWord = some ended)
    (hinside : reading.inside? key = some (ended + 1 + inside)) (place place' : Place) :
    (word place "@end" >>= fun _ => word place' ("@" ++ key.spelling)) reading =
      word place' ("@" ++ key.spelling) reading := by
  rw [word_tag, sound.enter_eq_openTag hinside, closeScopes_add, bind_assoc]
  have hend := sound.enter_end hended place
  cases hclose : closeScopes (ended + 1) reading with
  | error fault lost =>
    rw [hclose] at hend
    rw [bind_of_error hend, bind_of_error hclose]
  | ok _ between =>
    rw [hclose] at hend
    have hbetween := ((keeps_closeScopes (ended + 1)).ok sound.extends hclose).toSound
    have hleft := inside?_of_closeScopes (sound.inside_lt_depth hended) hclose hinside
    rw [bind_of_ok hend, bind_of_ok hclose, hbetween.enter_eq_openTag hleft]

theorem Sound.end_before_closeAll (sound : reading.Sound)
    (hinside : reading.inside? .endWord = some inside) (place : Place) :
    (word place "@end" >>= fun _ => closeAll) reading = closeAll reading := by
  have hdepth := sound.inside_lt_depth hinside
  have hend := sound.enter_end hinside place
  have hall : closeAll reading =
      (closeScopes (inside + 1) >>= fun _ => closeScopes (reading.depth - (inside + 1))) reading := by
    rw [← closeScopes_add, Nat.add_sub_cancel' hdepth]
    rfl
  rw [hall]
  cases hclose : closeScopes (inside + 1) reading with
  | error fault lost =>
    rw [hclose] at hend
    rw [bind_of_error hend, bind_of_error hclose]
  | ok _ between =>
    rw [hclose] at hend
    rw [bind_of_ok hend, bind_of_ok hclose, ← depth_of_closeScopes hclose]
    rfl

theorem inside?_of_opened (h : ∃ scope ∈ reading.opened, scope.declares key) :
    ∃ inside, reading.inside? key = some inside := by
  obtain ⟨scope, hscope, hdeclares⟩ := h
  apply Option.isSome_iff_exists.mp
  rw [inside?, List.findIdx?_isSome, List.any_eq_true]
  exact ⟨scope, List.mem_append_left _ hscope, hdeclares⟩

theorem Sound.ends_before_closeAll (name : String) {ends : List (Nat × String)} (sound : reading.Sound)
    (hends : ∀ mark ∈ ends, mark.2 = "@end")
    (hdeclared : ∀ n < ends.length, ∀ between, words name (ends.take n) reading = .ok () between →
      ∃ scope ∈ between.opened, scope.declares .endWord) :
    (words name ends >>= fun _ => closeAll) reading = closeAll reading := by
  -- Induction on the end marks: each closes scopes that the end of the file would close.
  induction ends generalizing reading with
  | nil => rfl
  | cons mark ends ih =>
    rw [List.forall_mem_cons] at hends
    obtain ⟨inside, hinside⟩ := inside?_of_opened (hdeclared 0 (Nat.zero_lt_succ _) reading rfl)
    have hmark := sound.end_before_closeAll hinside ⟨name, mark.1⟩
    rw [← hends.1] at hmark
    have hcons (rest : List (Nat × String)) : words name (mark :: rest) =
        word ⟨name, mark.1⟩ mark.2 >>= fun _ => words name rest := rfl
    rw [hcons, bind_assoc]
    cases hrun : word ⟨name, mark.1⟩ mark.2 reading with
    | error fault lost =>
      rw [bind_of_error hrun] at hmark ⊢
      exact hmark
    | ok _ between =>
      have hbetween := ((keeps_word _ _).ok sound.extends hrun).toSound
      rw [bind_of_ok hrun] at hmark ⊢
      rw [ih hbetween hends.2 fun n hn after hafter => ?_, hmark]
      refine hdeclared (n + 1) (Nat.succ_lt_succ hn) after ?_
      rw [List.take_succ_cons, hcons, bind_of_ok hrun]
      exact hafter

/-- The innermost scope that declares an end mark and the scopes inside it do not declare the tag, but a
scope further out does. -/
def EndsBefore (reading : Reading) (key : Keyword) : Prop :=
  ∃ above declaring below, reading.frames = above ++ declaring :: below ∧
    (∀ scope ∈ above, scope.declares .endWord = false) ∧ declaring.declares .endWord ∧
    (∀ scope ∈ above ++ [declaring], scope.declares key = false) ∧ ∃ scope ∈ below, scope.declares key

theorem endsBefore_iff : reading.EndsBefore key ↔ ∃ ended inside,
    reading.inside? .endWord = some ended ∧ reading.inside? key = some (ended + 1 + inside) := by
  constructor
  · rintro ⟨above, declaring, below, hframes, habove, hdeclaring, hwithin, hbelow⟩
    have hfound : (below.findIdx? (·.declares key)).isSome := by
      rwa [List.findIdx?_isSome, List.any_eq_true]
    obtain ⟨inside, hinside⟩ := Option.isSome_iff_exists.mp hfound
    refine ⟨above.length, inside, ?_, ?_⟩
    · rw [inside?, hframes, List.findIdx?_append, List.findIdx?_eq_none_iff.mpr habove]
      simp [List.findIdx?_cons, hdeclaring]
    · rw [inside?, hframes, List.append_cons, List.findIdx?_append,
        List.findIdx?_eq_none_iff.mpr hwithin, hinside]
      simp [Nat.add_comm]
  · rintro ⟨ended, inside, hended, hinside⟩
    obtain ⟨hlength, hdeclaring, habove⟩ := List.findIdx?_eq_some_iff_getElem.mp hended
    obtain ⟨hlength', hdeclares, hwithin⟩ := List.findIdx?_eq_some_iff_getElem.mp hinside
    refine ⟨reading.frames.take ended, reading.frames[ended], reading.frames.drop (ended + 1), ?_, ?_,
      hdeclaring, ?_, ?_⟩
    · rw [← List.drop_eq_getElem_cons, List.take_append_drop]
    · intro scope hscope
      obtain ⟨i, hi, rfl⟩ := List.mem_take_iff_getElem.mp hscope
      simpa using habove i (by omega)
    · rw [← List.take_succ_eq_append_getElem hlength]
      intro scope hscope
      obtain ⟨i, hi, rfl⟩ := List.mem_take_iff_getElem.mp hscope
      simpa using hwithin i (by omega)
    · refine ⟨reading.frames[ended + 1 + inside], ?_, hdeclares⟩
      exact List.mem_drop_iff_getElem.mpr ⟨inside, by omega, by simp⟩

/-- The shorter text is the text without some end marks at its end, and each of these is declared by an
open scope where it is read. -/
structure DropsEnds (reading : Reading) (name text shorter : String) (ends : List (Nat × String)) :
    Prop where
  words : Text.numberedWords text = Text.numberedWords shorter ++ ends
  marks : ∀ mark ∈ ends, mark.2 = "@end"
  declared : ∀ n < ends.length, ∀ between,
    Reading.words name (Text.numberedWords shorter ++ ends.take n) reading = .ok () between →
      ∃ scope ∈ between.opened, scope.declares .endWord

end steps

/-- A tag of a scope further out closes what an end mark before it would close, and so does the end of
the file. The states and the faults that these lead to are the same. -/
theorem end_marks_implied {reading : Reading} (h : Visited reading) :
    (∀ key place place', reading.EndsBefore key →
      (word place "@end" >>= fun _ => word place' ("@" ++ key.spelling)) reading =
        word place' ("@" ++ key.spelling) reading) ∧
    ∀ name text shorter ends, reading.DropsEnds name text shorter ends →
      file name text reading = file name shorter reading := by
  have sound := h.sound
  constructor
  · intro key place place' hends
    obtain ⟨ended, inside, hended, hinside⟩ := endsBefore_iff.mp hends
    exact sound.end_before_tag hended hinside place place'
  · rintro name text shorter ends ⟨hwords, hmarks, hdeclared⟩
    have hfile (text : String) : file name text =
        words name (Text.numberedWords text) >>= fun _ => closeAll := rfl
    have happend (before after : List (Nat × String)) : words name (before ++ after) =
        words name before >>= fun _ => words name after := List.forM_append
    rw [hfile, hfile, hwords, happend, bind_assoc]
    cases hrun : words name (Text.numberedWords shorter) reading with
    | error fault lost => rw [bind_of_error hrun, bind_of_error hrun]
    | ok _ between =>
      have hbetween := ((keeps_words reading name _).ok sound.extends hrun).toSound
      rw [bind_of_ok hrun, bind_of_ok hrun]
      refine hbetween.ends_before_closeAll name hmarks fun n hn after hafter => ?_
      refine hdeclared n hn after ?_
      rw [happend, bind_of_ok hrun]
      exact hafter

/-- Here a tag of the class ends the field and the text inside it. Then the end of the file ends another
field and the class. -/
theorem end_marks_implied_in_class :
    let reading := after (word ⟨"t", 1⟩ "slow") <| after (word ⟨"t", 1⟩ "@caveat") <|
      after (word ⟨"t", 1⟩ "x") <| after (word ⟨"t", 1⟩ "uint8") <| after (word ⟨"t", 1⟩ "@field") <|
      after (word ⟨"t", 1⟩ "A") <| after (word ⟨"t", 1⟩ "@class") standard
    (word ⟨"t", 2⟩ "@end" >>= fun _ => word ⟨"t", 3⟩ "@inherits") reading =
        word ⟨"t", 3⟩ "@inherits" reading ∧
      file "t" "@field uint8 y\n@end @end\n" reading = file "t" "@field uint8 y" reading := by
  intro reading
  have hvisited : Visited reading :=
    .word _ _ <| .word _ _ <| .word _ _ <| .word _ _ <| .word _ _ <| .word _ _ <| .word _ _ <|
      .between .standard
  obtain ⟨htag, hfile⟩ := end_marks_implied hvisited
  constructor
  · exact htag .inherits _ _ (endsBefore_iff.mpr ⟨1, 0, by decide +kernel, by decide +kernel⟩)
  · have hdeclared : ∀ n < 2, (after (words "t" (Text.numberedWords "@field uint8 y" ++
        [(2, "@end"), (2, "@end")].take n)) reading).opened.any (·.declares .endWord) = true := by
      decide +kernel
    refine hfile _ _ _ [(2, "@end"), (2, "@end")] ⟨by decide +kernel, by decide, ?_⟩
    intro n hn between hbetween
    have hopened := hdeclared n hn
    rw [after, hbetween] at hopened
    exact List.any_eq_true.mp hopened

end TagSchema.Reading
