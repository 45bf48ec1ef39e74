import TagSchema.Proofs.Finalizing
import TagSchema.Proofs.Invariant

/-! Ending a reading: the open scopes close, the root closes without fail, and what remains is to
finalize it. -/
namespace TagSchema
open Grammar Node

theorem Scope.Rooted.close_eq {root : Scope} (h : root.Rooted) (symbols : Symbols) :
    root.close .standard symbols =
      .ok () (⟨root.schema, { root.node with phase := .closed }⟩, symbols) := by
  obtain ⟨schema, tag, signature, place, words, values, children, phase⟩ := root
  obtain rfl : words = [] := h.words
  obtain rfl : phase = .opened := h.gathering.opened
  obtain rfl : schema = Standard.schema .base := h.schema
  obtain rfl : signature = Standard.signature .base := h.signature
  rfl

theorem Scope.Rooted.settled {root : Scope} (h : root.Rooted) :
    { root.node with phase := .closed }.Every Settled := by
  rcases Scope.close_unregistered h.toOpen rfl with ⟨node, hclosed, hcloses⟩ | ⟨fault, -, hfails⟩
  · have hsame := hcloses .empty
    rw [h.close_eq] at hsame
    cases hsame
    exact hclosed.settled
  · obtain ⟨lost, hlost⟩ := hfails .empty
    rw [h.close_eq] at hlost
    cases hlost

namespace Reading

theorem depth_of_closeInnermost {reading after : Reading} (h : closeInnermost reading = .ok () after) :
    after.depth = reading.depth - 1 := by
  obtain ⟨grammar, root, opened, symbols⟩ := reading
  cases opened with
  | nil =>
    cases h
    rfl
  | cons scope outer =>
    unfold closeInnermost adopt at h
    dsimp only at h
    split at h
    · cases h
    · split at h
      · split at h
        · cases h
        · cases h
          simp_all [depth]
      · split at h
        · cases h
        · cases h
          simp_all [depth]

theorem depth_of_closeScopes {n : Nat} {reading after : Reading}
    (h : closeScopes n reading = .ok () after) : after.depth = reading.depth - n := by
  induction n generalizing reading with
  | zero =>
    cases h
    rfl
  | succ n ih =>
    obtain ⟨_, between, hclose, hrest⟩ := bind_eq_ok h
    rw [ih hrest, depth_of_closeInnermost hclose]
    omega

theorem opened_of_closeAll {reading after : Reading} (h : closeAll reading = .ok () after) :
    after.opened = [] := by
  have hdepth := depth_of_closeScopes (n := reading.depth) h
  rw [Nat.sub_self] at hdepth
  exact List.length_eq_zero_iff.mp hdepth

theorem closeAll_of_opened {reading : Reading} (h : reading.opened = []) :
    closeAll reading = .ok () reading := by
  change closeScopes reading.depth reading = _
  unfold depth
  rw [h]
  rfl

theorem opened_of_file {name text : String} {reading after : Reading}
    (h : file name text reading = .ok () after) : after.opened = [] := by
  obtain ⟨_, _, -, hclose⟩ := bind_eq_ok h
  exact opened_of_closeAll hclose

theorem finish_of_closeAll {reading after : Reading} (h : closeAll reading = .ok () after) :
    reading.finish = after.finish := by
  unfold finish
  rw [h, closeAll_of_opened (opened_of_closeAll h)]

def finished (symbols : Symbols) : EStateM.Result Fault Node Unit → Except Fault Corpus
  | .error fault _ => .error fault
  | .ok () root => .ok ⟨root, symbols⟩

theorem Sound.finish_eq {reading : Reading} (sound : reading.Sound) (hopened : reading.opened = []) :
    reading.finish = finished reading.symbols
      ({ reading.root.node with phase := .closed }.finalize reading.symbols) := by
  have hclose := sound.root.close_eq reading.symbols
  unfold finish
  rw [closeAll_of_opened hopened]
  dsimp only
  rw [sound.grammar, hclose]
  cases hrun : { reading.root.node with phase := .closed }.finalize reading.symbols with
  | error fault lost =>
    dsimp only
    rw [hrun, finished]
  | ok _ root =>
    dsimp only
    rw [hrun, finished]

theorem Sound.finish_cases {reading : Reading} (sound : reading.Sound) (hopened : reading.opened = []) :
    (∃ corpus, reading.finish = .ok corpus ∧ corpus.root.Every Final ∧
      reading.root.node.Every fun inner => inner.referenceFault? reading.symbols = none) ∨
    ∃ fault, reading.finish = .error fault ∧ ∃ inner : Node, inner.Occurs reading.root.node ∧
      inner.referenceFault? reading.symbols = some fault := by
  rw [sound.finish_eq hopened]
  rcases finalizes reading.symbols _ sound.root.settled with
    ⟨root, hrun, -, hfinal, hfree⟩ | ⟨fault, after, hrun, inner, hinner, hfault⟩
  · rw [hrun]
    exact .inl ⟨_, rfl, hfinal, every_iff.mpr ⟨hfree.self, (every_iff.mp hfree).2⟩⟩
  · rw [hrun]
    refine .inr ⟨fault, rfl, ?_⟩
    cases hinner with
    | here => exact ⟨reading.root.node, .here, hfault⟩
    | inside hchild hinner => exact ⟨inner, .inside hchild hinner, hfault⟩

theorem Sound.finish_ok_iff {reading : Reading} (sound : reading.Sound)
    (hopened : reading.opened = []) : (∃ corpus, reading.finish = .ok corpus) ↔
      reading.root.node.Every fun inner => inner.referenceFault? reading.symbols = none := by
  rcases sound.finish_cases hopened with
    ⟨corpus, hfinish, -, hfree⟩ | ⟨fault, hfinish, inner, hinner, hfault⟩
  · exact ⟨fun _ => hfree, fun _ => ⟨corpus, hfinish⟩⟩
  · rw [hfinish]
    refine ⟨nofun, fun hfree => ?_⟩
    rw [hfree inner hinner] at hfault
    cases hfault

end Reading
end TagSchema
