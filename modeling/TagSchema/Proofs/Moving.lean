import TagSchema.Proofs.Naturality

/-! Reading the same words at other places. The reading comes to the same state, moved, or fails with the
same fault, moved; and so does the end of the reading. -/
namespace TagSchema
open Grammar Node

variable {move : Place → Place}

def Scope.relocate (move : Place → Place) (scope : Scope) : Scope :=
  { scope with node := scope.node.relocate move }

def Corpus.relocate (move : Place → Place) (corpus : Corpus) : Corpus :=
  ⟨corpus.root.relocate move, corpus.symbols.relocate move⟩

namespace Scope

variable {scope : Scope}

def carry (move : Place → Place) : Scope × Symbols → Scope × Symbols :=
  Prod.map (relocate move) (Symbols.relocate move)

theorem close_relocate (move : Place → Place) {name : SchemaName}
    (h : scope.schema = Standard.schema name) (symbols : Symbols) :
    Moved move (carry move) (scope.close .standard symbols)
      ((scope.relocate move).close .standard (symbols.relocate move)) := by
  have hmoved : Moved move (Closing.carry move)
      (Node.close .standard scope.schema (scope.node, symbols))
      (Node.close .standard scope.schema (scope.node.relocate move, symbols.relocate move)) := by
    rw [h]
    exact Closing.Natural.within 13 name (scope.node, symbols)
  have hschema : (scope.relocate move).schema = scope.schema := rfl
  have hnode : (scope.relocate move).node = scope.node.relocate move := rfl
  unfold close
  rw [hschema, hnode]
  generalize Node.close .standard scope.schema (scope.node, symbols) = result at hmoved ⊢
  generalize Node.close .standard scope.schema (scope.node.relocate move, symbols.relocate move) =
    result' at hmoved ⊢
  cases hmoved with
  | ok _ after => exact .ok () ((⟨scope.schema, after.1⟩, after.2) : Scope × Symbols)
  | error after hmoves => exact .error ((⟨scope.schema, after.1⟩, after.2) : Scope × Symbols) hmoves

theorem declares_relocate (key : Keyword) : (scope.relocate move).declares key = scope.declares key := by
  unfold declares
  rw [← signature_relocate move scope.node]
  rfl

theorem child_relocate (move : Place → Place) (scope : Scope) (key : Keyword) (place : Place) :
    MovedValue move (Option.map (relocate move)) (scope.child .standard key place)
      ((scope.relocate move).child .standard key (move place)) := by
  have hnode : (scope.relocate move).node = scope.node.relocate move := rfl
  unfold child
  rw [hnode, signature_relocate, tag_relocate]
  cases scope.node.signature.tag? key with
  | none => exact .error ⟨rfl, rfl, rfl⟩
  | some tag =>
    dsimp only
    cases tag.schema with
    | none => exact .ok none
    | some name =>
      have hstart : start key (Standard.schema name) (move place) =
          (start key (Standard.schema name) place).relocate move := by
        unfold start relocate
        rw [relocate_start]
      simp only [find?_standard, hstart]
      exact .ok (some _)

end Scope

namespace Reading

def relocate (move : Place → Place) (reading : Reading) : Reading where
  grammar := reading.grammar
  root := reading.root.relocate move
  opened := reading.opened.map (Scope.relocate move)
  symbols := reading.symbols.relocate move

structure Moves (move : Place → Place) (step step' : Step α) : Prop where
  keeps : ∀ start, Keeps (Extends start) step
  moved : ∀ reading, reading.Sound → Moved move (relocate move) (step reading)
    (step' (reading.relocate move))

namespace Moves

theorem bind {step step' : Step β} {next next' : β → Step α} (hstep : Moves move step step')
    (hnext : ∀ b, Moves move (next b) (next' b)) : Moves move (step >>= next) (step' >>= next') := by
  refine ⟨fun start => (hstep.keeps start).bind fun b => (hnext b).keeps start, fun reading sound => ?_⟩
  refine (hstep.moved reading sound).bind fun b between hrun => ?_
  exact (hnext b).moved between ((hstep.keeps reading).ok sound.extends hrun).toSound

theorem pure (a : α) : Moves move (Pure.pure a : Step α) (Pure.pure a) :=
  ⟨fun _ _ hreading => hreading, fun reading _ => .ok a reading⟩

theorem forM {body body' : β → Step Unit} {f : β → β}
    (h : ∀ item, Moves move (body item) (body' (f item))) (items : List β) :
    Moves move (items.forM body) ((items.map f).forM body') := by
  induction items with
  | nil => exact pure ()
  | cons item items ih =>
    rw [List.map_cons, List.forM_eq_forM, List.forM_cons, List.forM_cons]
    exact bind (h item) fun _ => ih

end Moves

theorem adopt_relocate (node : Node) (reading : Reading) :
    Moved move (relocate move) (adopt node reading)
      (adopt (node.relocate move) (reading.relocate move)) := by
  obtain ⟨grammar, root, opened, symbols⟩ := reading
  cases opened with
  | nil =>
    have hmoved := Node.adopt_relocate move root.node node
    have hstart : relocate move ⟨grammar, root, [], symbols⟩ =
        ⟨grammar, ⟨root.schema, root.node.relocate move⟩, [], symbols.relocate move⟩ := rfl
    rw [hstart]
    unfold adopt
    dsimp only
    generalize root.node.adopt node = adopted at hmoved ⊢
    generalize (root.node.relocate move).adopt (node.relocate move) = adopted' at hmoved ⊢
    cases hmoved with
    | ok updated => exact .ok () (⟨grammar, ⟨root.schema, updated⟩, [], symbols⟩ : Reading)
    | error hmoves => exact .error _ hmoves
  | cons parent outer =>
    have hmoved := Node.adopt_relocate move parent.node node
    have hstart : relocate move ⟨grammar, root, parent :: outer, symbols⟩ =
        ⟨grammar, root.relocate move, ⟨parent.schema, parent.node.relocate move⟩ ::
          outer.map (Scope.relocate move), symbols.relocate move⟩ := rfl
    rw [hstart]
    unfold adopt
    dsimp only
    generalize parent.node.adopt node = adopted at hmoved ⊢
    generalize (parent.node.relocate move).adopt (node.relocate move) = adopted' at hmoved ⊢
    cases hmoved with
    | ok updated => exact .ok () (⟨grammar, root, ⟨parent.schema, updated⟩ :: outer, symbols⟩ : Reading)
    | error hmoves => exact .error _ hmoves

theorem moves_closeInnermost (move : Place → Place) : Moves move closeInnermost closeInnermost := by
  refine ⟨fun _ => keeps_closeInnermost, ?_⟩
  rintro ⟨grammar, root, opened, symbols⟩ sound
  obtain rfl : grammar = .standard := sound.grammar
  cases opened with
  | nil => exact .ok () _
  | cons scope outer =>
    obtain ⟨⟨_, name, -, -, hopen⟩, -⟩ := sound.stacked
    have hmoved := Scope.close_relocate move hopen.schema symbols
    have hstart : relocate move ⟨.standard, root, scope :: outer, symbols⟩ =
        ⟨.standard, root.relocate move, scope.relocate move :: outer.map (Scope.relocate move),
          symbols.relocate move⟩ := rfl
    rw [hstart]
    unfold closeInnermost
    dsimp only
    generalize scope.close .standard symbols = result at hmoved ⊢
    generalize (scope.relocate move).close .standard (symbols.relocate move) = result' at hmoved ⊢
    cases hmoved with
    | error after hmoves => exact .error (⟨.standard, root, outer, after.2⟩ : Reading) hmoves
    | ok _ after => exact adopt_relocate after.1.node ⟨.standard, root, outer, after.2⟩

theorem moves_closeScopes (move : Place → Place) (n : Nat) : Moves move (closeScopes n) (closeScopes n) := by
  induction n with
  | zero => exact .pure ()
  | succ n ih => exact (moves_closeInnermost move).bind fun _ => ih

theorem moves_closeAll (move : Place → Place) : Moves move closeAll closeAll := by
  refine ⟨fun start => keeps_closeAll, fun reading sound => ?_⟩
  have hdepth : (reading.relocate move).depth = reading.depth := List.length_map _
  change Moved move (relocate move) (closeScopes reading.depth reading)
    (closeScopes (reading.relocate move).depth (reading.relocate move))
  rw [hdepth]
  exact (moves_closeScopes move reading.depth).moved reading sound

theorem headD_relocate (reading : Reading) :
    (reading.relocate move).opened.headD (reading.relocate move).root =
      (reading.opened.headD reading.root).relocate move := by
  unfold relocate
  cases reading.opened <;> rfl

theorem moves_openTag (key : Keyword) (place : Place) :
    Moves move (openTag key place) (openTag key (move place)) := by
  refine ⟨fun start => keeps_openTag key place, fun reading sound => ?_⟩
  have hclose := (moves_closeInnermost move).moved reading sound
  have hmoved := Scope.child_relocate move (reading.opened.headD reading.root) key place
  unfold openTag
  rw [headD_relocate]
  generalize (reading.opened.headD reading.root).child .standard key place = result at hmoved ⊢
  generalize ((reading.opened.headD reading.root).relocate move).child .standard key (move place) =
    result' at hmoved ⊢
  cases hmoved with
  | error hmoves => exact .error reading hmoves
  | ok child =>
    cases child with
    | none => exact hclose
    | some child => exact .ok () { reading with opened := child :: reading.opened }

theorem inside?_relocate (reading : Reading) (key : Keyword) :
    (reading.relocate move).inside? key = reading.inside? key := by
  have hframes : (reading.relocate move).frames = reading.frames.map (Scope.relocate move) := by
    unfold frames relocate
    rw [List.map_append, List.map_singleton]
  unfold inside?
  rw [hframes, List.findIdx?_map]
  simp only [Function.comp_def, Scope.declares_relocate]

theorem innermost_relocate (reading : Reading) :
    (reading.relocate move).innermost = reading.innermost := by
  unfold innermost
  rw [headD_relocate]
  exact tag_relocate move _

theorem moves_enter (word : String) (place : Place) :
    Moves move (enter word place) (enter word (move place)) := by
  refine ⟨fun start => keeps_enter word place, fun reading sound => ?_⟩
  have hgrammar : (reading.relocate move).grammar = .standard := sound.grammar
  rw [enter_eq sound.grammar, enter_eq hgrammar]
  simp only [inside?_relocate, innermost_relocate]
  cases (Keyword.ofSpelling? word).bind fun key => (reading.inside? key).map (key, ·) with
  | none => exact .error reading ⟨rfl, rfl, rfl⟩
  | some found =>
    have hopen : Moves move (closeScopes found.2 >>= fun _ => openTag found.1 place)
        (closeScopes found.2 >>= fun _ => openTag found.1 (move place)) :=
      (moves_closeScopes move found.2).bind fun _ => moves_openTag found.1 place
    exact hopen.moved reading sound

theorem moves_keep (word : String) (place : Place) :
    Moves move (keep word place) (keep word (move place)) := by
  refine ⟨fun start => keeps_keep word place, ?_⟩
  rintro ⟨grammar, root, opened, symbols⟩ -
  cases opened with
  | nil => exact .error _ ⟨rfl, rfl, rfl⟩
  | cons scope outer =>
    have hadded : Scope.mk scope.schema ((scope.node.relocate move).addWord word) =
        (Scope.mk scope.schema (scope.node.addWord word)).relocate move :=
      congrArg (Scope.mk scope.schema) (relocate_addWord move scope.node word).symm
    have hrun : keep word (move place) (relocate move ⟨grammar, root, scope :: outer, symbols⟩) =
        .ok () ⟨grammar, root.relocate move,
          ⟨scope.schema, (scope.node.relocate move).addWord word⟩ :: outer.map (Scope.relocate move),
          symbols.relocate move⟩ := rfl
    rw [hrun, hadded]
    exact .ok () (⟨grammar, root, ⟨scope.schema, scope.node.addWord word⟩ :: outer, symbols⟩ : Reading)

theorem moves_word (place : Place) (text : String) :
    Moves move (word place text) (word (move place) text) := by
  unfold word
  split
  · exact moves_enter _ place
  · exact moves_keep text place

def recite (spoken : List (Place × String)) : Step Unit :=
  spoken.forM fun (place, text) => word place text

def spoken (source : String × String) : List (Place × String) :=
  (Text.numberedWords source.2).map fun (line, text) => (⟨source.1, line⟩, text)

theorem file_eq_recite (source : String × String) :
    file source.1 source.2 = recite (spoken source) >>= fun _ => closeAll := by
  unfold recite spoken
  rw [List.forM_eq_forM, List.forM_map]
  rfl

def displace (move : Place → Place) (spoken : List (Place × String)) : List (Place × String) :=
  spoken.map (Prod.map move id)

theorem moves_recite (move : Place → Place) (spoken : List (Place × String)) :
    Moves move (recite spoken) (recite (displace move spoken)) :=
  .forM (fun (place, text) => moves_word place text) spoken

theorem relocate_standard (h : move ⟨"", 0⟩ = ⟨"", 0⟩) : standard.relocate move = standard := by
  have hroot : standard.root.relocate move = standard.root := by
    unfold Scope.relocate standard
    dsimp only [Scope.start]
    rw [relocate_start, h]
  unfold relocate
  rw [hroot]
  rfl

theorem moved_recite (move : Place → Place) (h : move ⟨"", 0⟩ = ⟨"", 0⟩)
    (spoken : List (Place × String)) :
    Moved move (relocate move) ((recite spoken >>= fun _ => closeAll) standard)
      ((recite (displace move spoken) >>= fun _ => closeAll) standard) := by
  have hmoves : Moves move (recite spoken >>= fun _ => closeAll)
      (recite (displace move spoken) >>= fun _ => closeAll) :=
    (moves_recite move spoken).bind fun _ => moves_closeAll move
  have hmoved := hmoves.moved standard sound_standard
  rwa [relocate_standard h] at hmoved

end Reading

namespace Node

variable {symbols : Symbols}

theorem symbolsAt_relocate (node : Node) (key : Keyword) :
    (node.relocate move).symbolsAt key = node.symbolsAt key := by
  unfold symbolsAt
  rw [values_relocate, childrenOf_relocate, List.filterMap_map]
  simp only [Function.comp_def, scalar?_relocate]

theorem referenceFault?_relocate (node : Node) :
    (node.relocate move).referenceFault? (symbols.relocate move) =
      (node.referenceFault? symbols).map fun fault => { fault with place := move fault.place } := by
  have hunresolved : unresolved (symbols.relocate move) (node.relocate move) =
      unresolved symbols node := by
    funext reference
    unfold unresolved
    simp only [values_relocate, symbolsAt_relocate, Symbols.resolves_relocate]
  unfold referenceFault?
  rw [hunresolved, signature_relocate, Option.map_map]
  congr 1
  funext cause
  unfold fault
  simp

theorem finalizeAll_relocate {nodes : List Node}
    (h : ∀ node ∈ nodes, Moved move (relocate move) (node.finalize symbols)
      ((node.relocate move).finalize (symbols.relocate move))) :
    Moved move (List.map (relocate move)) (finalizeAll symbols nodes)
      (finalizeAll (symbols.relocate move) (nodes.map (relocate move))) := by
  induction nodes with
  | nil => exact .ok () []
  | cons node nodes ih =>
    rw [List.forall_mem_cons] at h
    obtain ⟨hnode, hnodes⟩ := h
    have hrest := ih hnodes
    rw [List.map_cons, finalizeAll, finalizeAll]
    generalize node.finalize symbols = result at hnode ⊢
    generalize (node.relocate move).finalize (symbols.relocate move) = result' at hnode ⊢
    cases hnode with
    | error after hmoves => exact .error (after :: nodes) hmoves
    | ok _ after =>
      dsimp only
      generalize finalizeAll symbols nodes = rest at hrest ⊢
      generalize finalizeAll (symbols.relocate move) (nodes.map (relocate move)) = rest' at hrest ⊢
      cases hrest with
      | error others hmoves => exact .error (after :: others) hmoves
      | ok _ others => exact .ok () (after :: others)

theorem relocate_withChildren (node : Node) (children : List Node) :
    { node with children }.relocate move =
      { node.relocate move with children := children.map (relocate move) } := by
  rw [relocate_eq, relocate_eq]

theorem finalize_relocate (move : Place → Place) (symbols : Symbols) (node : Node) :
    Moved move (relocate move) (node.finalize symbols)
      ((node.relocate move).finalize (symbols.relocate move)) := by
  -- Induction on the tree: the references of a tree resolve or not wherever it stands.
  induction node using induct with
  | parent node ih =>
    have hall := finalizeAll_relocate ih
    by_cases hphase : node.phase = .finalized
    · have hsame (node : Node) (symbols : Symbols) (h : node.phase = .finalized) :
          node.finalize symbols = .ok () node := by
        cases node
        rw [finalize]
        exact if_pos h
      rw [hsame node symbols hphase, hsame _ _ ((phase_relocate move node).trans hphase)]
      exact .ok () node
    · rw [finalize_eq hphase, finalize_eq (by rwa [phase_relocate]), children_relocate]
      generalize finalizeAll symbols node.children = result at hall ⊢
      generalize finalizeAll (symbols.relocate move) (node.children.map (relocate move)) = result'
        at hall ⊢
      cases hall with
      | error children hmoves =>
        dsimp only
        rw [← relocate_withChildren]
        exact .error { node with children } hmoves
      | ok _ children =>
        dsimp only
        rw [← relocate_withChildren, referenceFault?_relocate]
        cases { node with children }.referenceFault? symbols with
        | some fault =>
          have hmoves : fault.Moves move { fault with place := move fault.place } := ⟨rfl, rfl, rfl⟩
          exact .error { node with children } hmoves
        | none =>
          have hafter : { node with children, phase := .finalized }.relocate move =
              { node.relocate move with
                children := children.map (relocate move), phase := .finalized } := by
            rw [relocate_eq, relocate_eq]
          dsimp only [Option.map_none]
          rw [← hafter]
          exact .ok () { node with children, phase := .finalized }

end Node

namespace Reading

theorem finish_relocate (move : Place → Place) {reading : Reading} (sound : reading.Sound) :
    MovedValue move (Corpus.relocate move) reading.finish (reading.relocate move).finish := by
  have hall := (moves_closeAll move).moved reading sound
  unfold finish
  cases hclose : closeAll reading with
  | error fault lost =>
    rw [hclose] at hall
    generalize closeAll (reading.relocate move) = result' at hall ⊢
    cases hall with
    | error _ hmoves => exact .error hmoves
  | ok _ between =>
    have hbetween := (keeps_closeAll.ok sound.extends hclose).toSound
    rw [hclose] at hall
    generalize closeAll (reading.relocate move) = result' at hall ⊢
    cases hall
    have hroot := Scope.close_relocate move hbetween.root.schema between.symbols
    have hgrammar : (between.relocate move).grammar = .standard := hbetween.grammar
    have hmoved : (between.relocate move).root = between.root.relocate move := rfl
    have hsymbols : (between.relocate move).symbols = between.symbols.relocate move := rfl
    dsimp only
    rw [hgrammar, hmoved, hsymbols, hbetween.grammar]
    generalize between.root.close .standard between.symbols = result at hroot ⊢
    generalize (between.root.relocate move).close .standard (between.symbols.relocate move) = result'
      at hroot ⊢
    cases hroot with
    | error _ hmoves => exact .error hmoves
    | ok _ after =>
      obtain ⟨root, symbols⟩ := after
      have hfinal := finalize_relocate move symbols root.node
      have hnode : (root.relocate move).node = root.node.relocate move := rfl
      dsimp only [Scope.carry, Prod.map]
      rw [hnode]
      generalize root.node.finalize symbols = result at hfinal ⊢
      generalize (root.node.relocate move).finalize (symbols.relocate move) = result' at hfinal ⊢
      cases hfinal with
      | error _ hmoves => exact .error hmoves
      | ok _ final => exact .ok (⟨final, symbols⟩ : Corpus)

end Reading
end TagSchema
