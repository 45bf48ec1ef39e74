import TagSchema.Proofs.Framing
import TagSchema.Proofs.Relocation

/-! No place decides anything. A step of closing does the same to a node that stands elsewhere, and a
step of reading does the same to a word that is written elsewhere: the outcome is the one it would have
been, moved. Two runs are compared step by step, one of which is the other one moved. -/
namespace TagSchema
open Grammar Node

variable {move : Place → Place}

theorem Moved.bind {carry : σ → σ} {step step' : EStateM Fault σ β} {next next' : β → EStateM Fault σ α}
    {state : σ} (h : Moved move carry (step state) (step' (carry state)))
    (hnext : ∀ b between, step state = .ok b between →
      Moved move carry (next b between) (next' b (carry between))) :
    Moved move carry ((step >>= next) state) ((step' >>= next') (carry state)) := by
  generalize hrun : step state = result at h
  generalize hrun' : step' (carry state) = result' at h
  cases h with
  | ok b between =>
    rw [bind_of_ok hrun, bind_of_ok hrun']
    exact hnext b between hrun
  | error lost hmoves =>
    rw [bind_of_error hrun, bind_of_error hrun']
    exact .error lost hmoves

namespace Grammar.Standard

variable (move : Place → Place)

theorem numberChildren_relocate (next : Option Int64) (nodes : List Node) :
    numberChildren next (nodes.map (relocate move)) =
      ((numberChildren next nodes).1.map (relocate move), (numberChildren next nodes).2) := by
  induction nodes generalizing next with
  | nil => rfl
  | cons node rest ih =>
    rw [List.map_cons]
    unfold numberChildren
    simp only [tag_relocate, values_relocate, text?_relocate, ih]
    split
    · split
      · rfl
      · simp only [List.map_cons, relocate_set]
      · rfl
    · rfl

theorem complete_relocate {name : SchemaName} {completion : Completion}
    (h : completion ∈ (schema name).completions) (node : Node) :
    (∃ after, completion node = .ok () after ∧
      completion (node.relocate move) = .ok () (after.relocate move)) ∨
    ∃ complaint after, completion node = .error complaint after ∧
      completion (node.relocate move) = .error complaint (after.relocate move) := by
  rcases mem_completions h with ⟨-, rfl⟩ | ⟨-, rfl⟩
  · left
    unfold standForItself
    simp only [values_relocate]
    split
    · next value _ _ => exact ⟨_, rfl, by rw [relocate_set]⟩
    · exact ⟨_, rfl, rfl⟩
  · have hreplaced (children : List Node) :
        { node.relocate move with children := children.map (relocate move) } =
          { node with children }.relocate move := by
      rw [relocate_eq, relocate_eq]
    unfold numberInOrder
    rw [children_relocate, numberChildren_relocate]
    rcases numberChildren (some 0) node.children with ⟨children, _ | failure⟩
    · exact .inl ⟨_, rfl, by rw [← hreplaced]⟩
    · exact .inr ⟨failure, _, rfl, by rw [← hreplaced]⟩

theorem accepts_relocate {name : SchemaName} {check : NodeCheck} (h : check ∈ (schema name).checks)
    (node : Node) : check.accepts (node.relocate move) = check.accepts node := by
  rcases mem_checks h with ⟨property, -, -, rfl⟩ | ⟨tag, -, -, rfl⟩ | ⟨tag, -, -, rfl⟩ | ⟨-, rfl⟩
  · simp [NodeCheck.accepts]
  · simp [NodeCheck.accepts]
  · simp [NodeCheck.accepts]
  · simp only [NodeCheck.accepts, hasOtherParent, text?_relocate, childScalar?_relocate]

end Grammar.Standard

namespace Closing

def carry (move : Place → Place) : Node × Symbols → Node × Symbols :=
  Prod.map (Node.relocate move) (Symbols.relocate move)

def Natural (move : Place → Place) (step : Closing α) : Prop :=
  ∀ state, Moved move (carry move) (step state) (step (carry move state))

namespace Natural

theorem pure (a : α) : Natural move (Pure.pure a : Closing α) := fun state => .ok a state

theorem bind {step : Closing β} {next : β → Closing α} (hstep : Natural move step)
    (hnext : ∀ b, Natural move (next b)) : Natural move (step >>= next) :=
  fun state => (hstep state).bind fun b between _ => hnext b between

theorem forM {body : β → Closing Unit} {items : List β} (h : ∀ item ∈ items, Natural move (body item)) :
    Natural move (items.forM body) := by
  induction items with
  | nil => exact pure ()
  | cons item items ih =>
    rw [List.forall_mem_cons] at h
    rw [List.forM_eq_forM, List.forM_cons]
    exact bind h.1 fun _ => ih h.2

theorem look {next : Node → Closing α} (h : ∀ node, Natural move (next node))
    (hsame : ∀ node, next (node.relocate move) = next node) : Natural move (node >>= next) := by
  intro state
  have hnext := h state.1 state
  have hrun : (node >>= next) (carry move state) = next (state.1.relocate move) (carry move state) := rfl
  rw [hrun, hsame]
  exact hnext

theorem modifyNode {change : Node → Node}
    (h : ∀ node, (change node).relocate move = change (node.relocate move)) :
    Natural move (Closing.modifyNode change) := by
  intro state
  have hrun : Closing.modifyNode change (carry move state) =
      .ok () (carry move (change state.1, state.2)) := by
    change EStateM.Result.ok () (change (state.1.relocate move), _) = _
    rw [← h]
    rfl
  rw [hrun]
  exact .ok () (change state.1, state.2)

theorem fail (cause : Fault.Cause) : Natural move (Closing.fail cause : Closing α) :=
  fun state => .error state (moves_fault move cause)

theorem attempt (result : Except Fault.Cause α) : Natural move (Closing.attempt result) := by
  cases result with
  | ok a => exact pure a
  | error cause => exact fail cause

theorem assign (properties : List Property) (words : List String) :
    Natural move (Closing.assign properties words) := by
  induction properties generalizing words with
  | nil => exact pure words
  | cons property properties ih =>
    refine look (fun node => bind (attempt _) fun (taken, rest) => ?_) fun node => ?_
    · cases taken with
      | none => exact ih rest
      | some taken =>
        refine bind (attempt _) fun value => bind (modifyNode fun node => ?_) fun _ => ih rest
        exact relocate_set move node property.key value
    · simp only [tag_relocate]

variable {fill : Tag → List String → Closing Unit}

theorem fillImplicit (hfill : ∀ tag words, Natural move (fill tag words)) (words : List String) :
    Natural move (Closing.fillImplicit fill words) := by
  cases words with
  | nil => exact pure ()
  | cons word rest =>
    refine look (fun node => ?_) fun node => ?_
    · split
      · exact fail _
      · split
        · exact hfill _ _
        · exact fail _
    · simp only [signature_relocate, tag_relocate, childrenOf_relocate, List.isEmpty_map]

theorem fillDefault (hfill : ∀ tag words, Natural move (fill tag words)) (tag : Tag) :
    Natural move (Closing.fillDefault fill tag) := by
  unfold Closing.fillDefault
  split
  · refine look (fun node => ?_) fun node => ?_
    · split
      · exact hfill _ _
      · exact pure ()
    · simp only [childrenOf_relocate, List.isEmpty_map]
  · exact pure ()

variable {name : SchemaName}

theorem complete {completion : Completion} (h : completion ∈ (Standard.schema name).completions) :
    Natural move (Closing.complete completion) := by
  rintro ⟨node, symbols⟩
  have hcarry : carry move (node, symbols) = (node.relocate move, symbols.relocate move) := rfl
  rw [hcarry]
  unfold Closing.complete
  dsimp only
  rcases Standard.complete_relocate move h node with
    ⟨after, hrun, hrun'⟩ | ⟨complaint, after, hrun, hrun'⟩
  · rw [hrun, hrun']
    exact .ok () (after, symbols)
  · rw [hrun, hrun']
    exact .error (after, symbols) (moves_fault move _)

theorem check {check : NodeCheck} (h : check ∈ (Standard.schema name).checks) :
    Natural move (Closing.check check) := by
  refine look (fun node => ?_) fun node => ?_
  · split
    · exact pure ()
    · exact fail _
  · simp only [Standard.accepts_relocate move h, signature_relocate]

theorem register (registration : Registration) : Natural move (Closing.register registration) := by
  rintro ⟨node, symbols⟩
  have hcarry : carry move (node, symbols) = (node.relocate move, symbols.relocate move) := rfl
  rw [hcarry]
  unfold Closing.register
  dsimp only
  rw [values_relocate]
  cases (node.values registration.key).bind (·.symbol?) with
  | none => exact .ok () (node, symbols)
  | some name =>
    dsimp only
    have hmoved := Symbols.register_relocate move name registration.space node.place
      registration.delimiter symbols
    rw [← place_relocate move node] at hmoved
    generalize Symbols.register name registration.space node.place registration.delimiter symbols =
      result at hmoved ⊢
    generalize Symbols.register name registration.space (node.relocate move).place
      registration.delimiter (symbols.relocate move) = result' at hmoved ⊢
    cases hmoved with
    | ok _ after => exact .ok () (node, after)
    | error after hmoves =>
      dsimp only
      rw [tag_relocate]
      exact .error (node, after) (hmoves.inScope node.tag)

theorem run (hfill : ∀ tag words, Natural move (fill tag words)) (name : SchemaName) :
    Natural move (Closing.run fill (Standard.schema name)) := by
  refine look (fun node => ?_) fun node => by simp only [phase_relocate]
  split
  · refine look (fun node => ?_) fun node => by simp only [words_relocate]
    refine bind (modifyNode fun node => relocate_withWords move node []) fun _ => ?_
    refine bind (assign _ _) fun rest => bind (fillImplicit hfill rest) fun _ => ?_
    refine bind (forM fun tag _ => fillDefault hfill tag) fun _ => ?_
    refine bind (forM fun completion hcompletion => complete hcompletion) fun _ => ?_
    refine bind (forM fun check hcheck => Natural.check hcheck) fun _ => ?_
    refine bind (forM fun registration _ => register registration) fun _ => ?_
    exact modifyNode fun node => relocate_withPhase move node .closed
  · exact pure ()

theorem fillWith {closeChild : Schema → Closing Unit}
    (hclose : ∀ name, Natural move (closeChild (Standard.schema name))) (tag : Tag)
    (words : List String) : Natural move (Closing.fillWith closeChild .standard tag words) := by
  rintro ⟨node, symbols⟩
  have hcarry : carry move (node, symbols) = (node.relocate move, symbols.relocate move) := rfl
  rw [hcarry]
  unfold Closing.fillWith
  cases tag.schema with
  | none => exact .ok () (node, symbols)
  | some name =>
    dsimp only
    rw [find?_standard]
    dsimp only
    have hchild : { Node.start tag.key (Standard.schema name).toSignature (node.relocate move).place
        with words } = { Node.start tag.key (Standard.schema name).toSignature node.place
          with words }.relocate move := by
      rw [relocate_withWords, relocate_start, place_relocate]
    have hmoved := hclose name
      ({ Node.start tag.key (Standard.schema name).toSignature node.place with words }, symbols)
    rw [hchild]
    have hcarry' (child : Node) (symbols : Symbols) :
        carry move (child, symbols) = (child.relocate move, symbols.relocate move) := rfl
    rw [hcarry'] at hmoved
    generalize closeChild (Standard.schema name) (_, symbols) = result at hmoved ⊢
    generalize closeChild (Standard.schema name) (_, symbols.relocate move) = result' at hmoved ⊢
    cases hmoved with
    | error lost hmoves => exact .error (node, lost.2) hmoves
    | ok _ after =>
      obtain ⟨child, registered⟩ := after
      rw [hcarry']
      dsimp only
      have hadopted := adopt_relocate move node child
      generalize node.adopt child = adopted at hadopted ⊢
      generalize (node.relocate move).adopt (child.relocate move) = adopted' at hadopted ⊢
      cases hadopted with
      | error hmoves => exact .error (node, registered) hmoves
      | ok updated => exact .ok () (updated, registered)

theorem within (depth : Nat) (name : SchemaName) :
    Natural move (Closing.within .standard depth (Standard.schema name)) := by
  -- Induction on the depth of filling: the filled-in children close alike, too.
  induction depth generalizing name with
  | zero => exact run (fun _ _ => pure ()) name
  | succ depth ih => exact run (fillWith ih) name

end Natural
end Closing
end TagSchema
