import TagSchema.Node.Closing

/-! Reasoning about the steps of closing that have nothing to do with symbols. A quiet step neither
looks at the symbols nor changes them, so what it does to a node is a matter of the node alone. -/
namespace TagSchema

theorem bind_of_ok {step : EStateM ε σ β} {next : β → EStateM ε σ α} {state after : σ} {b : β}
    (h : step state = .ok b after) : (step >>= next) state = next b after := by
  change EStateM.bind step next state = _
  rw [EStateM.bind, h]

theorem bind_of_error {step : EStateM ε σ β} {next : β → EStateM ε σ α} {state after : σ}
    {error : ε} (h : step state = .error error after) :
    (step >>= next) state = .error error after := by
  change EStateM.bind step next state = _
  rw [EStateM.bind, h]

theorem bind_eq_ok {step : EStateM ε σ β} {next : β → EStateM ε σ α} {state after : σ} {a : α}
    (h : (step >>= next) state = .ok a after) :
    ∃ b between, step state = .ok b between ∧ next b between = .ok a after := by
  cases hrun : step state with
  | error error between =>
    rw [bind_of_error hrun] at h
    cases h
  | ok b between =>
    rw [bind_of_ok hrun] at h
    exact ⟨b, between, rfl, h⟩

namespace Closing

/-- From every node with `P`, whatever the symbols are, the step ends in a node with `Q`, or in a
fault with `E`, and leaves the symbols alone. -/
def Quiet (P : Node → Prop) (step : Closing α) (Q : α → Node → Prop) (E : Fault → Prop) : Prop :=
  ∀ node, P node →
    (∃ a after, Q a after ∧ ∀ symbols, step (node, symbols) = .ok a (after, symbols)) ∨
    (∃ fault after, E fault ∧ ∀ symbols, step (node, symbols) = .error fault (after, symbols))

namespace Quiet

variable {P P' : Node → Prop} {Q Q' : α → Node → Prop} {E : Fault → Prop}

theorem conseq {step : Closing α} (h : Quiet P step Q E) (hpre : ∀ node, P' node → P node)
    (hpost : ∀ a node, Q a node → Q' a node) : Quiet P' step Q' E := by
  intro node hnode
  rcases h node (hpre node hnode) with ⟨a, after, hafter, hrun⟩ | hfault
  · exact .inl ⟨a, after, hpost a after hafter, hrun⟩
  · exact .inr hfault

theorem pure {a : α} (h : ∀ node, P node → Q a node) : Quiet P (Pure.pure a) Q E :=
  fun node hnode => .inl ⟨a, node, h node hnode, fun _ => rfl⟩

theorem bind {step : Closing β} {next : β → Closing α} {R : β → Node → Prop}
    (hstep : Quiet P step R E) (hnext : ∀ b, Quiet (R b) (next b) Q E) :
    Quiet P (step >>= next) Q E := by
  intro node hnode
  rcases hstep node hnode with ⟨b, between, hbetween, hrun⟩ | ⟨fault, after, hfault, hrun⟩
  · rcases hnext b between hbetween with ⟨a, after, hafter, hthen⟩ | ⟨fault, after, hfault, hthen⟩
    · refine .inl ⟨a, after, hafter, fun symbols => ?_⟩
      rw [bind_of_ok (hrun symbols), hthen]
    · refine .inr ⟨fault, after, hfault, fun symbols => ?_⟩
      rw [bind_of_ok (hrun symbols), hthen]
  · exact .inr ⟨fault, after, hfault, fun symbols => bind_of_error (hrun symbols)⟩

theorem look {next : Node → Closing α} (h : ∀ node, P node → Quiet (· = node) (next node) Q E) :
    Quiet P (node >>= next) Q E :=
  fun node hnode => h node hnode node rfl

theorem modifyNode {change : Node → Node} {Q : Unit → Node → Prop}
    (h : ∀ node, P node → Q () (change node)) : Quiet P (Closing.modifyNode change) Q E :=
  fun node hnode => .inl ⟨(), change node, h node hnode, fun _ => rfl⟩

theorem fail {cause : Fault.Cause} (h : ∀ node, P node → E (node.fault cause)) :
    Quiet P (Closing.fail cause) Q E :=
  fun node hnode => .inr ⟨node.fault cause, node, h node hnode, fun _ => rfl⟩

theorem attempt {result : Except Fault.Cause α} (hok : ∀ a, result = .ok a → ∀ node, P node → Q a node)
    (herror : ∀ cause, result = .error cause → ∀ node, P node → E (node.fault cause)) :
    Quiet P (Closing.attempt result) Q E := by
  cases result with
  | ok a => exact pure (hok a rfl)
  | error cause => exact fail (herror cause rfl)

/-- A loop whose invariant speaks of the items that are done. -/
theorem forM {body : β → Closing Unit} {I : List β → Node → Prop} (items : List β)
    (h : ∀ done, ∀ item ∈ items, Quiet (I done) (body item) (fun _ => I (done ++ [item])) E) :
    Quiet (I []) (items.forM body) (fun _ => I items) E := by
  have loop : ∀ rest done, (∀ item ∈ rest, item ∈ items) →
      Quiet (I done) (rest.forM body) (fun _ => I (done ++ rest)) E := by
    intro rest
    induction rest with
    | nil => exact fun done _ => pure fun node hnode => by simpa using hnode
    | cons item rest ih =>
      intro done hmem
      refine bind (h done item (hmem item List.mem_cons_self)) fun _ => ?_
      have := ih (done ++ [item]) fun other hother => hmem other (List.mem_cons_of_mem _ hother)
      simpa using this
  simpa using loop items [] fun _ hitem => hitem

end Quiet
end Closing
end TagSchema
