import TagSchema.Node.References
import TagSchema.Proofs.Conformity

/-! Finalizing a closed tree. It ends well just if no node of the tree has a fault in its references,
changes nothing but phases, and otherwise reports such a node. -/
namespace TagSchema.Node

section references

variable {node : Node} {symbols : Symbols}

theorem referenceFault?_eq_none : node.referenceFault? symbols = none ↔
    ∀ reference ∈ node.signature.references, ∀ space ∈ reference.target.space? node.values,
      ∀ name ∈ node.symbolsAt reference.key, name ∈ reference.skip ∨ symbols.resolves name space := by
  unfold referenceFault?
  rw [Option.map_eq_none_iff, List.head?_eq_none_iff, List.flatMap_eq_nil_iff]
  refine forall₂_congr fun reference _ => ?_
  unfold unresolved
  cases reference.target.space? node.values with
  | none => simp
  | some space => simp [or_iff_not_imp_left]

theorem referenceFault?_eq_some {fault : Fault} (h : node.referenceFault? symbols = some fault) :
    fault.kind = .crossReference ∧ fault.tag = some node.tag ∧ fault.place = node.place := by
  unfold referenceFault? at h
  obtain ⟨cause, hcause, rfl⟩ := Option.map_eq_some_iff.mp h
  obtain ⟨reference, -, hunresolved⟩ := List.mem_flatMap.mp (List.mem_of_head? hcause)
  refine ⟨?_, rfl, rfl⟩
  unfold unresolved at hunresolved
  split at hunresolved
  · cases hunresolved
  · obtain ⟨name, -, hname⟩ := List.mem_filterMap.mp hunresolved
    split at hname
    · cases hname
    · cases hname
      rfl

end references

structure Like (node after : Node) : Prop where
  tag : after.tag = node.tag
  signature : after.signature = node.signature
  place : after.place = node.place
  values : after.values = node.values

theorem Like.scalar? {node after : Node} (h : node.Like after) : after.scalar? = node.scalar? := by
  unfold Node.scalar?
  rw [h.signature, h.values]

structure Final (node : Node) : Prop where
  conforms : node.Conforms
  finalized : node.phase = .finalized

section children

variable {node : Node} {after : List Node}

theorem childrenOf_like (h : List.Forall₂ Like node.children after) (key : Keyword) :
    List.Forall₂ (fun child inner => child.Like inner ∧ child.tag = key) (node.childrenOf key)
      ({ node with children := after }.childrenOf key) :=
  childrenOf_replace h (fun _ _ => Like.tag) key

theorem symbolsAt_like (h : List.Forall₂ Like node.children after) (key : Keyword) :
    { node with children := after }.symbolsAt key = node.symbolsAt key := by
  unfold symbolsAt
  dsimp only
  rw [filterMap_replace (childrenOf_like h key) fun child inner hlike => by rw [hlike.1.scalar?]]

theorem referenceFault?_like (h : List.Forall₂ Like node.children after) (symbols : Symbols) :
    { node with children := after }.referenceFault? symbols = node.referenceFault? symbols := by
  have hunresolved (reference : Reference) :
      unresolved symbols { node with children := after } reference =
        unresolved symbols node reference := by
    unfold unresolved
    simp only [symbolsAt_like h]
  unfold referenceFault?
  rw [List.flatMap_congr fun reference _ => hunresolved reference]
  rfl

theorem Conforms.like (conforms : node.Conforms) (h : List.Forall₂ Like node.children after) :
    { node with children := after }.Conforms := by
  have hof := childrenOf_like h
  have hlength (key : Keyword) := (hof key).length_eq
  refine ⟨conforms.replace h (fun _ _ => Like.tag) (fun _ _ => Like.signature)
    (fun _ _ key _ _ _ hlike _ => congrFun hlike.values key) (fun _ _ _ _ _ hlike _ => hlike.scalar?),
    conforms.words, conforms.required, fun tag htag hmulti => ?_, fun tag htag hpresent => ?_,
    fun complaint holds hcheck => ?_⟩
  · rw [← hlength]
    exact conforms.singular tag htag hmulti
  · rw [← List.length_pos_iff, ← hlength, List.length_pos_iff]
    exact conforms.present tag htag hpresent
  · obtain ⟨-, rfl⟩ := Grammar.Standard.predicate_mem_checks hcheck
    have hparent : { node with children := after }.childScalar? .inherits =
        node.childScalar? .inherits := by
      have hheads := hof .inherits
      unfold childScalar?
      generalize node.childrenOf .inherits = before at hheads ⊢
      generalize { node with children := after }.childrenOf .inherits = behind at hheads ⊢
      cases hheads with
      | nil => rfl
      | cons hlike _ => exact hlike.1.scalar?
    have haccepted := conforms.accepted complaint _ hcheck
    unfold Grammar.Standard.hasOtherParent at haccepted ⊢
    rw [hparent]
    exact haccepted

end children

theorem finalize_eq {node : Node} (h : node.phase ≠ .finalized) (symbols : Symbols) :
    node.finalize symbols =
      match finalizeAll symbols node.children with
      | .error fault children => .error fault { node with children }
      | .ok () children =>
        match { node with children }.referenceFault? symbols with
        | some fault => .error fault { node with children }
        | none => .ok () { node with children, phase := .finalized } := by
  obtain ⟨tag, signature, place, words, values, children, phase⟩ := node
  rw [finalize]
  exact if_neg h

def Finalizes (symbols : Symbols) (node : Node) : Prop :=
  (∃ after, node.finalize symbols = .ok () after ∧ node.Like after ∧ after.Every Final ∧
    node.Every fun inner => inner.referenceFault? symbols = none) ∨
  ∃ fault after, node.finalize symbols = .error fault after ∧
    ∃ inner : Node, inner.Occurs node ∧ inner.referenceFault? symbols = some fault

theorem finalizeAll_finalizes {symbols : Symbols} {nodes : List Node}
    (h : ∀ node ∈ nodes, Finalizes symbols node) :
    (∃ after, finalizeAll symbols nodes = .ok () after ∧ List.Forall₂ Like nodes after ∧
      (∀ node ∈ after, node.Every Final) ∧
      ∀ node ∈ nodes, node.Every fun inner => inner.referenceFault? symbols = none) ∨
    ∃ fault after, finalizeAll symbols nodes = .error fault after ∧
      ∃ node ∈ nodes, ∃ inner : Node, inner.Occurs node ∧
        inner.referenceFault? symbols = some fault := by
  induction nodes with
  | nil => exact .inl ⟨[], rfl, .nil, nofun, nofun⟩
  | cons node nodes ih =>
    rcases h node List.mem_cons_self with
      ⟨after, hrun, hlike, hfinal, hfree⟩ | ⟨fault, after, hrun, inner, hinner, hfault⟩
    · rcases ih fun other hother => h other (List.mem_cons_of_mem _ hother) with
        ⟨rest, hrest, hlikes, hfinals, hfrees⟩ | ⟨fault, rest, hrest, other, hother, hfaulty⟩
      · refine .inl ⟨after :: rest, ?_, .cons hlike hlikes, ?_, ?_⟩
        · rw [finalizeAll, hrun]
          dsimp only
          rw [hrest]
        · exact List.forall_mem_cons.mpr ⟨hfinal, hfinals⟩
        · exact List.forall_mem_cons.mpr ⟨hfree, hfrees⟩
      · refine .inr ⟨fault, after :: rest, ?_, other, List.mem_cons_of_mem _ hother, hfaulty⟩
        rw [finalizeAll, hrun]
        dsimp only
        rw [hrest]
    · refine .inr ⟨fault, after :: nodes, ?_, node, List.mem_cons_self, inner, hinner, hfault⟩
      rw [finalizeAll, hrun]

theorem finalizes (symbols : Symbols) (node : Node) (settled : node.Every Settled) :
    Finalizes symbols node := by
  -- Induction on the tree: the children of a node are finalized before it.
  induction node using induct with
  | parent node ih =>
    have hphase : node.phase ≠ .finalized := by
      rw [settled.self.closed]
      decide
    have heq := finalize_eq hphase symbols
    unfold Finalizes
    rcases finalizeAll_finalizes fun child hchild => ih child hchild (settled.child hchild) with
      ⟨children, hrun, hlikes, hfinals, hfrees⟩ | ⟨fault, children, hrun, child, hchild, inner, hinner, hfault⟩
    · -- The node is checked with its children finalized, which its references cannot tell.
      have hown := referenceFault?_like hlikes symbols
      rw [hrun] at heq
      dsimp only at heq
      cases hfault : node.referenceFault? symbols with
      | none =>
        rw [hown, hfault] at heq
        refine .inl ⟨_, heq, ⟨rfl, rfl, rfl, rfl⟩, ?_, every_iff.mpr ⟨hfault, hfrees⟩⟩
        have conforms := settled.self.conforms.like hlikes
        exact every_iff.mpr ⟨⟨conforms.phase .finalized, rfl⟩, hfinals⟩
      | some fault =>
        rw [hown, hfault] at heq
        exact .inr ⟨fault, _, heq, node, .here, hfault⟩
    · rw [hrun] at heq
      exact .inr ⟨fault, _, heq, inner, .inside hchild hinner, hfault⟩

end TagSchema.Node
