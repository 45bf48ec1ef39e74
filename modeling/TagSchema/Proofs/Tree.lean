import Mathlib.Data.List.Forall2
import TagSchema.Node

/-! The nodes of a tree: the node itself and, through the lists of children, all nodes below it. -/
namespace TagSchema.Node

inductive Occurs (inner : Node) : Node → Prop where
  | here : Occurs inner inner
  | inside {node child : Node} : child ∈ node.children → Occurs inner child → Occurs inner node

theorem Occurs.trans {a b c : Node} (inner : a.Occurs b) (outer : b.Occurs c) : a.Occurs c := by
  induction outer with
  | here => exact inner
  | inside hchild _ ih => exact .inside hchild ih

def Every (P : Node → Prop) (node : Node) : Prop :=
  ∀ inner : Node, inner.Occurs node → P inner

theorem every_iff {P : Node → Prop} {node : Node} :
    node.Every P ↔ P node ∧ ∀ child ∈ node.children, child.Every P := by
  constructor
  · intro h
    exact ⟨h node .here, fun child hchild inner hinner => h inner (.inside hchild hinner)⟩
  · rintro ⟨hnode, hchildren⟩ inner hinner
    cases hinner with
    | here => exact hnode
    | inside hchild hinner => exact hchildren _ hchild inner hinner

theorem Every.self {P : Node → Prop} {node : Node} (h : node.Every P) : P node :=
  h node .here

theorem Every.child {P : Node → Prop} {node child : Node} (h : node.Every P)
    (hchild : child ∈ node.children) : child.Every P :=
  (every_iff.mp h).2 child hchild

theorem Every.every {P : Node → Prop} {node : Node} (h : node.Every P) :
    node.Every fun inner => inner.Every P :=
  fun _ houter inner hinner => h inner (hinner.trans houter)

theorem Every.imp {P Q : Node → Prop} {node : Node} (h : node.Every P)
    (himp : ∀ inner, P inner → Q inner) : node.Every Q :=
  fun inner hinner => himp inner (h inner hinner)

/-- Induction on a tree: what passes from all children to their parent holds of every node. -/
theorem induct {motive : Node → Prop}
    (parent : ∀ node, (∀ child ∈ node.children, motive child) → motive node) :
    ∀ node, motive node
  | ⟨_, _, _, _, _, children, _⟩ => parent _ fun child _ => induct parent child
termination_by node => sizeOf node
decreasing_by
  have hsize := List.sizeOf_lt_of_mem ‹child ∈ children›
  simp only [mk.sizeOf_spec]
  omega

theorem mem_childrenOf {node child : Node} {key : Keyword} :
    child ∈ node.childrenOf key ↔ child ∈ node.children ∧ child.tag = key := by
  simp [childrenOf]

theorem mem_children_attach {node child inner : Node} :
    inner ∈ (node.attach child).children ↔ inner ∈ node.children ∨ inner = child := by
  simp only [attach, List.mem_append, List.mem_cons, List.mem_filter, decide_eq_true_eq]
  constructor
  · rintro (⟨hinner, -⟩ | rfl | ⟨hinner, -⟩)
    · exact .inl hinner
    · exact .inr rfl
    · exact .inl hinner
  · rintro (hinner | rfl)
    · rcases Nat.lt_or_ge child.tag.rank inner.tag.rank with hrank | hrank
      · exact .inr (.inr ⟨hinner, hrank⟩)
      · exact .inl ⟨hinner, hrank⟩
    · exact .inr (.inl rfl)

theorem children_set {node : Node} {key : Keyword} {value : Datum}
    (h : ∀ child ∈ node.children, child.tag ≠ key) : (node.set key value).children = node.children := by
  simpa [set, List.filter_eq_self] using h

section replacing

variable {R : Node → Node → Prop} {children after : List Node}

theorem map_replace_of_mem {f : Node → α} (h : List.Forall₂ R children after)
    (hf : ∀ child ∈ children, ∀ inner, R child inner → f inner = f child) :
    after.map f = children.map f := by
  induction h with
  | nil => rfl
  | cons hchild _ ih =>
    rw [List.forall_mem_cons] at hf
    rw [List.map_cons, List.map_cons, hf.1 _ hchild, ih hf.2]

theorem map_replace {f : Node → α} (h : List.Forall₂ R children after)
    (hf : ∀ child inner : Node, R child inner → f inner = f child) : after.map f = children.map f :=
  map_replace_of_mem h fun child _ inner hchild => hf child inner hchild

theorem filterMap_replace {f : Node → Option α} (h : List.Forall₂ R children after)
    (hf : ∀ child inner : Node, R child inner → f inner = f child) :
    after.filterMap f = children.filterMap f := by
  have hmap := map_replace h hf
  rw [← Function.id_comp (f := f), ← List.filterMap_map, ← List.filterMap_map, hmap]

theorem childrenOf_replace {node : Node} (h : List.Forall₂ R node.children after)
    (htag : ∀ child inner : Node, R child inner → inner.tag = child.tag) (key : Keyword) :
    List.Forall₂ (fun child inner => R child inner ∧ child.tag = key) (node.childrenOf key)
      ({ node with children := after }.childrenOf key) := by
  unfold childrenOf
  dsimp only
  generalize node.children = children at h
  induction h with
  | nil => exact .nil
  | cons hchild _ ih =>
    rw [List.filter_cons, List.filter_cons, htag _ _ hchild]
    split
    · next hkey => exact .cons ⟨hchild, by simpa using hkey⟩ ih
    · exact ih

theorem mem_replace (h : List.Forall₂ R children after) {inner : Node} (hinner : inner ∈ after) :
    ∃ child ∈ children, R child inner := by
  obtain ⟨n, hn, rfl⟩ := List.getElem_of_mem hinner
  have hlength := h.length_eq
  exact ⟨children[n], List.getElem_mem _, h.get (by omega) hn⟩

end replacing

end TagSchema.Node
