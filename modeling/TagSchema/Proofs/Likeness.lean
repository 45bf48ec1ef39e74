import TagSchema.Proofs.Layout
import TagSchema.Proofs.Slicing

/-! When two ways to close a node come to the same. Where two nodes differ by a child alone, words are
assigned alike; where they differ by places alone, every step that pays no heed to these ends alike. -/
namespace TagSchema
open Grammar Closing

namespace Node

theorem filter_narrower (nodes : List Node) {p q : Node → Bool} (h : ∀ node, p node → q node) :
    (nodes.filter p).filter q = nodes.filter p ∧ (nodes.filter q).filter p = nodes.filter p := by
  rw [List.filter_filter, List.filter_filter]
  constructor <;> refine List.filter_congr fun node _ => ?_
  · by_cases hp : p node = true
    · simp [hp, h node hp]
    · simp [hp]
  · by_cases hp : p node = true
    · simp [hp, h node hp]
    · simp [hp]

theorem filter_apart (nodes : List Node) {p q : Node → Bool} (h : ∀ node, p node → ¬q node) :
    (nodes.filter p).filter q = [] :=
  List.filter_eq_nil_iff.mpr fun node hnode => h node (List.mem_filter.mp hnode).2

theorem attach_comm_of_lt {first second : Node} (h : first.tag.rank < second.tag.rank) (node : Node) :
    (node.attach first).attach second = (node.attach second).attach first := by
  have hvalues : (fun key => if key = second.tag then none
        else if key = first.tag then none else node.values key) =
      fun key => if key = first.tag then none
        else if key = second.tag then none else node.values key := by
    funext key
    split <;> split <;> rfl
  have hbefore : first.tag.rank ≤ second.tag.rank := Nat.le_of_lt h
  have hnot : ¬second.tag.rank < first.tag.rank := Nat.not_lt.mpr hbefore
  obtain ⟨hearly, hearly'⟩ := filter_narrower node.children (p := (·.tag.rank ≤ first.tag.rank))
    (q := (·.tag.rank ≤ second.tag.rank)) (by simp; omega)
  obtain ⟨hlate, hlate'⟩ := filter_narrower node.children (p := (second.tag.rank < ·.tag.rank))
    (q := (first.tag.rank < ·.tag.rank)) (by simp; omega)
  have hnone := filter_apart node.children (p := (·.tag.rank ≤ first.tag.rank))
    (q := (second.tag.rank < ·.tag.rank)) (by simp; omega)
  have hnone' := filter_apart node.children (p := (second.tag.rank < ·.tag.rank))
    (q := (·.tag.rank ≤ first.tag.rank)) (by simp; omega)
  have hbetween : (node.children.filter (first.tag.rank < ·.tag.rank)).filter (·.tag.rank ≤ second.tag.rank) =
      (node.children.filter (·.tag.rank ≤ second.tag.rank)).filter (first.tag.rank < ·.tag.rank) := by
    simp only [List.filter_filter, Bool.and_comm]
  simp [attach, hvalues, hbefore, h, hnot, hearly, hearly', hlate, hlate', hnone, hnone', hbetween]

theorem attach_comm {first second : Node} (h : first.tag ≠ second.tag) (node : Node) :
    (node.attach first).attach second = (node.attach second).attach first := by
  rcases Nat.lt_or_gt_of_ne fun hrank => h (Keyword.rank_injective hrank) with hless | hless
  · exact attach_comm_of_lt hless node
  · exact (attach_comm_of_lt hless node).symm

theorem childrenOf_attach_ne_nil (node child : Node) : (node.attach child).childrenOf child.tag ≠ [] := by
  rw [childrenOf_attach, if_pos rfl]
  exact List.append_ne_nil_of_right_ne_nil _ (List.cons_ne_nil _ _)

theorem set_attach {key : Keyword} {child : Node} (h : key ≠ child.tag) (value : Datum) (node : Node) :
    (node.attach child).set key value = (node.set key value).attach child := by
  have hvalues : (fun k => if k = key then some value else if k = child.tag then none else node.values k) =
      fun k => if k = child.tag then none else if k = key then some value else node.values k := by
    funext k
    split
    · next hkey => rw [if_neg (hkey ▸ h)]
    · rfl
  have hkept : decide (child.tag ≠ key) = true := by simpa using h.symm
  have hswap (p : Node → Bool) : (node.children.filter p).filter (·.tag ≠ key) =
      (node.children.filter (·.tag ≠ key)).filter p := by
    rw [List.filter_filter, List.filter_filter]
    simp only [Bool.and_comm]
  simp only [set, attach, List.filter_append, List.filter_cons, hkept, if_true, hswap, hvalues]

end Node
section moved

variable {move : Place → Place} {carry : σ → σ} {after : σ} {second : EStateM.Result Fault σ α}

theorem Moved.of_ok {a : α} (h : Moved move carry (.ok a after) second) : second = .ok a (carry after) := by
  cases h
  rfl

theorem Moved.of_error {fault : Fault} (h : Moved move carry (.error fault after) second) :
    ∃ moved, second = .error moved (carry after) ∧ fault.Moves move moved := by
  cases h with
  | error lost hmoves => exact ⟨_, rfl, hmoves⟩

end moved

theorem Symbols.SameNames.trans {first second third : Symbols} (h : first.SameNames second)
    (h' : second.SameNames third) : first.SameNames third :=
  ⟨fun space => (h.listed space).trans (h'.listed space), fun name space => (h.lookup name space).trans
    (h'.lookup name space), fun name space => (h.resolves name space).trans (h'.resolves name space)⟩

namespace Closing

variable {properties : List Property} {words : List String} {node child : Node} {symbols : Symbols}

theorem exists_slots_of_assign {rest : List String} {after : Node × Symbols}
    (h : assign properties words (node, symbols) = .ok rest after) :
    ∃ slots, Slices properties words slots rest ∧ after = (node.filling slots, symbols) := by
  obtain ⟨slots, left, hslices⟩ | ⟨kind, hstuck⟩ := slices_or_stuck properties words
  · cases (assign_of_slices hslices).symm.trans h
    exact ⟨slots, hslices, rfl⟩
  · obtain ⟨fault, lost, hfailed, -⟩ := assign_of_stuck hstuck node symbols
    cases hfailed.symm.trans h

theorem deals_or_refuses (hfixed : ∀ property ∈ properties, property.arity = .fixed 1)
    (hlength : words.length = properties.length) (node : Node) (symbols : Symbols) :
    (∃ slots, ∀ rest, Slices properties (words ++ rest) slots rest) ∨
      ∃ fault lost, fault.kind = .propertyValue ∧
        ∀ rest, assign properties (words ++ rest) (node, symbols) = .error fault lost := by
  induction properties generalizing words node with
  | nil =>
    obtain rfl := List.length_eq_zero_iff.mp hlength
    exact .inl ⟨[], fun rest => .done⟩
  | cons property properties ih =>
    obtain ⟨word, words, rfl⟩ := List.exists_cons_of_length_eq_add_one hlength
    rw [List.forall_mem_cons] at hfixed
    have htakes (rest : List String) : property.Takes (word :: words ++ rest) [word] (words ++ rest) :=
      .fixed [word] (words ++ rest) hfixed.1
    cases hread : property.read [word] with
    | error cause =>
      have hkind : (node.fault cause).kind = .propertyValue := kind_of_read hread
      exact .inr ⟨_, _, hkind, fun rest =>
        assign_cons_of_unread (Property.slice_of_takes _ (htakes rest)) hread⟩
    | ok value =>
      obtain ⟨slots, hslices⟩ | ⟨fault, lost, hkind, hassign⟩ :=
        ih hfixed.2 (Nat.succ.inj hlength) (node.set property.key value)
      · exact .inl ⟨_, fun rest => .taken (htakes rest) (Property.read_eq_ok_iff.mp hread) (hslices rest)⟩
      · refine .inr ⟨fault, lost, hkind, fun rest => ?_⟩
        rw [assign_cons_of_some (Property.slice_of_takes _ (htakes rest)) hread, hassign]

def beside (child : Node) : Node × Symbols → Node × Symbols := Prod.map (·.attach child) id

theorem assign_attach (h : ∀ property ∈ properties, property.key ≠ child.tag) (words : List String)
    (node : Node) (symbols : Symbols) :
    Moved id (beside child) (assign properties words (node, symbols))
      (assign properties words (node.attach child, symbols)) := by
  induction properties generalizing words node with
  | nil => exact .ok words (node, symbols)
  | cons property properties ih =>
    rw [List.forall_mem_cons] at h
    have hsame : property.slice (node.attach child).tag words = property.slice node.tag words := rfl
    cases hslice : property.slice node.tag words with
    | error cause =>
      rw [assign_cons_of_unsliced hslice, assign_cons_of_unsliced (hsame.trans hslice)]
      exact .error (node, symbols) ⟨rfl, rfl, rfl⟩
    | ok sliced =>
      obtain ⟨taken, rest⟩ := sliced
      cases taken with
      | none =>
        rw [assign_cons_of_none hslice, assign_cons_of_none (hsame.trans hslice)]
        exact ih h.2 rest node
      | some taken =>
        cases hread : property.read taken with
        | error cause =>
          rw [assign_cons_of_unread hslice hread, assign_cons_of_unread (hsame.trans hslice) hread]
          exact .error (node, symbols) ⟨rfl, rfl, rfl⟩
        | ok value =>
          rw [assign_cons_of_some hslice hread, assign_cons_of_some (hsame.trans hslice) hread,
            Node.set_attach h.1]
          exact ih h.2 rest _

def faultKind? : EStateM.Result Fault σ α → Option Fault.Kind
  | .ok .. => none
  | .error fault _ => some fault.kind

/-- Two ways to close a node come to the same: both succeed, with the same mapping and the same registered
names, or both fail for the same cause. -/
inductive Alike :
    EStateM.Result Fault (Node × Symbols) Unit → EStateM.Result Fault (Node × Symbols) Unit → Prop
  | ok {node other : Node} {symbols registered : Symbols} (hmapping : node.mapping = other.mapping)
    (hnames : symbols.SameNames registered) : Alike (.ok () (node, symbols)) (.ok () (other, registered))
  | error {fault other : Fault} (lost lost' : Node × Symbols) (hcause : fault.Agrees other) :
    Alike (.error fault lost) (.error other lost')

theorem Alike.trans {first second third : EStateM.Result Fault (Node × Symbols) Unit} (h : Alike first second)
    (h' : Alike second third) : Alike first third := by
  cases h with
  | ok hmapping hnames =>
    cases h' with
    | ok hmapping' hnames' => exact .ok (hmapping.trans hmapping') (hnames.trans hnames')
  | error lost lost' hcause =>
    cases h' with
    | error _ lost' hcause' => exact .error lost lost' ⟨hcause.1.trans hcause'.1, hcause.2.trans hcause'.2⟩

/-- A step that pays no heed to places treats nodes alike that differ only in these. -/
theorem alike_of_natural {step : Closing Unit} (hstep : Natural nowhere step) {node other : Node}
    (h : node.relocate nowhere = other.relocate nowhere) (symbols : Symbols) :
    Alike (step (node, symbols)) (step (other, symbols)) := by
  have hsame : carry nowhere (node, symbols) = carry nowhere (other, symbols) := by
    change (node.relocate nowhere, _) = (other.relocate nowhere, _)
    rw [h]
  have hfirst := hstep (node, symbols)
  rw [hsame] at hfirst
  obtain ⟨_, ⟨after, registered⟩, ⟨after', registered'⟩, hrun, hrun', hcarry⟩ |
    ⟨fault, lost, other, lost', hrun, hrun', hagrees⟩ := hfirst.agree (hstep (other, symbols))
  · obtain ⟨hafter, hregistered⟩ := Prod.mk.inj hcarry
    rw [hrun, hrun']
    refine .ok ?_ (.of_relocate hregistered)
    rw [← Node.mapping_relocate nowhere, hafter, Node.mapping_relocate]
  · rw [hrun, hrun']
    exact .error lost lost' hagrees

variable {move : Place → Place}

theorem Natural.filler (tag : Tag) (words : List String) :
    Natural move (Closing.filler .standard tag words) :=
  .fillWith (fun name => .within _ name) tag words

theorem Natural.checking (name : SchemaName) : Natural move (Closing.checking (Standard.schema name)) := by
  refine .bind (.forM fun completion hcompletion => .complete hcompletion) fun _ => ?_
  refine .bind (.forM fun check hcheck => .check hcheck) fun _ => ?_
  refine .bind (.forM fun registration _ => .register registration) fun _ => ?_
  exact .modifyNode fun node => Node.relocate_withPhase move node .closed

theorem Natural.concluding (name : SchemaName) :
    Natural move (Closing.concluding (Closing.filler .standard) (Standard.schema name)) :=
  .bind (.forM fun tag _ => .fillDefault .filler tag) fun _ => .checking name

end Closing

end TagSchema
