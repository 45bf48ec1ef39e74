import TagSchema.Proofs.Completion
import TagSchema.Proofs.Draft

/-! Numbering constants. Where no number exceeds the range, numbering does not fail, and the constants
get the numbers that counting gives them. -/
namespace TagSchema.Draft
open Grammar Standard

def StartsAt (next : Option Int64) (start : Int) : Prop :=
  next.elim (Int64.maxValue.toInt + 1) (·.toInt) = start

theorem startsAt_successor (number : Int64) : StartsAt (successor? number) (number.toInt + 1) := by
  unfold StartsAt successor?
  split
  · next hgreatest => simp [hgreatest]
  · next hless =>
    have hbelow : number.toInt ≠ Int64.maxValue.toInt := fun h => hless (Int64.toInt_inj.mp h)
    have hupper := number.toInt_lt
    have hlower := number.le_toInt
    rw [Int64.toInt_maxValue] at hbelow
    rw [Option.elim_some, Int64.toInt_add, Int64.toInt_one, Int.bmod_eq_of_le]
    all_goals omega

theorem StartsAt.isSome {next : Option Int64} {start : Int} (h : StartsAt next start)
    (hbound : start ≤ Int64.maxValue.toInt) : ∃ number, next = some number := by
  cases next with
  | some number => exact ⟨number, rfl⟩
  | none =>
    have hstart : Int64.maxValue.toInt + 1 = start := h
    omega

def complaint (constant : Node) : String :=
  let name := (constant.text? .name).getD "?"
  s!"constant {name} overflows the enumeration counter"

section steps

variable {node : Node} {next : Option Int64} {number : Int64} (nodes : List Node)

theorem numberChildren_of_other (h : node.tag ≠ .constant) :
    numberChildren next (node :: nodes) =
      (node :: (numberChildren next nodes).1, (numberChildren next nodes).2) := by
  simp only [numberChildren, h, if_false]

variable (h : node.tag = .constant)
include h

theorem numberChildren_of_own (hown : own node = some number) :
    numberChildren next (node :: nodes) =
      (node :: (numberChildren (successor? number) nodes).1,
        (numberChildren (successor? number) nodes).2) := by
  simp only [numberChildren, h, if_true]
  rw [← own, hown]

theorem numberChildren_of_next (hown : own node = none) :
    numberChildren (some number) (node :: nodes) =
      (node.set .value (.integer number) :: (numberChildren (successor? number) nodes).1,
        (numberChildren (successor? number) nodes).2) := by
  simp only [numberChildren, h, if_true]
  rw [← own, hown]

theorem numberChildren_of_last (hown : own node = none) :
    numberChildren none (node :: nodes) = (node :: nodes, some (complaint node)) := by
  simp only [numberChildren, h, if_true]
  rw [← own, hown]
  rfl

end steps

structure Counted (start : Int) (nodes after : List Node) : Prop where
  constants : after.filter (·.tag = .constant) =
    (nodes.filter (·.tag = .constant)).zipWith withNumber
      (numbers start ((nodes.filter (·.tag = .constant)).map own))
  others : ∀ key, key ≠ .constant → after.filter (·.tag = key) = nodes.filter (·.tag = key)

theorem counted_numberChildren {nodes : List Node} {next : Option Int64} {start : Int}
    (hstart : StartsAt next start)
    (hbound : ∀ number ∈ numbers start ((nodes.filter (·.tag = .constant)).map own),
      number ≤ Int64.maxValue.toInt) :
    ∃ after, numberChildren next nodes = (after, none) ∧ Counted start nodes after := by
  induction nodes generalizing next start with
  | nil => exact ⟨[], rfl, rfl, fun _ _ => rfl⟩
  | cons node nodes ih =>
    by_cases hconstant : node.tag = .constant
    · simp only [List.filter_cons, hconstant, decide_true, if_true, List.map_cons, numbers,
        List.forall_mem_cons] at hbound
      obtain ⟨hfirst, hrest⟩ := hbound
      cases hown : own node with
      | some number =>
        rw [hown, Option.elim_some] at hrest
        obtain ⟨after, hafter, counted⟩ := ih (startsAt_successor number) hrest
        refine ⟨node :: after, by rw [numberChildren_of_own nodes hconstant hown, hafter], ?_, fun key hkey => ?_⟩
        · simp [hconstant, numbers, withNumber, hown, counted.constants]
        · simp [hconstant, hkey.symm, counted.others key hkey]
      | none =>
        rw [hown, Option.elim_none] at hfirst hrest
        obtain ⟨number, rfl⟩ := hstart.isSome hfirst
        obtain rfl : number.toInt = start := hstart
        obtain ⟨after, hafter, counted⟩ := ih (startsAt_successor number) hrest
        have htag : (node.set .value (.integer number)).tag = .constant := hconstant
        refine ⟨node.set .value (.integer number) :: after,
          by rw [numberChildren_of_next nodes hconstant hown, hafter], ?_, fun key hkey => ?_⟩
        · simp [hconstant, htag, numbers, withNumber, hown, counted.constants]
        · simp [hconstant, htag, hkey.symm, counted.others key hkey]
    · simp only [List.filter_cons, hconstant, decide_false, Bool.false_eq_true, if_false] at hbound
      obtain ⟨after, hafter, counted⟩ := ih hstart hbound
      refine ⟨node :: after, by rw [numberChildren_of_other nodes hconstant, hafter], ?_, fun key hkey => ?_⟩
      · simp [hconstant, counted.constants]
      · simp [List.filter_cons, counted.others key hkey]

@[simp] theorem tag_withNumber (constant : Node) (number : Int) :
    (withNumber constant number).tag = constant.tag := by
  unfold withNumber
  split <;> rfl

theorem constant_of_mem_zipWith {constants : List Node} (h : ∀ node ∈ constants, node.tag = .constant)
    (counts : List Int) : ∀ node ∈ constants.zipWith withNumber counts, node.tag = .constant := by
  induction constants generalizing counts with
  | nil => simp
  | cons constant constants ih =>
    cases counts with
    | nil => simp
    | cons count counts =>
      rw [List.forall_mem_cons] at h
      rw [List.zipWith_cons_cons, List.forall_mem_cons, tag_withNumber]
      exact ⟨h.1, ih h.2 counts⟩

theorem counted_numbered (nodes : List Node) : Counted 0 nodes (numbered nodes) := by
  have hfilter : ∀ node ∈ nodes.filter (·.tag = .constant), node.tag = .constant := by
    simp
  have hconstants := constant_of_mem_zipWith hfilter
    (numbers 0 ((nodes.filter (·.tag = .constant)).map own))
  constructor
  · unfold numbered
    rw [List.filter_append, List.filter_eq_self.mpr (by simpa using hconstants)]
    simp
  · intro key hkey
    unfold numbered
    rw [List.filter_append, List.filter_eq_nil_iff.mpr, List.nil_append, List.filter_filter]
    · refine List.filter_congr fun node _ => ?_
      by_cases hnode : node.tag = key <;> simp [hnode, hkey]
    · intro node hnode
      simp [hconstants node hnode, hkey.symm]

theorem numberInOrder_eq_ok {node : Node} {written filled : List Node}
    (hchildren : node.children = Node.arrange (written ++ filled))
    (hfilled : ∀ child ∈ filled, child.tag ≠ .constant)
    (hbound : ∀ number ∈ numbers 0 ((written.filter (·.tag = .constant)).map own),
      number ≤ Int64.maxValue.toInt) :
    numberInOrder node = .ok () { node with children := Node.arrange (numbered written ++ filled) } := by
  have hnone : filled.filter (·.tag = .constant) = [] := by
    simpa using hfilled
  have hconstants : node.children.filter (·.tag = .constant) = written.filter (·.tag = .constant) := by
    rw [hchildren, Node.filter_arrange, List.filter_append, hnone, List.append_nil]
  rw [← hconstants] at hbound
  have hstart : StartsAt (some 0) 0 := rfl
  obtain ⟨after, hafter, counted⟩ := counted_numberChildren hstart hbound
  have hordered : (after.map (·.tag.rank)).Pairwise (· ≤ ·) := by
    rw [Node.map_replace (Node.numberChildren_eq_ok hafter) fun _ _ h => by rw [h.tag], hchildren]
    exact List.pairwise_map.mpr (Node.pairwise_rank_arrange _)
  have hsame : after = Node.arrange (numbered written ++ filled) := by
    refine Node.eq_of_filter_eq (List.pairwise_map.mp hordered) (Node.pairwise_rank_arrange _)
      fun key => ?_
    rw [Node.filter_arrange, List.filter_append]
    by_cases hkey : key = .constant
    · rw [hkey, hnone, List.append_nil, counted.constants, (counted_numbered written).constants,
        hconstants]
    · rw [counted.others key hkey, (counted_numbered written).others key hkey, hchildren,
        Node.filter_arrange, List.filter_append]
  simp only [numberInOrder, hafter, hsame]

end TagSchema.Draft
