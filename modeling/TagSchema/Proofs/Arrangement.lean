import TagSchema.Proofs.Adoption

/-! The order of the children of a node: tag by tag, and within one tag in the order in which they were
attached. A list of nodes in this order is determined by its nodes of each tag. -/
namespace TagSchema

namespace Keyword

theorem all_rank (key : Keyword) : all[key.rank]? = some key := by
  cases key <;> rfl

theorem rank_injective {key other : Keyword} (h : key.rank = other.rank) : key = other := by
  have hsame : all[key.rank]? = all[other.rank]? := by rw [h]
  simpa [all_rank] using hsame

theorem rank_lt_of_all : all.Pairwise fun key other => key.rank < other.rank := by
  decide

end Keyword

namespace Node

theorem eq_of_filter_eq {nodes others : List Node} (h : nodes.Pairwise (·.tag.rank ≤ ·.tag.rank))
    (h' : others.Pairwise (·.tag.rank ≤ ·.tag.rank))
    (hof : ∀ key, nodes.filter (·.tag = key) = others.filter (·.tag = key)) : nodes = others := by
  induction nodes generalizing others with
  | nil =>
    cases others with
    | nil => rfl
    | cons other others => simpa using hof other.tag
  | cons node nodes ih =>
    cases others with
    | nil => simpa using hof node.tag
    | cons other others =>
      have hmem : node ∈ other :: others :=
        List.mem_of_mem_filter (p := (·.tag = node.tag)) (by rw [← hof]; simp)
      have hmem' : other ∈ node :: nodes :=
        List.mem_of_mem_filter (p := (·.tag = other.tag)) (by rw [hof]; simp)
      have hle : other.tag.rank ≤ node.tag.rank := by
        rcases List.mem_cons.mp hmem with rfl | hlater
        · exact Nat.le_refl _
        · exact List.rel_of_pairwise_cons h' hlater
      have hge : node.tag.rank ≤ other.tag.rank := by
        rcases List.mem_cons.mp hmem' with rfl | hlater
        · exact Nat.le_refl _
        · exact List.rel_of_pairwise_cons h hlater
      have htag : node.tag = other.tag := Keyword.rank_injective (Nat.le_antisymm hge hle)
      have hhead := hof other.tag
      simp only [List.filter_cons, htag, decide_true, if_true, List.cons.injEq] at hhead
      obtain ⟨rfl, -⟩ := hhead
      refine congrArg _ (ih h.of_cons h'.of_cons fun key => ?_)
      have hkey := hof key
      rw [List.filter_cons, List.filter_cons] at hkey
      split at hkey
      · exact (List.cons.inj hkey).2
      · exact hkey

def arrange (nodes : List Node) : List Node :=
  Keyword.all.flatMap fun key => nodes.filter (·.tag = key)

theorem pairwise_rank_arrange (nodes : List Node) :
    (arrange nodes).Pairwise (·.tag.rank ≤ ·.tag.rank) := by
  rw [arrange, List.pairwise_flatMap]
  constructor
  · intro key _
    apply List.pairwise_of_forall_mem_list
    simp +contextual
  · refine Keyword.rank_lt_of_all.imp fun {key other} hrank => ?_
    simp only [List.mem_filter, decide_eq_true_eq]
    rintro node ⟨-, rfl⟩ node' ⟨-, rfl⟩
    exact Nat.le_of_lt hrank

@[simp] theorem filter_arrange (nodes : List Node) (key : Keyword) :
    (arrange nodes).filter (·.tag = key) = nodes.filter (·.tag = key) := by
  have hother {other : Keyword} (h : other ≠ key) :
      (nodes.filter (·.tag = other)).filter (·.tag = key) = [] := by
    simp +contextual [h.symm]
  have hkeys : ∀ keys : List Keyword, keys.Nodup →
      (keys.flatMap fun key => nodes.filter (·.tag = key)).filter (·.tag = key) =
        if key ∈ keys then nodes.filter (·.tag = key) else [] := by
    intro keys hnodup
    induction keys with
    | nil => simp
    | cons other keys ih =>
      rw [List.nodup_cons] at hnodup
      rw [List.flatMap_cons, List.filter_append, ih hnodup.2]
      by_cases hsame : other = key
      · subst hsame
        simp [hnodup.1]
      · simp [hother hsame, Ne.symm hsame]
  rw [arrange, hkeys _ (by decide), if_pos key.mem_all]

@[simp] theorem mem_arrange {nodes : List Node} {node : Node} : node ∈ arrange nodes ↔ node ∈ nodes := by
  simp [arrange, Keyword.mem_all]

theorem attach_arrange {node : Node} {nodes : List Node} (h : node.children = arrange nodes)
    (child : Node) : (node.attach child).children = arrange (nodes ++ [child]) := by
  have hordered : node.children.Pairwise (·.tag.rank ≤ ·.tag.rank) := by
    rw [h]
    exact pairwise_rank_arrange nodes
  refine eq_of_filter_eq (pairwise_rank_attach hordered) (pairwise_rank_arrange _) fun key => ?_
  have hattach : (node.attach child).children.filter (·.tag = key) =
      (node.attach child).childrenOf key := rfl
  rw [hattach, childrenOf_attach, childrenOf, h]
  by_cases hkey : key = child.tag
  · simp [hkey]
  · simp [hkey, Ne.symm hkey]

end Node
end TagSchema
