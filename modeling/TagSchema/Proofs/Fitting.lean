import TagSchema.Proofs.Wholeness

/-! Drafts that satisfy their schemas. Their nodes can be closed, and are taken in one after the other by
the node around them. -/
namespace TagSchema
open Grammar

namespace Grammar.Standard

theorem unique_ne_value (name : SchemaName) :
    ∀ tag ∈ (signature name).tags, ∀ key ∈ tag.unique, key ≠ .value := by
  cases name <;> decide

theorem allowed_lone (name : SchemaName) :
    ∀ tag ∈ (signature name).tags, ∀ allowed ∈ tag.allowed, ∀ group ∈ allowed.groups,
      group.others = [] := by
  cases name <;> decide

end Grammar.Standard

theorem Vocabulary.canonical?_lone {allowed : Vocabulary} {text : String}
    (hlone : ∀ group ∈ allowed.groups, group.others = []) (h : allowed.contains text) :
    allowed.canonical? text = some text := by
  obtain ⟨lead, hlead⟩ := Option.isSome_iff_exists.mp h
  obtain ⟨group, hgroup, rfl⟩ := Option.map_eq_some_iff.mp hlead
  have hmember := List.find?_some hgroup
  rw [Synonyms.members, hlone group (List.mem_of_find?_eq_some hgroup)] at hmember
  have hsame : text = group.lead := by simpa using hmember
  rw [hlead, ← hsame]

theorem Node.set_self {node : Node} {key : Keyword} {value : Datum}
    (hvalue : node.values key = some value)
    (hchildren : ∀ child ∈ node.children, child.tag ≠ key) : node.set key value = node := by
  have hvalues : (fun k => if k = key then some value else node.values k) = node.values := by
    funext k
    by_cases hk : k = key <;> simp [hk, hvalue]
  have hsame : (node.set key value).children = node.children := children_set hchildren
  unfold set at hsame ⊢
  dsimp only at hsame
  rw [hvalues, hsame]
  exact node.eta

theorem Node.normalize_lone {node : Node} {allowed : Vocabulary} (hchildren : node.children = [])
    (hlone : ∀ group ∈ allowed.groups, group.others = [])
    (h : ∀ value ∈ node.scalar?, value.text?.any allowed.contains) :
    node.normalize allowed = .ok node := by
  unfold normalize
  split
  · rfl
  · next key hscalar =>
    split
    · rfl
    · next text htext =>
      obtain ⟨value, hvalue, hcontent⟩ := Option.bind_eq_some_iff.mp htext
      have hallowed := h value (by rw [scalar?, hscalar, Option.bind_some, hvalue]; rfl)
      rw [hcontent, Option.any_some] at hallowed
      rw [Vocabulary.canonical?_lone hlone hallowed]
      dsimp only
      rw [Datum.eq_text hcontent] at hvalue
      rw [set_self hvalue (by simp [hchildren])]

namespace Draft

section depiction

variable (place : Place) (draft : Draft)

@[simp] theorem tag_node : (draft.node place).tag = draft.tag := by
  rw [node_eq]
  rfl

@[simp] theorem signature_node : (draft.node place).signature = draft.signature := by
  rw [node_eq]
  rfl

theorem values_node (key : Keyword) :
    (draft.node place).values key = held draft.schema draft.words key := by
  rw [node_eq]
  rfl

theorem held_eq {key : Keyword} (h : draft.schema = .term → key ≠ .value) :
    held draft.schema draft.words key = draft.value? key := by
  unfold held
  rw [if_neg fun ⟨hterm, hkey⟩ => h hterm hkey]
  rfl

theorem scalar?_node : (draft.node place).scalar? = draft.scalar? := by
  rw [Node.scalar?, scalar?, signature_node]
  cases hscalar : draft.signature.scalar with
  | none => rfl
  | some key =>
    rw [Option.bind_some, Option.bind_some, values_node, held_eq]
    intro hterm
    rw [signature, hterm] at hscalar
    cases hscalar

end depiction

theorem filter_map_node (place : Place) (drafts : List Draft) (key : Keyword) :
    (drafts.map (node place)).filter (·.tag = key) = (drafts.filter (·.tag = key)).map (node place) := by
  rw [List.filter_map]
  simp [Function.comp_def]

theorem Fits.complete {draft : Draft} (fits : draft.Fits) (place : Place) :
    Complete draft.schema draft.words (draft.inner.map (node place)) := by
  refine ⟨fits.suited, fun hspare => ?_, fun node hnode => ?_, fun tag htag hmulti => ?_,
    fun tag htag hrequired => ?_, fun hclass node hnode => ?_, fun henumeration => ?_⟩
  · obtain ⟨tag, htag, hnone⟩ := fits.spare hspare
    refine ⟨tag, htag, ?_⟩
    rw [filter_map_node, ← innerOf, hnone, List.map_nil]
  · obtain ⟨child, hchild, rfl⟩ := List.mem_map.mp hnode
    obtain ⟨tag, hmem, hkey, -⟩ := fits.declared child hchild
    exact ⟨tag, hmem, by rw [hkey, tag_node]⟩
  · rw [filter_map_node, List.length_map]
    exact fits.singular tag htag hmulti
  · rw [filter_map_node, Ne, List.map_eq_nil_iff]
    exact fits.required tag htag hrequired
  · rw [filter_map_node] at hnode
    obtain ⟨child, hchild, rfl⟩ := List.mem_map.mp hnode
    rw [scalar?_node, held_eq _ (by simp [hclass])]
    exact fits.parent hclass child hchild
  · have hown :
        ((draft.inner.map (node place)).filter (·.tag = .constant)).map own = draft.constants := by
      rw [filter_map_node, List.map_map, constants]
      refine List.map_congr_left fun constant hconstant => ?_
      obtain ⟨hmem, hkey⟩ := List.mem_filter.mp hconstant
      obtain ⟨tag, htag, hsame, hschema⟩ := fits.declared constant hmem
      rw [decide_eq_true_eq] at hkey
      rw [(Standard.constant_schema _ tag htag (hsame.trans hkey)).1] at hschema
      have hterm : constant.schema ≠ .term := by
        rw [← Option.some.inj hschema]
        decide
      rw [Function.comp_apply, own, values_node, held_eq _ fun h => absurd h hterm]
    rw [hown]
    exact fits.numbers henumeration

theorem Fits.inner_eq_nil {draft : Draft} (fits : draft.Fits) (htags : draft.signature.tags = []) :
    draft.inner = [] := by
  refine List.eq_nil_iff_forall_not_mem.mpr fun child hchild => ?_
  obtain ⟨tag, hmem, -⟩ := fits.declared child hchild
  rw [← signature, htags] at hmem
  cases hmem

theorem Fits.children_of_scalar {draft : Draft} (fits : draft.Fits)
    (hscalar : Standard.isScalar draft.schema) (place : Place) : (draft.node place).children = [] := by
  have htags : draft.signature.tags = [] := Standard.tags_scalar _ hscalar
  have suited : Suited draft.schema draft.words := by
    refine ⟨fits.suited, ?_⟩
    by_contra hspare
    obtain ⟨tag, htag, -⟩ := fits.spare hspare
    have hmem : tag ∈ draft.signature.tags := List.mem_of_find?_eq_some htag
    rw [htags] at hmem
    cases hmem
  rw [node_eq, fits.inner_eq_nil htags, List.map_nil, whole_leaf hscalar suited]
  rfl

section adopting

variable {draft child : Draft} {tag : Tag}

theorem Fits.normalize_eq_ok (fits : draft.Fits) (hchild : child.Fits)
    (htag : tag ∈ draft.signature.tags) (hinside : child ∈ draft.innerOf tag.key)
    (hschema : tag.schema = some child.schema) (place : Place) :
    tag.allowed.elim (.ok (child.node place)) (child.node place).normalize =
      .ok (child.node place) := by
  cases hallowed : tag.allowed with
  | none => rfl
  | some allowed =>
    have hstring := (Standard.allowed_text _ tag htag (by simp [hallowed])).1
    rw [hschema, Option.some.injEq] at hstring
    have hscalar : Standard.isScalar child.schema := by
      rw [hstring]
      rfl
    refine Node.normalize_lone (hchild.children_of_scalar hscalar place)
      (Standard.allowed_lone _ tag htag allowed hallowed) ?_
    rw [scalar?_node]
    exact fits.allowed tag htag allowed hallowed child hinside

theorem Fits.rival?_eq_none {before rest : List Draft} (fits : draft.Fits)
    (hinner : draft.inner = before ++ child :: rest) (htag : tag ∈ draft.signature.tags)
    (hkey : tag.key = child.tag) {key : Keyword} (hunique : key ∈ tag.unique) (outer place : Place) :
    (gathered outer draft.tag draft.schema draft.words (before.map (node place))).rival?
      (child.node place) key = none := by
  have hvalue (sibling : Draft) : (sibling.node place).values key = sibling.value? key := by
    rw [values_node, held_eq _ fun _ => Standard.unique_ne_value _ tag htag key hunique]
  have hpairwise := fits.unique tag htag key hunique
  rw [innerOf, hinner, List.filter_append, List.filter_cons_of_pos (by simp [hkey]),
    List.pairwise_append] at hpairwise
  unfold Node.rival?
  split
  · rfl
  · next value hheld =>
    rw [List.find?_eq_none]
    intro found hfound hsame
    have hsiblings : found ∈ (before.map (node place)).filter (·.tag = (child.node place).tag) := by
      simpa [gathered, Node.childrenOf, frame] using hfound
    rw [filter_map_node, tag_node, ← hkey] at hsiblings
    obtain ⟨sibling, hsibling, rfl⟩ := List.mem_map.mp hsiblings
    refine hpairwise.2.2 sibling hsibling child List.mem_cons_self ?_
    rw [← hvalue sibling, ← hvalue child, hheld]
    simpa using hsame

theorem Fits.adopt_eq_ok {before rest : List Draft} (fits : draft.Fits)
    (hinner : draft.inner = before ++ child :: rest) (hchild : child.Fits) (outer place : Place) :
    (gathered outer draft.tag draft.schema draft.words (before.map (node place))).adopt
        (child.node place) =
      .ok (gathered outer draft.tag draft.schema draft.words
        ((before ++ [child]).map (node place))) := by
  have hmem : child ∈ draft.inner := by
    simp [hinner]
  obtain ⟨tag, htag, hkey, hschema⟩ := fits.declared child hmem
  have hinside : child ∈ draft.innerOf tag.key := List.mem_filter.mpr ⟨hmem, by simp [hkey]⟩
  have hfound : (Standard.signature draft.schema).tag? (child.node place).tag = some tag := by
    rw [tag_node, ← hkey]
    exact Standard.tag?_of_mem _ tag htag
  rw [Node.adopt_eq_attach hfound (fits.normalize_eq_ok hchild htag hinside hschema place)
    fun key hunique => fits.rival?_eq_none hinner htag hkey hunique outer place]
  rw [gathered_attach, List.map_append, List.map_singleton]

end adopting

end Draft
end TagSchema
