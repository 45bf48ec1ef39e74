import TagSchema.Proofs.Dealing
import TagSchema.Proofs.Numbering

/-! Filling in children. Spare words and default words become leaves, which no parent refuses, and no
others of their tags are there. -/
namespace TagSchema
open Grammar Closing

namespace Grammar.Standard

theorem properties_lenient (name : SchemaName) :
    ∀ property ∈ (signature name).properties, property.Lenient := by
  cases name <;> decide

theorem default_suited (name : SchemaName) :
    ∀ tag ∈ (signature name).tags, ∀ words ∈ tag.default, ∀ inner ∈ tag.schema,
      Draft.Suited inner (Text.words words.toList) := by
  cases name <;> decide +kernel

theorem implicit_text (name : SchemaName) :
    ∀ tag ∈ (signature name).tags, tag.implicit → tag.schema = some .string ∧ tag.default = none := by
  cases name <;> decide

theorem filled_key (name : SchemaName) :
    ∀ tag ∈ (signature name).tags, tag.implicit ∨ tag.default.isSome →
      tag.key ≠ .constant ∧ tag.key ≠ .inherits := by
  cases name <;> decide

theorem tags_nodup (name : SchemaName) : ((signature name).tags.map (·.key)).Nodup := by
  cases name <;> decide

end Grammar.Standard

namespace Draft

variable {place : Place} {tag : Keyword} {name : SchemaName} {values : Keyword → Option Datum}
  {nodes : List Node} {fill : Tag → List String → Closing Unit} {symbols : Symbols}

def frame (place : Place) (tag : Keyword) (name : SchemaName) (values : Keyword → Option Datum)
    (nodes : List Node) : Node :=
  ⟨tag, Standard.signature name, place, [], values, Node.arrange nodes, .opened⟩

@[simp] theorem childrenOf_frame (key : Keyword) :
    (frame place tag name values nodes).childrenOf key = nodes.filter (·.tag = key) :=
  Node.filter_arrange nodes key

theorem frame_attach {child : Node} (h : values child.tag = none) :
    (frame place tag name values nodes).attach child =
      frame place tag name values (nodes ++ [child]) := by
  have hvalues : (fun key => if key = child.tag then none else values key) = values := by
    funext key
    by_cases hkey : key = child.tag <;> simp [hkey, h]
  have hchildren : ((frame place tag name values nodes).attach child).children =
      Node.arrange (nodes ++ [child]) := Node.attach_arrange rfl child
  unfold frame at hchildren ⊢
  unfold Node.attach at hchildren ⊢
  dsimp only at hchildren ⊢
  rw [hvalues, hchildren]

theorem suited_string {words : List String} (h : words ≠ []) : Suited .string words := by
  have hproperties : (Standard.signature .string).properties = [.range .value 1 none] := rfl
  have hlength : 1 ≤ words.length := List.length_pos_iff.mpr h
  constructor
  · simp only [hproperties, deal, List.forall_mem_cons, Property.share, Property.range,
      Option.elim_none, List.take_length]
    refine ⟨⟨fun hnone => absurd hnone h, fun _ => ⟨hlength, ?_⟩⟩, List.forall_mem_nil _⟩
    simp [Property.value?, h, Conversion.applyAll, Except.toOption, pure, Except.pure]
  · simp [hproperties, leftover, Property.share, Property.range]

def FillsLeaf (fill : Tag → List String → Closing Unit) (name : SchemaName) : Prop :=
  ∀ tag ∈ (Standard.signature name).tags, tag.implicit ∨ tag.default.isSome →
    ∀ inner, tag.schema = some inner → ∀ words, Suited inner words →
      ∀ node : Node, node.signature = Standard.signature name → ∀ symbols,
        fill tag words (node, symbols) =
          .ok () (node.attach (leaf node.place tag.key inner words), symbols)

theorem tag_of_filling {filled : Tag} {words : List String} {node : Node}
    (h : filling place filled words = some node) : node.tag = filled.key := by
  obtain ⟨inner, -, rfl⟩ := Option.map_eq_some_iff.mp h
  rfl

theorem default?_eq_some {filled : Tag} {node : Node} (h : default? place nodes filled = some node) :
    nodes.any (·.tag = filled.key) = false ∧ filled.default.isSome ∧ node.tag = filled.key := by
  unfold default? at h
  split at h
  · cases h
  · next hnone =>
    obtain ⟨words, hdefault, hfilling⟩ := Option.bind_eq_some_iff.mp h
    exact ⟨by simpa using hnone, by simp [hdefault], tag_of_filling hfilling⟩

theorem default?_append {filled : Tag} {added : List Node} (h : ∀ node ∈ added, node.tag ≠ filled.key) :
    default? place (nodes ++ added) filled = default? place nodes filled := by
  have hadded : added.any (·.tag = filled.key) = false := by
    simpa using h
  rw [default?, default?, List.any_append, hadded, Bool.or_false]

section filling

variable (hfill : FillsLeaf fill name)
  (hvalues : ∀ tag ∈ (Standard.signature name).tags, values tag.key = none)
include hfill hvalues

theorem fillImplicit_eq_ok {words : List String}
    (hspare : words ≠ [] → ∃ tag ∈ (Standard.signature name).implicitTag?,
      nodes.filter (·.tag = tag.key) = []) :
    fillImplicit fill words (frame place tag name values nodes, symbols) =
      .ok () (frame place tag name values (nodes ++ implied place name words), symbols) := by
  cases words with
  | nil =>
    rw [implied, List.append_nil]
    rfl
  | cons word rest =>
    obtain ⟨implicit, himplicit, hnone⟩ := hspare (List.cons_ne_nil word rest)
    have hmem : implicit ∈ (Standard.signature name).tags := List.mem_of_find?_eq_some himplicit
    have hstands : implicit.implicit = true := by simpa using List.find?_some himplicit
    have htext := (Standard.implicit_text name implicit hmem hstands).1
    have hfilled := hfill implicit hmem (.inl hstands) .string htext (word :: rest)
      (suited_string (List.cons_ne_nil word rest)) (frame place tag name values nodes) rfl symbols
    have himplied : implied place name (word :: rest) =
        [leaf place implicit.key .string (word :: rest)] := by
      simp [implied, Option.mem_def.mp himplicit, filling, htext]
    have hempty : ((frame place tag name values nodes).childrenOf implicit.key).isEmpty := by
      simp [hnone]
    rw [himplied, ← frame_attach (hvalues implicit hmem)]
    have hlook : Closing.node (frame place tag name values nodes, symbols) =
        .ok (frame place tag name values nodes) (frame place tag name values nodes, symbols) := rfl
    have hsame : (frame place tag name values nodes).signature.implicitTag? = some implicit := himplicit
    rw [fillImplicit, bind_of_ok hlook]
    · simp only [hsame, hempty, if_true]
      exact hfilled
    · exact List.cons_ne_nil word rest

theorem fillDefault_eq_ok {filled : Tag} (hmem : filled ∈ (Standard.signature name).tags) :
    fillDefault fill filled (frame place tag name values nodes, symbols) =
      .ok () (frame place tag name values (nodes ++ (default? place nodes filled).toList), symbols) := by
  unfold fillDefault default?
  cases hdefault : filled.default with
  | none =>
    simp
    rfl
  | some words =>
    change (if ((frame place tag name values nodes).childrenOf filled.key).isEmpty then _ else _ :
      Closing Unit) (frame place tag name values nodes, symbols) = _
    by_cases hany : nodes.any (·.tag = filled.key)
    · have hpresent : ¬ ((frame place tag name values nodes).childrenOf filled.key).isEmpty := by
        simpa using hany
      rw [if_neg hpresent, if_pos hany]
      simp
      rfl
    · have hempty : ((frame place tag name values nodes).childrenOf filled.key).isEmpty := by
        simpa using hany
      have hsome : filled.default.isSome := by simp [hdefault]
      obtain ⟨⟨inner, hinner, -⟩, -⟩ := Standard.filled_scalar name filled hmem (.inr hsome)
      have hsuited := Standard.default_suited name filled hmem words hdefault inner hinner
      rw [if_pos hempty, if_neg hany, Option.bind_some, filling, hinner, Option.map_some,
        Option.toList_some, ← frame_attach (hvalues filled hmem)]
      exact hfill filled hmem (.inr hsome) inner hinner _ hsuited _ rfl symbols

theorem fillDefaults_eq_ok :
    (Standard.signature name).tags.forM (fillDefault fill) (frame place tag name values nodes, symbols) =
      .ok () (frame place tag name values
        (nodes ++ (Standard.signature name).tags.filterMap (default? place nodes)), symbols) := by
  have htags : ∀ tags, tags ⊆ (Standard.signature name).tags → (tags.map (·.key)).Nodup → ∀ nodes,
      tags.forM (fillDefault fill) (frame place tag name values nodes, symbols) =
        .ok () (frame place tag name values (nodes ++ tags.filterMap (default? place nodes)),
          symbols) := by
    intro tags hsub hnodup
    induction tags with
    | nil =>
      intro nodes
      simp
      rfl
    | cons first tags ih =>
      intro nodes
      rw [List.map_cons, List.nodup_cons] at hnodup
      rw [List.cons_subset] at hsub
      have hfirst : fillDefault fill first (frame place tag name values nodes, symbols) = _ :=
        fillDefault_eq_ok hfill hvalues hsub.1
      rw [List.forM_eq_forM, List.forM_cons, bind_of_ok hfirst, ← List.forM_eq_forM, ih hsub.2 hnodup.2]
      have hrest : tags.filterMap (default? place (nodes ++ (default? place nodes first).toList)) =
          tags.filterMap (default? place nodes) := by
        refine List.filterMap_congr fun other hother => default?_append fun node hnode hkey => ?_
        rw [(default?_eq_some (Option.mem_toList.mp hnode)).2.2] at hkey
        exact hnodup.1 (List.mem_map.mpr ⟨other, hother, hkey.symm⟩)
      rw [hrest, List.filterMap_cons]
      cases default? place nodes first <;> simp
  exact htags _ (List.Subset.refl _) (Standard.tags_nodup name) nodes

end filling

section filled

variable {words : List String}

def Fillable (name : SchemaName) (words : List String) (nodes : List Node) : Prop :=
  leftover (Standard.signature name).properties words ≠ [] →
    ∃ tag ∈ (Standard.signature name).implicitTag?, nodes.filter (·.tag = tag.key) = []

theorem mem_implied {node : Node} (h : node ∈ implied place name words) :
    words ≠ [] ∧ ∃ implicit ∈ (Standard.signature name).tags,
      (Standard.signature name).implicitTag? = some implicit ∧ implicit.implicit ∧
        node.tag = implicit.key := by
  cases words with
  | nil => cases h
  | cons word rest =>
    obtain ⟨implicit, himplicit, hfilling⟩ := Option.bind_eq_some_iff.mp (Option.mem_toList.mp h)
    exact ⟨List.cons_ne_nil word rest, implicit, List.mem_of_find?_eq_some himplicit, himplicit,
      by simpa using List.find?_some himplicit, tag_of_filling hfilling⟩

theorem mem_defaults {node : Node}
    (h : node ∈ (Standard.signature name).tags.filterMap (default? place nodes)) :
    ∃ filled ∈ (Standard.signature name).tags, filled.default.isSome ∧ node.tag = filled.key ∧
      nodes.any (·.tag = filled.key) = false := by
  obtain ⟨filled, hmem, hdefault⟩ := List.mem_filterMap.mp h
  obtain ⟨hnone, hsome, htag⟩ := default?_eq_some hdefault
  exact ⟨filled, hmem, hsome, htag, hnone⟩

theorem mem_filled {node : Node} (fillable : Fillable name words nodes)
    (h : node ∈ filled place name words nodes) :
    (∃ tag ∈ (Standard.signature name).tags, tag.key = node.tag ∧
      (tag.implicit ∨ tag.default.isSome)) ∧ ∀ written ∈ nodes, written.tag ≠ node.tag := by
  rcases List.mem_append.mp h with h | h
  · obtain ⟨hwords, implicit, hmem, himplicit, hstands, htag⟩ := mem_implied h
    refine ⟨⟨implicit, hmem, htag.symm, .inl hstands⟩, ?_⟩
    obtain ⟨found, hfound, hnone⟩ := fillable hwords
    obtain rfl : implicit = found := Option.some.inj (himplicit.symm.trans hfound)
    rw [htag]
    simpa using hnone
  · obtain ⟨filled, hmem, hdefault, htag, hnone⟩ := mem_defaults h
    refine ⟨⟨filled, hmem, htag.symm, .inr hdefault⟩, ?_⟩
    rw [htag]
    simpa using hnone

theorem nodup_defaults (place : Place) (nodes : List Node) {tags : List Tag}
    (h : (tags.map (·.key)).Nodup) : ((tags.filterMap (default? place nodes)).map (·.tag)).Nodup := by
  refine List.Nodup.sublist ?_ h
  clear h
  induction tags with
  | nil => exact .slnil
  | cons first tags ih =>
    rw [List.filterMap_cons, List.map_cons]
    cases hdefault : default? place nodes first with
    | none => exact ih.cons _
    | some node =>
      rw [List.map_cons, (default?_eq_some hdefault).2.2]
      exact ih.cons_cons _

theorem nodup_filled (place : Place) (name : SchemaName) (words : List String) (nodes : List Node) :
    ((filled place name words nodes).map (·.tag)).Nodup := by
  rw [filled, List.map_append, List.nodup_append]
  refine ⟨?_, nodup_defaults place nodes (Standard.tags_nodup name), ?_⟩
  · cases leftover (Standard.signature name).properties words with
    | nil => exact .nil
    | cons word rest =>
      cases hfilling : (Standard.signature name).implicitTag?.bind (filling place · (word :: rest)) <;>
        simp [implied, hfilling]
  · rintro _ hnode _ hother rfl
    obtain ⟨node, hnode, hkey⟩ := List.mem_map.mp hnode
    obtain ⟨other, hother, hsame⟩ := List.mem_map.mp hother
    obtain ⟨-, implicit, hmem, -, hstands, htag⟩ := mem_implied hnode
    obtain ⟨filled, hmem', hdefault, htag', -⟩ := mem_defaults hother
    have heq : implicit = filled :=
      List.inj_on_of_nodup_map (Standard.tags_nodup name) hmem hmem'
        (by rw [← htag, ← htag', hkey, hsame])
    rw [← heq, (Standard.implicit_text name implicit hmem hstands).2] at hdefault
    cases hdefault

theorem length_filter_filled_le (key : Keyword) (fillable : Fillable name words nodes)
    (h : (nodes.filter (·.tag = key)).length ≤ 1) :
    ((nodes ++ filled place name words nodes).filter (·.tag = key)).length ≤ 1 := by
  rw [List.filter_append]
  by_cases hwritten : nodes.filter (·.tag = key) = []
  · have hcount := List.nodup_iff_count_le_one.mp (nodup_filled place name words nodes) key
    rw [List.count, List.countP_map, List.countP_eq_length_filter] at hcount
    rw [hwritten, List.nil_append]
    exact hcount
  · have hnone : (filled place name words nodes).filter (·.tag = key) = [] := by
      rw [List.filter_eq_nil_iff]
      intro node hnode hkey
      obtain ⟨written, hmem, htag⟩ : ∃ written ∈ nodes, written.tag = key := by
        simpa using hwritten
      rw [decide_eq_true_eq] at hkey
      exact (mem_filled fillable hnode).2 written hmem (htag.trans hkey.symm)
    rwa [hnone, List.append_nil]

end filled

end Draft
end TagSchema
