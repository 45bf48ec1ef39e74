import TagSchema.Proofs.Filling
import TagSchema.Proofs.Scopes

/-! Closing a node whose words and children fit its schema. It does not fail, and it makes exactly the
node that the words and the children stand for. -/
namespace TagSchema

theorem Datum.eq_text {value : Datum} {content : String} (h : value.text? = some content) :
    value = .text content := by
  cases value <;> simp_all [text?]

namespace Draft
open Grammar Closing

structure Complete (name : SchemaName) (words : List String) (nodes : List Node) : Prop where
  suited : ∀ dealt ∈ deal (Standard.signature name).properties words, dealt.1.Suits dealt.2
  fillable : Fillable name words nodes
  declared : ∀ node ∈ nodes, ∃ tag ∈ (Standard.signature name).tags, tag.key = node.tag
  singular : ∀ tag ∈ (Standard.signature name).tags, tag.multi = false →
    (nodes.filter (·.tag = tag.key)).length ≤ 1
  required : ∀ tag ∈ (Standard.signature name).tags, tag.required →
    nodes.filter (·.tag = tag.key) ≠ []
  parent : name = .classSchema →
    ∀ node ∈ nodes.filter (·.tag = .inherits), node.scalar? ≠ held name words .name
  numbers : name = .enumeration →
    ∀ number ∈ numbers 0 ((nodes.filter (·.tag = .constant)).map own), number ≤ Int64.maxValue.toInt

variable {place : Place} {tag : Keyword} {name : SchemaName} {words : List String}
  {nodes : List Node} {fill : Tag → List String → Closing Unit} {symbols : Symbols}

section values

theorem dealt_of_mem {properties : List Property} (hnodup : (properties.map (·.key)).Nodup)
    {property : Property} (h : property ∈ properties) (words : List String) :
    ∃ share, (property, share) ∈ deal properties words ∧
      dealt properties words property.key = property.value? share := by
  induction properties generalizing words with
  | nil => cases h
  | cons first properties ih =>
    rw [List.map_cons, List.nodup_cons] at hnodup
    rw [dealt_cons, deal]
    rcases List.mem_cons.mp h with rfl | h
    · exact ⟨_, List.mem_cons_self, if_pos rfl⟩
    · obtain ⟨share, hshare, hvalue⟩ := ih hnodup.2 h (words.drop (first.share words.length))
      refine ⟨share, List.mem_cons_of_mem _ hshare, ?_⟩
      rw [if_neg, hvalue]
      intro hkey
      exact hnodup.1 (List.mem_map.mpr ⟨property, h, hkey.symm⟩)

theorem dealt_isSome (hsuited : ∀ dealt ∈ deal (Standard.signature name).properties words,
      dealt.1.Suits dealt.2) {property : Property}
    (h : property ∈ (Standard.signature name).properties) (hrequired : property.required) :
    (dealt (Standard.signature name).properties words property.key).isSome := by
  obtain ⟨share, hshare, hvalue⟩ := dealt_of_mem (Standard.properties_nodup name) h words
  obtain ⟨hempty, hsome⟩ := hsuited _ hshare
  rw [hvalue]
  refine (hsome fun hnone => ?_).2
  rw [hempty hnone] at hrequired
  cases hrequired

theorem dealt_tag {declared : Tag} (h : declared ∈ (Standard.signature name).tags) :
    dealt (Standard.signature name).properties words declared.key = none :=
  dealt_eq_none fun property hproperty => Standard.property_ne_tag name property hproperty declared h

theorem held_isSome {key : Keyword}
    (h : (dealt (Standard.signature name).properties words key).isSome) :
    (held name words key).isSome := by
  unfold held
  dsimp only
  split
  · next hterm =>
    rw [hterm.2] at h
    simp [h]
  · exact h

end values

section completions

theorem frame_set {values : Keyword → Option Datum} {key : Keyword}
    (h : ∀ node ∈ nodes, node.tag ≠ key) (value : Datum) :
    (frame place tag name values nodes).set key value =
      frame place tag name (fun k => if k = key then some value else values k) nodes := by
  have hchildren : (Node.arrange nodes).filter (·.tag ≠ key) = Node.arrange nodes := by
    simpa [List.filter_eq_self] using h
  simp only [frame, Node.set, hchildren]

theorem standForItself_eq_ok (h : ∀ node ∈ nodes, node.tag ≠ .value) :
    Standard.standForItself
        (frame place tag .term (dealt (Standard.signature .term).properties words) nodes) =
      .ok () (frame place tag .term (held .term words) nodes) := by
  generalize hdealt : dealt (Standard.signature .term).properties words = values
  have hheld (key : Keyword) : held .term words key =
      if key = .value then (values .value).or (values .name) else values key := by
    rw [held, hdealt]
    simp
  have hsame {values' : Keyword → Option Datum} (heq : ∀ key, held .term words key = values' key) :
      frame place tag .term values' nodes = frame place tag .term (held .term words) nodes := by
    rw [funext heq]
  unfold Standard.standForItself
  split
  · next full hnone hname =>
    rw [frame_set h, hsame]
    intro key
    have hvalue : values .value = none := hnone
    have hfull : values .name = some full := hname
    simp [hheld, hvalue, hfull]
  · next hother =>
    rw [hsame]
    intro key
    rw [hheld]
    by_cases hkey : key = .value
    · rw [if_pos hkey, hkey]
      cases hvalue : values .value with
      | some value => rfl
      | none =>
        cases hname : values .name with
        | some full => exact (hother full hvalue hname).elim
        | none => rfl
    · rw [if_neg hkey]

theorem held_of_ne (h : name ≠ .term) :
    held name words = dealt (Standard.signature name).properties words := by
  funext key
  rw [held, if_neg fun hterm => h hterm.1]

theorem completions_schema (name : SchemaName) :
    (Standard.schema name).completions =
      if name = .term then [Standard.standForItself]
      else if name = .enumeration then [Standard.numberInOrder]
      else [] := by
  cases name <;> rfl

theorem complete_singleton {completion : Completion} {node after : Node}
    (h : completion node = .ok () after) :
    [completion].forM Closing.complete (node, symbols) = .ok () (after, symbols) := by
  have hrun : Closing.complete completion (node, symbols) = .ok () (after, symbols) := by
    simp only [Closing.complete, h]
  rw [List.forM_eq_forM, List.forM_cons, bind_of_ok hrun]
  rfl

theorem completions_eq_ok (complete : Complete name words nodes) :
    (Standard.schema name).completions.forM Closing.complete
        (frame place tag name (dealt (Standard.signature name).properties words)
          (nodes ++ filled place name words nodes), symbols) =
      .ok () (frame place tag name (held name words)
        (written name nodes ++ filled place name words nodes), symbols) := by
  have hdeclared : ∀ node ∈ nodes ++ filled place name words nodes,
      ∃ tag ∈ (Standard.signature name).tags, tag.key = node.tag := by
    intro node hnode
    rcases List.mem_append.mp hnode with hnode | hnode
    · exact complete.declared node hnode
    · obtain ⟨⟨tag, hmem, hkey, -⟩, -⟩ := mem_filled complete.fillable hnode
      exact ⟨tag, hmem, hkey⟩
  rw [completions_schema]
  by_cases hterm : name = .term
  · subst hterm
    have hvalue : ∀ node ∈ nodes ++ filled place .term words nodes, node.tag ≠ .value := by
      intro node hnode hkey
      obtain ⟨tag, hmem, htag⟩ := hdeclared node hnode
      exact Standard.property_ne_tag .term _ Standard.term_value tag hmem (hkey.symm.trans htag.symm)
    exact complete_singleton (standForItself_eq_ok hvalue)
  · rw [if_neg hterm, held_of_ne hterm]
    by_cases henumeration : name = .enumeration
    · subst henumeration
      rw [if_pos rfl]
      refine complete_singleton
        (numberInOrder_eq_ok rfl (fun node hnode hkey => ?_) (complete.numbers rfl))
      obtain ⟨⟨filled, hmem, htag, hstands⟩, -⟩ := mem_filled complete.fillable hnode
      exact (Standard.filled_key .enumeration filled hmem hstands).1 (htag.trans hkey)
    · rw [if_neg henumeration, written, if_neg henumeration]
      rfl

end completions

section checks

theorem length_numbers (start : Int) (own : List (Option Int64)) :
    (numbers start own).length = own.length := by
  induction own generalizing start with
  | nil => rfl
  | cons _ own ih => rw [numbers, List.length_cons, ih, List.length_cons]

theorem length_filter_written (name : SchemaName) (nodes : List Node) (key : Keyword) :
    ((written name nodes).filter (·.tag = key)).length = (nodes.filter (·.tag = key)).length := by
  unfold written
  split
  · by_cases hkey : key = .constant
    · rw [hkey, (counted_numbered nodes).constants]
      simp [length_numbers]
    · rw [(counted_numbered nodes).others key hkey]
  · rfl

theorem filter_inherits (fillable : Fillable .classSchema words nodes) :
    (written .classSchema nodes ++ filled place .classSchema words nodes).filter (·.tag = .inherits) =
      nodes.filter (·.tag = .inherits) := by
  have hnone : (filled place .classSchema words nodes).filter (·.tag = .inherits) = [] := by
    rw [List.filter_eq_nil_iff]
    intro node hnode hkey
    rw [decide_eq_true_eq] at hkey
    obtain ⟨⟨filled, hmem, htag, hstands⟩, -⟩ := mem_filled fillable hnode
    exact (Standard.filled_key .classSchema filled hmem hstands).2 (htag.trans hkey)
  rw [List.filter_append, hnone, List.append_nil]
  rfl

theorem accepts_of_complete (complete : Complete name words nodes) :
    ∀ check ∈ (Standard.schema name).checks,
      check.accepts (frame place tag name (held name words)
        (written name nodes ++ filled place name words nodes)) := by
  intro check hcheck
  rcases Standard.mem_checks hcheck with ⟨property, hproperty, hrequired, rfl⟩ |
    ⟨declared, hmem, hmulti, rfl⟩ | ⟨declared, hmem, hrequired, rfl⟩ | ⟨rfl, rfl⟩
  · have hvalue := held_isSome (dealt_isSome complete.suited hproperty hrequired)
    simp [NodeCheck.accepts, Node.holds, frame, hvalue]
  · have hlength : ((nodes ++ filled place name words nodes).filter (·.tag = declared.key)).length ≤ 1 :=
      length_filter_filled_le _ complete.fillable (complete.singular declared hmem hmulti)
    rw [List.filter_append, List.length_append] at hlength
    simp only [NodeCheck.accepts, childrenOf_frame, List.filter_append, List.length_append,
      length_filter_written, decide_eq_true_eq]
    exact hlength
  · have hpositive := List.length_pos_iff.mpr (complete.required declared hmem hrequired)
    rw [← length_filter_written name, List.length_pos_iff] at hpositive
    simp [NodeCheck.accepts, -List.filter_eq_nil_iff, hpositive]
  · simp only [NodeCheck.accepts, Standard.hasOtherParent, Node.childScalar?, childrenOf_frame,
      filter_inherits complete.fillable]
    split
    · next full parent hname hparent =>
      obtain ⟨own, hown, hfull⟩ := Option.bind_eq_some_iff.mp hname
      obtain ⟨scalar, hscalar, htext⟩ := Option.bind_eq_some_iff.mp hparent
      obtain ⟨child, hchild, hheld⟩ := Option.bind_eq_some_iff.mp hscalar
      rw [bne_iff_ne]
      rintro rfl
      refine complete.parent rfl child (List.mem_of_head? hchild) ?_
      have hsame : held .classSchema words .name = some own := hown
      rw [hheld, hsame, Datum.eq_text htext, Datum.eq_text hfull]
    · rfl

end checks

section settling

def gathered (place : Place) (tag : Keyword) (name : SchemaName) (words : List String)
    (nodes : List Node) : Node :=
  { frame place tag name (fun _ => none) nodes with words }

theorem gathered_attach (child : Node) :
    (gathered place tag name words nodes).attach child =
      gathered place tag name words (nodes ++ [child]) := by
  have hframe : (frame place tag name (fun _ => none) nodes).attach child =
      frame place tag name (fun _ => none) (nodes ++ [child]) := frame_attach rfl
  rw [gathered, gathered, ← hframe]
  rfl

theorem checks_eq_ok {checks : List NodeCheck} {node : Node} (h : ∀ check ∈ checks, check.accepts node) :
    checks.forM Closing.check (node, symbols) = .ok () (node, symbols) := by
  induction checks with
  | nil => rfl
  | cons check checks ih =>
    rw [List.forall_mem_cons] at h
    have hcheck : Closing.check check (node, symbols) = .ok () (node, symbols) := by
      change (if check.accepts node then _ else _ : Closing Unit) (node, symbols) = _
      rw [if_pos h.1]
      rfl
    rw [List.forM_eq_forM, List.forM_cons, bind_of_ok hcheck]
    exact ih h.2

theorem defaults_append_implied (place : Place) (name : SchemaName) (words : List String)
    (nodes : List Node) :
    (Standard.signature name).tags.filterMap (default? place (nodes ++ implied place name words)) =
      (Standard.signature name).tags.filterMap (default? place nodes) := by
  -- What spare words fill has no default, so that the defaults are as without it.
  refine List.filterMap_congr fun filled hfilled => ?_
  by_cases hdefault : filled.default = none
  · simp [default?, hdefault]
  · refine default?_append fun node hnode hkey => hdefault ?_
    obtain ⟨-, implicit, hmem, -, hstands, htag⟩ := mem_implied hnode
    have hsame : implicit = filled := List.inj_on_of_nodup_map (Standard.tags_nodup name) hmem hfilled
      (htag.symm.trans hkey)
    rw [← hsame, (Standard.implicit_text name implicit hmem hstands).2]

theorem settle_eq_ok (hfill : FillsLeaf fill name) (complete : Complete name words nodes) :
    settle fill (Standard.schema name) (gathered place tag name words nodes, symbols) =
      .ok () (frame place tag name (held name words)
        (written name nodes ++ filled place name words nodes), symbols) := by
  have hdeclared : ∀ property ∈ (Standard.signature name).properties,
      ∀ child ∈ (frame place tag name (fun _ => none) nodes).children, child.tag ≠ property.key := by
    intro property hproperty child hchild hkey
    obtain ⟨declared, hmem, htag⟩ := complete.declared child (Node.mem_arrange.mp hchild)
    exact Standard.property_ne_tag name property hproperty declared hmem (hkey.symm.trans htag.symm)
  have hvalues : ∀ tag ∈ (Standard.signature name).tags,
      dealt (Standard.signature name).properties words tag.key = none := fun tag => dealt_tag
  have hassign : assign (Standard.signature name).properties words
      (frame place tag name (fun _ => none) nodes, symbols) =
        .ok (leftover (Standard.signature name).properties words)
          (frame place tag name (dealt (Standard.signature name).properties words) nodes, symbols) := by
    rw [assign_eq_ok (Standard.properties_nodup name) (Standard.properties_lenient name)
      complete.suited hdeclared symbols]
    simp [frame]
  have himplicit : fillImplicit fill (leftover (Standard.signature name).properties words)
      (frame place tag name (dealt (Standard.signature name).properties words) nodes, symbols) = _ :=
    fillImplicit_eq_ok hfill hvalues complete.fillable
  have hdefaults : (Standard.signature name).tags.forM (fillDefault fill)
      (frame place tag name (dealt (Standard.signature name).properties words)
        (nodes ++ implied place name (leftover (Standard.signature name).properties words)), symbols) =
      .ok () (frame place tag name (dealt (Standard.signature name).properties words)
        (nodes ++ filled place name words nodes), symbols) := by
    rw [fillDefaults_eq_ok hfill hvalues, List.append_assoc, defaults_append_implied, filled]
  change (assign (Standard.signature name).properties words >>= fun rest => _ : Closing Unit)
    (frame place tag name (fun _ => none) nodes, symbols) = _
  rw [bind_of_ok hassign, bind_of_ok himplicit]
  change ((Standard.signature name).tags.forM (fillDefault fill) >>= _ : Closing Unit) _ = _
  rw [bind_of_ok hdefaults, bind_of_ok (completions_eq_ok complete)]
  exact checks_eq_ok (accepts_of_complete complete)

theorem run_eq_ok (hfill : FillsLeaf fill name) (complete : Complete name words nodes)
    (hspace : name.space? = none) :
    run fill (Standard.schema name) (gathered place tag name words nodes, symbols) =
      .ok () (whole place tag name words nodes, symbols) := by
  rw [run_of_opened fill (Standard.schema name) rfl symbols, bind_of_ok (settle_eq_ok hfill complete),
    Standard.registrations_schema, hspace]
  rfl

theorem run_register_eq_ok (hfill : FillsLeaf fill name) (complete : Complete name words nodes)
    {space : Namespace} (hspace : name.space? = some space) {full : String}
    (hfull : held name words .name = some (.text full)) {after : Symbols}
    (hregister : Symbols.register full space place space.delimiter symbols = .ok () after) :
    run fill (Standard.schema name) (gathered place tag name words nodes, symbols) =
      .ok () (whole place tag name words nodes, after) := by
  have hregistered : register ⟨.name, space, space.delimiter⟩
      (frame place tag name (held name words) (written name nodes ++ filled place name words nodes),
          symbols) =
        .ok () (frame place tag name (held name words)
          (written name nodes ++ filled place name words nodes), after) :=
    register_of_ok (congrArg (Option.bind · Datum.symbol?) hfull) hregister
  rw [run_of_opened fill (Standard.schema name) rfl symbols, bind_of_ok (settle_eq_ok hfill complete),
    Standard.registrations_schema, hspace]
  simp only [Option.toList_some, List.map_cons, List.map_nil, List.forM_eq_forM, List.forM_cons,
    List.forM_nil, bind_assoc, pure_bind]
  rw [bind_of_ok hregistered]
  rfl

end settling

section leaves

variable {inner : SchemaName}

theorem complete_leaf (hscalar : Standard.isScalar inner) (suited : Suited inner words) :
    Complete inner words [] := by
  have htags := Standard.tags_scalar inner hscalar
  refine ⟨suited.1, fun hspare => absurd suited.2 hspare, nofun, ?_, ?_, nofun, nofun⟩
  · simp [htags]
  · simp [htags]

theorem whole_leaf (hscalar : Standard.isScalar inner) (suited : Suited inner words) :
    whole place tag inner words [] = leaf place tag inner words := by
  have hwritten : written inner [] = [] := by
    unfold written numbered
    split <;> rfl
  have hfilled : filled place inner words [] = [] := by
    rw [filled, suited.2, Standard.tags_scalar inner hscalar]
    rfl
  rw [whole, hwritten, hfilled]
  rfl

theorem fillsLeaf_scalar (hscalar : Standard.isScalar inner) : FillsLeaf fill inner := by
  simp [FillsLeaf, Standard.tags_scalar inner hscalar]

theorem within_eq_ok (hscalar : Standard.isScalar inner) (suited : Suited inner words) (depth : Nat) :
    within .standard depth (Standard.schema inner) (gathered place tag inner words [], symbols) =
      .ok () (leaf place tag inner words, symbols) := by
  have hspace : inner.space? = none := by
    cases inner <;> first | rfl | exact absurd hscalar (by decide)
  rw [← whole_leaf hscalar suited]
  cases depth with
  | zero => exact run_eq_ok (fillsLeaf_scalar hscalar) (complete_leaf hscalar suited) hspace
  | succ depth => exact run_eq_ok (fillsLeaf_scalar hscalar) (complete_leaf hscalar suited) hspace

theorem fillsLeaf_fillWith (name : SchemaName) (depth : Nat) :
    FillsLeaf (fillWith (within .standard depth) .standard) name := by
  intro tag hmem hstands inner hinner words suited node hsignature symbols
  obtain ⟨⟨scalar, hscalar, hisScalar⟩, hallowed, hunique⟩ :=
    Standard.filled_scalar name tag hmem hstands
  obtain rfl : scalar = inner := Option.some.inj (hscalar.symm.trans hinner)
  have htag : node.signature.tag? (leaf node.place tag.key scalar words).tag = some tag := by
    rw [hsignature]
    exact Standard.tag?_of_mem name tag hmem
  have hclose : within .standard depth (Standard.schema scalar)
      ({ Node.start tag.key (Standard.schema scalar).toSignature node.place with words }, symbols) =
        .ok () (leaf node.place tag.key scalar words, symbols) := within_eq_ok hisScalar suited depth
  have hadopt := Node.adopt_plain htag hallowed hunique
  simp only [fillWith, hinner, find?_standard, hclose, hadopt]

end leaves

section scopes

def scope (place : Place) (tag : Keyword) (name : SchemaName) (words : List String)
    (nodes : List Node) : Scope :=
  ⟨Standard.schema name, gathered place tag name words nodes⟩

theorem close_eq_ok (complete : Complete name words nodes) (hspace : name.space? = none) :
    (scope place tag name words nodes).close .standard symbols =
      .ok () (⟨Standard.schema name, whole place tag name words nodes⟩, symbols) := by
  have hclose : Node.close .standard (Standard.schema name)
      (gathered place tag name words nodes, symbols) =
        .ok () (whole place tag name words nodes, symbols) :=
    run_eq_ok (fillsLeaf_fillWith name 12) complete hspace
  simp only [Scope.close, scope, hclose]

theorem close_register_eq_ok (complete : Complete name words nodes) {space : Namespace}
    (hspace : name.space? = some space) {full : String}
    (hfull : held name words .name = some (.text full)) {after : Symbols}
    (hregister : Symbols.register full space place space.delimiter symbols = .ok () after) :
    (scope place tag name words nodes).close .standard symbols =
      .ok () (⟨Standard.schema name, whole place tag name words nodes⟩, after) := by
  have hclose : Node.close .standard (Standard.schema name)
      (gathered place tag name words nodes, symbols) =
        .ok () (whole place tag name words nodes, after) :=
    run_register_eq_ok (fillsLeaf_fillWith name 12) complete hspace hfull hregister
  simp only [Scope.close, scope, hclose]

end scopes

end Draft
end TagSchema
