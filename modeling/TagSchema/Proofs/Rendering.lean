import Mathlib.Data.List.Nodup
import TagSchema.Proofs.Acceptance
import TagSchema.Proofs.Arrangement

/-! The mapping of a corpus says all there is to say about its tree, except where the tags were
written. Two mappings that agree up to the order of their fields come from trees that agree up to
places. -/
namespace TagSchema
open Grammar

namespace Json

theorem sortedAll_eq_map (items : List Json) : sortedAll items = items.map sorted := by
  induction items with
  | nil => rfl
  | cons item items ih => rw [sortedAll, ih, List.map_cons]

theorem sortedFields_eq_map (fields : List (String × Json)) :
    sortedFields fields = fields.map fun field => (field.1, field.2.sorted) := by
  induction fields with
  | nil => rfl
  | cons field fields ih => rw [sortedFields, ih, List.map_cons]

theorem sorted_array_inj {items others : List Json} :
    (array items).sorted = (array others).sorted ↔ items.map sorted = others.map sorted := by
  simp [sorted, sortedAll_eq_map]

variable {ι : Type} {slots : List ι} {name : ι → String} {shown other : ι → Option Json}

theorem mem_fields (hnames : (slots.map name).Nodup) {slot : ι} (hslot : slot ∈ slots) {value : Json} :
    (name slot, value) ∈ slots.filterMap (fun slot => (shown slot).map (name slot, ·)) ↔
      shown slot = some value := by
  rw [List.mem_filterMap]
  constructor
  · rintro ⟨found, hfound, hfield⟩
    obtain ⟨json, hjson, hpair⟩ := Option.map_eq_some_iff.mp hfield
    obtain ⟨hname, rfl⟩ := Prod.mk.inj hpair
    rwa [← List.inj_on_of_nodup_map hnames hfound hslot hname]
  · intro hvalue
    exact ⟨slot, hslot, by rw [hvalue]; rfl⟩

theorem sorted_record_inj (hnames : (slots.map name).Nodup)
    (h : (record (slots.filterMap fun slot => (shown slot).map (name slot, ·))).sorted =
      (record (slots.filterMap fun slot => (other slot).map (name slot, ·))).sorted) :
    ∀ slot ∈ slots, (shown slot).map sorted = (other slot).map sorted := by
  have hfields (shown : ι → Option Json) :
      sortedFields (slots.filterMap fun slot => (shown slot).map (name slot, ·)) =
        slots.filterMap fun slot => ((shown slot).map sorted).map (name slot, ·) := by
    rw [sortedFields_eq_map, List.map_filterMap]
    simp [Function.comp_def]
  have hmem (shown : ι → Option Json) {slot : ι} (hslot : slot ∈ slots) (value : Json) :
      (name slot, value) ∈ slots.filterMap (fun slot => ((shown slot).map sorted).map (name slot, ·)) ↔
        (shown slot).map sorted = some value := mem_fields hnames hslot
  simp only [sorted, record.injEq, hfields] at h
  intro slot hslot
  refine Option.ext fun value => ?_
  rw [← hmem shown hslot, ← hmem other hslot, ← List.mem_mergeSort, h, List.mem_mergeSort]

mutual

/-- Whether two values are the same, with the fields of their records in the same order. -/
def same : Json → Json → Bool
  | null, null => true
  | boolean truth, boolean truth' => truth == truth'
  | integer number, integer number' => number == number'
  | text content, text content' => content == content'
  | array items, array items' => sameAll items items'
  | record fields, record fields' => sameFields fields fields'
  | _, _ => false

def sameAll : List Json → List Json → Bool
  | [], [] => true
  | item :: items, item' :: items' => item.same item' && sameAll items items'
  | _, _ => false

def sameFields : List (String × Json) → List (String × Json) → Bool
  | [], [] => true
  | (name, value) :: fields, (name', value') :: fields' =>
    name == name' && value.same value' && sameFields fields fields'
  | _, _ => false

end

theorem same_iff (json other : Json) : json.same other ↔ json = other := by
  refine same.induct (fun json other => json.same other ↔ json = other)
    (fun fields fields' => sameFields fields fields' ↔ fields = fields')
    (fun items items' => sameAll items items' ↔ items = items')
    ?nulls ?truths ?numbers ?texts ?arrays ?records ?kinds ?noItems ?items ?itemCounts
    ?noFields ?fields ?fieldCounts json other
  -- First the catch-all cases, which leave only values of different kinds or lengths.
  case kinds =>
    intro json other
    cases json <;> cases other <;> simp_all [same]
  case itemCounts =>
    intro items items'
    cases items <;> cases items' <;> grind [sameAll]
  case fieldCounts =>
    intro fields fields'
    cases fields <;> cases fields' <;> grind [sameFields]
  all_goals simp_all [same, sameAll, sameFields]

instance : DecidableEq Json := fun json other => decidable_of_iff _ (same_iff json other)

end Json

theorem Datum.json_sorted (value : Datum) : value.json.sorted = value.json := by
  cases value with
  | list items => simp [json, Json.sorted, Json.sortedAll_eq_map, Function.comp_def]
  | _ => rfl

theorem Datum.json_injective {value other : Datum} (h : value.json = other.json) : value = other := by
  cases value with
  | text content =>
    cases other <;> simp_all [json]
  | integer number =>
    cases other with
    | integer number' => simpa [json, Int64.toInt_inj] using h
    | _ => cases h
  | boolean truth =>
    cases other <;> simp_all [json]
  | list items =>
    cases other with
    | list items' =>
      have htext : Function.Injective Json.text := fun _ _ hsame => Json.text.inj hsame
      rw [List.map_injective_iff.mpr htext (Json.array.inj h)]
    | _ => cases h

theorem Datum.eq_of_elim_json {value other : Option Datum}
    (h : (value.elim Json.null (·.json)).sorted = (other.elim Json.null (·.json)).sorted) :
    value = other := by
  have hnull (value : Datum) : value.json ≠ .null := by
    cases value <;> simp [json]
  cases value with
  | none =>
    cases other with
    | none => rfl
    | some other => exact absurd (other.json_sorted.symm.trans h.symm) (hnull other)
  | some value =>
    cases other with
    | none => exact absurd (value.json_sorted.symm.trans h) (hnull value)
    | some other =>
      have hjson : value.json = other.json := by
        rw [← value.json_sorted, ← other.json_sorted]
        exact h
      rw [json_injective hjson]

theorem Grammar.Standard.spellings_nodup (name : SchemaName) :
    ((signature name).properties.map (·.key.spelling) ++
      ((signature name).tags.filter (!·.closes)).map (·.key.spelling)).Nodup := by
  cases name <;> decide

theorem Grammar.Standard.properties_scalar (name : SchemaName) :
    ∀ key ∈ (signature name).scalar, (signature name).properties.map (·.key) = [key] := by
  cases name <;> decide

namespace Node

def shown (node : Node) : Json :=
  match node.signature.scalar with
  | some key => (node.values key).elim .null (·.json)
  | none => node.mapping

theorem shownAll_eq_map (children : List Node) :
    shownAll children = children.map fun child => (child.tag, child.shown) := by
  induction children with
  | nil => rfl
  | cons child children ih =>
    rw [shownAll, ih, List.map_cons]
    rfl

def shownAt (node : Node) (tag : Tag) : Option Json :=
  let children := (node.childrenOf tag.key).map shown
  if tag.multi then some (.array children) else children.head?

/-- The places at which a mapping has fields: properties, and tags that open something. -/
def slots (signature : Signature) : List (Property ⊕ Tag) :=
  signature.properties.map .inl ++ (signature.tags.filter (!·.closes)).map .inr

def slotName : Property ⊕ Tag → String
  | .inl property => property.key.spelling
  | .inr tag => tag.key.spelling

def slotJson (node : Node) : Property ⊕ Tag → Option Json
  | .inl property => (node.values property.key).map (·.json)
  | .inr tag => node.shownAt tag

theorem mapping_eq (node : Node) :
    node.mapping = .record ((slots node.signature).filterMap fun slot =>
      (node.slotJson slot).map (slotName slot, ·)) := by
  have hshown (tag : Tag) : ((shownAll node.children).filter (·.1 = tag.key)).map (·.2) =
      (node.childrenOf tag.key).map shown := by
    rw [shownAll_eq_map, List.filter_map, List.map_map]
    rfl
  have hmapping : node.mapping = .record (node.fields (shownAll node.children)) := by
    cases node
    rw [mapping]
  rw [hmapping]
  unfold fields
  simp only [hshown]
  congr 1
  rw [slots, List.filterMap_append, List.filterMap_map, List.filterMap_map]
  congr 1
  · refine List.filterMap_congr fun property _ => ?_
    simp only [Function.comp_apply, slotJson, slotName, Option.map_map]
    rfl
  · refine List.filterMap_congr fun tag _ => ?_
    simp only [Function.comp_apply, slotJson, slotName, shownAt]
    split <;> simp

mutual

def unplaced : Node → Node
  | ⟨tag, signature, _, words, values, children, phase⟩ =>
    ⟨tag, signature, ⟨"", 0⟩, words, values, unplacedAll children, phase⟩

def unplacedAll : List Node → List Node
  | [] => []
  | node :: nodes => node.unplaced :: unplacedAll nodes

end

theorem unplacedAll_eq_map (nodes : List Node) : unplacedAll nodes = nodes.map unplaced := by
  induction nodes with
  | nil => rfl
  | cons node nodes ih => rw [unplacedAll, ih, List.map_cons]

@[simp] theorem tag_unplaced (node : Node) : node.unplaced.tag = node.tag := by
  cases node
  rw [unplaced]

theorem unplaced_eq {node other : Node} (htag : node.tag = other.tag)
    (hsignature : node.signature = other.signature) (hwords : node.words = other.words)
    (hvalues : node.values = other.values) (hphase : node.phase = other.phase)
    (hchildren : node.children.map unplaced = other.children.map unplaced) :
    node.unplaced = other.unplaced := by
  cases node
  cases other
  simp_all [unplaced, unplacedAll_eq_map]

section pairs

variable {node other : Node}

theorem eq_of_shownAt {tag : Tag} (hsingular : tag.multi = false → (node.childrenOf tag.key).length ≤ 1)
    (hsingular' : tag.multi = false → (other.childrenOf tag.key).length ≤ 1)
    (h : (node.shownAt tag).map Json.sorted = (other.shownAt tag).map Json.sorted) :
    (node.childrenOf tag.key).map (·.shown.sorted) =
      (other.childrenOf tag.key).map (·.shown.sorted) := by
  unfold shownAt at h
  cases hmulti : tag.multi with
  | true =>
    simp only [hmulti, if_true, Option.map_some, Option.some.injEq, Json.sorted_array_inj,
      List.map_map] at h
    exact h
  | false =>
    have hone := hsingular hmulti
    have hone' := hsingular' hmulti
    simp only [hmulti, Bool.false_eq_true, if_false] at h
    generalize node.childrenOf tag.key = children at *
    generalize other.childrenOf tag.key = others at *
    match children, others with
    | [], [] => rfl
    | [], _ :: _ => cases h
    | _ :: _, [] => cases h
    | [child], [child'] => simpa using h

theorem values_eq (final : node.Final) (final' : other.Final)
    (hsignature : node.signature = other.signature)
    (h : ∀ property ∈ node.signature.properties,
      node.values property.key = other.values property.key) : node.values = other.values := by
  funext key
  have hother : ∀ value, other.values key = some value → node.values key = other.values key := by
    intro value hvalue
    obtain ⟨property, hproperty, rfl, -⟩ := final'.conforms.value key value hvalue
    exact h property (hsignature ▸ hproperty)
  cases hvalue : node.values key with
  | some value =>
    obtain ⟨property, hproperty, rfl, -⟩ := final.conforms.value key value hvalue
    rw [← hvalue, h property hproperty]
  | none =>
    cases hvalue' : other.values key with
    | none => rfl
    | some value => rw [← hvalue, ← hvalue', hother value hvalue']

theorem map_unplaced_eq (final : node.Final) (final' : other.Final)
    (h : ∀ key, (node.childrenOf key).map unplaced = (other.childrenOf key).map unplaced) :
    node.children.map unplaced = other.children.map unplaced := by
  have hordered {node : Node} (final : node.Final) :
      (node.children.map unplaced).Pairwise (·.tag.rank ≤ ·.tag.rank) := by
    rw [List.pairwise_map]
    simpa using final.conforms.ordered
  have hfilter (node : Node) (key : Keyword) :
      (node.children.map unplaced).filter (·.tag = key) = (node.childrenOf key).map unplaced := by
    rw [List.filter_map]
    simp [Function.comp_def, childrenOf]
  refine eq_of_filter_eq (hordered final) (hordered final') fun key => ?_
  rw [hfilter, hfilter, h]

theorem unplaced_eq_of_parts (final : node.Final) (final' : other.Final) (htag : node.tag = other.tag)
    (hsignature : node.signature = other.signature)
    (hvalues : ∀ property ∈ node.signature.properties,
      node.values property.key = other.values property.key)
    (hchildren : ∀ tag ∈ node.signature.tags, tag.closes = false →
      (node.childrenOf tag.key).map unplaced = (other.childrenOf tag.key).map unplaced) :
    node.unplaced = other.unplaced := by
  refine unplaced_eq htag hsignature ?_ (values_eq final final' hsignature hvalues) ?_ ?_
  · rw [final.conforms.words, final'.conforms.words]
  · rw [final.finalized, final'.finalized]
  · refine map_unplaced_eq final final' fun key => ?_
    by_cases hkey : ∀ tag ∈ node.signature.tags, tag.key = key → tag.closes
    · rw [final.conforms.childrenOf_eq_nil hkey,
        final'.conforms.childrenOf_eq_nil (hsignature ▸ hkey)]
    · push Not at hkey
      obtain ⟨tag, hmem, rfl, hcloses⟩ := hkey
      exact hchildren tag hmem (by simpa using hcloses)

theorem unplaced_eq_of_scalar (final : node.Final) (final' : other.Final)
    (htag : node.tag = other.tag) (hsignature : node.signature = other.signature) {key : Keyword}
    (hscalar : node.signature.scalar = some key)
    (hvalue : node.values key = other.values key) : node.unplaced = other.unplaced := by
  have hstandard := final.conforms.standard
  have hkeys := Standard.properties_scalar node.signature.name key (by rw [← hstandard, hscalar]; rfl)
  have hnone := Standard.tags_scalar node.signature.name (by
    rw [Standard.isScalar, ← hstandard, hscalar]
    rfl)
  rw [← hstandard] at hkeys hnone
  refine unplaced_eq_of_parts final final' htag hsignature (fun property hproperty => ?_)
    (by simp [hnone])
  have hkey : property.key ∈ node.signature.properties.map (·.key) :=
    List.mem_map.mpr ⟨property, hproperty, rfl⟩
  rw [hkeys, List.mem_singleton] at hkey
  rw [hkey, hvalue]

theorem unplaced_eq_of_shown (final : node.Final) (final' : other.Final) (htag : node.tag = other.tag)
    (hsignature : node.signature = other.signature)
    (hmapping : node.mapping.sorted = other.mapping.sorted → node.unplaced = other.unplaced)
    (h : node.shown.sorted = other.shown.sorted) : node.unplaced = other.unplaced := by
  cases hscalar : node.signature.scalar with
  | none =>
    simp only [shown, ← hsignature, hscalar] at h
    exact hmapping h
  | some key =>
    simp only [shown, ← hsignature, hscalar] at h
    exact unplaced_eq_of_scalar final final' htag hsignature hscalar (Datum.eq_of_elim_json h)

theorem map_eq_of_map_eq {α β γ : Type} {f : α → β} {g : α → γ} {list list' : List α}
    (h : list.map f = list'.map f)
    (hfg : ∀ a ∈ list, ∀ b ∈ list', f a = f b → g a = g b) : list.map g = list'.map g := by
  induction list generalizing list' with
  | nil =>
    cases list' with
    | nil => rfl
    | cons => cases h
  | cons a list ih =>
    cases list' with
    | nil => cases h
    | cons b list' =>
      obtain ⟨hhead, hrest⟩ := List.cons.inj h
      rw [List.map_cons, List.map_cons, hfg a List.mem_cons_self b List.mem_cons_self hhead]
      refine congrArg _ (ih hrest fun a ha b hb => ?_)
      exact hfg a (List.mem_cons_of_mem _ ha) b (List.mem_cons_of_mem _ hb)

theorem unplaced_eq_of_mapping (node : Node) : ∀ other : Node, node.Every Final → other.Every Final →
    node.tag = other.tag → node.signature = other.signature →
    node.mapping.sorted = other.mapping.sorted → node.unplaced = other.unplaced := by
  -- Induction on the trees: a mapping has a field for each property and for each tag, which shows
  -- the children one by one.
  induction node using induct with
  | parent node ih =>
    intro other final final' htag hsignature hmapping
    have conforms := final.self.conforms
    have conforms' := final'.self.conforms
    have hslots : ∀ slot ∈ slots node.signature,
        (node.slotJson slot).map Json.sorted = (other.slotJson slot).map Json.sorted := by
      rw [mapping_eq, mapping_eq, ← hsignature] at hmapping
      refine Json.sorted_record_inj ?_ hmapping
      rw [conforms.standard, slots, List.map_append, List.map_map, List.map_map]
      exact Standard.spellings_nodup _
    refine unplaced_eq_of_parts final.self final'.self htag hsignature (fun property hproperty => ?_)
      fun tag hmem hcloses => ?_
    · have hslot := hslots (.inl property)
        (List.mem_append_left _ (List.mem_map.mpr ⟨property, hproperty, rfl⟩))
      simp only [slotJson, Option.map_map, Function.comp_def, Datum.json_sorted] at hslot
      exact Option.map_injective (fun _ _ => Datum.json_injective) hslot
    · have hmem' : tag ∈ other.signature.tags := hsignature ▸ hmem
      have hslot := hslots (.inr tag) (List.mem_append_right _
        (List.mem_map.mpr ⟨tag, List.mem_filter.mpr ⟨hmem, by simp [hcloses]⟩, rfl⟩))
      refine map_eq_of_map_eq (eq_of_shownAt (conforms.singular tag hmem)
        (conforms'.singular tag hmem') hslot) fun child hchild child' hchild' hshown => ?_
      obtain ⟨name, hname, hsame⟩ := conforms.schema_of_mem_childrenOf hmem hchild
      obtain ⟨name', hname', hsame'⟩ := conforms'.schema_of_mem_childrenOf hmem' hchild'
      obtain rfl : name = name' := Option.some.inj (hname.symm.trans hname')
      obtain ⟨hinside, hkey⟩ := mem_childrenOf.mp hchild
      obtain ⟨hinside', hkey'⟩ := mem_childrenOf.mp hchild'
      have htags : child.tag = child'.tag := hkey.trans hkey'.symm
      have hsignatures : child.signature = child'.signature := hsame.trans hsame'.symm
      exact unplaced_eq_of_shown (final.child hinside).self (final'.child hinside').self htags
        hsignatures (ih child hinside child' (final.child hinside) (final'.child hinside') htags
          hsignatures) hshown

end pairs

end Node

theorem Grammar.Standard.base_tags : ∀ tag ∈ (signature .base).tags,
    tag.multi ∧ tag.closes = false ∧ ∀ name ∈ tag.schema, (signature name).scalar = none := by
  decide

namespace Reading
open Node

theorem results_eq_json {corpus : Corpus} (final : corpus.root.Final)
    (hroot : corpus.root.signature = Standard.signature .base) :
    Json.record (corpus.results.map fun (key, mappings) => (key.spelling, .array mappings)) =
      corpus.json := by
  -- The root shows its children by their mappings, since none of them is a scalar.
  have hproperties : corpus.root.signature.properties = [] := by
    rw [hroot]
    rfl
  have hopens : corpus.root.signature.tags.filter (!·.closes) = corpus.root.signature.tags := by
    rw [hroot]
    decide
  rw [Corpus.json, mapping_eq, slots, hproperties, hopens, List.map_nil, List.nil_append,
    List.filterMap_map, Corpus.results, List.map_map, ← List.filterMap_eq_map]
  refine congrArg Json.record (List.filterMap_congr fun tag htag => ?_)
  obtain ⟨hmulti, -, hscalar⟩ := Standard.base_tags tag (hroot ▸ htag)
  have hshown : (corpus.root.childrenOf tag.key).map shown =
      (corpus.nodes tag.key).map (·.mapping) := by
    refine List.map_congr_left fun child hchild => ?_
    obtain ⟨name, hname, hsignature⟩ := final.conforms.schema_of_mem_childrenOf htag hchild
    rw [shown, hsignature, hscalar name hname]
  simp [slotJson, slotName, shownAt, hmulti, hshown]

/-- The mapping loses nothing but places, and the results by tag are the same mapping. -/
theorem mapping_faithful {reading reading' : Reading} {left right : Corpus} (h : Reachable reading)
    (h' : Reachable reading') (hleft : reading.finish = .ok left)
    (hright : reading'.finish = .ok right) :
    (left.json.sorted = right.json.sorted → left.root.unplaced = right.root.unplaced) ∧
      Json.record (left.results.map fun (key, mappings) => (key.spelling, .array mappings)) =
        left.json := by
  have hroot := h.sound.root_of_finish hleft
  have hroot' := h'.sound.root_of_finish hright
  have final := h.sound.final hleft
  refine ⟨fun hjson => ?_, results_eq_json final.self hroot.2⟩
  refine unplaced_eq_of_mapping _ _ final (h'.sound.final hright) ?_ ?_ hjson
  · rw [hroot.1, hroot'.1]
  · rw [hroot.2, hroot'.2]

/-- Here two texts say the same in two layouts, one of them leaving out what is implied. -/
theorem mapping_faithful_two_layouts :
    let reading := after (file "a.talk"
      "@class A\n@field uint8[] x\n@enumeration E @constant c") standard
    let reading' := after (file "b.talk"
      "# x\n @class A\n @version 0 @field uint8[] x\n@end\n\n@end @enumeration E\n@constant c 0")
      standard
    ∃ left right, reading.finish = .ok left ∧ reading'.finish = .ok right ∧
      left.root.unplaced = right.root.unplaced := by
  intro reading reading'
  have hsame : (match reading.finish, reading'.finish with
      | .ok left, .ok right => decide (left.json = right.json)
      | _, _ => false) = true := by
    decide +kernel
  cases hleft : reading.finish with
  | error fault =>
    rw [hleft] at hsame
    cases hsame
  | ok left =>
    cases hright : reading'.finish with
    | error fault =>
      rw [hleft, hright] at hsame
      cases hsame
    | ok right =>
      rw [hleft, hright] at hsame
      have hjson : left.json.sorted = right.json.sorted :=
        congrArg Json.sorted (of_decide_eq_true hsame)
      have hreachable : Reachable reading := .file _ _ .standard
      have hreachable' : Reachable reading' := .file _ _ .standard
      exact ⟨left, right, rfl, rfl,
        (mapping_faithful hreachable hreachable' hleft hright).1 hjson⟩

end Reading
end TagSchema
