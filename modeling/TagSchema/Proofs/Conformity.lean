import Mathlib.Data.List.Nodup
import TagSchema.Proofs.Growth
import TagSchema.Proofs.Standard

/-! What it means for a node to conform to its schema, and which changes of a node keep it so. A
sound node may still lack entries, but each entry it has belongs where it is; a conforming node
lacks nothing. -/
namespace TagSchema
open Grammar

structure Property.Admits (property : Property) (value : Datum) : Prop where
  produced : ∃ text, Conversion.applyAll property.conversions (.text text) = .ok value
  accepted : ∀ rule ∈ property.rules, rule.check.accepts value

theorem Property.admits_of_read {property : Property} {words : List String} {value : Datum}
    (h : property.read words = .ok value) : property.Admits value := by
  unfold Property.read at h
  cases hconversion : Conversion.applyAll property.conversions
      (.text (" ".intercalate words)) with
  | error failure => simp [hconversion, Except.mapError, bind, Except.bind] at h
  | ok converted =>
    simp only [hconversion, Except.mapError, bind, Except.bind] at h
    split at h
    · simp at h
    · next hrules =>
      cases h
      refine ⟨⟨_, hconversion⟩, fun rule hrule => ?_⟩
      simpa using List.find?_eq_none.mp hrules rule hrule

namespace Node

structure Sound (node : Node) : Prop where
  standard : node.signature = Standard.signature node.signature.name
  value : ∀ key value, node.values key = some value →
    ∃ property ∈ node.signature.properties, property.key = key ∧ property.Admits value
  child : ∀ child ∈ node.children, ∃ tag ∈ node.signature.tags, tag.key = child.tag ∧
    ∃ name, tag.schema = some name ∧ child.signature = Standard.signature name
  /-- The children of a tag differ in the property that tells them apart. -/
  distinct : ∀ tag ∈ node.signature.tags, ∀ key ∈ tag.unique,
    ((node.childrenOf tag.key).filterMap (·.values key)).Nodup
  /-- Where literals are prescribed, the children hold leads of their groups. -/
  canonical : ∀ tag ∈ node.signature.tags, ∀ allowed ∈ tag.allowed,
    ∀ child ∈ node.childrenOf tag.key, ∀ text, child.scalar? = some (.text text) →
      ∃ group ∈ allowed.groups, group.lead = text
  ordered : node.children.Pairwise (·.tag.rank ≤ ·.tag.rank)

structure Conforms (node : Node) : Prop extends Sound node where
  words : node.words = []
  required : ∀ property ∈ node.signature.properties, property.required →
    (node.values property.key).isSome
  singular : ∀ tag ∈ node.signature.tags, tag.multi = false →
    (node.childrenOf tag.key).length ≤ 1
  present : ∀ tag ∈ node.signature.tags, tag.required ∨ tag.default.isSome →
    node.childrenOf tag.key ≠ []
  accepted : ∀ complaint holds,
    .predicate complaint holds ∈ (Standard.schema node.signature.name).checks → holds node

structure Settled (node : Node) : Prop where
  conforms : node.Conforms
  closed : node.phase = .closed

namespace Sound

variable {node : Node}

theorem tag?_of_mem (sound : node.Sound) {tag : Tag} (htag : tag ∈ node.signature.tags) :
    node.signature.tag? tag.key = some tag := by
  rw [sound.standard] at htag ⊢
  exact Standard.tag?_of_mem _ tag htag

theorem mem_of_tag? (sound : node.Sound) {key : Keyword} {tag : Tag}
    (h : node.signature.tag? key = some tag) : tag ∈ node.signature.tags ∧ tag.key = key := by
  rw [sound.standard] at h ⊢
  exact Standard.mem_of_tag? h

theorem tag_ne_property (sound : node.Sound) {property : Property}
    (hproperty : property ∈ node.signature.properties) :
    ∀ child ∈ node.children, child.tag ≠ property.key := by
  intro child hchild hkey
  obtain ⟨tag, htag, hcommon, -⟩ := sound.child child hchild
  rw [sound.standard] at hproperty htag
  exact Standard.property_ne_tag _ property hproperty tag htag (by rw [hcommon, hkey])

theorem values_tag (sound : node.Sound) {tag : Tag} (htag : tag ∈ node.signature.tags) :
    node.values tag.key = none := by
  cases hvalue : node.values tag.key with
  | none => rfl
  | some value =>
    obtain ⟨property, hproperty, hkey, -⟩ := sound.value _ _ hvalue
    rw [sound.standard] at hproperty htag
    exact absurd hkey (Standard.property_ne_tag _ property hproperty tag htag)

theorem eq_of_key_eq (sound : node.Sound) {tag other : Tag} (htag : tag ∈ node.signature.tags)
    (hother : other ∈ node.signature.tags) (hkey : other.key = tag.key) : other = tag := by
  have hfound := sound.tag?_of_mem hother
  rw [hkey, sound.tag?_of_mem htag] at hfound
  exact (Option.some.inj hfound).symm

theorem schema_of_mem_childrenOf (sound : node.Sound) {tag : Tag} (htag : tag ∈ node.signature.tags)
    {child : Node} (hchild : child ∈ node.childrenOf tag.key) :
    ∃ name, tag.schema = some name ∧ child.signature = Standard.signature name := by
  obtain ⟨hmem, hkey⟩ := mem_childrenOf.mp hchild
  obtain ⟨other, hother, hcommon, hdeclared⟩ := sound.child child hmem
  rwa [sound.eq_of_key_eq htag hother (hcommon.trans hkey)] at hdeclared

theorem childrenOf_eq_nil (sound : node.Sound) {key : Keyword}
    (h : ∀ tag ∈ node.signature.tags, tag.key = key → tag.closes) : node.childrenOf key = [] := by
  refine List.eq_nil_iff_forall_not_mem.mpr fun child hchild => ?_
  obtain ⟨hmem, hkey⟩ := mem_childrenOf.mp hchild
  obtain ⟨tag, htag, hcommon, name, hname, -⟩ := sound.child child hmem
  have hcloses := h tag htag (hcommon.trans hkey)
  simp [Tag.closes, hname] at hcloses

theorem admits (sound : node.Sound) {property : Property}
    (hproperty : property ∈ node.signature.properties) {value : Datum}
    (hvalue : node.values property.key = some value) : property.Admits value := by
  obtain ⟨other, hother, hkey, hadmits⟩ := sound.value _ _ hvalue
  have hnodup := Standard.properties_nodup node.signature.name
  rw [← sound.standard] at hnodup
  rwa [List.inj_on_of_nodup_map hnodup hother hproperty hkey] at hadmits

/-- Children may be exchanged for others that have the same tags and schemas and, as far as it
matters for their tag, the same values. -/
theorem replace (sound : node.Sound) {R : Node → Node → Prop} {after : List Node}
    (h : List.Forall₂ R node.children after)
    (htag : ∀ child inner : Node, R child inner → inner.tag = child.tag)
    (hsignature : ∀ child inner : Node, R child inner → inner.signature = child.signature)
    (hunique : ∀ tag ∈ node.signature.tags, ∀ key ∈ tag.unique, ∀ child inner : Node,
      R child inner → child.tag = tag.key → inner.values key = child.values key)
    (hallowed : ∀ tag ∈ node.signature.tags, tag.allowed.isSome → ∀ child inner : Node,
      R child inner → child.tag = tag.key → inner.scalar? = child.scalar?) :
    { node with children := after }.Sound := by
  have hof := childrenOf_replace h htag
  refine ⟨sound.standard, sound.value, fun inner hinner => ?_, fun tag hmem key hkey => ?_,
    fun tag hmem allowed hsome inner hinner text htext => ?_, ?_⟩
  · obtain ⟨child, hchild, hrelated⟩ := mem_replace h hinner
    rw [htag _ _ hrelated, hsignature _ _ hrelated]
    exact sound.child child hchild
  · rw [filterMap_replace (hof tag.key) fun child inner hrelated =>
      hunique tag hmem key hkey child inner hrelated.1 hrelated.2]
    exact sound.distinct tag hmem key hkey
  · obtain ⟨child, hchild, hrelated, hkey⟩ := mem_replace (hof tag.key) hinner
    rw [hallowed tag hmem (Option.isSome_of_mem hsome) child inner hrelated hkey] at htext
    exact sound.canonical tag hmem allowed hsome child hchild text htext
  · have hordered : (node.children.map (·.tag.rank)).Pairwise (· ≤ ·) :=
      List.pairwise_map.mpr sound.ordered
    rw [← map_replace h (f := (·.tag.rank)) fun _ _ hrelated => by rw [htag _ _ hrelated]] at hordered
    exact List.pairwise_map.mp hordered

theorem childrenOf_set_property (sound : node.Sound) {property : Property}
    (hproperty : property ∈ node.signature.properties) (value : Datum) (key : Keyword) :
    (node.set property.key value).childrenOf key = node.childrenOf key := by
  rw [childrenOf, children_set (sound.tag_ne_property hproperty), childrenOf]

theorem withWords (sound : node.Sound) (words : List String) : { node with words }.Sound :=
  ⟨sound.standard, sound.value, sound.child, sound.distinct, sound.canonical, sound.ordered⟩

theorem set (sound : node.Sound) {property : Property}
    (hproperty : property ∈ node.signature.properties) {value : Datum}
    (admits : property.Admits value) : (node.set property.key value).Sound := by
  have hchildren : (node.set property.key value).children = node.children :=
    children_set (sound.tag_ne_property hproperty)
  have hof := sound.childrenOf_set_property hproperty value
  refine ⟨sound.standard, fun key held hheld => ?_, ?_, ?_, ?_, ?_⟩
  · rw [values_set] at hheld
    split at hheld
    · next hkey =>
      cases hheld
      exact ⟨property, hproperty, hkey.symm, admits⟩
    · exact sound.value key held hheld
  · rw [hchildren]
    exact sound.child
  · intro tag htag key hkey
    rw [hof]
    exact sound.distinct tag htag key hkey
  · intro tag htag allowed hallowed
    rw [hof]
    exact sound.canonical tag htag allowed hallowed
  · rw [hchildren]
    exact sound.ordered

end Sound

theorem Conforms.set {node : Node} (conforms : node.Conforms) {property : Property}
    (hproperty : property ∈ node.signature.properties) {value : Datum}
    (admits : property.Admits value) (hname : node.signature.name ≠ .classSchema) :
    (node.set property.key value).Conforms := by
  have hof := conforms.childrenOf_set_property hproperty value
  refine ⟨conforms.toSound.set hproperty admits, conforms.words, ?_, ?_, ?_, ?_⟩
  · intro other hother hrequired
    rw [values_set]
    split
    · rfl
    · exact conforms.required other hother hrequired
  · intro tag htag hmulti
    rw [hof]
    exact conforms.singular tag htag hmulti
  · intro tag htag hpresent
    rw [hof]
    exact conforms.present tag htag hpresent
  · intro complaint holds hcheck
    exact absurd (Standard.predicate_mem_checks hcheck).1 hname

theorem Conforms.phase {node : Node} (conforms : node.Conforms) (phase : Phase) :
    { node with phase }.Conforms := by
  refine ⟨⟨conforms.standard, conforms.value, conforms.child, conforms.distinct,
    conforms.canonical, conforms.ordered⟩, conforms.words, conforms.required, conforms.singular,
    conforms.present, fun complaint holds hcheck => ?_⟩
  obtain ⟨-, rfl⟩ := Standard.predicate_mem_checks hcheck
  exact conforms.accepted complaint _ hcheck

theorem Conforms.of_phase {node : Node} {phase : Phase} (conforms : { node with phase }.Conforms) :
    node.Conforms := by
  cases node
  exact conforms.phase _

theorem Settled.set {node : Node} (settled : node.Every Settled) {property : Property}
    (hproperty : property ∈ node.signature.properties) {value : Datum}
    (admits : property.Admits value) (hname : node.signature.name ≠ .classSchema) :
    (node.set property.key value).Every Settled := by
  have conforms := settled.self.conforms
  refine every_iff.mpr ⟨⟨conforms.set hproperty admits hname, settled.self.closed⟩, ?_⟩
  rw [children_set (conforms.tag_ne_property hproperty)]
  exact fun child hchild => settled.child hchild

/-- A node that passes the checks of its schema, and in which the default tags are filled in, lacks
nothing. -/
theorem Sound.conforms {node : Node} (sound : node.Sound) (hwords : node.words = [])
    (haccepts : ∀ check ∈ (Standard.schema node.signature.name).checks, check.accepts node)
    (hdefault : ∀ tag ∈ node.signature.tags, tag.default.isSome → node.childrenOf tag.key ≠ []) :
    node.Conforms := by
  have hsame := sound.standard
  refine ⟨sound, hwords, fun property hproperty hrequired => ?_, fun tag htag hmulti => ?_,
    fun tag htag hpresent => ?_, fun complaint holds hcheck => haccepts _ hcheck⟩
  · have hchildren := sound.tag_ne_property hproperty
    rw [hsame] at hproperty
    have hholds := haccepts _ (Standard.requiredProperty_mem_checks hproperty hrequired)
    simp only [NodeCheck.accepts, holds, Bool.or_eq_true, List.any_eq_true, decide_eq_true_eq]
      at hholds
    rcases hholds with hvalue | ⟨child, hchild, hkey⟩
    · exact hvalue
    · exact absurd hkey (hchildren child hchild)
  · cases hcloses : tag.closes with
    | false =>
      rw [hsame] at htag
      simpa [NodeCheck.accepts] using
        haccepts _ (Standard.singularTag_mem_checks htag hcloses hmulti)
    | true =>
      have hnone : node.childrenOf tag.key = [] := sound.childrenOf_eq_nil fun other hother hkey => by
        rw [sound.eq_of_key_eq htag hother hkey, hcloses]
      rw [hnone]
      exact Nat.zero_le 1
  · rcases hpresent with hrequired | hpresent
    · rw [hsame] at htag
      simpa [NodeCheck.accepts] using haccepts _ (Standard.requiredTag_mem_checks htag hrequired)
    · exact hdefault tag htag hpresent

structure Progress (start node : Node) : Prop where
  sound : node.Sound
  settled : ∀ child ∈ node.children, child.Every Settled
  signature : node.signature = start.signature
  tag : node.tag = start.tag
  place : node.place = start.place
  words : node.words = []
  grows : Grows start node

theorem Progress.set {start node : Node} (progress : Progress start node) {property : Property}
    (hproperty : property ∈ start.signature.properties) {value : Datum}
    (admits : property.Admits value) : Progress start (node.set property.key value) := by
  rw [← progress.signature] at hproperty
  refine ⟨progress.sound.set hproperty admits, ?_, progress.signature, progress.tag,
    progress.place, progress.words,
    progress.grows.of_childrenOf (progress.sound.childrenOf_set_property hproperty value)⟩
  rw [children_set (progress.sound.tag_ne_property hproperty)]
  exact progress.settled

end Node
end TagSchema
