import TagSchema.Proofs.Conformity
import TagSchema.Proofs.Literals

/-! The completions of the language only give values to properties: of the node itself, or of the
constants in it. Neither takes a child away or makes an entry unsound. -/
namespace TagSchema.Node
open Grammar

def Numbered (child after : Node) : Prop :=
  after = child ∨ child.tag = .constant ∧ ∃ number, after = child.set .value (.integer number)

theorem Numbered.tag {child after : Node} (h : child.Numbered after) : after.tag = child.tag := by
  rcases h with rfl | ⟨-, number, rfl⟩ <;> rfl

theorem Numbered.signature {child after : Node} (h : child.Numbered after) :
    after.signature = child.signature := by
  rcases h with rfl | ⟨-, number, rfl⟩ <;> rfl

theorem Numbered.eq {child after : Node} (h : child.Numbered after) (htag : child.tag ≠ .constant) :
    after = child := by
  rcases h with rfl | ⟨hconstant, -⟩
  · rfl
  · exact absurd hconstant htag

theorem Numbered.values {child after : Node} (h : child.Numbered after) {key : Keyword}
    (hkey : key ≠ .value) : after.values key = child.values key := by
  rcases h with rfl | ⟨-, number, rfl⟩
  · rfl
  · simp [hkey]

theorem numberChildren_eq_ok {next : Option Int64} {children after : List Node}
    (h : Standard.numberChildren next children = (after, none)) :
    List.Forall₂ Numbered children after := by
  induction children generalizing next after with
  | nil =>
    simp only [Standard.numberChildren, Prod.mk.injEq, and_true] at h
    subst h
    exact .nil
  | cons child rest ih =>
    have next_child {next' : Option Int64} {numbered : Node} (hchild : child.Numbered numbered)
        (hrest : (numbered :: (Standard.numberChildren next' rest).1,
          (Standard.numberChildren next' rest).2) = (after, none)) :
        List.Forall₂ Numbered (child :: rest) after := by
      simp only [Prod.mk.injEq] at hrest
      obtain ⟨rfl, hnone⟩ := hrest
      exact .cons hchild (ih (Prod.ext rfl hnone))
    unfold Standard.numberChildren at h
    split at h
    · next htag =>
      split at h
      · exact next_child (.inl rfl) h
      · exact next_child (.inr ⟨htag, _, rfl⟩) h
      · simp at h
    · exact next_child (.inl rfl) h

theorem Numbered.settled {child after : Node} (h : child.Numbered after)
    (settled : child.Every Settled)
    (hconstant : child.tag = .constant → child.signature = Standard.signature .constant) :
    after.Every Settled := by
  rcases h with rfl | ⟨htag, number, rfl⟩
  · exact settled
  · have hproperty := Standard.constant_value
    rw [← hconstant htag] at hproperty
    refine Settled.set settled hproperty
      ⟨⟨String.ofList (Literal.spelling number.toInt), ?_⟩, nofun⟩ (by simp [hconstant htag])
    change Conversion.applyAll [.integer] _ = _
    simp [Conversion.applyAll, Conversion.apply, Conversion.applyText, Literal.integer?_spelling]

theorem Numbered.site {child after : Node} (h : child.Numbered after) (sound : child.Sound)
    (hconstant : child.tag = .constant → child.signature = Standard.signature .constant) :
    after.site = child.site := by
  rcases h with rfl | ⟨htag, number, rfl⟩
  · rfl
  · have hproperty := Standard.constant_value
    rw [← hconstant htag] at hproperty
    have hchildren : (child.set .value (.integer number)).children = child.children :=
      children_set (sound.tag_ne_property hproperty)
    exact Prod.ext rfl (Prod.ext rfl hchildren)

/-- Numbering changes values of constants that neither their parent's declarations nor its checks
look at. -/
theorem Progress.number {start node : Node} (progress : Progress start node) {after : List Node}
    (h : List.Forall₂ Numbered node.children after) :
    Progress start { node with children := after } := by
  have sound := progress.sound
  have hstandard : ∀ tag ∈ node.signature.tags, tag.key = .constant →
      tag.schema = some .constant ∧ tag.allowed = none ∧ tag.unique = some .name := by
    rw [sound.standard]
    exact Standard.constant_schema _
  have hconstant : ∀ child ∈ node.children, child.tag = .constant →
      child.signature = Standard.signature .constant := by
    intro child hchild htag
    obtain ⟨tag, hmem, hkey, name, hname, hsignature⟩ := sound.child child hchild
    rw [(hstandard tag hmem (hkey.trans htag)).1] at hname
    rw [hsignature, ← Option.some.inj hname]
  refine ⟨sound.replace h (fun _ _ => Numbered.tag) (fun _ _ => Numbered.signature) ?_ ?_,
    fun inner hinner => ?_, progress.signature, progress.tag, progress.place, progress.words,
    progress.grows.replace (map_replace_of_mem h fun child hchild inner hnumbered => ?_)⟩
  · intro tag hmem key hkey child inner hnumbered htag
    by_cases hsame : tag.key = .constant
    · refine hnumbered.values ?_
      rw [(hstandard tag hmem hsame).2.2] at hkey
      cases hkey
      decide
    · rw [hnumbered.eq (htag ▸ hsame)]
  · intro tag hmem hallowed child inner hnumbered htag
    have hother : tag.key ≠ .constant := by
      intro hsame
      rw [(hstandard tag hmem hsame).2.1] at hallowed
      cases hallowed
    rw [hnumbered.eq (htag ▸ hother)]
  · obtain ⟨child, hchild, hnumbered⟩ := mem_replace h hinner
    exact hnumbered.settled (progress.settled child hchild) (hconstant child hchild)
  · exact hnumbered.site (progress.settled child hchild).self.conforms.toSound (hconstant child hchild)

theorem Progress.complete {start node : Node} (progress : Progress start node) {name : SchemaName}
    (hname : start.signature = Standard.signature name) {completion : Completion}
    (hcompletion : completion ∈ (Standard.schema name).completions) :
    (∀ after, completion node = .ok () after → Progress start after ∧
      ∀ key, (after.childrenOf key).length = (node.childrenOf key).length) ∧
    ∀ complaint after, completion node = .error complaint after → after.place = node.place := by
  rcases Standard.mem_completions hcompletion with ⟨rfl, rfl⟩ | ⟨rfl, rfl⟩
  · unfold Standard.standForItself
    split
    · next value hnone hvalue =>
      obtain ⟨property, hproperty, -, hadmits⟩ := progress.sound.value _ _ hvalue
      rw [progress.signature, hname] at hproperty
      have admits : (Property.range .value 0 none).Admits value := by
        obtain ⟨hconversions, -⟩ := Standard.term_properties property hproperty
        obtain ⟨text, hproduced⟩ := hadmits.produced
        rw [hconversions] at hproduced
        exact ⟨⟨text, hproduced⟩, nofun⟩
      have hmem : Property.range .value 0 none ∈ start.signature.properties := by
        rw [hname]
        exact Standard.term_value
      refine ⟨fun after h => ?_, nofun⟩
      cases h
      refine ⟨progress.set hmem admits, fun key => ?_⟩
      rw [← progress.signature] at hmem
      exact congrArg List.length (progress.sound.childrenOf_set_property hmem value key)
    · refine ⟨fun after h => ?_, nofun⟩
      cases h
      exact ⟨progress, fun _ => rfl⟩
  · unfold Standard.numberInOrder
    split
    · next children hnumbered =>
      refine ⟨fun after h => ?_, nofun⟩
      cases h
      have hall := numberChildren_eq_ok hnumbered
      refine ⟨progress.number hall, fun key => ?_⟩
      exact (childrenOf_replace hall (fun _ _ => Numbered.tag) key).length_eq.symm
    · refine ⟨nofun, fun _ after h => ?_⟩
      cases h
      rfl

end TagSchema.Node
