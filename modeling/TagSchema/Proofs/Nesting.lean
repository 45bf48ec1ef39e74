import TagSchema.Proofs.Scopes
import TagSchema.Reading

/-! Scopes inside scopes: opening one, and folding its closed node into the scope around it. Inside a
top-level scope folding is a matter of the two scopes alone. A top-level node is folded into the
root, which refuses nothing, so that only its name can be in the way. -/
namespace TagSchema
open Grammar Node

theorem Namespace.tag_injective {space other : Namespace} (h : space.tag = other.tag) :
    space = other := by
  cases space <;> cases other <;> first | rfl | cases h

namespace Scope

def OpenedIn (scope outer : Scope) : Prop :=
  ∃ tag name, outer.node.signature.tag? scope.node.tag = some tag ∧ tag.schema = some name ∧
    scope.Open name

structure Rooted (scope : Scope) : Prop extends Scope.Open scope .base where
  tag : scope.node.tag = .base
  place : scope.node.place = ⟨"", 0⟩
  words : scope.node.words = []

variable {scope outer : Scope} {name : SchemaName}

def including (scope : Scope) (child : Node) : Scope :=
  { scope with node := scope.node.attach child }

theorem Open.including (opened : outer.Open name) {child : Node}
    (sound : (outer.node.attach child).Sound) (settled : child.Every Settled) :
    (outer.including child).Open name := by
  refine ⟨opened.schema, opened.signature, sound, fun inner hinner => ?_, opened.gathering.opened⟩
  rcases mem_children_attach.mp hinner with hinner | rfl
  · exact opened.gathering.settled inner hinner
  · exact settled

theorem OpenedIn.unregistered (hscope : scope.OpenedIn outer) (houter : outer.Open name)
    (hbase : name ≠ .base) :
    ∃ tag child, outer.node.signature.tag? scope.node.tag = some tag ∧ tag.schema = some child ∧
      scope.Open child ∧ child.space? = none := by
  obtain ⟨tag, child, htag, hchild, hopen⟩ := hscope
  refine ⟨tag, child, htag, hchild, hopen, ?_⟩
  rw [houter.signature] at htag
  by_contra hspace
  have hsome : child.space?.isSome := Option.isSome_iff_ne_none.mpr hspace
  exact hbase (Standard.registers_base name tag (Standard.mem_of_tag? htag).1 child hchild hsome)

theorem OpenedIn.registered (hscope : scope.OpenedIn outer) (houter : outer.Open .base) :
    ∃ tag child space, outer.node.signature.tag? scope.node.tag = some tag ∧
      tag.schema = some child ∧ tag.allowed = none ∧ tag.unique = none ∧ scope.Open child ∧
      child.space? = some space ∧ scope.node.tag = space.tag := by
  obtain ⟨tag, child, htag, hchild, hopen⟩ := hscope
  have hdeclared := htag
  rw [houter.signature] at hdeclared
  obtain ⟨hmem, hkey⟩ := Standard.mem_of_tag? hdeclared
  obtain ⟨hspace, hallowed, hunique⟩ := Standard.base_registers tag hmem
  rw [hchild, Option.bind_some] at hspace
  obtain ⟨space, hspace, htag'⟩ := Option.map_eq_some_iff.mp hspace
  exact ⟨tag, child, space, htag, hchild, hallowed, hunique, hopen, hspace, by rw [htag', hkey]⟩

theorem child_eq_of_signature {other : Scope}
    (hsignature : scope.node.signature = other.node.signature) (htag : scope.node.tag = other.node.tag)
    (key : Keyword) (place : Place) :
    scope.child .standard key place = other.child .standard key place := by
  simp only [child, hsignature, htag, find?_standard]

/-- What a tag does in a scope: it is not declared there, or closes the scope, or opens one that starts
at its own place. -/
theorem child_cases (outer : Scope) (key : Keyword) (place : Place) :
    (∃ fault, outer.child .standard key place = .error fault ∧ fault.place = place ∧
      fault.tag.isSome) ∨
    outer.child .standard key place = .ok none ∨
    ∃ schema, outer.child .standard key place = .ok (some (start key schema place)) ∧
      (start key schema place).OpenedIn outer := by
  unfold child
  cases htag : outer.node.signature.tag? key with
  | none => exact .inl ⟨_, rfl, rfl, rfl⟩
  | some tag =>
    cases hchild : tag.schema with
    | none => exact .inr (.inl (by simp only [hchild]))
    | some child =>
      refine .inr (.inr ⟨Standard.schema child, ?_, tag, child, htag, hchild, ?_⟩)
      · simp only [hchild, find?_standard]
      · exact ⟨rfl, rfl, gathering_start key child place []⟩

end Scope

namespace Reading

theorem closeInnermost_inner {scope outer : Scope} {name : SchemaName}
    (hscope : scope.OpenedIn outer) (houter : outer.Open name) (hbase : name ≠ .base)
    (opened : List Scope) :
    (∃ fault, fault.Flaw scope.node.place ∧ ∀ root symbols,
      closeInnermost ⟨.standard, root, scope :: outer :: opened, symbols⟩ =
        .error fault ⟨.standard, root, outer :: opened, symbols⟩) ∨
    ∃ child : Node, Closed scope.node child ∧ (outer.including child).Open name ∧ ∀ root symbols,
      closeInnermost ⟨.standard, root, scope :: outer :: opened, symbols⟩ =
        .ok () ⟨.standard, root, outer.including child :: opened, symbols⟩ := by
  obtain ⟨tag, child, htag, hchild, hopen, hspace⟩ := hscope.unregistered houter hbase
  rcases Scope.close_unregistered hopen hspace with
    ⟨node, hclosed, hcloses⟩ | ⟨fault, hflaw, hfails⟩
  · have hdeclared : outer.node.signature.tag? node.tag = some tag := by
      rw [hclosed.tag, htag]
    have hexpects : outer.node.Expects node := by
      refine ⟨tag, child, hdeclared, hchild, ?_⟩
      rw [hclosed.signature, hopen.signature]
    cases hadopt : outer.node.adopt node with
    | error fault =>
      have hflaw : fault.Flaw node.place := flaw_of_adopt hdeclared hadopt
      rw [hclosed.place] at hflaw
      refine .inl ⟨fault, hflaw, fun root symbols => ?_⟩
      simp only [closeInnermost, hcloses symbols, adopt, hadopt]
    | ok updated =>
      obtain ⟨adopted, rfl, sound, settled, hkey, hplace, hsignature, hchildren⟩ :=
        adopt_settled houter.gathering.sound hexpects hclosed.settled hadopt
      have hgrows : Grows scope.node adopted := hclosed.grows.of_childrenOf fun key => by
        unfold childrenOf
        rw [hchildren]
      refine .inr ⟨adopted, ⟨settled, hsignature.trans hclosed.signature, hkey.trans hclosed.tag,
        hplace.trans hclosed.place, hgrows⟩, houter.including sound settled, fun root symbols => ?_⟩
      simp only [closeInnermost, hcloses symbols, adopt, hadopt]
      rfl
  · refine .inl ⟨fault, hflaw, fun root symbols => ?_⟩
    obtain ⟨lost, hlost⟩ := hfails symbols
    simp only [closeInnermost, hlost]

/-- A top-level scope whose closed node can be folded into any root where its name is free. -/
structure Enlists (scope : Scope) (node : Node) (full : String) (space : Namespace) : Prop where
  closed : Closed scope.node node
  tag : node.tag = space.tag
  name : node.text? .name = some full
  rooted : ∀ root : Scope, root.Rooted → (root.including node).Rooted
  accepted : ∀ root : Scope, root.Rooted → ∀ symbols after,
    Symbols.register full space node.place space.delimiter symbols = .ok () after →
      closeInnermost ⟨.standard, root, [scope], symbols⟩ =
        .ok () ⟨.standard, root.including node, [], after⟩
  refused : ∀ root symbols fault after,
    Symbols.register full space node.place space.delimiter symbols = .error fault after →
      closeInnermost ⟨.standard, root, [scope], symbols⟩ =
        .error (fault.inScope node.tag) ⟨.standard, root, [], after⟩

theorem closeInnermost_top {scope root : Scope} (hscope : scope.OpenedIn root)
    (hroot : root.Open .base) :
    (∃ fault, fault.Flaw scope.node.place ∧ ∀ other symbols,
      closeInnermost ⟨.standard, other, [scope], symbols⟩ =
        .error fault ⟨.standard, other, [], symbols⟩) ∨
    ∃ node full space, Enlists scope node full space := by
  obtain ⟨tag, child, space, htag, hchild, hallowed, hunique, hopen, hspace, hkey⟩ :=
    hscope.registered hroot
  rcases Scope.close_registered hopen hspace with
    ⟨node, full, hclosed, hfull, hregisters⟩ | ⟨fault, hflaw, hfails⟩
  · have htag' (other : Scope) (hother : other.Rooted) :
        other.node.signature.tag? node.tag = some tag := by
      rw [hother.signature, hclosed.tag, ← htag, hroot.signature]
    refine .inr ⟨node, full, space, hclosed, hclosed.tag.trans hkey, hfull, fun other hother => ?_,
      fun other hother symbols after haccepted => ?_, fun other symbols fault after hrefused => ?_⟩
    · have sound : (other.node.attach node).Sound := by
        refine hother.gathering.sound.attach (htag' other hother) ⟨child, hchild, ?_⟩ ?_ ?_
        · rw [hclosed.signature, hopen.signature]
        · simp [hunique]
        · simp [hallowed]
      exact ⟨hother.toOpen.including sound hclosed.settled, hother.tag, hother.place, hother.words⟩
    · have hadopt := adopt_plain (htag' other hother) hallowed hunique
      simp only [closeInnermost, hregisters.accepted symbols after haccepted, adopt, hadopt]
      rfl
    · obtain ⟨lost, hlost⟩ := hregisters.refused symbols fault after hrefused
      simp only [closeInnermost, hlost]
  · refine .inl ⟨fault, hflaw, fun other symbols => ?_⟩
    obtain ⟨lost, hlost⟩ := hfails symbols
    simp only [closeInnermost, hlost]

end Reading
end TagSchema
