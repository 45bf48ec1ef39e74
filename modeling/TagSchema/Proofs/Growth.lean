import TagSchema.Proofs.Tree

/-! How the children of a node grow while it is closed. The children that are there stay where they are,
with all that is in them. Under a tag that has none, a single child may be filled in, which stands where
its parent stands. -/
namespace TagSchema.Node

/-- What closing a node leaves alone in its children: all but their values. -/
def site (node : Node) : Keyword × Place × List Node := (node.tag, node.place, node.children)

def Grows (start node : Node) : Prop :=
  ∀ key, (node.childrenOf key).map site = (start.childrenOf key).map site ∨
    start.childrenOf key = [] ∧ ∃ child : Node, node.childrenOf key = [child] ∧
      child.place = start.place ∧ child.children = []

/-- What a property reads of a site alone, it says of the whole tree below the site. -/
theorem Every.of_site {P : Node → Prop} {node after : Node} (h : node.Every P)
    (hP : ∀ node after : Node, after.site = node.site → P node → P after)
    (hsite : after.site = node.site) : after.Every P := by
  have hchildren : after.children = node.children := congrArg (·.2.2) hsite
  exact every_iff.mpr ⟨hP node after hsite h.self, fun child hchild => h.child (hchildren ▸ hchild)⟩

theorem map_site_childrenOf (node : Node) (key : Keyword) :
    (node.childrenOf key).map site = (node.children.map site).filter (·.1 = key) := by
  rw [List.filter_map]
  rfl

namespace Grows

variable {start node : Node}

theorem refl (node : Node) : Grows node node := fun _ => .inl rfl

theorem children_cases (grows : Grows start node) {child : Node} (h : child ∈ node.children) :
    (∃ earlier ∈ start.children, child.site = earlier.site) ∨
      child.place = start.place ∧ child.children = [] := by
  have hmem : child ∈ node.childrenOf child.tag := mem_childrenOf.mpr ⟨h, rfl⟩
  rcases grows child.tag with hkept | ⟨-, only, honly, hplace, hleaf⟩
  · have hsite : child.site ∈ (start.childrenOf child.tag).map site := by
      rw [← hkept]
      exact List.mem_map_of_mem hmem
    obtain ⟨earlier, hearlier, hsame⟩ := List.mem_map.mp hsite
    exact .inl ⟨earlier, (mem_childrenOf.mp hearlier).1, hsame.symm⟩
  · rw [honly, List.mem_singleton] at hmem
    subst hmem
    exact .inr ⟨hplace, hleaf⟩

theorem of_childrenOf (grows : Grows start node) {after : Node}
    (h : ∀ key, after.childrenOf key = node.childrenOf key) : Grows start after := by
  intro key
  rw [h]
  exact grows key

theorem attach (grows : Grows start node) {child : Node} (hnone : node.childrenOf child.tag = [])
    (hplace : child.place = start.place) (hleaf : child.children = []) :
    Grows start (node.attach child) := by
  intro key
  rw [childrenOf_attach]
  split
  · next hkey =>
    subst hkey
    rw [hnone, List.nil_append]
    refine .inr ⟨?_, child, rfl, hplace, hleaf⟩
    rcases grows child.tag with hkept | ⟨hstart, -⟩
    · rw [hnone] at hkept
      exact List.map_eq_nil_iff.mp hkept.symm
    · exact hstart
  · exact grows key

theorem replace (grows : Grows start node) {after : List Node}
    (h : after.map site = node.children.map site) : Grows start { node with children := after } := by
  intro key
  have hof : ({ node with children := after }.childrenOf key).map site =
      (node.childrenOf key).map site := by
    rw [map_site_childrenOf, map_site_childrenOf, h]
  rcases grows key with hkept | ⟨hstart, child, hchild, hplace, hleaf⟩
  · exact .inl (hof.trans hkept)
  · rw [hchild, List.map_singleton, List.map_eq_singleton_iff] at hof
    obtain ⟨inner, hinner, hsite⟩ := hof
    simp only [site, Prod.mk.injEq] at hsite
    exact .inr ⟨hstart, inner, hinner, hsite.2.1.trans hplace, hsite.2.2.trans hleaf⟩

end Grows
end TagSchema.Node
