import TagSchema.Proofs.Invariant

/-! The symbols of a namespace are those of the nodes under its tag. -/
namespace TagSchema.Reading
open Grammar Node

theorem Sound.declares {reading : Reading} (sound : reading.Sound) {space : Namespace} {node : Node}
    (h : node ∈ reading.root.node.childrenOf space.tag) :
    node.phase = .closed ∧ (node.symbol?).isSome := by
  obtain ⟨hmem, -⟩ := mem_childrenOf.mp h
  have settled := (sound.root.gathering.settled node hmem).self
  refine ⟨settled.closed, ?_⟩
  obtain ⟨tag, htag, -, name, hname, hsignature⟩ := sound.root.gathering.sound.child node hmem
  rw [sound.root.signature] at htag
  obtain ⟨hspace, -⟩ := Standard.base_registers tag htag
  rw [hname, Option.bind_some] at hspace
  obtain ⟨registered, hregistered, -⟩ := Option.map_eq_some_iff.mp hspace
  obtain ⟨full, hfull⟩ := settled.conforms.registered_name (by
    rw [hsignature, Standard.name_signature, hregistered]
    rfl)
  simp [symbol?, text?, hfull, Datum.text?]

theorem Sound.map_symbol? {reading : Reading} (sound : reading.Sound) (space : Namespace) :
    (reading.root.node.childrenOf space.tag).map (·.symbol?) =
      (reading.root.node.declared space).map some := by
  unfold declared
  have hall : ∀ node ∈ reading.root.node.childrenOf space.tag, (node.symbol?).isSome :=
    fun node hnode => (sound.declares hnode).2
  generalize reading.root.node.childrenOf space.tag = nodes at hall
  induction nodes with
  | nil => rfl
  | cons node nodes ih =>
    obtain ⟨symbol, hsymbol⟩ := Option.isSome_iff_exists.mp (hall node List.mem_cons_self)
    have hrest := ih fun other hother => hall other (List.mem_cons_of_mem _ hother)
    simp only [List.map_cons, List.filterMap_cons, hsymbol, hrest]

/-- The symbols of a namespace are those of the nodes under its tag: one for each node, and no two of
one name. -/
structure Agrees (reading : Reading) (space : Namespace) : Prop where
  listed : ∃ symbols : List Symbol,
    (reading.root.node.childrenOf space.tag).map (·.symbol?) = symbols.map some ∧
      (reading.symbols.byName space).Perm symbols
  ascending : (reading.symbols.byName space).Pairwise (·.name < ·.name)
  distinct : ((reading.root.node.childrenOf space.tag).map (·.text? .name)).Nodup
  closed : ∀ symbol ∈ reading.symbols.byName space,
    ∃ node ∈ reading.root.node.childrenOf space.tag,
      node.phase = .closed ∧ node.symbol? = some symbol

theorem agrees_of_reachable {reading : Reading} (h : Reachable reading) (space : Namespace) :
    reading.Agrees space := by
  have sound := h.sound
  have hsymbols := sound.map_symbol? space
  have hperm := sound.symbols.byName_perm space
  refine ⟨⟨_, hsymbols, hperm⟩, sound.symbols.byName_pairwise (sound.distinct space), ?_, ?_⟩
  · have hnames : (reading.root.node.childrenOf space.tag).map (·.text? .name) =
        ((reading.root.node.declared space).map (·.name)).map some := by
      have := congrArg (List.map (Option.map Symbol.name)) hsymbols
      simpa [symbol?, Function.comp_def] using this
    rw [hnames]
    exact (sound.distinct space).map fun _ _ hsame => Option.some.inj hsame
  · intro symbol hsymbol
    obtain ⟨node, hnode, hstands⟩ := List.mem_filterMap.mp (hperm.mem_iff.mp hsymbol)
    exact ⟨node, hnode, (sound.declares hnode).1, hstands⟩

/-- Here the file fails at its second class. The first one stays, and so does its symbol. -/
theorem agrees_after_failure :
    (after (file "t.talk" "@class A\n@class A\n@glossary A\n") standard).Agrees .classes :=
  agrees_of_reachable (.file _ _ .standard) .classes

end TagSchema.Reading
