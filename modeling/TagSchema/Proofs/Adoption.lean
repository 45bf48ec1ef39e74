import TagSchema.Proofs.Conformity

/-! Adoption keeps a node sound: the child's tag is declared, its literal is brought to the lead of
its group, and it differs from its siblings where it has to. -/
namespace TagSchema.Node
open Grammar

theorem adopt_eq_ok {node child after : Node} (h : node.adopt child = .ok after) :
    ∃ tag adopted, node.signature.tag? child.tag = some tag ∧
      tag.allowed.elim (.ok child) child.normalize = .ok adopted ∧
      (∀ key ∈ tag.unique, node.rival? adopted key = none) ∧ after = node.attach adopted := by
  unfold adopt at h
  split at h
  · cases h
  · next tag htag =>
    cases hadopted : tag.allowed.elim (.ok child) child.normalize with
    | error fault => simp [hadopted, bind, Except.bind] at h
    | ok adopted =>
      simp only [hadopted, bind, Except.bind] at h
      split at h
      · cases h
      · next hrival =>
        refine ⟨tag, adopted, htag, hadopted, fun key hkey => ?_, (Except.ok.inj h).symm⟩
        simpa [Option.mem_def.mp hkey] using hrival

theorem adopt_eq_attach {node child adopted : Node} {tag : Tag}
    (htag : node.signature.tag? child.tag = some tag)
    (hadopted : tag.allowed.elim (.ok child) child.normalize = .ok adopted)
    (hrival : ∀ key ∈ tag.unique, node.rival? adopted key = none) :
    node.adopt child = .ok (node.attach adopted) := by
  have hnone : (tag.unique.bind fun key => (node.rival? adopted key).map (key, ·)) = none := by
    cases hunique : tag.unique with
    | none => rfl
    | some key => simp [hrival key hunique]
  simp only [adopt, htag, hadopted, bind, Except.bind]
  rw [hnone]

theorem normalize_eq_ok {allowed : Vocabulary} {node after : Node}
    (h : node.normalize allowed = .ok after) :
    (after = node ∨ ∃ key text, node.signature.scalar = some key ∧
      after = node.set key (.text text)) ∧
    ∀ text, after.scalar? = some (.text text) → ∃ group ∈ allowed.groups, group.lead = text := by
  unfold normalize at h
  split at h
  · next hscalar =>
    cases h
    exact ⟨.inl rfl, fun text htext => by simp [scalar?, hscalar] at htext⟩
  · next key hscalar =>
    split at h
    · next htext =>
      cases h
      refine ⟨.inl rfl, fun text hheld => ?_⟩
      rw [scalar?, hscalar, Option.bind_some] at hheld
      simp [text?, hheld, Datum.text?] at htext
    · next text htext =>
      split at h
      · next canonical hcanonical =>
        cases h
        refine ⟨.inr ⟨key, canonical, hscalar, rfl⟩, fun text' hheld => ?_⟩
        have hsame : canonical = text' := by
          simpa [scalar?, set, hscalar] using hheld
        obtain ⟨group, hgroup, hlead⟩ := Option.map_eq_some_iff.mp hcanonical
        exact ⟨group, List.mem_of_find?_eq_some hgroup, hlead.trans hsame⟩
      · cases h

theorem rival?_eq_none {node child : Node} {key : Keyword} (h : node.rival? child key = none)
    {value : Datum} (hvalue : child.values key = some value) :
    ∀ sibling ∈ node.childrenOf child.tag, sibling.values key ≠ some value := by
  simpa [rival?, hvalue] using h

theorem nodup_attach {node child : Node} {key : Keyword} (hrival : node.rival? child key = none)
    (h : ((node.childrenOf child.tag).filterMap (·.values key)).Nodup) :
    (((node.attach child).childrenOf child.tag).filterMap (·.values key)).Nodup := by
  rw [childrenOf_attach, if_pos rfl, List.filterMap_append, List.nodup_append]
  refine ⟨h, ?_, ?_⟩
  · cases hvalue : child.values key <;> simp [hvalue]
  · intro value hvalue value' hvalue'
    obtain ⟨sibling, hsibling, hheld⟩ := List.mem_filterMap.mp hvalue
    obtain ⟨_, hlast, hheld'⟩ := List.mem_filterMap.mp hvalue'
    cases List.mem_singleton.mp hlast
    rintro rfl
    exact rival?_eq_none hrival hheld' sibling hsibling hheld

theorem pairwise_rank_attach {node child : Node}
    (h : node.children.Pairwise (·.tag.rank ≤ ·.tag.rank)) :
    (node.attach child).children.Pairwise (·.tag.rank ≤ ·.tag.rank) := by
  simp only [attach, List.pairwise_append, List.pairwise_cons, List.mem_cons, List.mem_filter,
    decide_eq_true_eq]
  refine ⟨h.filter _, ⟨fun other hother => by omega, h.filter _⟩, ?_⟩
  rintro before ⟨-, hbefore⟩ behind (rfl | ⟨-, hbehind⟩)
  · exact hbefore
  · omega

theorem Sound.attach {node child : Node} (sound : node.Sound) {tag : Tag}
    (htag : node.signature.tag? child.tag = some tag)
    (hchild : ∃ name, tag.schema = some name ∧ child.signature = Standard.signature name)
    (hrival : ∀ key ∈ tag.unique, node.rival? child key = none)
    (hcanonical : ∀ allowed ∈ tag.allowed, ∀ text, child.scalar? = some (.text text) →
      ∃ group ∈ allowed.groups, group.lead = text) :
    (node.attach child).Sound := by
  obtain ⟨hmem, hkey⟩ := sound.mem_of_tag? htag
  -- Only one declaration has the child's tag, so the lists of all other tags stay as they were.
  have honly : ∀ other ∈ node.signature.tags, other.key = child.tag → other = tag :=
    fun other hother hsame => sound.eq_of_key_eq hmem hother (hsame.trans hkey.symm)
  refine ⟨sound.standard, fun key value hvalue => ?_, fun inner hinner => ?_, ?_, ?_,
    pairwise_rank_attach sound.ordered⟩
  · rw [values_attach] at hvalue
    split at hvalue
    · cases hvalue
    · exact sound.value key value hvalue
  · rcases mem_children_attach.mp hinner with hinner | rfl
    · exact sound.child inner hinner
    · exact ⟨tag, hmem, hkey, hchild⟩
  · intro other hother key hunique
    by_cases hsame : other.key = child.tag
    · obtain rfl := honly other hother hsame
      have hdistinct := sound.distinct other hother key hunique
      rw [hsame] at hdistinct ⊢
      exact nodup_attach (hrival key hunique) hdistinct
    · rw [childrenOf_attach, if_neg hsame]
      exact sound.distinct other hother key hunique
  · intro other hother allowed hallowed inner hinner text htext
    rw [childrenOf_attach] at hinner
    split at hinner
    · next hsame =>
      obtain rfl := honly other hother hsame
      rcases List.mem_append.mp hinner with hinner | hinner
      · exact sound.canonical other hother allowed hallowed inner hinner text htext
      · cases List.mem_singleton.mp hinner
        exact hcanonical allowed hallowed text htext
    · exact sound.canonical other hother allowed hallowed inner hinner text htext

theorem Progress.attach {start node child : Node} (progress : Progress start node)
    (sound : (node.attach child).Sound) (settled : child.Every Settled)
    (hnone : node.childrenOf child.tag = []) (hplace : child.place = start.place)
    (hleaf : child.children = []) : Progress start (node.attach child) := by
  refine ⟨sound, fun inner hinner => ?_, progress.signature, progress.tag, progress.place,
    progress.words, progress.grows.attach hnone hplace hleaf⟩
  rcases mem_children_attach.mp hinner with hinner | rfl
  · exact progress.settled inner hinner
  · exact settled

def Expects (node child : Node) : Prop :=
  ∃ tag name, node.signature.tag? child.tag = some tag ∧ tag.schema = some name ∧
    child.signature = Standard.signature name

theorem adopt_settled {node child after : Node} (sound : node.Sound)
    (hexpects : node.Expects child) (settled : child.Every Settled)
    (h : node.adopt child = .ok after) :
    ∃ adopted : Node, after = node.attach adopted ∧ (node.attach adopted).Sound ∧
      adopted.Every Settled ∧ adopted.tag = child.tag ∧ adopted.place = child.place ∧
      adopted.signature = child.signature ∧ adopted.children = child.children := by
  obtain ⟨tag, name, htag, hname, hsignature⟩ := hexpects
  obtain ⟨tag', adopted, htag', hadopted, hrival, rfl⟩ := adopt_eq_ok h
  obtain rfl : tag = tag' := Option.some.inj (htag.symm.trans htag')
  cases hallowed : tag.allowed with
  | none =>
    simp only [hallowed, Option.elim_none, Except.ok.injEq] at hadopted
    subst hadopted
    refine ⟨child, rfl, ?_, settled, rfl, rfl, rfl, rfl⟩
    exact sound.attach htag ⟨name, hname, hsignature⟩ hrival (by simp [hallowed])
  | some allowed =>
    simp only [hallowed, Option.elim_some] at hadopted
    obtain ⟨hchange, hlead⟩ := normalize_eq_ok hadopted
    have htext : name = .string := by
      obtain ⟨hmem, -⟩ := sound.mem_of_tag? htag
      rw [sound.standard] at hmem
      obtain ⟨hstring, -⟩ := Standard.allowed_text _ tag hmem (by simp [hallowed])
      rw [hname] at hstring
      exact Option.some.inj hstring
    subst htext
    have hcanonical : ∀ allowed' ∈ tag.allowed, ∀ text, adopted.scalar? = some (.text text) →
        ∃ group ∈ allowed'.groups, group.lead = text := by
      intro allowed' hallowed'
      rw [hallowed] at hallowed'
      cases hallowed'
      exact hlead
    rcases hchange with rfl | ⟨key, text, hscalar, rfl⟩
    · refine ⟨adopted, rfl, ?_, settled, rfl, rfl, rfl, rfl⟩
      exact sound.attach htag ⟨_, hname, hsignature⟩ hrival hcanonical
    · obtain ⟨property, hproperty, hkey, hconversions, hrules⟩ :=
        Standard.text_property (by rw [← hsignature]; exact hscalar)
      rw [← hsignature] at hproperty
      subst hkey
      refine ⟨_, rfl, ?_, ?_, rfl, rfl, rfl,
        children_set (settled.self.conforms.tag_ne_property hproperty)⟩
      · exact sound.attach htag ⟨_, hname, hsignature⟩ hrival hcanonical
      · refine Settled.set settled hproperty ⟨⟨text, ?_⟩, ?_⟩ (by simp [hsignature])
        · simp [hconversions, Conversion.applyAll, pure, Except.pure]
        · simp [hrules]

end TagSchema.Node
