import TagSchema.Proofs.Acceptance
import TagSchema.Proofs.Registration
import TagSchema.Proofs.Resolution
import TagSchema.Proofs.SourceOrder

/-! From whom a class inherits. That a class is not its own parent is checked when the class closes, by the
full name, since not all classes are known then. By a suffix of its name a class may still mean itself: it
does just if no other class answers to the suffix. -/
namespace TagSchema
open Grammar Node

namespace Grammar.Standard

theorem key_ne_tag_inside (space : Namespace) (name : SchemaName) (h : name ≠ .base) :
    ∀ tag ∈ (signature name).tags, tag.key ≠ space.tag := by
  cases space <;> cases name <;> first | decide | exact absurd rfl h

theorem hasOtherParent_mem_checks :
    .predicate "class cannot inherit from itself" hasOtherParent ∈ (schema .classSchema).checks :=
  List.mem_append_right (schema .classSchema).impliedChecks (List.mem_singleton_self _)

end Grammar.Standard

namespace Symbols

variable {delimiter : Option Char} {symbols : List Symbol} {name : String}

theorem Table.lookup_other_or_own (hdistinct : (symbols.map (·.name)).Nodup) {own : Symbol}
    (hown : own ∈ symbols) (hname : own.name ≠ name)
    (hanswers : ∃ symbol ∈ symbols, Answers delimiter name symbol.name) :
    (∃ symbol ∈ (listing delimiter symbols).lookup name, symbol.name ≠ own.name) ∨
      (listing delimiter symbols).lookup name = [own] ∧ Answers delimiter name own.name := by
  rw [lookup_listing]
  cases hnamed : symbols.filter (·.name = name) with
  | cons symbol rest =>
    have hsymbol := List.mem_cons_self (a := symbol) (l := rest)
    have hbears : symbol.name = name := by
      rw [← hnamed] at hsymbol
      simpa using (List.mem_filter.mp hsymbol).2
    exact .inl ⟨symbol, hsymbol, hbears ▸ hname.symm⟩
  | nil =>
    dsimp only
    by_cases hother : ∃ symbol ∈ symbols.filter fun symbol => Answers delimiter name symbol.name,
        symbol.name ≠ own.name
    · exact .inl hother
    · -- All that answers bears the name of the symbol, and so is the symbol.
      push Not at hother
      obtain ⟨found, hfound, hfoundAnswers⟩ := hanswers
      have hsame := hother found (by simp [hfound, hfoundAnswers])
      have hownAnswers : Answers delimiter name own.name := hsame ▸ hfoundAnswers
      refine .inr ⟨?_, hownAnswers⟩
      rw [← Ledger.filter_name_of_mem hdistinct hown]
      refine List.filter_congr fun symbol hsymbol => ?_
      rw [decide_eq_decide]
      refine ⟨fun h => hother symbol (by simp [hsymbol, h]), fun h => h ▸ hownAnswers⟩

end Symbols

namespace Node

variable {root node : Node} {space : Namespace}

@[simp] theorem text?_inPhase (node : Node) (phase : Phase) (key : Keyword) :
    (node.inPhase phase).text? key = node.text? key := by
  rw [inPhase_eq]
  rfl

@[simp] theorem place_inPhase (node : Node) (phase : Phase) : (node.inPhase phase).place = node.place := by
  rw [inPhase_eq]

theorem childrenOf_inPhase (node : Node) (phase : Phase) (key : Keyword) :
    (node.inPhase phase).childrenOf key = (node.childrenOf key).map (inPhase phase) := by
  have htag (child : Node) : (child.inPhase phase).tag = child.tag := by rw [inPhase_eq]
  rw [inPhase_eq]
  unfold childrenOf
  rw [List.filter_map]
  simp only [Function.comp_def, htag]

theorem name_ne_base_of_child (sound : root.Sound) {child : Node} (h : child ∈ root.children) :
    child.signature.name ≠ .base := by
  obtain ⟨tag, htag, -, name, hschema, hsignature⟩ := sound.child child h
  rw [sound.standard] at htag
  rw [hsignature, Standard.name_signature]
  rintro rfl
  exact Standard.schema_ne_base _ tag htag hschema

theorem top_of_occurs (conforms : root.Every Conforms) (hroot : root.tag = .base)
    (h : node.Occurs root) (htag : node.tag = space.tag) : node ∈ root.childrenOf space.tag := by
  have inside {outer : Node} (hinner : node.Occurs outer) :
      outer.Every Conforms → outer.signature.name ≠ .base → node = outer := by
    induction hinner with
    | here => exact fun _ _ => rfl
    | @inside outer child hchild _ ih =>
      intro houter hname
      have sound := houter.self.toSound
      obtain rfl := ih (houter.child hchild) (name_ne_base_of_child sound hchild)
      obtain ⟨tag, hmem, hkey, -⟩ := sound.child node hchild
      rw [sound.standard] at hmem
      exact absurd (hkey.trans htag) (Standard.key_ne_tag_inside space _ hname tag hmem)
  cases h with
  | here => exact absurd (hroot.symm.trans htag) (by cases space <;> decide)
  | inside hchild hinner =>
    have hname := name_ne_base_of_child conforms.self.toSound hchild
    obtain rfl := inside hinner (conforms.child hchild) hname
    exact mem_childrenOf.mpr ⟨hchild, htag⟩

theorem childScalar?_inherits (conforms : node.Every Conforms) (hname : node.signature.name = .classSchema)
    {child : Node} (hchild : child ∈ node.childrenOf .inherits) {parent : String}
    (hparent : child.text? .value = some parent) :
    (node.childScalar? .inherits).bind (·.text?) = some parent := by
  have htag : Standard.text .inherits ∈ node.signature.tags := by
    rw [conforms.self.standard, hname]
    decide
  obtain ⟨name, hschema, hsignature⟩ := conforms.self.toSound.schema_of_mem_childrenOf htag hchild
  obtain ⟨only, honly⟩ : ∃ only, node.childrenOf .inherits = [only] := by
    have hsingular := conforms.self.singular _ htag rfl
    exact List.length_eq_one_iff.mp (Nat.le_antisymm hsingular (List.length_pos_of_mem hchild))
  rw [honly, List.mem_singleton] at hchild
  subst hchild
  cases hschema
  have hscalar : child.signature.scalar = some .value := by
    rw [hsignature]
    rfl
  rw [childScalar?, honly, List.head?_cons, Option.bind_some, scalar?, hscalar]
  exact hparent

theorem name_ne_parent (conforms : node.Every Conforms) (hname : node.signature.name = .classSchema)
    {child : Node} (hchild : child ∈ node.childrenOf .inherits) {full parent : String}
    (hfull : node.text? .name = some full) (hparent : child.text? .value = some parent) :
    full ≠ parent := by
  have haccepted := conforms.self.accepted _ _ (hname ▸ Standard.hasOtherParent_mem_checks)
  unfold Standard.hasOtherParent at haccepted
  rw [hfull, childScalar?_inherits conforms hname hchild hparent] at haccepted
  simpa using haccepted

end Node

namespace Reading

variable {reading : Reading} {corpus : Corpus}

theorem Sound.corpus_of_finish (sound : reading.Sound) (h : reading.finish = .ok corpus) :
    ∃ after : Reading, after.Sound ∧ corpus.root = after.root.node.inPhase .finalized ∧
      corpus.symbols = after.symbols ∧ after.root.node.Every (Resolved after.root.node) := by
  obtain ⟨after, hafter, hopened, hfinish⟩ := sound.closed_of_finish h
  refine ⟨after, hafter, hafter.root_of_finish_eq hopened hfinish, ?_, fun inner hinner => ?_⟩
  · rw [hafter.finish_eq hopened] at hfinish
    unfold finished at hfinish
    split at hfinish
    · cases hfinish
    · cases hfinish
      rfl
  · rw [← hafter.resolved_iff (hafter.conforms.every inner hinner)]
    exact (hafter.finish_ok_iff hopened).mp ⟨corpus, hfinish⟩ inner hinner

theorem Sound.name_of_class (sound : reading.Sound) {node : Node}
    (h : node ∈ reading.root.node.childrenOf .classWord) : node.signature.name = .classSchema := by
  have htag : Standard.children .classWord .classSchema ∈ reading.root.node.signature.tags := by
    rw [sound.root.signature]
    decide
  obtain ⟨name, hschema, hname⟩ := sound.conforms.self.toSound.schema_of_mem_childrenOf htag h
  cases hschema
  rw [hname, Standard.name_signature]

/-- Where all references resolve, the name of a parent is not that of the class and finds another class, or
else the class alone. -/
theorem Sound.lookup_parent (sound : reading.Sound)
    (resolved : reading.root.node.Every (Resolved reading.root.node)) {node child : Node}
    (hnode : node ∈ reading.root.node.childrenOf .classWord) (hchild : child ∈ node.childrenOf .inherits) :
    ∃ full parent, node.text? .name = some full ∧ child.text? .value = some parent ∧ parent ≠ full ∧
      ((∃ symbol ∈ reading.symbols.lookup parent .classes, symbol.name ≠ full) ∨
        reading.symbols.lookup parent .classes = [⟨full, node.place⟩] ∧
          ∃ container : String, full = container ++ "." ++ parent) := by
  have hmem := (mem_childrenOf.mp hnode).1
  have conforms := sound.conforms.child hmem
  have hclass := sound.name_of_class hnode
  obtain ⟨full, hvalue⟩ := conforms.self.registered_name (by rw [hclass]; rfl)
  have hfull : node.text? .name = some full := by
    rw [text?, hvalue]
    rfl
  obtain ⟨parent, hparent, hdeclares⟩ := (resolved.child hmem).self.inherits hclass child hchild
  have hother := name_ne_parent conforms hclass hchild hfull hparent
  have hown : ⟨full, node.place⟩ ∈ reading.root.node.declared .classes :=
    mem_declared.mpr ⟨node, hnode, hfull, rfl⟩
  have hanswers := sound.symbols.resolves_iff.mp (sound.resolves_iff.mpr hdeclares)
  refine ⟨full, parent, hfull, hparent, hother.symm, ?_⟩
  rw [Symbols.lookup, sound.symbols .classes]
  refine (Symbols.Table.lookup_other_or_own (sound.distinct .classes) hown hother hanswers).imp_right ?_
  rintro ⟨hfound, hsame | ⟨c, hc, container, hcontainer⟩⟩
  · exact absurd hsame hother
  · cases hc
    exact ⟨hfound, container, hcontainer⟩

/-- The name that a class of a corpus inherits from is not its own name in full, and finds another class,
unless it is a suffix of that name to which the class alone answers. -/
theorem inherits_other_or_own_suffix (h : Reachable reading) (hfinish : reading.finish = .ok corpus)
    {node child : Node} (hnode : node.Occurs corpus.root) (htag : node.tag = .classWord)
    (hchild : child ∈ node.childrenOf .inherits) :
    ∃ full parent, node.text? .name = some full ∧ child.text? .value = some parent ∧ parent ≠ full ∧
      ((∃ symbol ∈ corpus.symbols.lookup parent .classes, symbol.name ≠ full) ∨
        corpus.symbols.lookup parent .classes = [⟨full, node.place⟩] ∧
          ∃ container : String, full = container ++ "." ++ parent) := by
  have conforms := (h.sound.final hfinish).imp fun _ final => final.conforms
  have htop : node ∈ corpus.root.childrenOf Namespace.classes.tag :=
    top_of_occurs conforms (h.sound.root_of_finish hfinish).1 hnode htag
  -- The corpus was made from a state that has the same classes, but for their phase.
  obtain ⟨after, sound, hroot, hsymbols, resolved⟩ := h.sound.corpus_of_finish hfinish
  rw [hroot, childrenOf_inPhase] at htop
  obtain ⟨inner, hinner, rfl⟩ := List.mem_map.mp htop
  rw [childrenOf_inPhase] at hchild
  obtain ⟨held, hheld, rfl⟩ := List.mem_map.mp hchild
  simp only [text?_inPhase, place_inPhase, hsymbols]
  exact sound.lookup_parent resolved hinner hheld

def corpusOf (name text : String) : Option Corpus :=
  match file name text standard with
  | .ok () reading => reading.finish.toOption
  | .error .. => none

theorem corpusOf_eq_some {name text : String} (h : corpusOf name text = some corpus) :
    ∃ reading, file name text standard = .ok () reading ∧ reading.finish = .ok corpus := by
  unfold corpusOf at h
  split at h
  · next reading hfile =>
    cases hfinish : reading.finish with
    | ok found =>
      rw [hfinish] at h
      cases h
      exact ⟨reading, hfile, hfinish⟩
    | error fault =>
      rw [hfinish] at h
      cases h
  · cases h

theorem reachable_of_file {name text : String} (h : file name text standard = .ok () reading) :
    Reachable reading := by
  have hreachable := Reachable.file name text .standard
  unfold after at hreachable
  rwa [h] at hreachable

def inheritances (corpus : Corpus) : List (Option Symbol × Option String) :=
  (corpus.nodes .classWord).flatMap fun node =>
    (node.childrenOf .inherits).map fun child => (node.symbol?, child.text? .value)

theorem exists_of_inheritances {own : Option Symbol} {parent : Option String}
    (h : (own, parent) ∈ inheritances corpus) : ∃ node child : Node, node.Occurs corpus.root ∧
      node.tag = .classWord ∧ child ∈ node.childrenOf .inherits ∧ node.symbol? = own ∧
        child.text? .value = parent := by
  obtain ⟨node, hnode, hpair⟩ := List.mem_flatMap.mp h
  obtain ⟨child, hchild, hnames⟩ := List.mem_map.mp hpair
  obtain ⟨hown, hparent⟩ := Prod.mk.inj hnames
  obtain ⟨hmem, htag⟩ := mem_childrenOf.mp hnode
  exact ⟨node, child, .inside hmem .here, htag, hchild, hown, hparent⟩

/-- Here another class answers to the suffix, too, which is read behind the one that inherits. -/
theorem inherits_other_or_own_suffix_namesake :
    let text := "@class c.Shape\n@inherits Shape\n@end\n@class a.Shape\n@end\n"
    ∃ reading corpus, file "t.talk" text standard = .ok () reading ∧ reading.finish = .ok corpus ∧
      ∃ symbol ∈ corpus.symbols.lookup "Shape" .classes, symbol.name ≠ "c.Shape" := by
  intro text
  have hcorpus : (corpusOf "t.talk" text).map (fun corpus =>
      (inheritances corpus, (corpus.symbols.lookup "Shape" .classes).length)) =
      some ([(some ⟨"c.Shape", ⟨"t.talk", 1⟩⟩, some "Shape")], 2) := by
    decide +kernel
  obtain ⟨corpus, hcorpus, hresults⟩ := Option.map_eq_some_iff.mp hcorpus
  obtain ⟨hpairs, hlength⟩ := Prod.mk.inj hresults
  obtain ⟨reading, hfile, hfinish⟩ := corpusOf_eq_some hcorpus
  obtain ⟨node, child, hnode, htag, hchild, hown, hvalue⟩ :=
    exists_of_inheritances (hpairs ▸ List.mem_singleton_self _)
  obtain ⟨full, parent, hfull, hparent, -, hlookup⟩ :=
    inherits_other_or_own_suffix (reachable_of_file hfile) hfinish hnode htag hchild
  cases hparent.symm.trans hvalue
  rw [symbol?, hfull] at hown
  obtain rfl : full = "c.Shape" := congrArg Symbol.name (Option.some.inj hown)
  refine ⟨reading, corpus, hfile, hfinish, hlookup.resolve_right ?_⟩
  rintro ⟨halone, -⟩
  rw [halone] at hlength
  cases hlength

/-- Here the class alone answers to the suffix. -/
theorem inherits_own_suffix :
    let text := "@class a.Node\n@inherits Node\n@end\n"
    ∃ reading corpus, file "t.talk" text standard = .ok () reading ∧ reading.finish = .ok corpus ∧
      ∃ node child : Node, node.Occurs corpus.root ∧ node.tag = .classWord ∧
        child ∈ node.childrenOf .inherits ∧ child.text? .value = some "Node" ∧
        ∀ symbol ∈ corpus.symbols.lookup "Node" .classes, node.symbol? = some symbol := by
  intro text
  have hcorpus : (corpusOf "t.talk" text).map (fun corpus =>
      (inheritances corpus, corpus.symbols.lookup "Node" .classes)) =
      some ([(some ⟨"a.Node", ⟨"t.talk", 1⟩⟩, some "Node")], [⟨"a.Node", ⟨"t.talk", 1⟩⟩]) := by
    decide +kernel
  obtain ⟨corpus, hcorpus, hresults⟩ := Option.map_eq_some_iff.mp hcorpus
  obtain ⟨hpairs, hlookup⟩ := Prod.mk.inj hresults
  obtain ⟨reading, hfile, hfinish⟩ := corpusOf_eq_some hcorpus
  obtain ⟨node, child, hnode, htag, hchild, hown, hparent⟩ :=
    exists_of_inheritances (hpairs ▸ List.mem_singleton_self _)
  refine ⟨reading, corpus, hfile, hfinish, node, child, hnode, htag, hchild, hparent, ?_⟩
  rw [hlookup, List.forall_mem_singleton]
  exact hown

end Reading
end TagSchema
