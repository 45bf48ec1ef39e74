import TagSchema.Proofs.Fitting
import TagSchema.Proofs.Framing
import TagSchema.Proofs.Spelling

/-! Reading drafts back. A draft that is spelled out in full opens its scope, whatever was spelled before
it, and leaves its node behind. A scope without an end mark stays open until the next tag, which the
scopes around it declare. -/
namespace TagSchema
open Grammar Draft

namespace Grammar.Standard

theorem base_free : ∀ tag ∈ (signature .base).tags,
    tag.multi = true ∧ tag.required = false ∧ tag.unique = none ∧ tag.allowed = none := by
  decide

theorem base_ended : ∀ tag ∈ (signature .base).tags, ∀ name ∈ tag.schema,
    name ≠ .base ∧ ((signature name).tag? .endWord).isSome := by
  decide

theorem tags_of_endless (name : SchemaName) (hbase : name ≠ .base)
    (h : ((signature name).tag? .endWord).isSome = false) : (signature name).tags = [] := by
  cases name <;> first | rfl | exact absurd rfl hbase | exact absurd h (by decide)

end Grammar.Standard

namespace Reading

def sayAll (place : Place) (words : List String) : Step Unit := words.forM (word place)

variable {place : Place} {reading flushed after : Reading}

theorem sayAll_append {words rest : List String} {between : Reading}
    (hwords : sayAll place words reading = .ok () between)
    (hrest : sayAll place rest between = .ok () after) :
    sayAll place (words ++ rest) reading = .ok () after := by
  rw [sayAll, List.forM_eq_forM, List.forM_append]
  exact (bind_of_ok hwords).trans hrest

theorem sayAll_singleton {text : String} (h : word place text reading = .ok () after) :
    sayAll place [text] reading = .ok () after := by
  rw [sayAll, List.forM_eq_forM, List.forM_cons, bind_of_ok h]
  rfl

/-- The state is the other one, but for an innermost scope that declares no tags and still has to be
closed. -/
inductive Pends (flushed : Reading) : Reading → Prop where
  | none : Pends flushed flushed
  | one {root scope : Scope} {outer : List Scope} {symbols : Symbols} :
    scope.node.signature.tags = [] →
    closeInnermost ⟨.standard, root, scope :: outer, symbols⟩ = .ok () flushed →
    Pends flushed ⟨.standard, root, scope :: outer, symbols⟩

theorem findIdx?_declares {root : Scope} {opened : List Scope} {key : Keyword}
    (h : ((opened.headD root).node.signature.tag? key).isSome) :
    (opened ++ [root]).findIdx? (·.declares key) = some 0 := by
  cases opened with
  | nil =>
    have hroot : root.declares key := h
    simp [List.findIdx?_cons, hroot]
  | cons scope opened =>
    have hscope : scope.declares key := h
    simp [List.findIdx?_cons, hscope]

theorem Pends.enter_eq (pends : Pends flushed reading) (hgrammar : flushed.grammar = .standard)
    {key : Keyword} (hdeclares : ((flushed.opened.headD flushed.root).node.signature.tag? key).isSome)
    (place : Place) : enter key.spelling place reading = openTag key place flushed := by
  cases pends with
  | none =>
    have hinside : reading.inside? key = some 0 := findIdx?_declares hdeclares
    rw [Reading.enter_eq hgrammar, Keyword.ofSpelling?_spelling, Option.bind_some, hinside]
    rfl
  | @one root scope outer symbols htags hclose =>
    have hsame : flushed.signatures =
        (⟨.standard, root, scope :: outer, symbols⟩ : Reading).signatures.tail :=
      signatures_of_closeInnermost rfl hclose
    have hhead : (outer.headD root).node.signature =
        (flushed.opened.headD flushed.root).node.signature := by
      rw [headD_signature flushed, hsame]
      cases outer <;> rfl
    have hscope : scope.declares key = false := by
      simp [Scope.declares, Signature.tag?, htags]
    have hinside : (⟨.standard, root, scope :: outer, symbols⟩ : Reading).inside? key = some 1 := by
      rw [← hhead] at hdeclares
      rw [inside?, frames]
      simp [List.findIdx?_cons, hscope, findIdx?_declares hdeclares]
    rw [Reading.enter_eq rfl, Keyword.ofSpelling?_spelling, Option.bind_some, hinside]
    have hclosed : closeScopes 1 ⟨.standard, root, scope :: outer, symbols⟩ = .ok () flushed :=
      bind_of_ok hclose
    exact bind_of_ok hclosed

theorem sayAll_data {grammar : Grammar} {root scope : Scope} {outer : List Scope} {symbols : Symbols}
    {words : List String}
    (hwords : ∀ word ∈ words, IsWord word) :
    sayAll place words ⟨grammar, root, scope :: outer, symbols⟩ =
      .ok () ⟨grammar, root,
        { scope with node := { scope.node with words := scope.node.words ++ words } } :: outer,
        symbols⟩ := by
  induction words generalizing scope with
  | nil =>
    simp
    rfl
  | cons text words ih =>
    rw [List.forall_mem_cons] at hwords
    have hdata : IsData text := hwords.1.2.2
    have hkeep : word place text ⟨grammar, root, scope :: outer, symbols⟩ =
        .ok () ⟨grammar, root, { scope with node := scope.node.addWord text } :: outer, symbols⟩ := by
      rw [word_data hdata]
      rfl
    refine sayAll_append (sayAll_singleton hkeep) ((ih hwords.2).trans ?_)
    simp [Node.addWord]

section drafts

variable {root : Scope} {opened : List Scope} {symbols : Symbols} {draft : Draft} {parent : SchemaName}

def scopeOf (place : Place) (draft : Draft) (inner : List Draft) : Scope :=
  Draft.scope place draft.tag draft.schema draft.words (inner.map (node place))

theorem sayAll_open (place : Place) (fits : draft.Fits)
    (hparent : (opened.headD root).node.signature = Standard.signature parent)
    (hdeclared : draft.DeclaredIn parent)
    (pends : Pends ⟨.standard, root, opened, symbols⟩ reading) :
    sayAll place (("@" ++ draft.tag.spelling) :: draft.words) reading =
      .ok () ⟨.standard, root, scopeOf place draft [] :: opened, symbols⟩ := by
  obtain ⟨tag, hmem, hkey, hschema⟩ := hdeclared
  have htag : (opened.headD root).node.signature.tag? draft.tag = some tag := by
    rw [hparent, ← hkey]
    exact Standard.tag?_of_mem parent tag hmem
  have hopen : word place ("@" ++ draft.tag.spelling) reading =
      .ok () ⟨.standard, root, .start draft.tag (Standard.schema draft.schema) place :: opened,
        symbols⟩ := by
    rw [word_tag, pends.enter_eq rfl (by rw [htag]; rfl)]
    simp only [openTag, Scope.child, htag, hschema, find?_standard]
  exact sayAll_append (sayAll_singleton hopen) (sayAll_data fits.data)

def Rebuilds (place : Place) (draft : Draft) : Prop :=
  ∀ (outer : Draft) (before rest : List Draft) (root : Scope) (opened : List Scope)
    (symbols : Symbols) (reading : Reading),
    outer.Fits → outer.schema ≠ .base → outer.inner = before ++ draft :: rest →
    Pends ⟨.standard, root, scopeOf place outer before :: opened, symbols⟩ reading →
    ∃ after, sayAll place draft.spelled reading = .ok () after ∧
      Pends ⟨.standard, root, scopeOf place outer (before ++ [draft]) :: opened, symbols⟩ after

theorem sayAll_siblings {outer : Draft} (fits : outer.Fits) (hbase : outer.schema ≠ .base)
    (rest : List Draft) (hrest : ∀ draft ∈ rest, Rebuilds place draft) :
    ∀ before reading, outer.inner = before ++ rest →
      Pends ⟨.standard, root, scopeOf place outer before :: opened, symbols⟩ reading →
      ∃ after, sayAll place (rest.flatMap spelled) reading = .ok () after ∧
        Pends ⟨.standard, root, scopeOf place outer (before ++ rest) :: opened, symbols⟩ after := by
  induction rest with
  | nil =>
    intro before reading _ pends
    exact ⟨reading, rfl, by simpa using pends⟩
  | cons draft rest ih =>
    intro before reading hinner pends
    rw [List.forall_mem_cons] at hrest
    obtain ⟨between, hfirst, hbetween⟩ :=
      hrest.1 outer before rest root opened symbols reading fits hbase hinner pends
    obtain ⟨after, hothers, hafter⟩ :=
      ih hrest.2 (before ++ [draft]) between (by simpa using hinner) hbetween
    refine ⟨after, ?_, by simpa using hafter⟩
    rw [List.flatMap_cons]
    exact sayAll_append hfirst hothers

theorem sayAll_body (fits : draft.Fits) (hbase : draft.schema ≠ .base)
    (hrebuilds : ∀ child ∈ draft.inner, Rebuilds place child)
    (hparent : (opened.headD root).node.signature = Standard.signature parent)
    (hdeclared : draft.DeclaredIn parent)
    (pends : Pends ⟨.standard, root, opened, symbols⟩ reading) :
    ∃ after, sayAll place (("@" ++ draft.tag.spelling) :: draft.words ++ draft.inner.flatMap spelled)
        reading = .ok () after ∧
      Pends ⟨.standard, root, scopeOf place draft draft.inner :: opened, symbols⟩ after := by
  have hopen := sayAll_open place fits hparent hdeclared pends
  obtain ⟨after, hinner, hafter⟩ := sayAll_siblings fits hbase draft.inner hrebuilds [] _ rfl .none
  exact ⟨after, sayAll_append hopen hinner, hafter⟩

theorem sayAll_end {inner : List Draft} (hend : (draft.signature.tag? .endWord).isSome)
    (pends : Pends ⟨.standard, root, scopeOf place draft inner :: opened, symbols⟩ reading)
    (hclose : closeInnermost ⟨.standard, root, scopeOf place draft inner :: opened, symbols⟩ =
      .ok () after) :
    sayAll place ["@" ++ Keyword.endWord.spelling] reading = .ok () after := by
  obtain ⟨tag, htag⟩ := Option.isSome_iff_exists.mp hend
  obtain ⟨hmem, hkey⟩ := Standard.mem_of_tag? htag
  have hfound : (scopeOf place draft inner).node.signature.tag? .endWord = some tag := htag
  have hcloses := Standard.endWord_closes _ tag hmem hkey
  refine sayAll_singleton ?_
  rw [word_tag, pends.enter_eq rfl hend]
  simp only [openTag, List.headD_cons, Scope.child, hfound, hcloses]
  exact hclose

theorem closeInnermost_scopeOf {outer : Draft} {before rest : List Draft} (fits : draft.Fits)
    (houter : outer.Fits) (hbase : outer.schema ≠ .base)
    (hinner : outer.inner = before ++ draft :: rest) :
    closeInnermost ⟨.standard, root,
        scopeOf place draft draft.inner :: scopeOf place outer before :: opened, symbols⟩ =
      .ok () ⟨.standard, root, scopeOf place outer (before ++ [draft]) :: opened, symbols⟩ := by
  obtain ⟨tag, hmem, -, hschema⟩ := houter.declared draft (by simp [hinner])
  have hspace : draft.schema.space? = none := by
    by_contra hsome
    exact hbase (Standard.registers_base _ tag hmem draft.schema hschema
      (Option.isSome_iff_ne_none.mpr hsome))
  have hclose : (scopeOf place draft draft.inner).close .standard symbols = _ :=
    close_eq_ok (fits.complete place) hspace
  rw [← node_eq] at hclose
  have hadopt : (scopeOf place outer before).node.adopt (draft.node place) = _ :=
    houter.adopt_eq_ok hinner fits place place
  simp only [closeInnermost, hclose, adopt, hadopt]
  rfl

theorem rebuilds {draft : Draft} (legal : draft.Legal) : Rebuilds place draft := by
  induction draft using Draft.induct with
  | inner draft ih =>
    obtain ⟨fits, hlegal⟩ := legal_iff.mp legal
    intro outer before rest root opened symbols reading houter hbase hinner pends
    have hclose : closeInnermost ⟨.standard, root,
        scopeOf place draft draft.inner :: scopeOf place outer before :: opened, symbols⟩ = _ :=
      closeInnermost_scopeOf fits houter hbase hinner
    have hdeclared := houter.declared draft (by simp [hinner])
    have hschema : draft.schema ≠ .base := by
      obtain ⟨tag, hmem, -, htag⟩ := hdeclared
      rintro hsame
      exact Standard.schema_ne_base _ tag hmem (htag.trans (by rw [hsame]))
    have hparent : ((scopeOf place outer before :: opened).headD root).node.signature =
        Standard.signature outer.schema := rfl
    rw [spelled_eq]
    cases hend : (draft.signature.tag? .endWord).isSome with
    | true =>
      obtain ⟨between, hbody, hbetween⟩ := sayAll_body fits hschema
        (fun child hchild => ih child hchild (hlegal child hchild)) hparent hdeclared pends
      exact ⟨_, sayAll_append hbody (sayAll_end hend hbetween hclose), .none⟩
    | false =>
      -- The scope stays open, and has nothing inside.
      have htags : draft.signature.tags = [] := Standard.tags_of_endless _ hschema hend
      rw [fits.inner_eq_nil htags] at hclose ⊢
      refine ⟨_, ?_, .one htags hclose⟩
      simpa using sayAll_open place fits hparent hdeclared pends

end drafts

section corpus

variable {drafts before rest : List Draft} {draft : Draft} {symbols : Symbols}

def rootOf (place : Place) (drafts : List Draft) : Scope :=
  Draft.scope ⟨"", 0⟩ .base .base [] (drafts.map (node place))

theorem fits_base (consistent : Consistent drafts) : (⟨.base, .base, [], drafts⟩ : Draft).Fits := by
  have hproperties : (Standard.signature .base).properties = [] := rfl
  have htags := Standard.base_free
  refine ⟨by simp, ?_, ?_, consistent.declared, fun tag htag hmulti => ?_, fun tag htag hrequired => ?_,
    fun tag htag key hkey => ?_, fun tag htag allowed hallowed => ?_, by simp, by simp⟩
  · simp [Draft.signature, hproperties, deal]
  · simp [Draft.spare, Draft.signature, hproperties, leftover]
  · simp [(htags tag htag).1] at hmulti
  · simp [(htags tag htag).2.1] at hrequired
  · simp [(htags tag htag).2.2.1] at hkey
  · simp [(htags tag htag).2.2.2] at hallowed

theorem registered_name {space : Namespace} (fits : draft.Fits)
    (hspace : draft.schema.space? = some space) : ∃ full, draft.value? .name = some (.text full) := by
  have hname : Standard.name ∈ draft.signature.properties := Standard.name_property _ (by simp [hspace])
  obtain ⟨value, hvalue⟩ := Option.isSome_iff_exists.mp (dealt_isSome fits.suited hname rfl)
  obtain ⟨share, -, hshare⟩ := dealt_of_mem (Standard.properties_nodup draft.schema) hname draft.words
  have hread := Property.read_eq_ok (hshare.symm.trans hvalue)
  obtain ⟨full, rfl⟩ := (Property.admits_of_read hread).text rfl
  exact ⟨full, hvalue⟩

theorem name_free (place : Place) {space : Namespace} (consistent : Consistent (before ++ draft :: rest))
    (htag : draft.tag = space.tag) {full : String} (hfull : draft.value? .name = some (.text full)) :
    ∀ symbol ∈ (rootOf place before).node.declared space, symbol.name ≠ full := by
  rintro symbol hsymbol rfl
  obtain ⟨node, hnode, hname, -⟩ := Node.mem_declared.mp hsymbol
  have hsibling : node ∈ (before.map (Draft.node place)).filter (·.tag = space.tag) := by
    simpa [rootOf, Draft.scope, gathered, Node.childrenOf, frame] using hnode
  rw [filter_map_node] at hsibling
  obtain ⟨sibling, hmem, rfl⟩ := List.mem_map.mp hsibling
  obtain ⟨hbefore, hsame⟩ := List.mem_filter.mp hmem
  rw [Node.text?, values_node, held_eq _ (by simp)] at hname
  obtain ⟨value, hvalue, htext⟩ := Option.bind_eq_some_iff.mp hname
  have hdistinct :=
    (List.pairwise_append.mp consistent.distinct).2.2 sibling hbefore draft List.mem_cons_self
  refine hdistinct ?_ ?_
  · rw [htag]
    simpa using hsame
  · rw [hvalue, hfull, Datum.eq_text htext]

theorem rootOf_including (child : Draft) :
    (rootOf place before).node.attach (child.node place) = (rootOf place (before ++ [child])).node := by
  rw [rootOf, Draft.scope, gathered_attach, rootOf, Draft.scope, List.map_append, List.map_singleton]

theorem closeInnermost_rootOf (consistent : Consistent (before ++ draft :: rest))
    (lists : symbols.Lists (rootOf place before).node.declared) :
    ∃ registered, closeInnermost
        ⟨.standard, rootOf place before, [scopeOf place draft draft.inner], symbols⟩ =
        .ok () ⟨.standard, rootOf place (before ++ [draft]), [], registered⟩ ∧
      registered.Lists (rootOf place (before ++ [draft])).node.declared := by
  have hmem : draft ∈ before ++ draft :: rest := by
    simp
  have fits := (legal_iff.mp (consistent.legal draft hmem)).1
  obtain ⟨tag, htag, hkey, hschema⟩ := consistent.declared draft hmem
  obtain ⟨hspace, -⟩ := Standard.base_registers tag htag
  rw [hschema, Option.bind_some, hkey] at hspace
  obtain ⟨space, hspace, hsame⟩ := Option.map_eq_some_iff.mp hspace
  obtain ⟨full, hfull⟩ := registered_name fits hspace
  have hfree := name_free place consistent hsame.symm hfull
  obtain ⟨registered, hregister, hlists⟩ := lists.register_new hfree place
  have hheld : held draft.schema draft.words .name = some (.text full) := by
    rw [held_eq _ (by simp), hfull]
  have hclose : (scopeOf place draft draft.inner).close .standard symbols = _ :=
    close_register_eq_ok (fits.complete place) hspace hheld hregister
  rw [← node_eq] at hclose
  have hadopt : (rootOf place before).node.adopt (draft.node place) = _ :=
    (fits_base consistent).adopt_eq_ok rfl fits ⟨"", 0⟩ place
  refine ⟨registered, ?_, ?_⟩
  · simp only [closeInnermost, hclose, adopt, hadopt]
    rfl
  · have hname : (draft.node place).text? .name = some full := by
      rw [Node.text?, values_node, hheld]
      rfl
    have hplace : (draft.node place).place = place := by
      rw [node_eq]
      rfl
    rw [← rootOf_including, Node.declared_attach ((tag_node place draft).trans hsame.symm) hname, hplace]
    exact hlists

theorem sayAll_top (consistent : Consistent (before ++ draft :: rest))
    (lists : symbols.Lists (rootOf place before).node.declared) :
    ∃ registered, sayAll place draft.spelled ⟨.standard, rootOf place before, [], symbols⟩ =
        .ok () ⟨.standard, rootOf place (before ++ [draft]), [], registered⟩ ∧
      registered.Lists (rootOf place (before ++ [draft])).node.declared := by
  obtain ⟨registered, hclose, hlists⟩ := closeInnermost_rootOf consistent lists
  have hmem : draft ∈ before ++ draft :: rest := by
    simp
  obtain ⟨fits, hlegal⟩ := legal_iff.mp (consistent.legal draft hmem)
  have hdeclared : draft.DeclaredIn .base := consistent.declared draft hmem
  obtain ⟨hbase, hend⟩ : draft.schema ≠ .base ∧ (draft.signature.tag? .endWord).isSome := by
    obtain ⟨tag, htag, -, hschema⟩ := hdeclared
    exact Standard.base_ended tag htag draft.schema hschema
  have hrebuilds : ∀ child ∈ draft.inner, Rebuilds place child :=
    fun child hchild => rebuilds (hlegal child hchild)
  have pends : Pends ⟨.standard, rootOf place before, [], symbols⟩ _ := .none
  have hparent : (([] : List Scope).headD (rootOf place before)).node.signature =
      Standard.signature .base := rfl
  obtain ⟨between, hbody, hbetween⟩ := sayAll_body fits hbase hrebuilds hparent hdeclared pends
  refine ⟨registered, ?_, hlists⟩
  rw [spelled_eq, if_pos hend]
  exact sayAll_append hbody (sayAll_end hend hbetween hclose)

theorem sayAll_corpus (rest : List Draft) : ∀ before symbols, Consistent (before ++ rest) →
    symbols.Lists (rootOf place before).node.declared →
    ∃ registered, sayAll place (rest.flatMap spelled) ⟨.standard, rootOf place before, [], symbols⟩ =
      .ok () ⟨.standard, rootOf place (before ++ rest), [], registered⟩ := by
  induction rest with
  | nil =>
    intro before symbols _ _
    exact ⟨symbols, by rw [List.append_nil]; rfl⟩
  | cons draft rest ih =>
    intro before symbols consistent lists
    obtain ⟨between, hfirst, hlists⟩ := sayAll_top consistent lists
    obtain ⟨registered, hothers⟩ := ih (before ++ [draft]) between (by simpa using consistent) hlists
    refine ⟨registered, ?_⟩
    rw [List.flatMap_cons, List.append_cons]
    exact sayAll_append hfirst hothers

/-- Reading the spelling of drafts rebuilds their nodes, and nothing else. -/
theorem file_text (name : String) (consistent : Consistent drafts) :
    ∃ reading, file name (text drafts) standard = .ok () reading ∧ reading.depth = 0 ∧
      reading.root.node =
        { standard.root.node with children := Node.arrange (nodes ⟨name, 1⟩ drafts) } := by
  obtain ⟨registered, hrun⟩ : ∃ registered, sayAll ⟨name, 1⟩ (drafts.flatMap spelled) standard =
      .ok () ⟨.standard, rootOf ⟨name, 1⟩ drafts, [], registered⟩ :=
    sayAll_corpus drafts [] .empty consistent Symbols.lists_empty
  have hwords : words name (Text.numberedWords (text drafts)) standard =
      .ok () ⟨.standard, rootOf ⟨name, 1⟩ drafts, [], registered⟩ := by
    rw [words, numberedWords_text consistent.legal, List.forM_eq_forM, List.forM_map,
      spelledAll_eq_flatMap]
    exact hrun
  refine ⟨_, bind_of_ok hwords, rfl, ?_⟩
  rw [nodes_eq_map]
  rfl

end corpus

/-- Drafts of every top-level kind. Of the scopes without an end mark, some are followed by a tag of
the scope around them, and some by the end mark of that scope. -/
def shapes : List Draft :=
  [⟨.classWord, .classSchema, ["geo.Circle", "A", "round", "shape"],
      [⟨.inherits, .string, ["Shape"], []⟩,
        ⟨.field, .field, ["real", "radius"],
          [⟨.see, .reference, ["enum", "Unit"], []⟩, ⟨.caveat, .string, ["Never", "negative"], []⟩,
            ⟨.see, .reference, ["class", "Shape"], []⟩]⟩]⟩,
    ⟨.classWord, .classSchema, ["Shape"], [⟨.implement, .boolean, ["False"], []⟩]⟩,
    ⟨.enumeration, .enumeration, ["Unit"],
      [⟨.constant, .constant, ["metre"], []⟩, ⟨.constant, .constant, ["foot", "0x10"], []⟩,
        ⟨.constant, .constant, ["inch"], []⟩]⟩,
    ⟨.glossary, .glossary, ["Terms"], [⟨.term, .term, ["radius"], []⟩]⟩,
    ⟨.protocol, .protocol, ["Drawing"],
      [⟨.method, .method, ["draw"],
        [⟨.origin, .string, ["client"], []⟩, ⟨.request, .string, ["Circle"], []⟩]⟩]⟩]

theorem file_text_shapes :
    text shapes = "@class geo.Circle A round shape @inherits Shape @field real radius " ++
        "@see enum Unit @caveat Never negative @see class Shape @end @end " ++
        "@class Shape @implement False @end @enumeration Unit @constant metre @end " ++
        "@constant foot 0x10 @end @constant inch @end @end @glossary Terms @term radius @end @end " ++
        "@protocol Drawing @method draw @origin client @request Circle @end @end" ∧
      Consistent shapes ∧
      ∃ reading, file "shapes" (text shapes) standard = .ok () reading ∧ reading.depth = 0 ∧
        reading.root.node =
          { standard.root.node with children := Node.arrange (nodes ⟨"shapes", 1⟩ shapes) } := by
  have consistent : Consistent shapes := by decide +kernel
  exact ⟨by decide +kernel, consistent, file_text "shapes" consistent⟩

end Reading
end TagSchema
