import TagSchema.Proofs.Slicing

/-! What becomes of the words that no property takes: they are handed on to a child of the implicit tag,
which is closed like any other node. -/
namespace TagSchema
open Grammar Closing

namespace Grammar

/-- Every schema of the grammar is the one that the language has under its name. -/
def OfLanguage (grammar : Grammar) : Prop :=
  ∀ schema ∈ grammar.schemas, schema = Standard.schema schema.name

theorem ofLanguage_empty : empty.OfLanguage :=
  nofun

theorem ofLanguage_standard : standard.OfLanguage := by
  intro schema hschema
  obtain ⟨name, -, rfl⟩ := List.mem_map.mp hschema
  rw [Standard.name_schema]

namespace OfLanguage

variable {grammar : Grammar}

theorem add (hgrammar : grammar.OfLanguage) (name : SchemaName) :
    (grammar.add Standard.schema name).OfLanguage := by
  unfold Grammar.add
  split
  · exact hgrammar
  · refine List.forall_mem_append.mpr ⟨hgrammar, List.forall_mem_singleton.mpr ?_⟩
    rw [Standard.name_schema]

theorem defineStandard (hgrammar : grammar.OfLanguage) (name : SchemaName) :
    (grammar.defineStandard name).OfLanguage := by
  unfold Grammar.defineStandard define
  refine List.foldlRecOn (motive := OfLanguage) _ _ (hgrammar.add name) fun between hbetween _ _ => ?_
  unfold addOpened
  exact List.foldlRecOn (motive := OfLanguage) _ _ hbetween fun _ hlater inner _ => hlater.add inner

theorem eq_schema (hgrammar : grammar.OfLanguage) {name : SchemaName} {schema : Schema}
    (hfound : grammar.find? name = some schema) : schema = Standard.schema name := by
  have hname : schema.name = name := by simpa using List.find?_some hfound
  rw [hgrammar schema (List.mem_of_find?_eq_some hfound), hname]

end OfLanguage

/-- The grammars that there are: schemas are only ever defined by their names. -/
inductive Definable : Grammar → Prop where
  | empty : Definable .empty
  | standard : Definable .standard
  | define {grammar : Grammar} (name : SchemaName) (hgrammar : Definable grammar) :
    Definable (grammar.defineStandard name)

theorem Definable.ofLanguage {grammar : Grammar} (hgrammar : grammar.Definable) : grammar.OfLanguage := by
  induction hgrammar with
  | empty => exact ofLanguage_empty
  | standard => exact ofLanguage_standard
  | define name _ ih => exact ih.defineStandard name

end Grammar

namespace Closing

variable {grammar : Grammar} {schema : Schema} {node : Node}

section depth

variable {fill other : Tag → List String → Closing Unit}

theorem fillImplicit_congr (hsignature : node.signature = schema.toSignature)
    (h : ∀ tag ∈ schema.tags, tag.implicit → fill tag = other tag) (words : List String)
    (symbols : Symbols) :
    fillImplicit fill words (node, symbols) = fillImplicit other words (node, symbols) := by
  rcases fillImplicit_cases node words symbols with hnothing | ⟨fault, hfails⟩ | ⟨tag, htag, himplicit, hfills⟩
  · rw [hnothing, hnothing]
  · rw [hfails, hfails]
  · rw [hsignature] at htag
    rw [hfills, hfills, h tag htag himplicit]

theorem concluding_congr (h : ∀ tag ∈ schema.tags, tag.default.isSome → fill tag = other tag) :
    concluding fill schema = concluding other schema := by
  have hdefaults : ∀ tags ⊆ schema.tags, tags.forM (fillDefault fill) = tags.forM (fillDefault other) := by
    intro tags htags
    induction tags with
    | nil => rfl
    | cons tag tags ih =>
      have htag : fillDefault fill tag = fillDefault other tag := by
        funext ⟨node, symbols⟩
        rcases fillDefault_cases tag node symbols with hnothing | ⟨words, hdefault, -, hfills⟩
        · rw [hnothing, hnothing]
        · rw [hfills, hfills, h tag (htags List.mem_cons_self) hdefault]
      rw [List.forM_eq_forM, List.forM_cons, List.forM_cons, htag]
      exact congrArg _ (funext fun _ => ih fun _ hmem => htags (List.mem_cons_of_mem _ hmem))
  rw [concluding, concluding, hdefaults _ (List.Subset.refl _)]

/-- Closing looks at how tags are filled only where words or defaults can fill them. -/
theorem run_congr (hsignature : node.signature = schema.toSignature)
    (h : ∀ tag ∈ schema.tags, tag.implicit ∨ tag.default.isSome → fill tag = other tag) (symbols : Symbols) :
    run fill schema (node, symbols) = run other schema (node, symbols) := by
  by_cases hopened : node.phase = .opened
  · have hfollowing {rest : List String} {after : Node} (hafter : after.signature = schema.toSignature)
        (registered : Symbols) :
        following fill schema rest (after, registered) = following other schema rest (after, registered) := by
      rw [following, following, concluding_congr fun tag htag hdefault => h tag htag (.inr hdefault)]
      exact bind_of_eq (fillImplicit_congr hafter (fun tag htag himplicit => h tag htag (.inl himplicit))
        rest registered)
    rw [run_eq_assign _ hopened, run_eq_assign _ hopened]
    obtain ⟨slots, rest, hslices⟩ | ⟨kind, hstuck⟩ := slices_or_stuck schema.properties node.words
    · rw [bind_of_ok (assign_of_slices hslices), bind_of_ok (assign_of_slices hslices)]
      refine hfollowing ?_ symbols
      rw [Node.signature_filling]
      exact hsignature
    · obtain ⟨fault, after, hassign, -⟩ := assign_of_stuck hstuck { node with words := [] } symbols
      rw [bind_of_error hassign, bind_of_error hassign]
  · rw [run_of_not_opened hopened, run_of_not_opened hopened]

theorem fillWith_congr {closeChild closeOther : Schema → Closing Unit} {tag : Tag}
    (h : ∀ inner, tag.schema.bind grammar.find? = some inner → ∀ child symbols,
      child.signature = inner.toSignature → closeChild inner (child, symbols) = closeOther inner (child, symbols)) :
    fillWith closeChild grammar tag = fillWith closeOther grammar tag := by
  funext words
  unfold fillWith
  cases htag : tag.schema with
  | none => rfl
  | some name =>
    cases hfound : grammar.find? name with
    | none => simp only [hfound]
    | some inner =>
      simp only [hfound]
      funext ⟨node, symbols⟩
      have hinner : tag.schema.bind grammar.find? = some inner := by rw [htag, Option.bind_some, hfound]
      rw [h inner hinner]
      rfl

theorem exists_within_eq (grammar : Grammar) (depth : Nat) : ∃ fill, within grammar depth = run fill := by
  cases depth with
  | zero => exact ⟨_, rfl⟩
  | succ depth => exact ⟨_, rfl⟩

theorem within_scalar {name : SchemaName} (hscalar : Standard.isScalar name)
    (hsignature : node.signature = (Standard.schema name).toSignature) (depth enough : Nat) (symbols : Symbols) :
    within grammar depth (Standard.schema name) (node, symbols) =
      within grammar enough (Standard.schema name) (node, symbols) := by
  have hnone : ∀ tag ∈ (Standard.schema name).tags, False := by
    have htags : (Standard.schema name).tags = [] := Standard.tags_scalar name hscalar
    simp [htags]
  obtain ⟨fill, hfill⟩ := exists_within_eq grammar depth
  obtain ⟨other, hother⟩ := exists_within_eq grammar enough
  rw [hfill, hother]
  exact run_congr hsignature (fun tag htag => (hnone tag htag).elim) symbols

/-- In the language only scalars are filled in, so one level of filled-in children is enough. -/
theorem within_succ (hgrammar : grammar.OfLanguage) {name : SchemaName}
    (hsignature : node.signature = (Standard.schema name).toSignature) (depth enough : Nat) (symbols : Symbols) :
    within grammar (depth + 1) (Standard.schema name) (node, symbols) =
      within grammar (enough + 1) (Standard.schema name) (node, symbols) := by
  refine run_congr hsignature (fun tag htag hfilled => ?_) symbols
  refine fillWith_congr fun inner hinner child symbols hchild => ?_
  obtain ⟨⟨scalar, hscalar, hisScalar⟩, -⟩ := Standard.filled_scalar name tag htag hfilled
  rw [hscalar, Option.bind_some] at hinner
  obtain rfl := hgrammar.eq_schema hinner
  exact within_scalar hisScalar hchild depth enough symbols

theorem filler_eq (hgrammar : grammar.OfLanguage) : filler grammar = fillWith (Node.close grammar) grammar := by
  funext tag
  refine fillWith_congr fun inner hinner child symbols hchild => ?_
  obtain ⟨name, -, hfound⟩ := Option.bind_eq_some_iff.mp hinner
  obtain rfl := hgrammar.eq_schema hfound
  exact within_succ hgrammar hchild _ _ symbols

end depth

section tag

variable {key : Keyword}

theorem maintains_tag_fillWith (closeChild : Schema → Closing Unit) (tag : Tag) (words : List String) :
    Maintains (·.tag = key) (fillWith closeChild grammar tag words) := by
  intro node symbols _ after registered hnode hrun
  rcases fillWith_eq_ok hrun with rfl | ⟨inner, closed, -, -, hadopt⟩
  · exact hnode
  · obtain ⟨own, -, taken, -, -, rfl⟩ := Node.exists_attach_of_adopt hadopt
    exact hnode

theorem tag_of_completion {name : SchemaName} {completion : Completion} {after : Node}
    (hcompletion : completion ∈ (Standard.schema name).completions) (h : completion node = .ok () after) :
    after.tag = node.tag := by
  rcases Standard.mem_completions hcompletion with ⟨-, rfl⟩ | ⟨-, rfl⟩
  · unfold Standard.standForItself at h
    split at h
    · cases h
      rfl
    · cases h
      rfl
  · unfold Standard.numberInOrder at h
    split at h
    · cases h
      rfl
    · cases h

theorem maintains_tag_run {fill : Tag → List String → Closing Unit}
    (hfill : ∀ tag words, Maintains (·.tag = key) (fill tag words)) (name : SchemaName) :
    Maintains (·.tag = key) (run fill (Standard.schema name)) := by
  intro node symbols _ after registered hnode hrun
  by_cases hopened : node.phase = .opened
  · rw [run_eq_assign fill hopened] at hrun
    have hassign (words : List String) :
        Maintains (·.tag = key) (assign (Standard.schema name).properties words) :=
      .of_quiet (E := fun _ => True) (quiet_assign_of _ words (fun _ _ _ _ _ htag => htag) fun _ _ _ _ => trivial)
    have hfollowing (rest : List String) :
        Maintains (·.tag = key) (following fill (Standard.schema name) rest) := by
      refine .bind (.fillImplicit hfill rest) fun _ => .concluding (fun tag _ _ => hfill tag) ?_ fun _ htag => htag
      exact fun completion hcompletion node after htag hok => (tag_of_completion hcompletion hok).trans htag
    have hstarted : ({ node with words := [] } : Node).tag = key := hnode
    exact (hassign node.words).bind hfollowing _ _ _ _ _ hstarted hrun
  · rw [run_of_not_opened hopened] at hrun
    cases hrun
    exact hnode

theorem maintains_tag_close (grammar : Grammar) (name : SchemaName) :
    Maintains (·.tag = key) (Node.close grammar (Standard.schema name)) :=
  maintains_tag_run (maintains_tag_fillWith _) name

end tag

end Closing

/-- The bound on how deep filled-in children are nested is never reached: a filled-in child is closed like
its parent. -/
theorem Node.close_eq_run {grammar : Grammar} (hgrammar : grammar.Definable) (schema : Schema) :
    close grammar schema = run (fillWith (close grammar) grammar) schema := by
  rw [← filler_eq hgrammar.ofLanguage]
  rfl

namespace Node

/-- The child that some words make under a tag of the node: a node of the tag's schema that starts with these
words where its parent stands is closed, and its scalar becomes one of the literals that the tag prescribes. Or
the fault on the way there. The last argument is the symbols that this leaves. -/
inductive Spawns (grammar : Grammar) (tag : Tag) (words : List String) (node : Node) (symbols : Symbols) :
    Except Fault Node → Symbols → Prop where
  | undefined {name : SchemaName} (hname : tag.schema = some name) (hfound : grammar.find? name = none) :
    Spawns grammar tag words node symbols (.error (node.fault (.undefinedSchema name))) symbols
  | unclosed {name : SchemaName} {inner : Schema} {fault : Fault} {left : Node} {registered : Symbols}
    (hname : tag.schema = some name) (hfound : grammar.find? name = some inner)
    (hclose : close grammar inner ({ start tag.key inner.toSignature node.place with words }, symbols) =
      .error fault (left, registered)) :
    Spawns grammar tag words node symbols (.error fault) registered
  | illegal {name : SchemaName} {inner : Schema} {fault : Fault} {closed : Node} {registered : Symbols}
    (hname : tag.schema = some name) (hfound : grammar.find? name = some inner)
    (hclose : close grammar inner ({ start tag.key inner.toSignature node.place with words }, symbols) =
      .ok () (closed, registered))
    (hillegal : Illegal tag closed) (hkind : fault.kind = .propertyValue) :
    Spawns grammar tag words node symbols (.error fault) registered
  | closed {name : SchemaName} {inner : Schema} {closed child : Node} {registered : Symbols}
    (hname : tag.schema = some name) (hfound : grammar.find? name = some inner)
    (hclose : close grammar inner ({ start tag.key inner.toSignature node.place with words }, symbols) =
      .ok () (closed, registered))
    (hchild : Canonized tag closed child) :
    Spawns grammar tag words node symbols (.ok child) registered

/-- Closing goes on with the one child that the words make under the tag, or fails with its fault. The child
stays, unless completions take it away. -/
inductive HandsOn (grammar : Grammar) (schema : Schema) (tag : Tag) (words : List String) (node : Node)
    (symbols : Symbols) : EStateM.Result Fault (Node × Symbols) Unit → Prop where
  | refused {fault : Fault} {registered : Symbols}
    (hspawns : Spawns grammar tag words node symbols (.error fault) registered) :
    HandsOn grammar schema tag words node symbols (.error fault (node, registered))
  | taken {child : Node} {registered : Symbols} {result : EStateM.Result Fault (Node × Symbols) Unit}
    (hspawns : Spawns grammar tag words node symbols (.ok child) registered)
    (hsole : (node.attach child).childrenOf tag.key = [child])
    (hresult : concluding (filler grammar) schema (node.attach child, registered) = result)
    (hstays : schema.completions = [] → ∀ closed later, result = .ok () (closed, later) →
      closed.childrenOf tag.key = [child]) :
    HandsOn grammar schema tag words node symbols result

section handing

variable {grammar : Grammar} {schema : Schema} {node child : Node} {tag : Tag} {words : List String}
  {symbols registered : Symbols}

/-- Filling a tag that has no children comes to what the words make under the tag. -/
theorem spawns_cases (hgrammar : grammar.OfLanguage) {name : SchemaName} (hname : tag.schema = some name)
    (htag : node.signature.tag? tag.key = some tag) (hempty : node.childrenOf tag.key = [])
    (words : List String) (symbols : Symbols) :
    (∃ fault registered, Spawns grammar tag words node symbols (.error fault) registered ∧
      filler grammar tag words (node, symbols) = .error fault (node, registered)) ∨
    ∃ child registered, Spawns grammar tag words node symbols (.ok child) registered ∧
      child.tag = tag.key ∧ filler grammar tag words (node, symbols) = .ok () (node.attach child, registered) := by
  rw [filler_eq hgrammar]
  unfold fillWith
  simp only [hname]
  cases hfound : grammar.find? name with
  | none => exact .inl ⟨_, symbols, .undefined hname hfound, rfl⟩
  | some inner =>
    dsimp only
    have hinner := hgrammar.eq_schema hfound
    cases hclose : close grammar inner
      ({ start tag.key inner.toSignature node.place with words }, symbols) with
    | error fault left =>
      obtain ⟨left, registered⟩ := left
      exact .inl ⟨fault, registered, .unclosed hname hfound hclose, rfl⟩
    | ok _ after =>
      obtain ⟨closed, registered⟩ := after
      dsimp only
      have hkey : closed.tag = tag.key := by
        rw [hinner] at hclose
        exact maintains_tag_close grammar name _ _ _ _ _ rfl hclose
      rw [← hkey] at htag hempty
      rcases canonize_cases tag closed with ⟨taken, hok, htaken, -⟩ | ⟨fault, herror, hkind, hillegal⟩
      · have hrival : ∀ key ∈ tag.unique, node.rival? taken key = none := by
          intro key _
          rw [rival?, htaken.tag_eq, hempty]
          cases taken.values key <;> rfl
        refine .inr ⟨taken, registered, .closed hname hfound hclose htaken, htaken.tag_eq.trans hkey, ?_⟩
        rw [adopt_eq_attach htag hok hrival]
      · refine .inl ⟨fault, registered, .illegal hname hfound hclose hillegal hkind, ?_⟩
        simp only [adopt, htag, herror, bind, Except.bind]

theorem maintains_sole (hgrammar : grammar.OfLanguage) (hcompletions : schema.completions = []) :
    Maintains (·.childrenOf tag.key = [child]) (concluding (filler grammar) schema) := by
  -- A child that is there stays, since defaults fill other tags only.
  refine .concluding (fun other hother hopen words => ?_) (by simp [hcompletions]) fun _ hnode => hnode
  have hapart : other.key ≠ tag.key := by
    intro hsame
    obtain ⟨node, hsole, hnone⟩ := hopen
    rw [hsame] at hnone
    cases hsole.symm.trans hnone
  rw [filler_eq hgrammar]
  intro node symbols _ after registered hsole hrun
  rcases fillWith_eq_ok hrun with rfl | ⟨inner, closed, hinner, hclose, hadopt⟩
  · exact hsole
  · obtain ⟨own, -, taken, -, htaken, rfl⟩ := exists_attach_of_adopt hadopt
    obtain ⟨name, -, hfound⟩ := Option.bind_eq_some_iff.mp hinner
    rw [hgrammar.eq_schema hfound] at hclose
    have hkey : closed.tag = other.key := maintains_tag_close grammar name _ _ _ _ _ rfl hclose
    rw [childrenOf_attach, if_neg (by rw [htaken, hkey]; exact hapart.symm), hsole]

theorem handsOn_of_filler (hgrammar : grammar.OfLanguage) (hnodup : schema.keys.Nodup)
    (hsignature : node.signature = schema.toSignature) (htag : tag ∈ schema.tags)
    (hopens : tag.closes = false) (hempty : node.childrenOf tag.key = []) (words : List String)
    (symbols : Symbols) :
    HandsOn grammar schema tag words node symbols
      ((filler grammar tag words >>= fun _ => concluding (filler grammar) schema) (node, symbols)) := by
  obtain ⟨name, hname⟩ : ∃ name, tag.schema = some name := by
    simpa [Tag.closes, Option.isSome_iff_exists] using hopens
  have hfound : node.signature.tag? tag.key = some tag := by
    rw [hsignature]
    exact schema.tag?_of_mem hnodup htag
  rcases spawns_cases hgrammar hname hfound hempty words symbols with
    ⟨fault, registered, hspawns, hfill⟩ | ⟨child, registered, hspawns, hkey, hfill⟩
  · rw [bind_of_error hfill]
    exact .refused hspawns
  · have hsole : (node.attach child).childrenOf tag.key = [child] := by
      rw [childrenOf_attach, if_pos hkey.symm, hempty, List.nil_append]
    rw [bind_of_ok hfill]
    refine .taken hspawns hsole rfl fun hcompletions closed later hclosed => ?_
    exact maintains_sole hgrammar hcompletions _ _ _ _ _ hsole hclosed

end handing

/-- Closing a node deals out its words. It fails for their number exactly where these are too few or too
many; else every word goes, in order, to one property or to the child of the implicit tag, and the values are
those that the words make. -/
theorem close_slices {name : SchemaName} {declarations : List Declaration} {schema : Schema}
    (hschema : Schema.ofDeclarations name declarations = .ok schema) {node : Node}
    (hsignature : node.signature = schema.toSignature) (hopened : node.phase = .opened)
    (himplicit : ∀ tag, schema.implicitTag? = some tag → tag.closes = false ∧ node.childrenOf tag.key = [])
    (grammar : Grammar) (symbols : Symbols) :
    ((∃ fault after, slicing schema (node, symbols) = .error fault after ∧ fault.kind = .propertyArity) ↔
      Misfit schema node.words) ∧
    (∀ fault after, slicing schema (node, symbols) = .error fault after →
      close grammar schema (node, symbols) = .error fault after ∧
        (fault.kind = .propertyArity ∨
          fault.kind = .propertyValue ∧ Stuck schema.properties node.words .propertyValue)) ∧
    ∀ rest after, slicing schema (node, symbols) = .ok rest after →
      ∃ slots filled, after = (filled, symbols) ∧ Sliced schema node filled slots rest ∧
        (rest = [] → close grammar schema (node, symbols) =
          concluding (filler grammar) schema (filled, symbols)) ∧
        (rest ≠ [] → ∃ tag, schema.implicitTag? = some tag ∧
          (grammar.Definable →
            HandsOn grammar schema tag rest filled symbols (close grammar schema (node, symbols)))) ∧
        (schema.completions = [] → ∀ closed registered,
          close grammar schema (node, symbols) = .ok () (closed, registered) →
            ∀ property ∈ schema.properties, closed.values property.key = filled.values property.key) := by
  refine ⟨⟨?_, slicing_of_misfit⟩, ?_, ?_⟩
  · rintro ⟨fault, after, hslicing, hkind⟩
    obtain ⟨slots, rest, -, -, hdealt⟩ | ⟨found, lost, hfailed, ⟨-, hmisfit⟩ | ⟨hvalue, -⟩⟩ :=
      slicing_cases schema node symbols
    · cases hdealt.symm.trans hslicing
    · exact hmisfit
    · cases hfailed.symm.trans hslicing
      cases hvalue.symm.trans hkind
  · intro fault after hslicing
    have hclose : close grammar schema (node, symbols) = _ :=
      run_eq_slicing (filler grammar) hsignature hopened symbols
    refine ⟨by rw [hclose, bind_of_error hslicing], ?_⟩
    obtain ⟨slots, rest, -, -, hdealt⟩ | ⟨found, lost, hfailed, hwhy⟩ := slicing_cases schema node symbols
    · cases hdealt.symm.trans hslicing
    · cases hfailed.symm.trans hslicing
      exact hwhy.imp_left And.left
  · intro rest after hslicing
    obtain ⟨slots, left, hslices, hleft, hdealt⟩ | ⟨found, lost, hfailed, -⟩ :=
      slicing_cases schema node symbols
    · cases hdealt.symm.trans hslicing
      have hnodup := Schema.keys_nodup hschema
      have hgoes : rest ≠ [] → ∃ tag, schema.implicitTag? = some tag ∧ node.childrenOf tag.key = [] := by
        intro hrest
        obtain ⟨tag, htag⟩ := Option.isSome_iff_exists.mp (hleft.resolve_left hrest)
        exact ⟨tag, htag, (himplicit tag htag).2⟩
      refine ⟨slots, _, rfl, sliced_filling hnodup hslices, ?_, fun hrest => ?_,
        fun hcompletions closed registered =>
          values_of_close hnodup hsignature hopened hcompletions hslices hgoes⟩
      · rintro rfl
        exact close_of_slices_nil hopened hslices grammar symbols
      · obtain ⟨tag, htag, hempty⟩ := hgoes hrest
        have hmem : tag ∈ schema.tags := List.mem_of_find?_eq_some htag
        have hfilled : (({ node with words := [] } : Node).filling slots).signature = schema.toSignature := by
          rw [signature_filling]
          exact hsignature
        have hnone := childrenOf_filling_of_tag hnodup hslices hmem hempty
        refine ⟨tag, htag, fun hgrammar => ?_⟩
        rw [close_of_slices hnodup hsignature hopened hslices hrest htag hempty]
        exact handsOn_of_filler hgrammar.ofLanguage hnodup hfilled hmem (himplicit tag htag).1 hnone rest symbols
    · cases hfailed.symm.trans hslicing

/-- Here the last two of five words are for the implicit tag. -/
theorem close_slices_describing :
    let schema : Schema :=
      { name := .field, properties := [.fixed .type 1, (Property.fixed .name 2).optional],
        tags := [Standard.describing], checks := [.requiredProperty .type, .singularTag .description] }
    Schema.ofDeclarations .field [.property (.fixed .type 1), .property (Property.fixed .name 2).optional,
        .tag Standard.describing] = .ok schema ∧
      let node := { start .field schema.toSignature ⟨"a.talk", 1⟩ with
        words := ["uint8", "a", "b", "some", "text"] }
      ∃ filled child registered closed later,
        filled.values .type = some (.text "uint8") ∧ filled.values .name = some (.text "a b") ∧
        Spawns .standard Standard.describing ["some", "text"] filled .empty (.ok child) registered ∧
        child.values .value = some (.text "some text") ∧
        close .standard schema (node, .empty) = .ok () (closed, later) ∧
        closed.childrenOf .description = [child] := by
  intro schema
  have hschema : Schema.ofDeclarations .field [.property (.fixed .type 1),
      .property (Property.fixed .name 2).optional, .tag Standard.describing] = .ok schema := rfl
  refine ⟨hschema, ?_⟩
  intro node
  have himplicit : ∀ tag, schema.implicitTag? = some tag →
      tag.closes = false ∧ node.childrenOf tag.key = [] := by
    rintro tag ⟨⟩
    exact ⟨rfl, rfl⟩
  obtain ⟨closed, later, hclose, hvalues⟩ : ∃ closed later,
      close .standard schema (node, .empty) = .ok () (closed, later) ∧
        (closed.childrenOf .description).map (·.values .value) = [some (.text "some text")] :=
    ⟨_, _, rfl, rfl⟩
  obtain ⟨-, -, hdealt⟩ := close_slices hschema rfl rfl himplicit .standard .empty
  obtain ⟨slots, filled, hfilled, -, -, hleft, -⟩ := hdealt ["some", "text"] _ rfl
  obtain ⟨tag, htag, hhands⟩ := hleft (List.cons_ne_nil _ _)
  cases hfilled
  cases htag
  have htaken := hhands .standard
  rw [hclose] at htaken
  cases htaken with
  | @taken child registered _ hspawns _ _ hstays =>
    have hstaying : closed.childrenOf .description = [child] := hstays rfl closed later rfl
    rw [hstaying] at hvalues
    exact ⟨_, child, registered, closed, later, rfl, rfl, hspawns, List.singleton_inj.mp hvalues, hclose,
      hstaying⟩

end Node
end TagSchema
