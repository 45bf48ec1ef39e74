import TagSchema.Proofs.Nesting

/-! What holds in every state that a reading of the language can come into: each scope was opened in
the one around it, every closed node conforms to its schema, and the symbols are those of the nodes
in the root. Each step keeps this, also one that fails. -/
namespace TagSchema
open Grammar Node

def Node.symbol? (node : Node) : Option Symbol :=
  (node.text? .name).map (⟨·, node.place⟩)

def Node.declared (root : Node) (space : Namespace) : List Symbol :=
  (root.childrenOf space.tag).filterMap (·.symbol?)

theorem Node.declared_attach {node : Node} {space : Namespace} {full : String}
    (htag : node.tag = space.tag) (hname : node.text? .name = some full) (root : Node) :
    (root.attach node).declared = fun other =>
      if other = space then root.declared other ++ [⟨full, node.place⟩] else root.declared other := by
  funext other
  unfold declared
  rw [childrenOf_attach, htag]
  by_cases hother : other = space
  · simp [hother, symbol?, hname]
  · have hne : other.tag ≠ space.tag := fun h => hother (Namespace.tag_injective h)
    rw [if_neg hother, if_neg hne]

theorem Node.mem_declared {root : Node} {space : Namespace} {symbol : Symbol} :
    symbol ∈ root.declared space ↔ ∃ node ∈ root.childrenOf space.tag,
      node.text? .name = some symbol.name ∧ node.place = symbol.place := by
  unfold declared symbol?
  rw [List.mem_filterMap]
  refine exists_congr fun node => and_congr_right fun _ => ?_
  constructor
  · intro h
    obtain ⟨name, hname, rfl⟩ := Option.map_eq_some_iff.mp h
    exact ⟨hname, rfl⟩
  · rintro ⟨hname, hplace⟩
    rw [hname, hplace]
    rfl

namespace Reading

def Stacked (root : Scope) : List Scope → Prop
  | [] => True
  | scope :: outer => scope.OpenedIn (outer.headD root) ∧ Stacked root outer

structure Sound (reading : Reading) : Prop where
  grammar : reading.grammar = .standard
  root : reading.root.Rooted
  stacked : Stacked reading.root reading.opened
  symbols : reading.symbols.Lists reading.root.node.declared
  distinct : ∀ space, ((reading.root.node.declared space).map (·.name)).Nodup

theorem sound_standard : standard.Sound where
  grammar := rfl
  root := ⟨⟨rfl, rfl, gathering_start .base .base ⟨"", 0⟩ []⟩, rfl, rfl, rfl⟩
  stacked := trivial
  symbols := Symbols.lists_empty
  distinct := fun _ => .nil

theorem Stacked.open_head {root : Scope} {opened : List Scope} (hroot : root.Open .base)
    (stacked : Stacked root opened) : ∃ name, (opened.headD root).Open name := by
  cases opened with
  | nil => exact ⟨.base, hroot⟩
  | cons scope outer =>
    obtain ⟨⟨_, name, _, _, hopen⟩, _⟩ := stacked
    exact ⟨name, hopen⟩

theorem Stacked.open_ne_base {root scope : Scope} {outer : List Scope} (hroot : root.Open .base)
    (stacked : Stacked root (scope :: outer)) : ∃ name, scope.Open name ∧ name ≠ .base := by
  obtain ⟨⟨tag, name, htag, hname, hopen⟩, hstacked⟩ := stacked
  refine ⟨name, hopen, ?_⟩
  obtain ⟨parent, hparent⟩ := hstacked.open_head hroot
  rw [hparent.signature] at htag
  rintro rfl
  exact Standard.schema_ne_base parent tag (Standard.mem_of_tag? htag).1 hname

theorem Stacked.replace {root scope other : Scope} {outer : List Scope} {name : SchemaName}
    (stacked : Stacked root (scope :: outer)) (hopen : scope.Open name) (hother : other.Open name)
    (htag : other.node.tag = scope.node.tag) : Stacked root (other :: outer) := by
  obtain ⟨⟨tag, found, hfound, hschema, hfoundOpen⟩, hstacked⟩ := stacked
  have hname : found = name := by
    rw [← Standard.name_signature found, ← hfoundOpen.signature, hopen.signature,
      Standard.name_signature]
  subst hname
  exact ⟨⟨tag, found, by rw [htag, hfound], hschema, hother⟩, hstacked⟩

def after (step : Step α) (reading : Reading) : Reading :=
  match step reading with
  | .ok _ reading => reading
  | .error _ reading => reading

def Keeps (P : Reading → Prop) (step : Step α) : Prop :=
  ∀ reading, P reading → P (after step reading)

namespace Keeps

variable {P : Reading → Prop}

theorem ok {step : Step α} (h : Keeps P step) {reading after : Reading} {a : α} (hreading : P reading)
    (hrun : step reading = .ok a after) : P after := by
  have hafter := h reading hreading
  unfold Reading.after at hafter
  rwa [hrun] at hafter

theorem bind {step : Step β} {next : β → Step α} (hstep : Keeps P step)
    (hnext : ∀ b, Keeps P (next b)) : Keeps P (step >>= next) := by
  intro reading hreading
  have hbetween := hstep reading hreading
  unfold after at hbetween ⊢
  cases hrun : step reading with
  | ok b between =>
    rw [hrun] at hbetween
    rw [bind_of_ok hrun]
    exact hnext b between hbetween
  | error fault between =>
    rw [hrun] at hbetween
    rw [bind_of_error hrun]
    exact hbetween

theorem forM {body : β → Step Unit} {items : List β} (h : ∀ item ∈ items, Keeps P (body item)) :
    Keeps P (items.forM body) := by
  induction items with
  | nil => exact fun reading hreading => hreading
  | cons item items ih =>
    rw [List.forM_eq_forM, List.forM_cons]
    refine bind (h item List.mem_cons_self) fun _ => ih fun other hother => ?_
    exact h other (List.mem_cons_of_mem _ hother)

end Keeps

structure Extends (start reading : Reading) : Prop extends Sound reading where
  children : ∀ key, start.root.node.childrenOf key <+: reading.root.node.childrenOf key

theorem Sound.extends {reading : Reading} (sound : reading.Sound) : Extends reading reading :=
  ⟨sound, fun _ => List.prefix_rfl⟩

variable {start : Reading}

theorem Extends.lose {root scope : Scope} {outer : List Scope} {symbols : Symbols}
    (h : Extends start ⟨.standard, root, scope :: outer, symbols⟩) :
    Extends start ⟨.standard, root, outer, symbols⟩ :=
  ⟨⟨rfl, h.root, h.stacked.2, h.symbols, h.distinct⟩, h.children⟩

theorem Extends.including {root scope : Scope} {symbols registered : Symbols} {node : Node}
    {full : String} {space : Namespace}
    (h : Extends start ⟨.standard, root, [scope], symbols⟩)
    (enlists : Enlists scope node full space)
    (hfree : ∀ symbol ∈ root.node.declared space, symbol.name ≠ full)
    (hlists : registered.Lists fun other =>
      if other = space then root.node.declared other ++ [⟨full, node.place⟩]
      else root.node.declared other) :
    Extends start ⟨.standard, root.including node, [], registered⟩ := by
  have hdeclared := Node.declared_attach enlists.tag enlists.name root.node
  refine ⟨⟨rfl, enlists.rooted root h.root, trivial, ?_, fun other => ?_⟩, fun key => ?_⟩
  · change registered.Lists (root.node.attach node).declared
    rw [hdeclared]
    exact hlists
  · change (((root.node.attach node).declared other).map (·.name)).Nodup
    rw [hdeclared]
    dsimp only
    split
    · next hother =>
      subst hother
      rw [List.map_append, List.nodup_append]
      refine ⟨h.distinct other, List.nodup_singleton _, ?_⟩
      intro name hname last hlast
      obtain ⟨symbol, hsymbol, rfl⟩ := List.mem_map.mp hname
      cases List.mem_singleton.mp hlast
      exact hfree symbol hsymbol
    · exact h.distinct other
  · change _ <+: (root.node.attach node).childrenOf key
    rw [childrenOf_attach]
    split
    · exact (h.children key).trans (List.prefix_append _ _)
    · exact h.children key

theorem Enlists.free {scope root : Scope} {symbols : Symbols} {node : Node} {full : String}
    {space : Namespace} (enlists : Enlists scope node full space) (hroot : root.Rooted)
    (lists : symbols.Lists root.node.declared)
    (hfree : ∀ symbol ∈ root.node.declared space, symbol.name ≠ full) :
    ∃ registered, closeInnermost ⟨.standard, root, [scope], symbols⟩ =
        .ok () ⟨.standard, root.including node, [], registered⟩ ∧
      registered.Lists fun other =>
        if other = space then root.node.declared other ++ [⟨full, node.place⟩]
        else root.node.declared other := by
  obtain ⟨registered, haccepted, hlists⟩ := lists.register_new hfree node.place
  exact ⟨registered, enlists.accepted root hroot symbols registered haccepted, hlists⟩

theorem Enlists.taken {scope root : Scope} {symbols : Symbols} {node : Node} {full : String}
    {space : Namespace} (enlists : Enlists scope node full space)
    (lists : symbols.Lists root.node.declared)
    (htaken : ¬ ∀ symbol ∈ root.node.declared space, symbol.name ≠ full) :
    ∃ fault, closeInnermost ⟨.standard, root, [scope], symbols⟩ =
      .error fault ⟨.standard, root, [], symbols⟩ := by
  push Not at htaken
  obtain ⟨taken, hmem, hname⟩ := htaken
  obtain ⟨fault, hrefused⟩ := lists.register_taken hmem hname node.place
  exact ⟨_, enlists.refused root symbols fault symbols hrefused⟩

theorem keeps_closeInnermost : Keeps (Extends start) closeInnermost := by
  rintro ⟨grammar, root, opened, symbols⟩ hreading
  obtain rfl : grammar = .standard := hreading.grammar
  unfold after
  cases opened with
  | nil => exact hreading
  | cons scope opened =>
    -- Only the last open scope folds into the root, and only there do symbols change.
    cases opened with
    | nil =>
      have hscope : scope.OpenedIn root := hreading.stacked.1
      rcases closeInnermost_top hscope hreading.root.toOpen with
        ⟨fault, -, hfails⟩ | ⟨node, full, space, enlists⟩
      · rw [hfails]
        exact hreading.lose
      · by_cases hfree : ∀ symbol ∈ root.node.declared space, symbol.name ≠ full
        · obtain ⟨registered, hfolds, hlists⟩ :=
            enlists.free hreading.root hreading.symbols hfree
          rw [hfolds]
          exact hreading.including enlists hfree hlists
        · obtain ⟨fault, hrefused⟩ := enlists.taken hreading.symbols hfree
          rw [hrefused]
          exact hreading.lose
    | cons outer opened =>
      have hscope : scope.OpenedIn outer := hreading.stacked.1
      obtain ⟨name, houter, hbase⟩ := hreading.stacked.2.open_ne_base hreading.root.toOpen
      rcases closeInnermost_inner hscope houter hbase opened with
        ⟨fault, -, hfails⟩ | ⟨child, -, hfolded, hfolds⟩
      · rw [hfails]
        exact hreading.lose
      · rw [hfolds]
        have hstacked := hreading.stacked.2.replace houter hfolded rfl
        exact ⟨⟨rfl, hreading.root, hstacked, hreading.symbols, hreading.distinct⟩,
          hreading.children⟩

theorem keeps_closeScopes (n : Nat) : Keeps (Extends start) (closeScopes n) := by
  induction n with
  | zero => exact fun reading hreading => hreading
  | succ n ih => exact keeps_closeInnermost.bind fun _ => ih

theorem keeps_closeAll : Keeps (Extends start) closeAll :=
  fun reading hreading => keeps_closeScopes reading.depth reading hreading

def openTag (key : Keyword) (place : Place) : Step Unit := fun reading =>
  match (reading.opened.headD reading.root).child .standard key place with
  | .error fault => .error fault reading
  | .ok none => closeInnermost reading
  | .ok (some child) => .ok () { reading with opened := child :: reading.opened }

theorem enter_eq {reading : Reading} (h : reading.grammar = .standard) (word : String)
    (place : Place) :
    enter word place reading =
      match (Keyword.ofSpelling? word).bind fun key => (reading.inside? key).map (key, ·) with
      | none => .error ⟨.unsupportedTag word reading.innermost, some reading.innermost, place⟩ reading
      | some (key, inside) => (closeScopes inside >>= fun _ => openTag key place) reading := by
  unfold enter
  change (match (Keyword.ofSpelling? word).bind fun key => (reading.inside? key).map (key, ·) with
    | none => _
    | some (key, inside) => _ : Step Unit) reading = _
  cases (Keyword.ofSpelling? word).bind fun key => (reading.inside? key).map (key, ·) with
  | none => rfl
  | some found =>
    have hopen : (do
        let declaring := (← get).opened.headD (← get).root
        match declaring.child reading.grammar found.1 place with
        | .error fault => throw fault
        | .ok none => closeInnermost
        | .ok (some child) => modify fun reading => { reading with opened := child :: reading.opened }
        : Step Unit) = openTag found.1 place := by
      funext between
      rw [h]
      unfold openTag
      change (match (between.opened.headD between.root).child .standard found.1 place with
        | .error fault => throw fault
        | .ok none => closeInnermost
        | .ok (some child) => modify fun reading => { reading with opened := child :: reading.opened }
        : Step Unit) between = _
      rcases (between.opened.headD between.root).child .standard found.1 place with
        fault | (_ | child)
      · rfl
      · rfl
      · rfl
    exact congrArg (fun next : Step Unit => (closeScopes found.2 >>= fun _ => next) reading) hopen

theorem keeps_openTag (key : Keyword) (place : Place) :
    Keeps (Extends start) (openTag key place) := by
  intro reading hreading
  have hclose := keeps_closeInnermost reading hreading
  unfold after openTag at *
  rcases Scope.child_cases (reading.opened.headD reading.root) key place with
    ⟨fault, hchild, -⟩ | hchild | ⟨schema, hchild, hscope⟩
  · simpa only [hchild] using hreading
  · simpa only [hchild] using hclose
  · simp only [hchild]
    exact ⟨⟨hreading.grammar, hreading.root, ⟨hscope, hreading.stacked⟩, hreading.symbols,
      hreading.distinct⟩, hreading.children⟩

theorem keeps_enter (word : String) (place : Place) : Keeps (Extends start) (enter word place) := by
  intro reading hreading
  unfold after
  rw [enter_eq hreading.grammar]
  cases (Keyword.ofSpelling? word).bind fun key => (reading.inside? key).map (key, ·) with
  | none => exact hreading
  | some found =>
    exact (keeps_closeScopes found.2).bind (fun _ => keeps_openTag found.1 place) reading hreading

theorem keeps_keep (word : String) (place : Place) : Keeps (Extends start) (keep word place) := by
  rintro ⟨grammar, root, opened, symbols⟩ hreading
  cases opened with
  | nil => exact hreading
  | cons scope outer =>
    obtain ⟨⟨tag, name, htag, hname, hopen⟩, hstacked⟩ := hreading.stacked
    have hadded : Scope.Open { scope with node := scope.node.addWord word } name :=
      ⟨hopen.schema, hopen.signature,
        ⟨hopen.gathering.sound.withWords _, hopen.gathering.settled, hopen.gathering.opened⟩⟩
    exact ⟨⟨hreading.grammar, hreading.root, ⟨⟨tag, name, htag, hname, hadded⟩, hstacked⟩,
      hreading.symbols, hreading.distinct⟩, hreading.children⟩

theorem keeps_word (place : Place) (text : String) : Keeps (Extends start) (word place text) := by
  unfold word
  split
  · exact keeps_enter _ place
  · exact keeps_keep text place

theorem keeps_file (name text : String) : Keeps (Extends start) (file name text) :=
  .bind (.forM fun _ _ => keeps_word _ _) fun _ => keeps_closeAll

/-- The states between files, whatever the files were and whether they could be read. -/
inductive Reachable : Reading → Prop where
  | standard : Reachable standard
  | file {reading : Reading} (name text : String) :
    Reachable reading → Reachable (after (file name text) reading)

theorem Reachable.sound {reading : Reading} (h : Reachable reading) : reading.Sound := by
  induction h with
  | standard => exact sound_standard
  | file name text _ ih => exact (keeps_file name text _ ih.extends).toSound

end Reading
end TagSchema
