import TagSchema.Proofs.Finishing

/-! The stack of open scopes. Each scope belongs to a tag that the scope around it declares, and the
schemas nest three deep at most. A tag is therefore unsupported only where it is written: no step of
closing or opening can come upon a tag or a schema that is not declared. -/
namespace TagSchema
open Grammar Node

theorem forM_eq_error {body : β → EStateM ε σ Unit} {items : List β} {state after : σ} {error : ε}
    (h : items.forM body state = .error error after) :
    ∃ before item rest between, items = before ++ item :: rest ∧
      before.forM body state = .ok () between ∧ body item between = .error error after := by
  induction items generalizing state with
  | nil => cases h
  | cons item items ih =>
    rw [List.forM_eq_forM, List.forM_cons] at h
    cases hitem : body item state with
    | error found between =>
      rw [bind_of_error hitem] at h
      cases h
      exact ⟨[], item, items, state, rfl, rfl, hitem⟩
    | ok _ next =>
      rw [bind_of_ok hitem] at h
      obtain ⟨before, failing, rest, between, rfl, hbefore, hfails⟩ := ih h
      refine ⟨item :: before, failing, rest, between, rfl, ?_, hfails⟩
      rw [List.forM_eq_forM, List.forM_cons, bind_of_ok hitem]
      exact hbefore

/-- How many scopes can be open inside a scope of the schema. -/
def SchemaName.height : SchemaName → Nat
  | base => 3
  | classSchema | enumeration | glossary | protocol => 2
  | field | constant | term | method => 1
  | reference | extra | string | boolean => 0

theorem Grammar.Standard.height_lt (name : SchemaName) :
    ∀ tag ∈ (signature name).tags, ∀ child ∈ tag.schema, child.height < name.height := by
  cases name <;> decide

def Scope.DeclaredIn (scope outer : Scope) : Prop :=
  ∃ tag, outer.schema.tag? scope.node.tag = some tag ∧ tag.closes = false ∧
    tag.schema.bind Grammar.standard.find? = some scope.schema

theorem Scope.OpenedIn.declaredIn {scope outer : Scope} {name : SchemaName}
    (hscope : scope.OpenedIn outer) (houter : outer.Open name) : scope.DeclaredIn outer := by
  obtain ⟨tag, child, htag, hchild, hopen⟩ := hscope
  refine ⟨tag, ?_, by simp [Tag.closes, hchild], by simp [hchild, hopen.schema]⟩
  rw [houter.signature] at htag
  rw [houter.schema]
  exact htag

namespace Reading

structure WellScoped (reading : Reading) : Prop where
  rootSchema : reading.root.schema = Standard.schema .base
  rootWords : reading.root.node.words = []
  signature : ∀ scope ∈ reading.frames, scope.node.signature = scope.schema.toSignature
  opened : ∀ scope ∈ reading.frames, scope.node.phase = .opened
  declared : reading.frames.IsChain Scope.DeclaredIn
  closed : ∀ scope ∈ reading.frames, ∀ child ∈ scope.node.children, child.Every (·.phase = .closed)
  depth : reading.depth ≤ 3

def Undeclared (reading : Reading) (word : String) : Prop :=
  ∀ key, Keyword.ofSpelling? word = some key → ∀ scope ∈ reading.frames, scope.declares key = false

def words (name : String) (numbered : List (Nat × String)) : Step Unit :=
  numbered.forM fun (line, content) => word ⟨name, line⟩ content

theorem Stacked.isChain {root : Scope} {opened : List Scope} (hroot : root.Open .base)
    (stacked : Stacked root opened) : (opened ++ [root]).IsChain Scope.DeclaredIn := by
  induction opened with
  | nil => exact .singleton root
  | cons scope outer ih =>
    obtain ⟨name, houter⟩ := stacked.2.open_head hroot
    have hdeclared := stacked.1.declaredIn houter
    have hrest := ih stacked.2
    cases outer with
    | nil => exact .cons_cons hdeclared hrest
    | cons next outer => exact .cons_cons hdeclared hrest

/-- The room that a stack leaves: its innermost schema bounds what can still be opened. -/
theorem Stacked.depth_add_height {root : Scope} {opened : List Scope} (hroot : root.Open .base)
    (stacked : Stacked root opened) {name : SchemaName} (hname : (opened.headD root).Open name) :
    opened.length + name.height ≤ 3 := by
  induction opened generalizing name with
  | nil =>
    have hbase : name = .base := by
      rw [← Standard.name_signature name, ← hname.signature]
      exact (congrArg Signature.name hroot.signature).trans (Standard.name_signature .base)
    simp [hbase, SchemaName.height]
  | cons scope outer ih =>
    obtain ⟨⟨tag, child, htag, hchild, hopen⟩, hstacked⟩ := stacked
    obtain ⟨parent, hparent⟩ := hstacked.open_head hroot
    have hsame : child = name := by
      rw [← Standard.name_signature child, ← hopen.signature, ← Standard.name_signature name]
      exact congrArg Signature.name hname.signature
    rw [hparent.signature] at htag
    have hlt := Standard.height_lt parent tag (Standard.mem_of_tag? htag).1 child hchild
    have hrest := ih hstacked hparent
    rw [List.length_cons, ← hsame]
    omega

theorem Stacked.frames_open {root : Scope} {opened : List Scope} (hroot : root.Open .base)
    (stacked : Stacked root opened) : ∀ scope ∈ opened ++ [root], ∃ name, scope.Open name := by
  induction opened with
  | nil => simpa using ⟨_, hroot⟩
  | cons scope outer ih =>
    obtain ⟨⟨_, name, _, _, hopen⟩, hstacked⟩ := stacked
    rw [List.cons_append, List.forall_mem_cons]
    exact ⟨⟨name, hopen⟩, ih hstacked⟩

theorem Sound.wellScoped {reading : Reading} (sound : reading.Sound) : reading.WellScoped := by
  have hopen := sound.stacked.frames_open sound.root.toOpen
  refine ⟨sound.root.schema, sound.root.words, ?_, ?_, sound.stacked.isChain sound.root.toOpen, ?_, ?_⟩
  · intro scope hscope
    obtain ⟨name, hname⟩ := hopen scope hscope
    rw [hname.signature, hname.schema]
    rfl
  · intro scope hscope
    obtain ⟨name, hname⟩ := hopen scope hscope
    exact hname.gathering.opened
  · intro scope hscope child hchild
    obtain ⟨name, hname⟩ := hopen scope hscope
    exact (hname.gathering.settled child hchild).imp fun _ settled => settled.closed
  · obtain ⟨name, hname⟩ := sound.stacked.open_head sound.root.toOpen
    have hdepth := sound.stacked.depth_add_height sound.root.toOpen hname
    exact Nat.le_trans (Nat.le_add_right _ _) hdepth

def IsData (text : String) : Prop := text.toList.head? ≠ some '@'

theorem tag_or_data (text : String) : (∃ name : String, text = "@" ++ name) ∨ IsData text := by
  by_cases hhead : text.toList.head? = some '@'
  · obtain ⟨name, htext⟩ := List.head?_eq_some_iff.mp hhead
    refine .inl ⟨String.ofList name, String.toList_inj.mp ?_⟩
    simp [htext]
  · exact .inr hhead

theorem word_tag (place : Place) (name : String) : word place ("@" ++ name) = enter name place := by
  simp [word]

theorem word_data {text : String} (h : IsData text) (place : Place) :
    word place text = keep text place := by
  unfold word
  split
  · next htext => exact absurd (by rw [htext]; rfl) h
  · rfl

section faults

variable {reading after : Reading} {fault : Fault}

/-- A fault in the scope of a tag that stands at a place. It is not about a tag or a schema that is
missing. -/
structure OfTag (place : Place) (fault : Fault) : Prop where
  place : fault.place = place
  tag : fault.tag.isSome
  kind : fault.kind ≠ .unsupportedTag

theorem ofTag_of_flaw {place : Place} (flaw : fault.Flaw place) : OfTag place fault := by
  refine ⟨flaw.place, flaw.tag, fun hkind => ?_⟩
  have hflaw := flaw.kind
  rw [hkind] at hflaw
  exact absurd hflaw (by decide)

theorem ofTag_of_register {name : String} {space : Namespace} {place : Place}
    {delimiter : Option Char} {symbols left : Symbols}
    (h : Symbols.register name space place delimiter symbols = .error fault left) (tag : Keyword) :
    OfTag place (fault.inScope tag) := by
  unfold Symbols.register at h
  dsimp only at h
  split at h
  · cases h
    exact ⟨rfl, rfl, by simp [Fault.inScope, Fault.kind, Fault.Cause.kind]⟩
  · cases h

def folded (root : Scope) (child : Node) (symbols : Symbols) : List Scope → Reading
  | [] => ⟨.standard, root.including child, [], symbols⟩
  | outer :: rest => ⟨.standard, root, outer.including child :: rest, symbols⟩

theorem frames_folded (root : Scope) (child : Node) (symbols : Symbols) (opened : List Scope) :
    ∃ outer rest, opened ++ [root] = outer :: rest ∧
      (folded root child symbols opened).frames = outer.including child :: rest := by
  cases opened with
  | nil => exact ⟨root, [], rfl, rfl⟩
  | cons outer rest => exact ⟨outer, rest ++ [root], rfl, rfl⟩

/-- Without open scopes nothing is closed. Else the innermost scope is folded into the frame around it, or
a fault in its own tag keeps it from closing, and it is lost. -/
theorem Sound.closeInnermost_cases (sound : reading.Sound) :
    closeInnermost reading = .ok () reading ∧ reading.opened = [] ∨
    ∃ scope outer symbols, reading.opened = scope :: outer ∧
      ((∃ fault, closeInnermost reading = .error fault ⟨.standard, reading.root, outer, symbols⟩ ∧
          OfTag scope.node.place fault) ∨
        ∃ child, closeInnermost reading = .ok () (folded reading.root child symbols outer) ∧
          Closed scope.node child) := by
  obtain ⟨grammar, root, opened, symbols⟩ := reading
  obtain rfl : grammar = .standard := sound.grammar
  match opened with
  | [] => exact .inl ⟨rfl, rfl⟩
  | [scope] =>
    have hscope : scope.OpenedIn root := sound.stacked.1
    rcases closeInnermost_top hscope sound.root.toOpen with
      ⟨fault, hflaw, hfails⟩ | ⟨node, full, space, enlists⟩
    · exact .inr ⟨scope, [], symbols, rfl, .inl ⟨fault, hfails root symbols, ofTag_of_flaw hflaw⟩⟩
    · cases hregister : Symbols.register full space node.place space.delimiter symbols with
      | ok _ registered =>
        have hfolds := enlists.accepted root sound.root symbols registered hregister
        exact .inr ⟨scope, [], registered, rfl, .inr ⟨node, hfolds, enlists.closed⟩⟩
      | error fault left =>
        have hfails := enlists.refused root symbols fault left hregister
        have hfault := ofTag_of_register hregister node.tag
        rw [enlists.closed.place] at hfault
        exact .inr ⟨scope, [], left, rfl, .inl ⟨_, hfails, hfault⟩⟩
  | scope :: outer :: opened =>
    have hscope : scope.OpenedIn outer := sound.stacked.1
    obtain ⟨name, houter, hbase⟩ := sound.stacked.2.open_ne_base sound.root.toOpen
    refine .inr ⟨scope, outer :: opened, symbols, rfl, ?_⟩
    rcases closeInnermost_inner hscope houter hbase opened with
      ⟨fault, hflaw, hfails⟩ | ⟨child, hclosed, -, hfolds⟩
    · exact .inl ⟨fault, hfails root symbols, ofTag_of_flaw hflaw⟩
    · exact .inr ⟨child, hfolds root symbols, hclosed⟩

theorem Sound.ofTag_of_closeInnermost (sound : reading.Sound)
    (h : closeInnermost reading = .error fault after) :
    ∃ scope ∈ reading.opened, OfTag scope.node.place fault := by
  rcases sound.closeInnermost_cases with
    ⟨hrun, -⟩ | ⟨scope, outer, _, hopened, ⟨_, hrun, hfault⟩ | ⟨_, hrun, -⟩⟩
  · cases hrun.symm.trans h
  · cases hrun.symm.trans h
    exact ⟨scope, hopened ▸ List.mem_cons_self, hfault⟩
  · cases hrun.symm.trans h

theorem Sound.frames_of_closeInnermost (sound : reading.Sound)
    (h : closeInnermost reading = .ok () after) :
    after = reading ∧ reading.opened = [] ∨
      ∃ scope outer rest child, reading.frames = scope :: outer :: rest ∧ Closed scope.node child ∧
        after.frames = outer.including child :: rest := by
  rcases sound.closeInnermost_cases with
    ⟨hrun, hnone⟩ | ⟨scope, opened, symbols, hopened, ⟨_, hrun, -⟩ | ⟨child, hrun, closed⟩⟩
  · cases hrun.symm.trans h
    exact .inl ⟨rfl, hnone⟩
  · cases hrun.symm.trans h
  · cases hrun.symm.trans h
    obtain ⟨outer, rest, hsplit, hfolded⟩ := frames_folded reading.root child symbols opened
    refine .inr ⟨scope, outer, rest, child, ?_, closed, hfolded⟩
    rw [frames, hopened, List.cons_append, hsplit]

theorem Sound.kind_of_closeInnermost (sound : reading.Sound)
    (h : closeInnermost reading = .error fault after) : fault.kind ≠ .unsupportedTag := by
  obtain ⟨scope, -, hfault⟩ := sound.ofTag_of_closeInnermost h
  exact hfault.kind

theorem Sound.closeInnermost (sound : reading.Sound) (h : closeInnermost reading = .ok () after) :
    after.Sound :=
  (keeps_closeInnermost.ok sound.extends h).toSound

theorem Sound.kind_of_closeScopes (sound : reading.Sound) {n : Nat}
    (h : closeScopes n reading = .error fault after) : fault.kind ≠ .unsupportedTag := by
  induction n generalizing reading with
  | zero => cases h
  | succ n ih =>
    cases hclose : Reading.closeInnermost reading with
    | error found lost =>
      have hsame : closeScopes (n + 1) reading = .error found lost := bind_of_error hclose
      cases hsame.symm.trans h
      exact sound.kind_of_closeInnermost hclose
    | ok _ between =>
      have hsame : closeScopes (n + 1) reading = closeScopes n between := bind_of_ok hclose
      exact ih (sound.closeInnermost hclose) (hsame ▸ h)

def signatures (reading : Reading) : List Signature := reading.frames.map (·.node.signature)

theorem signatures_of_closeInnermost {scope : Scope} {outer : List Scope}
    (hopened : reading.opened = scope :: outer) (h : Reading.closeInnermost reading = .ok () after) :
    after.signatures = reading.signatures.tail := by
  obtain ⟨grammar, root, opened, symbols⟩ := reading
  obtain rfl : opened = scope :: outer := hopened
  unfold Reading.closeInnermost adopt at h
  dsimp only at h
  split at h
  · cases h
  · cases outer with
    | nil =>
      dsimp only at h
      split at h
      · cases h
      · next adopted hadopt =>
        obtain ⟨_, _, -, -, -, rfl⟩ := adopt_eq_ok hadopt
        cases h
        rfl
    | cons parent outer =>
      dsimp only at h
      split at h
      · cases h
      · next adopted hadopt =>
        obtain ⟨_, _, -, -, -, rfl⟩ := adopt_eq_ok hadopt
        cases h
        rfl

theorem signatures_of_closeScopes {n : Nat} (hdepth : n ≤ reading.depth)
    (h : closeScopes n reading = .ok () after) : after.signatures = reading.signatures.drop n := by
  induction n generalizing reading with
  | zero =>
    cases h
    rfl
  | succ n ih =>
    obtain ⟨_, between, hclose, hrest⟩ := bind_eq_ok h
    cases hopened : reading.opened with
    | nil => simp [depth, hopened] at hdepth
    | cons scope outer =>
      have hbetween : between.depth = reading.depth - 1 := depth_of_closeInnermost hclose
      rw [ih (by omega) hrest, signatures_of_closeInnermost hopened hclose, List.drop_tail]

theorem headD_signature (reading : Reading) :
    (reading.opened.headD reading.root).node.signature =
      reading.signatures.headD reading.root.node.signature := by
  unfold signatures frames
  cases reading.opened <;> rfl

theorem tag?_of_inside? {key : Keyword} {inside : Nat} (hinside : reading.inside? key = some inside)
    (h : closeScopes inside reading = .ok () after) :
    ∃ tag, (after.opened.headD after.root).node.signature.tag? key = some tag := by
  obtain ⟨hlength, hdeclares, -⟩ := List.findIdx?_eq_some_iff_getElem.mp hinside
  have hdepth : inside ≤ reading.depth := by
    simp only [frames, List.length_append, List.length_singleton] at hlength
    exact Nat.lt_succ_iff.mp hlength
  have hhead : (reading.signatures.drop inside).headD after.root.node.signature =
      reading.frames[inside].node.signature := by
    rw [List.drop_eq_getElem_cons (by simpa [signatures] using hlength)]
    simp [signatures]
  rw [headD_signature, signatures_of_closeScopes hdepth h, hhead]
  exact Option.isSome_iff_exists.mp hdeclares

/-- A tag word is not declared by any open scope, or goes to the innermost scope that declares it. -/
theorem Sound.enter_cases (sound : reading.Sound) (text : String) (place : Place) :
    (reading.Undeclared text ∧ enter text place reading =
      .error ⟨.unsupportedTag text reading.innermost, some reading.innermost, place⟩ reading) ∨
    ∃ key inside, text = key.spelling ∧ reading.inside? key = some inside ∧
      enter text place reading = (closeScopes inside >>= fun _ => openTag key place) reading := by
  rw [enter_eq sound.grammar]
  cases hkey : Keyword.ofSpelling? text with
  | none =>
    refine .inl ⟨fun key hspelled => ?_, rfl⟩
    cases hkey.symm.trans hspelled
  | some key =>
    cases hinside : reading.inside? key with
    | none =>
      refine .inl ⟨fun spelled hspelled scope hscope => ?_, ?_⟩
      · cases hkey.symm.trans hspelled
        exact List.findIdx?_eq_none_iff.mp hinside scope hscope
      · rw [Option.bind_some, hinside, Option.map_none]
    | some inside =>
      refine .inr ⟨key, inside, (Keyword.spelling_of_ofSpelling? hkey).symm, hinside, ?_⟩
      rw [Option.bind_some, hinside, Option.map_some]

theorem Sound.enter_unsupported (sound : reading.Sound) {text : String} {place : Place}
    (h : enter text place reading = .error fault after) (hkind : fault.kind = .unsupportedTag) :
    after = reading ∧ reading.Undeclared text ∧
      fault = ⟨.unsupportedTag text reading.innermost, some reading.innermost, place⟩ := by
  rcases sound.enter_cases text place with ⟨hundeclared, henter⟩ | ⟨key, inside, -, hinside, henter⟩
  · cases henter.symm.trans h
    exact ⟨rfl, hundeclared, rfl⟩
  · rw [henter] at h
    cases hclose : closeScopes inside reading with
    | error found lost =>
      rw [bind_of_error hclose] at h
      cases h
      exact absurd hkind (sound.kind_of_closeScopes hclose)
    | ok _ between =>
      rw [bind_of_ok hclose] at h
      have hbetween := ((keeps_closeScopes inside).ok sound.extends hclose).toSound
      obtain ⟨tag, htag⟩ := tag?_of_inside? hinside hclose
      unfold openTag at h
      rcases Scope.child_cases (between.opened.headD between.root) key place with
        ⟨_, hchild, -⟩ | hchild | ⟨schema, hchild, -⟩
      · -- The scope was found for declaring the tag, so it cannot lack it.
        cases hschema : tag.schema with
        | none => simp only [Scope.child, htag, hschema, reduceCtorEq] at hchild
        | some child =>
          simp only [Scope.child, htag, hschema, find?_standard, reduceCtorEq] at hchild
      · rw [hchild] at h
        exact absurd hkind (hbetween.kind_of_closeInnermost h)
      · rw [hchild] at h
        cases h

theorem Sound.word_unsupported (sound : reading.Sound) {text : String} {place : Place}
    (h : word place text reading = .error fault after) (hkind : fault.kind = .unsupportedTag) :
    ∃ name : String, text = "@" ++ name ∧ after = reading ∧ reading.Undeclared name ∧
      fault = ⟨.unsupportedTag name reading.innermost, some reading.innermost, place⟩ := by
  rcases tag_or_data text with ⟨name, rfl⟩ | hdata
  · rw [word_tag] at h
    exact ⟨name, rfl, sound.enter_unsupported h hkind⟩
  · rw [word_data hdata] at h
    unfold keep at h
    split at h
    · cases h
      cases hkind
    · cases h

theorem Sound.kind_of_finish (sound : reading.Sound) (h : reading.finish = .error fault) :
    fault.kind ≠ .unsupportedTag := by
  cases hclose : closeAll reading with
  | error found lost =>
    have hsame : reading.finish = .error found := by
      unfold finish
      rw [hclose]
    cases hsame.symm.trans h
    exact sound.kind_of_closeScopes hclose
  | ok _ between =>
    rw [finish_of_closeAll hclose] at h
    have hbetween := (keeps_closeAll.ok sound.extends hclose).toSound
    rcases hbetween.finish_cases (opened_of_closeAll hclose) with
      ⟨corpus, hfinish, -⟩ | ⟨found, hfinish, inner, -, hfound⟩
    · cases hfinish.symm.trans h
    · cases hfinish.symm.trans h
      rw [(referenceFault?_eq_some hfound).1]
      decide

end faults

theorem keeps_words (start : Reading) (name : String) (numbered : List (Nat × String)) :
    Keeps (Extends start) (words name numbered) :=
  .forM fun _ _ => keeps_word _ _

/-- A file that fails for an unsupported tag fails where the tag is written: in the state that the
words before it lead to, no open scope declares it, and that state is left as it is. -/
def RefusesWhereWritten (reading : Reading) : Prop :=
  ∀ name text fault after, file name text reading = .error fault after →
    fault.kind = .unsupportedTag → ∃ before line tag rest,
      Text.numberedWords text = before ++ (line, "@" ++ tag) :: rest ∧
      words name before reading = .ok () after ∧ after.Undeclared tag ∧
      fault = ⟨.unsupportedTag tag after.innermost, some after.innermost, ⟨name, line⟩⟩

/-- Between files the scopes are well nested, whatever the files were. A tag is unsupported only if
no open scope declares its word, which is found before anything is closed or opened for it. -/
theorem wellScoped_of_reachable {reading : Reading} (h : Reachable reading) :
    reading.WellScoped ∧ reading.RefusesWhereWritten ∧
      ∀ fault, reading.finish = .error fault → fault.kind ≠ .unsupportedTag := by
  have sound := h.sound
  refine ⟨sound.wellScoped, fun name text fault after hfile hkind => ?_,
    fun fault hfault => sound.kind_of_finish hfault⟩
  have hparts : (words name (Text.numberedWords text) >>= fun _ => closeAll) reading =
      .error fault after := hfile
  cases hwords : words name (Text.numberedWords text) reading with
  | ok _ between =>
    rw [bind_of_ok hwords] at hparts
    have hbetween := ((keeps_words reading name _).ok sound.extends hwords).toSound
    exact absurd hkind (hbetween.kind_of_closeScopes hparts)
  | error found lost =>
    rw [bind_of_error hwords] at hparts
    cases hparts
    obtain ⟨before, ⟨line, text⟩, rest, between, hsplit, hbefore, hword⟩ := forM_eq_error hwords
    have hbetween := ((keeps_words reading name before).ok sound.extends hbefore).toSound
    obtain ⟨tag, rfl, rfl, hundeclared, hfault⟩ := hbetween.word_unsupported hword hkind
    exact ⟨before, line, tag, rest, hsplit, hbefore, hundeclared, hfault⟩

/-- Here a file fails with three scopes open. -/
theorem wellScoped_three_deep :
    let reading := after (file "t.talk" "@class A\n@field uint8 x\n@caveat slow\n@bogus\n") standard
    reading.depth = 3 ∧ reading.WellScoped ∧ reading.RefusesWhereWritten ∧
      ∀ fault, reading.finish = .error fault → fault.kind ≠ .unsupportedTag := by
  intro reading
  have hdepth : reading.depth = 3 := by decide +kernel
  exact ⟨hdepth, wellScoped_of_reachable (.file _ _ .standard)⟩

end Reading
end TagSchema
