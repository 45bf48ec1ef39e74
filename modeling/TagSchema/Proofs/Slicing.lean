import TagSchema.Proofs.Dealing
import TagSchema.Proofs.Folding
import TagSchema.Proofs.Settling

/-! Where the words of a node go when it is closed: to the properties, as their slots say, and what no
property took to the implicit tag. -/
namespace TagSchema
open Closing

namespace Closing

def leave (schema : Schema) (rest : List String) : Closing (List String) := do
  if rest = [] ∨ schema.implicitTag?.isSome then return rest
  else fail (.trailingWords (← node).tag rest)

/-- The part of closing that deals out the words, up to those that are for the implicit tag. -/
def slicing (schema : Schema) : Closing (List String) := do
  let words := (← node).words
  modifyNode fun node => { node with words := [] }
  leave schema (← assign schema.properties words)

def checking (schema : Schema) : Closing Unit := do
  schema.completions.forM complete
  schema.checks.forM check
  schema.registrations.forM register
  modifyNode fun node => { node with phase := .closed }

/-- The part of closing that comes after all words have gone somewhere. -/
def concluding (fill : Tag → List String → Closing Unit) (schema : Schema) : Closing Unit := do
  schema.tags.forM (fillDefault fill)
  checking schema

def following (fill : Tag → List String → Closing Unit) (schema : Schema) (rest : List String) :
    Closing Unit := do
  fillImplicit fill rest
  concluding fill schema

variable {properties : List Property} {words between rest : List String} {slots : List Slot} {node : Node}
  {symbols : Symbols}

theorem assign_append (h : Slices properties words slots between) (more : List Property) (node : Node) :
    assign (properties ++ more) words (node, symbols) =
      assign more between (node.filling slots, symbols) := by
  induction h generalizing node with
  | done => rfl
  | taken htakes hmakes hslices ih =>
    rw [List.cons_append, assign_cons_of_some (Property.slice_of_takes _ htakes)
      (Property.read_eq_ok_iff.mpr hmakes), ih]
    rfl
  | unset hleaves hslices ih =>
    rw [List.cons_append, assign_cons_of_none (Property.slice_of_leaves _ hleaves), ih]

theorem assign_of_slices (h : Slices properties words slots rest) :
    assign properties words (node, symbols) = .ok rest (node.filling slots, symbols) := by
  have happend : assign (properties ++ []) words (node, symbols) = _ := assign_append h [] node
  rw [List.append_nil] at happend
  rw [happend]
  rfl

/-- How dealing out words can fail: at some property these are too few, or they make no value. -/
inductive Stuck (properties : List Property) (words : List String) : Fault.Kind → Prop where
  | short {before after : List Property} {property : Property} {between : List String} {slots : List Slot}
    (hproperties : properties = before ++ property :: after) (hslices : Slices before words slots between)
    (hshort : property.Short between) : Stuck properties words .propertyArity
  | refused {before after : List Property} {property : Property} {between taken rest : List String}
    {slots : List Slot} (hproperties : properties = before ++ property :: after)
    (hslices : Slices before words slots between) (htakes : property.Takes between taken rest)
    (hnone : ∀ value, ¬property.Makes taken value) : Stuck properties words .propertyValue

theorem Stuck.cons {property : Property} {kind : Fault.Kind}
    (hfront : ∀ {before slots last}, Slices before between slots last →
      ∃ more, Slices (property :: before) words more last)
    (h : Stuck properties between kind) : Stuck (property :: properties) words kind := by
  cases h with
  | short hproperties hslices hshort =>
    obtain ⟨more, hmore⟩ := hfront hslices
    exact .short (congrArg (property :: ·) hproperties) hmore hshort
  | refused hproperties hslices htakes hnone =>
    obtain ⟨more, hmore⟩ := hfront hslices
    exact .refused (congrArg (property :: ·) hproperties) hmore htakes hnone

theorem slices_or_stuck (properties : List Property) (words : List String) :
    (∃ slots rest, Slices properties words slots rest) ∨ ∃ kind, Stuck properties words kind := by
  induction properties generalizing words with
  | nil => exact .inl ⟨[], words, .done⟩
  | cons property properties ih =>
    obtain ⟨taken, between, htakes⟩ | hleaves | hshort := property.takes_or_leaves_or_short words
    · by_cases hmakes : ∃ value, property.Makes taken value
      · obtain ⟨value, hmakes⟩ := hmakes
        obtain ⟨slots, rest, hslices⟩ | ⟨kind, hstuck⟩ := ih between
        · exact .inl ⟨_, rest, .taken htakes hmakes hslices⟩
        · exact .inr ⟨kind, hstuck.cons fun hslices => ⟨_, .taken htakes hmakes hslices⟩⟩
      · exact .inr ⟨_, .refused rfl .done htakes (not_exists.mp hmakes)⟩
    · obtain ⟨slots, rest, hslices⟩ | ⟨kind, hstuck⟩ := ih words
      · exact .inl ⟨slots, rest, .unset hleaves hslices⟩
      · exact .inr ⟨kind, hstuck.cons fun hslices => ⟨_, .unset hleaves hslices⟩⟩
    · exact .inr ⟨_, .short rfl .done hshort⟩

theorem assign_cons_of_unsliced {property : Property} {cause : Fault.Cause}
    (hslice : property.slice node.tag words = .error cause) :
    assign (property :: properties) words (node, symbols) = .error (node.fault cause) (node, symbols) := by
  rw [assign]
  change (attempt (property.slice node.tag words) >>= _ : Closing _) (node, symbols) = _
  rw [hslice]
  rfl

theorem assign_cons_of_unread {property : Property} {taken : List String} {cause : Fault.Cause}
    (hslice : property.slice node.tag words = .ok (some taken, rest))
    (hread : property.read taken = .error cause) :
    assign (property :: properties) words (node, symbols) = .error (node.fault cause) (node, symbols) := by
  rw [assign]
  change (attempt (property.slice node.tag words) >>= _ : Closing _) (node, symbols) = _
  rw [hslice]
  change (attempt (property.read taken) >>= _ : Closing _) (node, symbols) = _
  rw [hread]
  rfl

theorem assign_of_stuck {kind : Fault.Kind} (h : Stuck properties words kind) (node : Node)
    (symbols : Symbols) :
    ∃ fault after, assign properties words (node, symbols) = .error fault after ∧ fault.kind = kind := by
  cases h with
  | @short before after property between slots hproperties hslices hshort =>
    obtain ⟨cause, hslice⟩ := Property.slice_of_short (node.filling slots).tag hshort
    have hkind : ((node.filling slots).fault cause).kind = .propertyArity := kind_of_slice hslice
    refine ⟨_, (node.filling slots, symbols), ?_, hkind⟩
    rw [hproperties, assign_append hslices, assign_cons_of_unsliced hslice]
  | @refused before after property between taken rest slots hproperties hslices htakes hnone =>
    cases hread : property.read taken with
    | ok value => exact absurd (Property.read_eq_ok_iff.mp hread) (hnone value)
    | error cause =>
      have hkind : ((node.filling slots).fault cause).kind = .propertyValue := kind_of_read hread
      refine ⟨_, (node.filling slots, symbols), ?_, hkind⟩
      rw [hproperties, assign_append hslices, assign_cons_of_unread (Property.slice_of_takes _ htakes) hread]

section slicing

variable {name : SchemaName} {schema : Schema}

theorem slicing_eq (schema : Schema) (node : Node) (symbols : Symbols) :
    slicing schema (node, symbols) =
      (assign schema.properties node.words >>= leave schema) ({ node with words := [] }, symbols) := rfl

theorem slicing_of_slices (h : Slices schema.properties node.words slots rest)
    (hrest : rest = [] ∨ schema.implicitTag?.isSome) :
    slicing schema (node, symbols) = .ok rest (({ node with words := [] }).filling slots, symbols) := by
  rw [slicing_eq, bind_of_ok (assign_of_slices h), leave, if_pos hrest]
  rfl

theorem slicing_of_trailing (h : Slices schema.properties node.words slots rest)
    (hrest : ¬(rest = [] ∨ schema.implicitTag?.isSome)) :
    slicing schema (node, symbols) = .error (node.fault (.trailingWords node.tag rest))
      (({ node with words := [] }).filling slots, symbols) := by
  rw [slicing_eq, bind_of_ok (assign_of_slices h), leave, if_neg hrest]
  change EStateM.Result.error ((({ node with words := [] } : Node).filling slots).fault
    (.trailingWords (({ node with words := [] } : Node).filling slots).tag rest)) _ = _
  rw [Node.fault_filling, Node.tag_filling]
  rfl

theorem fillImplicit_of_none (fill : Tag → List String → Closing Unit) (node : Node) (hrest : rest ≠ [])
    (hnone : node.signature.implicitTag? = none) (symbols : Symbols) :
    fillImplicit fill rest (node, symbols) =
      .error (node.fault (.trailingWords node.tag rest)) (node, symbols) := by
  have hlook : Closing.node (node, symbols) = .ok node (node, symbols) := rfl
  rw [fillImplicit, bind_of_ok hlook]
  · simp only [hnone]
    rfl
  · exact hrest

theorem fillImplicit_of_given (fill : Tag → List String → Closing Unit) (node : Node) (hrest : rest ≠ [])
    {tag : Tag} (htag : node.signature.implicitTag? = some tag) (hgiven : node.childrenOf tag.key ≠ [])
    (symbols : Symbols) :
    fillImplicit fill rest (node, symbols) =
      .error (node.fault (.trailingWordsAndTag tag.key)) (node, symbols) := by
  have hlook : Closing.node (node, symbols) = .ok node (node, symbols) := rfl
  have hfull : ¬(node.childrenOf tag.key).isEmpty = true := by simpa using hgiven
  rw [fillImplicit, bind_of_ok hlook]
  · simp only [htag, if_neg hfull]
    rfl
  · exact hrest

theorem fillImplicit_of_some (fill : Tag → List String → Closing Unit) (node : Node) (hrest : rest ≠ [])
    {tag : Tag} (htag : node.signature.implicitTag? = some tag) (hempty : node.childrenOf tag.key = [])
    (symbols : Symbols) :
    fillImplicit fill rest (node, symbols) = fill tag rest (node, symbols) := by
  have hlook : Closing.node (node, symbols) = .ok node (node, symbols) := rfl
  have hfree : (node.childrenOf tag.key).isEmpty = true := by simpa using hempty
  rw [fillImplicit, bind_of_ok hlook]
  · simp only [htag, if_pos hfree]
  · exact hrest

theorem fillDefault_of_given (fill : Tag → List String → Closing Unit) (node : Node) {tag : Tag}
    (h : tag.default = none ∨ node.childrenOf tag.key ≠ []) (symbols : Symbols) :
    fillDefault fill tag (node, symbols) = .ok () (node, symbols) := by
  unfold fillDefault
  cases hdefault : tag.default with
  | none => rfl
  | some words =>
    have hgiven := h.resolve_left (by simp [hdefault])
    change (if (node.childrenOf tag.key).isEmpty then _ else _ : Closing Unit) (node, symbols) = _
    rw [if_neg (by simpa using hgiven)]
    rfl

theorem fillDefault_of_empty (fill : Tag → List String → Closing Unit) (node : Node) {tag : Tag}
    {words : String} (hwords : tag.default = some words) (hempty : node.childrenOf tag.key = [])
    (symbols : Symbols) :
    fillDefault fill tag (node, symbols) = fill tag (Text.words words.toList) (node, symbols) := by
  unfold fillDefault
  rw [hwords]
  change (if (node.childrenOf tag.key).isEmpty then _ else _ : Closing Unit) (node, symbols) = _
  rw [if_pos (by rw [hempty]; rfl)]

/-- Whether words go to the implicit tag is a matter of the node, however tags are filled. -/
theorem fillImplicit_cases (node : Node) (words : List String) (symbols : Symbols) :
    (∀ fill, fillImplicit fill words (node, symbols) = .ok () (node, symbols)) ∨
    (∃ fault, ∀ fill, fillImplicit fill words (node, symbols) = .error fault (node, symbols)) ∨
    ∃ tag ∈ node.signature.tags, tag.implicit ∧
      ∀ fill, fillImplicit fill words (node, symbols) = fill tag words (node, symbols) := by
  by_cases hwords : words = []
  · subst hwords
    exact .inl fun _ => rfl
  cases htag : node.signature.implicitTag? with
  | none => exact .inr (.inl ⟨_, fun fill => fillImplicit_of_none fill node hwords htag symbols⟩)
  | some tag =>
    by_cases hempty : node.childrenOf tag.key = []
    · have hmem : tag ∈ node.signature.tags := List.mem_of_find?_eq_some htag
      have himplicit : tag.implicit = true := by simpa using List.find?_some htag
      exact .inr (.inr ⟨tag, hmem, himplicit,
        fun fill => fillImplicit_of_some fill node hwords htag hempty symbols⟩)
    · exact .inr (.inl ⟨_, fun fill => fillImplicit_of_given fill node hwords htag hempty symbols⟩)

theorem fillDefault_cases (tag : Tag) (node : Node) (symbols : Symbols) :
    (∀ fill, fillDefault fill tag (node, symbols) = .ok () (node, symbols)) ∨
    ∃ words, tag.default.isSome ∧ node.childrenOf tag.key = [] ∧
      ∀ fill, fillDefault fill tag (node, symbols) = fill tag words (node, symbols) := by
  by_cases hgiven : tag.default = none ∨ node.childrenOf tag.key ≠ []
  · exact .inl fun fill => fillDefault_of_given fill node hgiven symbols
  · obtain ⟨hdefault, hfilled⟩ := not_or.mp hgiven
    obtain ⟨words, hwords⟩ := Option.ne_none_iff_exists'.mp hdefault
    have hempty : node.childrenOf tag.key = [] := not_not.mp hfilled
    exact .inr ⟨_, by simp [hwords], hempty, fun fill => fillDefault_of_empty fill node hwords hempty symbols⟩

theorem forM_eq_ok {items : List β} {body : β → Closing Unit} {state : Node × Symbols}
    (h : ∀ item ∈ items, body item state = .ok () state) : items.forM body state = .ok () state := by
  induction items with
  | nil => rfl
  | cons item items ih =>
    rw [List.forall_mem_cons] at h
    rw [List.forM_eq_forM, List.forM_cons, bind_of_ok h.1]
    exact ih h.2

theorem slicing_of_stuck {kind : Fault.Kind} (h : Stuck schema.properties node.words kind)
    (symbols : Symbols) :
    ∃ fault after, slicing schema (node, symbols) = .error fault after ∧ fault.kind = kind := by
  obtain ⟨fault, after, hassign, hkind⟩ := assign_of_stuck h { node with words := [] } symbols
  exact ⟨fault, after, by rw [slicing_eq, bind_of_error hassign], hkind⟩

/-- The schema has too few words for its properties, or too many. -/
def Misfit (schema : Schema) (words : List String) : Prop :=
  Stuck schema.properties words .propertyArity ∨
    ∃ slots rest, Slices schema.properties words slots rest ∧ rest ≠ [] ∧ schema.implicitTag? = none

theorem slicing_of_misfit (h : Misfit schema node.words) :
    ∃ fault after, slicing schema (node, symbols) = .error fault after ∧ fault.kind = .propertyArity := by
  obtain hstuck | ⟨slots, rest, hslices, hrest, hnone⟩ := h
  · exact slicing_of_stuck hstuck symbols
  · exact ⟨_, _, slicing_of_trailing hslices (by simp [hrest, hnone]), rfl⟩

theorem slicing_cases (schema : Schema) (node : Node) (symbols : Symbols) :
    (∃ slots rest, Slices schema.properties node.words slots rest ∧ (rest = [] ∨ schema.implicitTag?.isSome) ∧
        slicing schema (node, symbols) = .ok rest (({ node with words := [] }).filling slots, symbols)) ∨
      ∃ fault after, slicing schema (node, symbols) = .error fault after ∧
        (fault.kind = .propertyArity ∧ Misfit schema node.words ∨
          fault.kind = .propertyValue ∧ Stuck schema.properties node.words .propertyValue) := by
  obtain ⟨slots, rest, hslices⟩ | ⟨kind, hstuck⟩ := slices_or_stuck schema.properties node.words
  · by_cases hrest : rest = [] ∨ schema.implicitTag?.isSome
    · exact .inl ⟨slots, rest, hslices, hrest, slicing_of_slices hslices hrest⟩
    · have hnone : rest ≠ [] ∧ schema.implicitTag? = none := by simpa using hrest
      exact .inr ⟨_, _, slicing_of_trailing hslices hrest, .inl ⟨rfl, .inr ⟨slots, rest, hslices, hnone⟩⟩⟩
  · obtain ⟨fault, after, hslicing, rfl⟩ := slicing_of_stuck hstuck symbols
    refine .inr ⟨fault, after, hslicing, ?_⟩
    generalize fault.kind = kind at hstuck
    cases hstuck with
    | short hproperties hfront hshort => exact .inl ⟨rfl, .inl (.short hproperties hfront hshort)⟩
    | refused hproperties hfront htakes hnone => exact .inr ⟨rfl, .refused hproperties hfront htakes hnone⟩

theorem bind_of_eq {step other : Closing β} {next : β → Closing α} {state : Node × Symbols}
    (h : step state = other state) : (step >>= next) state = (other >>= next) state := by
  change EStateM.bind step next state = EStateM.bind other next state
  rw [EStateM.bind, EStateM.bind, h]

theorem run_eq_assign (fill : Tag → List String → Closing Unit) (hopened : node.phase = .opened) :
    run fill schema (node, symbols) =
      (assign schema.properties node.words >>= following fill schema)
        ({ node with words := [] }, symbols) := by
  unfold run
  change (if node.phase = .opened then _ else _ : Closing Unit) (node, symbols) = _
  rw [if_pos hopened]
  rfl

theorem run_of_not_opened {fill : Tag → List String → Closing Unit} (h : node.phase ≠ .opened)
    (symbols : Symbols) : run fill schema (node, symbols) = .ok () (node, symbols) := by
  unfold run
  change (if node.phase = .opened then _ else _ : Closing Unit) (node, symbols) = _
  rw [if_neg h]
  rfl

/-- Closing slices the words, gives the implicit tag those that are left over, and concludes. -/
theorem run_eq_slicing (fill : Tag → List String → Closing Unit)
    (hsignature : node.signature = schema.toSignature) (hopened : node.phase = .opened) (symbols : Symbols) :
    run fill schema (node, symbols) = (slicing schema >>= following fill schema) (node, symbols) := by
  rw [run_eq_assign fill hopened]
  cases hassign : assign schema.properties node.words ({ node with words := [] }, symbols) with
  | error fault after =>
    have hslicing : slicing schema (node, symbols) = .error fault after := by
      rw [slicing_eq, bind_of_error hassign]
    rw [bind_of_error hassign, bind_of_error hslicing]
  | ok rest after =>
    obtain ⟨slots, left, hslices⟩ | ⟨kind, hstuck⟩ := slices_or_stuck schema.properties node.words
    · obtain ⟨rfl, rfl⟩ : left = rest ∧ (({ node with words := [] }).filling slots, symbols) = after := by
        simpa using (assign_of_slices hslices).symm.trans hassign
      rw [bind_of_ok hassign]
      by_cases hrest : left = [] ∨ schema.implicitTag?.isSome
      · rw [bind_of_ok (slicing_of_slices hslices hrest)]
      · have hnone : (({ node with words := [] } : Node).filling slots).signature.implicitTag? = none := by
          rw [Node.signature_filling, hsignature]
          simpa using (not_or.mp hrest).2
        have hrefused := fillImplicit_of_none fill _ (not_or.mp hrest).1 hnone symbols
        rw [bind_of_error (slicing_of_trailing hslices hrest), following, bind_of_error hrefused,
          Node.fault_filling, Node.tag_filling]
        rfl
    · obtain ⟨fault, lost, hfailed, -⟩ := assign_of_stuck hstuck { node with words := [] } symbols
      cases hfailed.symm.trans hassign

end slicing

end Closing

theorem Node.exists_attach_of_adopt {node child after : Node} (h : node.adopt child = .ok after) :
    ∃ tag ∈ node.signature.tags, ∃ taken : Node,
      tag.key = child.tag ∧ taken.tag = child.tag ∧ after = node.attach taken := by
  rcases adopt_cases node child with ⟨tag, taken, htag, htaken, -, hok, -⟩ | ⟨fault, herror, -⟩
  · cases hok.symm.trans h
    have hkey : tag.key = child.tag := by simpa using List.find?_some htag
    exact ⟨tag, List.mem_of_find?_eq_some htag, taken, hkey, htaken.tag_eq, rfl⟩
  · cases herror.symm.trans h

namespace Closing

/-- The step, if it succeeds, keeps what holds of the node. -/
def Maintains (I : Node → Prop) (step : Closing α) : Prop :=
  ∀ node symbols a after registered, I node → step (node, symbols) = .ok a (after, registered) → I after

namespace Maintains

variable {I : Node → Prop}

theorem pure (a : α) : Maintains I (Pure.pure a) := by
  intro node symbols _ after registered hnode hrun
  cases hrun
  exact hnode

theorem bind {step : Closing β} {next : β → Closing α} (hstep : Maintains I step)
    (hnext : ∀ b, Maintains I (next b)) : Maintains I (step >>= next) := by
  intro node symbols a after registered hnode hrun
  obtain ⟨b, ⟨between, granted⟩, hfirst, hsecond⟩ := bind_eq_ok hrun
  have hbetween : I between := hstep node symbols b between granted hnode hfirst
  exact hnext b between granted a after registered hbetween hsecond

theorem forM {items : List β} {body : β → Closing Unit} (h : ∀ item ∈ items, Maintains I (body item)) :
    Maintains I (items.forM body) := by
  induction items with
  | nil => exact .pure ()
  | cons item items ih =>
    rw [List.forall_mem_cons] at h
    exact h.1.bind fun _ => ih h.2

theorem of_quiet {step : Closing α} {E : Fault → Prop} (h : Quiet I step (fun _ => I) E) :
    Maintains I step := by
  intro node symbols a after registered hnode hrun
  rcases h node hnode with ⟨_, left, hleft, hok⟩ | ⟨_, _, -, herror⟩
  · cases (hok symbols).symm.trans hrun
    exact hleft
  · cases (herror symbols).symm.trans hrun

theorem complete {completion : Completion}
    (h : ∀ node after, I node → completion node = .ok () after → I after) :
    Maintains I (Closing.complete completion) := by
  refine .of_quiet (E := fun _ => True) (quiet_complete completion ?_ fun _ _ _ _ _ => trivial)
  exact fun node hnode after => h node after hnode

theorem check (check : NodeCheck) : Maintains I (Closing.check check) := by
  refine .of_quiet (E := fun _ => True) ?_
  exact (quiet_check check fun _ _ => trivial).conseq (fun _ hnode => hnode) fun _ _ hnode => hnode.1

theorem register (registration : Registration) : Maintains I (Closing.register registration) := by
  intro node symbols _ after registered hnode hrun
  unfold Closing.register at hrun
  dsimp only at hrun
  split at hrun
  · cases hrun
    exact hnode
  · split at hrun
    · cases hrun
      exact hnode
    · cases hrun

theorem fillImplicit {fill : Tag → List String → Closing Unit} (hfill : ∀ tag words, Maintains I (fill tag words))
    (words : List String) : Maintains I (Closing.fillImplicit fill words) := by
  intro node symbols _ after registered hnode hrun
  rcases fillImplicit_cases node words symbols with hnothing | ⟨fault, hfails⟩ | ⟨tag, -, -, hfills⟩
  · cases (hnothing fill).symm.trans hrun
    exact hnode
  · cases (hfails fill).symm.trans hrun
  · exact hfill tag words _ _ _ _ _ hnode ((hfills fill).symm.trans hrun)

theorem fillDefault {fill : Tag → List String → Closing Unit} {tag : Tag}
    (h : (∃ node, I node ∧ node.childrenOf tag.key = []) → ∀ words, Maintains I (fill tag words)) :
    Maintains I (Closing.fillDefault fill tag) := by
  intro node symbols _ after registered hnode hrun
  rcases fillDefault_cases tag node symbols with hnothing | ⟨words, -, hempty, hfills⟩
  · cases (hnothing fill).symm.trans hrun
    exact hnode
  · exact h ⟨node, hnode, hempty⟩ words _ _ _ _ _ hnode ((hfills fill).symm.trans hrun)

theorem concluding {fill : Tag → List String → Closing Unit} {schema : Schema}
    (hfill : ∀ tag ∈ schema.tags, (∃ node, I node ∧ node.childrenOf tag.key = []) →
      ∀ words, Maintains I (fill tag words))
    (hcomplete : ∀ completion ∈ schema.completions, ∀ node after, I node →
      completion node = .ok () after → I after)
    (hphase : ∀ node, I node → I { node with phase := .closed }) :
    Maintains I (Closing.concluding fill schema) := by
  refine (forM fun tag htag => fillDefault (hfill tag htag)).bind fun _ => ?_
  refine (forM fun completion hcompletion => complete (hcomplete completion hcompletion)).bind fun _ => ?_
  refine (forM fun check _ => .check check).bind fun _ => ?_
  refine (forM fun registration _ => .register registration).bind fun _ => ?_
  exact .of_quiet (E := fun _ => True) (.modifyNode hphase)

end Maintains

theorem fillWith_eq_ok {closeChild : Schema → Closing Unit} {grammar : Grammar} {tag : Tag}
    {words : List String} {node after : Node} {symbols registered : Symbols}
    (h : fillWith closeChild grammar tag words (node, symbols) = .ok () (after, registered)) :
    after = node ∨ ∃ inner closed, tag.schema.bind grammar.find? = some inner ∧
      closeChild inner ({ Node.start tag.key inner.toSignature node.place with words }, symbols) =
        .ok () (closed, registered) ∧ node.adopt closed = .ok after := by
  unfold fillWith at h
  cases htag : tag.schema with
  | none =>
    simp only [htag] at h
    cases h
    exact .inl rfl
  | some name =>
    cases hfound : grammar.find? name with
    | none =>
      simp only [htag, hfound] at h
      cases h
    | some inner =>
      simp only [htag, hfound] at h
      split at h
      · cases h
      · next closed _ hclosed =>
        split at h
        · cases h
        · next adopted hadopt =>
          cases h
          exact .inr ⟨inner, closed, hfound, hclosed, hadopt⟩

def Holding (schema : Schema) (values : Keyword → Option Datum) (node : Node) : Prop :=
  node.signature = schema.toSignature ∧
    ∀ property ∈ schema.properties, node.values property.key = values property.key

theorem maintains_holding_fillWith {schema : Schema} (hnodup : schema.keys.Nodup)
    (values : Keyword → Option Datum) (closeChild : Schema → Closing Unit) (grammar : Grammar) (tag : Tag)
    (words : List String) : Maintains (Holding schema values) (fillWith closeChild grammar tag words) := by
  rintro node symbols _ after registered ⟨hsignature, hvalues⟩ hrun
  rcases fillWith_eq_ok hrun with rfl | ⟨inner, closed, -, -, hadopt⟩
  · exact ⟨hsignature, hvalues⟩
  · obtain ⟨own, hown, taken, hkey, htaken, rfl⟩ := Node.exists_attach_of_adopt hadopt
    refine ⟨hsignature, fun property hproperty => ?_⟩
    rw [hsignature] at hown
    have hapart : property.key ≠ taken.tag := by
      rw [htaken, ← hkey]
      exact schema.property_ne_tag hnodup hproperty hown
    rw [Node.values_attach, if_neg hapart, hvalues property hproperty]

def filler (grammar : Grammar) : Tag → List String → Closing Unit :=
  fillWith (within grammar (SchemaName.all.length - 1)) grammar

end Closing

namespace Node

/-- The words of a node are dealt out: each went, in order, to one property or is left over, and the
properties that took words hold what these make. -/
structure Sliced (schema : Schema) (node filled : Node) (slots : List Slot) (rest : List String) : Prop where
  slices : Slices schema.properties node.words slots rest
  conserved : slots.flatMap (·.words) ++ rest = node.words
  made : ∀ slot ∈ slots, slot.property.Makes slot.words slot.value ∧
    filled.values slot.property.key = some slot.value
  unset : ∀ property ∈ schema.properties, property ∉ slots.map (·.property) →
    filled.values property.key = node.values property.key
  same : filled = { node with words := [], values := filled.values, children := filled.children }

theorem sliced_filling {schema : Schema} (hnodup : schema.keys.Nodup) {node : Node} {slots : List Slot}
    {rest : List String} (h : Slices schema.properties node.words slots rest) :
    Sliced schema node (({ node with words := [] }).filling slots) slots rest := by
  have hproperties := (List.nodup_append.mp hnodup).1
  have hslots : (slots.map (·.property.key)).Nodup := by
    have hkeys := h.sublist.map (·.key)
    rw [List.map_map] at hkeys
    exact hproperties.sublist hkeys
  refine ⟨h, h.append, fun slot hslot => ⟨h.makes slot hslot, values_filling hslots _ slot hslot⟩, ?_,
    filling_eq slots _⟩
  intro property hproperty hunset
  refine (holding_filling (fun hkey => hunset ?_) _).1
  obtain ⟨slot, hslot, hkey⟩ := List.mem_map.mp hkey
  have hmem := h.sublist.subset (List.mem_map.mpr ⟨slot, hslot, rfl⟩)
  exact List.mem_map.mpr ⟨slot, hslot, List.inj_on_of_nodup_map hproperties hmem hproperty hkey⟩

theorem childrenOf_filling_of_tag {schema : Schema} (hnodup : schema.keys.Nodup) {node : Node}
    {slots : List Slot} {rest : List String} (h : Slices schema.properties node.words slots rest) {tag : Tag}
    (htag : tag ∈ schema.tags) (hempty : node.childrenOf tag.key = []) :
    (({ node with words := [] } : Node).filling slots).childrenOf tag.key = [] := by
  have hkey := h.key_not_mem fun property hproperty => schema.property_ne_tag hnodup hproperty htag
  exact (holding_filling hkey { node with words := [] }).2.trans hempty

theorem close_eq_assign (node : Node) (hopened : node.phase = .opened) (grammar : Grammar) (schema : Schema)
    (symbols : Symbols) :
    close grammar schema (node, symbols) =
      (assign schema.properties node.words >>= following (filler grammar) schema)
        ({ node with words := [] }, symbols) :=
  run_eq_assign _ hopened

section close

variable {schema : Schema} {node : Node} {slots : List Slot} {rest : List String} (hnodup : schema.keys.Nodup)
  (hsignature : node.signature = schema.toSignature) (hopened : node.phase = .opened)
include hopened

theorem close_of_slices_nil (hslices : Slices schema.properties node.words slots []) (grammar : Grammar)
    (symbols : Symbols) :
    close grammar schema (node, symbols) =
      concluding (filler grammar) schema (({ node with words := [] } : Node).filling slots, symbols) := by
  rw [close_eq_assign node hopened, bind_of_ok (assign_of_slices hslices)]
  rfl

include hnodup hsignature

theorem close_of_slices (hslices : Slices schema.properties node.words slots rest) (hrest : rest ≠ [])
    {tag : Tag} (htag : schema.implicitTag? = some tag) (hempty : node.childrenOf tag.key = [])
    (grammar : Grammar) (symbols : Symbols) :
    close grammar schema (node, symbols) =
      (filler grammar tag rest >>= fun _ => concluding (filler grammar) schema)
        (({ node with words := [] } : Node).filling slots, symbols) := by
  have hsame : (({ node with words := [] } : Node).filling slots).signature.implicitTag? = some tag := by
    rw [signature_filling]
    exact hsignature ▸ htag
  have hnone := childrenOf_filling_of_tag hnodup hslices (List.mem_of_find?_eq_some htag) hempty
  rw [close_eq_assign node hopened, bind_of_ok (assign_of_slices hslices)]
  exact bind_of_eq (fillImplicit_of_some _ _ hrest hsame hnone symbols)

/-- What the slots filled is there in the end, unless completions replace it. -/
theorem values_of_close (hcompletions : schema.completions = [])
    (hslices : Slices schema.properties node.words slots rest)
    (himplicit : rest ≠ [] → ∃ tag, schema.implicitTag? = some tag ∧ node.childrenOf tag.key = [])
    {grammar : Grammar} {symbols registered : Symbols} {closed : Node}
    (hclosed : close grammar schema (node, symbols) = .ok () (closed, registered)) :
    ∀ property ∈ schema.properties,
      closed.values property.key =
        (({ node with words := [] } : Node).filling slots).values property.key := by
  generalize hfilled : ({ node with words := [] } : Node).filling slots = filled at *
  have hheld : Holding schema filled.values filled := by
    refine ⟨?_, fun _ _ => rfl⟩
    rw [← hfilled, signature_filling]
    exact hsignature
  have hfill (tag : Tag) (words : List String) :
      Maintains (Holding schema filled.values) (filler grammar tag words) :=
    maintains_holding_fillWith hnodup filled.values _ grammar tag words
  have hconcluding : Maintains (Holding schema filled.values) (concluding (filler grammar) schema) :=
    .concluding (fun tag _ _ => hfill tag) (by simp [hcompletions]) fun _ hnode => hnode
  by_cases hrest : rest = []
  · rw [close_of_slices_nil hopened (hrest ▸ hslices), hfilled] at hclosed
    exact (hconcluding _ _ _ _ _ hheld hclosed).2
  · obtain ⟨tag, htag, hempty⟩ := himplicit hrest
    rw [close_of_slices hnodup hsignature hopened hslices hrest htag hempty, hfilled] at hclosed
    exact ((hfill tag rest).bind (fun _ => hconcluding) _ _ _ _ _ hheld hclosed).2

end close

end Node
end TagSchema
