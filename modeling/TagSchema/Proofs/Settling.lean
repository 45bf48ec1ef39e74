import TagSchema.Proofs.Adoption
import TagSchema.Proofs.Completion
import TagSchema.Proofs.Quiet

/-! Settling is all of closing that comes before the registrations. It is quiet, it makes a node
conform to its schema, and what it complains about lies at the node's own place. -/
namespace TagSchema
open Grammar Node

structure Fault.Flaw (place : Place) (fault : Fault) : Prop where
  place : fault.place = place
  tag : fault.tag.isSome
  kind : fault.kind ∈ [.propertyArity, .propertyValue, .tagCardinality]

namespace Closing

def settle (fill : Tag → List String → Closing Unit) (schema : Schema) : Closing Unit := do
  let words := (← node).words
  modifyNode fun node => { node with words := [] }
  fillImplicit fill (← assign schema.properties words)
  schema.tags.forM (fillDefault fill)
  schema.completions.forM complete
  schema.checks.forM check

theorem run_of_opened (fill : Tag → List String → Closing Unit) (schema : Schema) {node : Node}
    (h : node.phase = .opened) (symbols : Symbols) :
    run fill schema (node, symbols) =
      (do
        settle fill schema
        schema.registrations.forM register
        modifyNode fun node => { node with phase := .closed } : Closing Unit) (node, symbols) := by
  simp only [settle, bind_assoc]
  unfold run
  change (if node.phase = .opened then _ else _ : Closing Unit) (node, symbols) = _
  rw [if_pos h]

variable {start : Node} {fill : Tag → List String → Closing Unit}

theorem flaw {node : Node} (progress : Progress start node) {cause : Fault.Cause}
    (h : cause.kind ∈ [.propertyArity, .propertyValue, .tagCardinality]) :
    (node.fault cause).Flaw start.place :=
  ⟨progress.place, rfl, h⟩

theorem kind_of_slice {tag : Keyword} {property : Property} {words : List String}
    {cause : Fault.Cause} (h : property.slice tag words = .error cause) :
    cause.kind = .propertyArity := by
  unfold Property.slice at h
  split at h
  · split at h
    · cases h
    · split at h <;> cases h
      rfl
  · dsimp only at h
    split at h
    · cases h
      rfl
    · split at h <;> cases h

theorem kind_of_read {property : Property} {words : List String} {cause : Fault.Cause}
    (h : property.read words = .error cause) : cause.kind = .propertyValue := by
  unfold Property.read at h
  cases hconversion : Conversion.applyAll property.conversions
      (.text (" ".intercalate words)) with
  | error failure =>
    simp only [hconversion, Except.mapError, bind, Except.bind] at h
    cases h
    rfl
  | ok converted =>
    simp only [hconversion, Except.mapError, bind, Except.bind] at h
    split at h <;> cases h
    rfl

theorem quiet_assign_of {P : Node → Prop} {E : Fault → Prop} (properties : List Property)
    (words : List String)
    (hset : ∀ property ∈ properties, ∀ value, property.Admits value → ∀ node, P node →
      P (node.set property.key value))
    (hfault : ∀ cause : Fault.Cause, cause.kind ∈ [.propertyArity, .propertyValue, .tagCardinality] →
      ∀ node, P node → E (node.fault cause)) :
    Quiet P (assign properties words) (fun _ => P) E := by
  induction properties generalizing words with
  | nil => exact .pure fun node hnode => hnode
  | cons property properties ih =>
    rw [List.forall_mem_cons] at hset
    have hrest := fun rest => ih rest hset.2
    refine .look fun node hnode => .bind (R := fun _ => P) ?_ fun (taken, rest) => ?_
    · refine .attempt (fun _ _ _ hsame => hsame ▸ hnode) fun cause hcause _ hsame => ?_
      exact hfault cause (by rw [kind_of_slice hcause]; decide) _ (hsame ▸ hnode)
    · cases taken with
      | none => exact hrest rest
      | some taken =>
        refine .bind (R := fun value node => P node ∧ property.Admits value) ?_
          fun value => .bind (R := fun _ => P) ?_ fun _ => hrest rest
        · refine .attempt (fun value hvalue node hnode => ⟨hnode, ?_⟩) fun cause hcause _ hnode => ?_
          · exact Property.admits_of_read hvalue
          · exact hfault cause (by rw [kind_of_read hcause]; decide) _ hnode
        · exact .modifyNode fun node ⟨hnode, admits⟩ => hset.1 value admits node hnode

theorem quiet_assign (properties : List Property) (words : List String)
    (h : ∀ property ∈ properties, property ∈ start.signature.properties) :
    Quiet (Progress start) (assign properties words) (fun _ => Progress start)
      (Fault.Flaw start.place) :=
  quiet_assign_of properties words
    (fun property hproperty _ admits _ progress => progress.set (h property hproperty) admits)
    fun _ hkind _ progress => flaw progress hkind

def Fills (start : Node) (fill : Tag → List String → Closing Unit) : Prop :=
  ∀ tag ∈ start.signature.tags, tag.implicit ∨ tag.default.isSome → ∀ words before,
    before.childrenOf tag.key = [] →
    Quiet (fun node => node = before ∧ Progress start node) (fill tag words)
      (fun _ node => Progress start node ∧ ∃ child, child.tag = tag.key ∧ node = before.attach child)
      (Fault.Flaw start.place)

theorem quiet_fillImplicit (hfill : Fills start fill) (words : List String) :
    Quiet (Progress start) (fillImplicit fill words) (fun _ => Progress start)
      (Fault.Flaw start.place) := by
  cases words with
  | nil => exact .pure fun _ hnode => hnode
  | cons word rest =>
    refine .look fun node progress => ?_
    have hfail {cause : Fault.Cause}
        (h : cause.kind ∈ [.propertyArity, .propertyValue, .tagCardinality]) :
        Quiet (· = node) (fail cause) (fun _ : Unit => Progress start) (Fault.Flaw start.place) :=
      .fail fun _ hsame => flaw (hsame ▸ progress) h
    split
    · exact hfail (by simp [Fault.Cause.kind])
    · next tag htag =>
      split
      · next hempty =>
        have hmem : tag ∈ start.signature.tags := by
          rw [← progress.signature]
          exact List.mem_of_find?_eq_some htag
        have himplicit : tag.implicit = true := List.find?_some htag
        have hquiet := hfill tag hmem (.inl himplicit) (word :: rest) node (List.isEmpty_iff.mp hempty)
        refine hquiet.conseq ?_ ?_
        · rintro _ rfl
          exact ⟨rfl, progress⟩
        · exact fun _ _ hnode => hnode.1
      · exact hfail (by simp [Fault.Cause.kind])

def Present (tags : List Tag) (node : Node) : Prop :=
  ∀ tag ∈ tags, tag.default.isSome → node.childrenOf tag.key ≠ []

theorem quiet_fillDefaults (hfill : Fills start fill) :
    Quiet (Progress start) (start.signature.tags.forM (fillDefault fill))
      (fun _ node => Progress start node ∧ Present start.signature.tags node)
      (Fault.Flaw start.place) := by
  refine .conseq (.forM (I := fun tags node => Progress start node ∧ Present tags node) _
    fun done tag htag => ?_) (fun _ hnode => ⟨hnode, fun _ h => absurd h List.not_mem_nil⟩)
    fun _ _ hnode => hnode
  have hskip {node : Node} (h : tag.default.isSome → node.childrenOf tag.key ≠ [])
      (hdone : Present done node) : Present (done ++ [tag]) node := by
    intro other hother hdefault
    rcases List.mem_append.mp hother with hother | hother
    · exact hdone other hother hdefault
    · cases List.mem_singleton.mp hother
      exact h hdefault
  unfold fillDefault
  split
  · next words hdefault =>
    refine .look fun node ⟨progress, hdone⟩ => ?_
    split
    · next hempty =>
      have hquiet := hfill tag htag (.inr (by simp [hdefault])) (Text.words words.toList) node
        (List.isEmpty_iff.mp hempty)
      refine hquiet.conseq (fun _ hsame => ⟨hsame, hsame ▸ progress⟩) ?_
      rintro _ _ ⟨hafter, child, hchild, rfl⟩
      refine ⟨hafter, hskip (by simp [hchild]) fun other hother hdefault' => ?_⟩
      rw [childrenOf_attach]
      split
      · simp
      · exact hdone other hother hdefault'
    · next hpresent =>
      exact .pure fun _ hsame =>
        hsame ▸ ⟨progress, hskip (fun _ => by simpa using hpresent) hdone⟩
  · next hdefault =>
    exact .pure fun _ ⟨progress, hdone⟩ => ⟨progress, hskip (by simp [hdefault]) hdone⟩

theorem quiet_complete {P Q : Node → Prop} {E : Fault → Prop} (completion : Completion)
    (hok : ∀ node, P node → ∀ after, completion node = .ok () after → Q after)
    (herror : ∀ node, P node → ∀ complaint after, completion node = .error complaint after →
      E (after.fault (.incomplete complaint))) :
    Quiet P (complete completion) (fun _ => Q) E := by
  intro node hnode
  cases hrun : completion node with
  | ok _ after => exact .inl ⟨(), after, hok node hnode after hrun, fun _ => by simp [complete, hrun]⟩
  | error complaint after =>
    exact .inr ⟨after.fault (.incomplete complaint), after, herror node hnode complaint after hrun,
      fun _ => by simp [complete, hrun]⟩

theorem quiet_check {P : Node → Prop} {E : Fault → Prop} (check : NodeCheck)
    (hfault : ∀ node, P node → E (node.fault (check.cause node.signature.name))) :
    Quiet P (Closing.check check) (fun _ node => P node ∧ check.accepts node) E := by
  refine .look fun node hnode => ?_
  by_cases haccepts : check.accepts node
  · rw [if_pos haccepts]
    exact .pure fun _ hsame => hsame ▸ ⟨hnode, haccepts⟩
  · rw [if_neg haccepts]
    exact .fail fun _ hsame => hsame ▸ hfault node hnode

theorem quiet_completions {name : SchemaName} (hname : start.signature = Standard.signature name)
    (tags : List Tag) :
    Quiet (fun node => Progress start node ∧ Present tags node)
      ((Standard.schema name).completions.forM complete)
      (fun _ node => Progress start node ∧ Present tags node) (Fault.Flaw start.place) := by
  refine .forM (I := fun _ node => Progress start node ∧ Present tags node) _
    fun _ completion hcompletion => quiet_complete completion ?_ ?_
  · rintro node ⟨progress, hpresent⟩ after hrun
    obtain ⟨hafter, hlength⟩ := (progress.complete hname hcompletion).1 after hrun
    refine ⟨hafter, fun tag htag hdefault => ?_⟩
    have := hpresent tag htag hdefault
    rw [← List.length_pos_iff] at this ⊢
    rwa [hlength]
  · rintro node ⟨progress, -⟩ complaint after hrun
    have hplace := (progress.complete hname hcompletion).2 complaint after hrun
    exact ⟨hplace.trans progress.place, rfl, by simp [fault, Fault.kind, Fault.Cause.kind]⟩

theorem quiet_checks (checks : List NodeCheck) {I : Node → Prop}
    (hplace : ∀ node, I node → node.place = start.place) :
    Quiet I (checks.forM Closing.check)
      (fun _ node => I node ∧ ∀ check ∈ checks, check.accepts node) (Fault.Flaw start.place) := by
  refine .conseq (.forM (I := fun done node => I node ∧ ∀ check ∈ done, check.accepts node) _
    fun done check hcheck => ?_) (fun _ hnode => ⟨hnode, by simp⟩) fun _ _ hnode => hnode
  refine (quiet_check check fun node hnode => ?_).conseq (fun _ hnode => hnode) ?_
  · refine ⟨hplace _ hnode.1, rfl, ?_⟩
    cases check <;> simp [fault, Fault.kind, NodeCheck.cause, Fault.Cause.kind]
  · rintro _ node ⟨⟨hnode, hdone⟩, haccepts⟩
    exact ⟨hnode, List.forall_mem_append.mpr ⟨hdone, List.forall_mem_singleton.mpr haccepts⟩⟩

end Closing

namespace Node

structure Gathering (node : Node) : Prop where
  sound : node.Sound
  settled : ∀ child ∈ node.children, child.Every Settled
  opened : node.phase = .opened

structure Closed (start node : Node) : Prop where
  settled : node.Every Settled
  signature : node.signature = start.signature
  tag : node.tag = start.tag
  place : node.place = start.place
  grows : Grows start node

theorem gathering_start (tag : Keyword) (name : SchemaName) (place : Place) (words : List String) :
    { start tag (Standard.signature name) place with words }.Gathering := by
  refine ⟨⟨?_, nofun, nofun, ?_, ?_, .nil⟩, nofun, rfl⟩
  · simp [start]
  · simp [start, childrenOf]
  · simp [start, childrenOf]

theorem Gathering.progress {node : Node} (gathering : node.Gathering) :
    Progress node { node with words := [] } :=
  ⟨gathering.sound.withWords [], gathering.settled, rfl, rfl, rfl, rfl, .refl node⟩

theorem adopt_plain {node child : Node} {tag : Tag}
    (htag : node.signature.tag? child.tag = some tag) (hallowed : tag.allowed = none)
    (hunique : tag.unique = none) : node.adopt child = .ok (node.attach child) :=
  adopt_eq_attach htag (by simp [hallowed]) (by simp [hunique])

theorem flaw_of_normalize {allowed : Vocabulary} {node : Node} {fault : Fault}
    (h : node.normalize allowed = .error fault) : fault.Flaw node.place := by
  unfold normalize at h
  split at h
  · cases h
  · split at h
    · cases h
    · split at h
      · cases h
      · cases h
        exact ⟨rfl, rfl, by simp [fault, Fault.kind, Fault.Cause.kind]⟩

theorem flaw_of_adopt {node child : Node} {tag : Tag} {fault : Fault}
    (htag : node.signature.tag? child.tag = some tag) (h : node.adopt child = .error fault) :
    fault.Flaw child.place := by
  simp only [adopt, htag] at h
  cases hadopted : tag.allowed.elim (.ok child) child.normalize with
  | error found =>
    simp only [hadopted, bind, Except.bind, Except.error.injEq] at h
    subst h
    cases hallowed : tag.allowed with
    | none => simp [hallowed] at hadopted
    | some allowed =>
      simp only [hallowed, Option.elim_some] at hadopted
      exact flaw_of_normalize hadopted
  | ok adopted =>
    have hplace : adopted.place = child.place := by
      cases hallowed : tag.allowed with
      | none =>
        simp only [hallowed, Option.elim_none, Except.ok.injEq] at hadopted
        rw [hadopted]
      | some allowed =>
        simp only [hallowed, Option.elim_some] at hadopted
        rcases (normalize_eq_ok hadopted).1 with rfl | ⟨key, text, -, rfl⟩
        · rfl
        · rfl
    simp only [hadopted, bind, Except.bind] at h
    split at h
    · cases h
      exact ⟨hplace, rfl, by simp [fault, Fault.kind, Fault.Cause.kind]⟩
    · cases h

end Node

namespace Closing

variable {start : Node} {name : SchemaName} {fill : Tag → List String → Closing Unit}

def Ready (start node : Node) : Prop :=
  Closed start { node with phase := .closed }

theorem quiet_settle (hname : start.signature = Standard.signature name)
    (gathering : start.Gathering) (hfill : Fills start fill) :
    Quiet (· = start) (settle fill (Standard.schema name)) (fun _ => Ready start)
      (Fault.Flaw start.place) := by
  have hproperties : (Standard.schema name).properties = start.signature.properties := by
    rw [hname]
    rfl
  have htags : (Standard.schema name).tags = start.signature.tags := by
    rw [hname]
    rfl
  refine .look fun node hnode => ?_
  refine .bind (R := fun _ => Progress start)
    (.modifyNode fun _ hsame => by rw [hsame, hnode]; exact gathering.progress) fun _ => ?_
  refine .bind (quiet_assign _ _ fun property hproperty => hproperties ▸ hproperty) fun rest => ?_
  refine .bind (quiet_fillImplicit hfill rest) fun _ => ?_
  rw [htags]
  refine .bind (quiet_fillDefaults hfill) fun _ => ?_
  refine .bind (quiet_completions hname _) fun _ => ?_
  -- Progress and the defaults last through the checks, and together these make the node conform.
  refine (quiet_checks _ fun node hnode => hnode.1.place).conseq (fun _ hnode => hnode) ?_
  rintro _ node ⟨⟨progress, hpresent⟩, haccepts⟩
  have hsame : node.signature.name = name := by
    rw [progress.signature, hname, Standard.name_signature]
  have conforms : node.Conforms := by
    refine progress.sound.conforms progress.words (by rwa [hsame]) fun tag htag => ?_
    rw [progress.signature] at htag
    exact hpresent tag htag
  exact ⟨every_iff.mpr ⟨⟨conforms.phase _, rfl⟩, progress.settled⟩, progress.signature,
    progress.tag, progress.place, progress.grows⟩

theorem quiet_run (hname : start.signature = Standard.signature name)
    (gathering : start.Gathering) (hfill : Fills start fill)
    (hregistrations : (Standard.schema name).registrations = []) :
    Quiet (· = start) (run fill (Standard.schema name)) (fun _ => Closed start)
      (Fault.Flaw start.place) := by
  have hquiet : Quiet (· = start) (do
      settle fill (Standard.schema name)
      (Standard.schema name).registrations.forM register
      modifyNode fun node => { node with phase := .closed }) (fun _ => Closed start)
      (Fault.Flaw start.place) := by
    rw [hregistrations]
    refine .bind (quiet_settle hname gathering hfill) fun _ => ?_
    refine .bind (R := fun _ => Ready start) (.pure fun _ hnode => hnode) fun _ => ?_
    exact .modifyNode fun _ hnode => hnode
  intro node hnode
  simp only [run_of_opened fill (Standard.schema name) (hnode ▸ gathering.opened)]
  exact hquiet node hnode

theorem fills_of_no_tags (h : start.signature.tags = []) : Fills start fill := by
  simp [Fills, h]

theorem quiet_within_scalar (hname : start.signature = Standard.signature name)
    (gathering : start.Gathering) (hscalar : Standard.isScalar name) (depth : Nat) :
    Quiet (· = start) (within .standard depth (Standard.schema name)) (fun _ => Closed start)
      (Fault.Flaw start.place) := by
  have hfill (fill : Tag → List String → Closing Unit) : Fills start fill :=
    fills_of_no_tags (by rw [hname, Standard.tags_scalar name hscalar])
  have hregistrations := Standard.registrations_scalar name hscalar
  cases depth with
  | zero => exact quiet_run hname gathering (hfill _) hregistrations
  | succ depth => exact quiet_run hname gathering (hfill _) hregistrations

theorem fills_fillWith (start : Node) (depth : Nat) :
    Fills start (fillWith (within .standard depth) .standard) := by
  intro tag htag hfilled words before hnone node ⟨hsame, progress⟩
  subst hsame
  rw [← progress.signature] at htag
  have hfound := progress.sound.tag?_of_mem htag
  rw [progress.sound.standard] at htag
  obtain ⟨⟨name, hname, hscalar⟩, hallowed, hunique⟩ :=
    Standard.filled_scalar _ tag htag hfilled
  have hchild := quiet_within_scalar rfl (gathering_start tag.key name node.place words) hscalar
    depth _ rfl
  rcases hchild with ⟨_, child, hclosed, hrun⟩ | ⟨fault, after, hflaw, hrun⟩
  · have hkey : child.tag = tag.key := hclosed.tag
    rw [← hkey] at hfound
    have hadopt := adopt_plain hfound hallowed hunique
    have sound : (node.attach child).Sound := by
      refine progress.sound.attach hfound ⟨name, hname, hclosed.signature⟩ ?_ ?_
      · simp [hunique]
      · simp [hallowed]
    have hleaf : child.children = [] := by
      refine List.eq_nil_iff_forall_not_mem.mpr fun inner hinner => ?_
      obtain ⟨_, hdeclared, -⟩ := hclosed.settled.self.conforms.child inner hinner
      have htags : child.signature.tags = [] := by
        rw [hclosed.signature]
        exact Standard.tags_scalar name hscalar
      rw [htags] at hdeclared
      cases hdeclared
    have hafter : Progress start (node.attach child) :=
      progress.attach sound hclosed.settled (hkey ▸ hnone) (hclosed.place.trans progress.place) hleaf
    refine .inl ⟨(), node.attach child, ⟨hafter, child, hkey, rfl⟩, fun symbols => ?_⟩
    have hclose := hrun symbols
    simp only [fillWith, hname, find?_standard]
    simp only [Standard.signature] at hclose
    rw [hclose]
    simp only [hadopt]
  · refine .inr ⟨fault, node, ⟨hflaw.place.trans progress.place, hflaw.tag, hflaw.kind⟩,
      fun symbols => ?_⟩
    have hclose := hrun symbols
    simp only [fillWith, hname, find?_standard]
    simp only [Standard.signature] at hclose
    rw [hclose]

end Closing
end TagSchema
