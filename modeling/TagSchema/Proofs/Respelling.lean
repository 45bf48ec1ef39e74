import TagSchema.Proofs.Folding
import TagSchema.Proofs.Slicing

/-! When it makes no difference to closing a node how a value is spelled. A step that is blind to a key comes
to the same with any other text there, also where the schema restricts its properties to some literals. -/
namespace TagSchema
open Closing

def Signature.restrict (allowed : Vocabulary) (signature : Signature) : Signature :=
  { signature with properties := signature.properties.map (·.allowing allowed) }

def Schema.restrict (allowed : Vocabulary) (schema : Schema) : Schema :=
  { schema with properties := schema.properties.map (·.allowing allowed) }

namespace Node

/-- The node of the restricted schema with another text where the key has a value. -/
def respell (allowed : Vocabulary) (key : Keyword) (text : String) (node : Node) : Node :=
  { node with
    signature := node.signature.restrict allowed
    values := fun k => if k = key then (node.values k).map fun _ => .text text else node.values k }

variable {allowed : Vocabulary} {key : Keyword} {text : String} {node child : Node}

theorem values_respell (allowed : Vocabulary) (key : Keyword) (text : String) (node : Node) (k : Keyword) :
    (node.respell allowed key text).values k =
      if k = key then (node.values k).map fun _ => .text text else node.values k := rfl

theorem tag_respell (allowed : Vocabulary) (key : Keyword) (text : String) (node : Node) :
    (node.respell allowed key text).tag = node.tag := rfl

theorem place_respell (allowed : Vocabulary) (key : Keyword) (text : String) (node : Node) :
    (node.respell allowed key text).place = node.place := rfl

theorem respell_set (allowed : Vocabulary) (key : Keyword) (text : String) (value : Datum) (node : Node) :
    (node.set key value).respell allowed key text =
      { node with signature := node.signature.restrict allowed }.set key (.text text) := by
  have hvalues : (fun k => if k = key then ((node.set key value).values k).map fun _ => Datum.text text
      else (node.set key value).values k) = fun k => if k = key then some (.text text) else node.values k := by
    funext k
    by_cases hk : k = key <;> simp [hk]
  rw [respell, hvalues]
  rfl

theorem respell_of_unset (node : Node) (h : node.values key = none) (allowed : Vocabulary) (text : String) :
    node.respell allowed key text = { node with signature := node.signature.restrict allowed } := by
  have hvalues : (fun k => if k = key then (node.values k).map fun _ => Datum.text text else node.values k) =
      node.values := by
    funext k
    by_cases hk : k = key
    · simp [hk, h]
    · simp [hk]
  rw [respell, hvalues]

theorem attach_respell (h : child.tag ≠ key) :
    (node.respell allowed key text).attach child = (node.attach child).respell allowed key text := by
  have hvalues : (fun k => if k = child.tag then none
        else if k = key then (node.values k).map fun _ => Datum.text text else node.values k) =
      fun k => if k = key then (if k = child.tag then none else node.values k).map fun _ => Datum.text text
        else if k = child.tag then none else node.values k := by
    funext k
    by_cases hk : k = child.tag
    · simp [hk, h]
    · simp [hk]
  simp only [attach, respell, hvalues]

theorem adopt_respell (h : ∀ tag ∈ node.signature.tags, tag.key ≠ key) :
    (node.respell allowed key text).adopt child =
      (node.adopt child).map (·.respell allowed key text) := by
  have htag? : (node.respell allowed key text).signature.tag? child.tag = node.signature.tag? child.tag := rfl
  unfold adopt
  rw [htag?]
  cases htag : node.signature.tag? child.tag with
  | none => rfl
  | some tag =>
    have hkey : tag.key = child.tag := by simpa using List.find?_some htag
    rcases canonize_cases tag child with ⟨taken, htaken, hcanonized, -⟩ | ⟨fault, hfailed, -, -⟩
    · have hother : taken.tag ≠ key := by
        rw [hcanonized.tag_eq, ← hkey]
        exact h tag (List.mem_of_find?_eq_some htag)
      have hrival : (node.respell allowed key text).rival? taken = node.rival? taken := rfl
      simp only [htaken, bind, Except.bind, hrival, attach_respell hother]
      split <;> rfl
    · simp only [hfailed, bind, Except.bind, Except.map]

end Node

namespace Closing

def mapNode (change : Node → Node) :
    EStateM.Result Fault (Node × Symbols) α → EStateM.Result Fault (Node × Symbols) α
  | .ok a (node, symbols) => .ok a (change node, symbols)
  | .error fault (node, symbols) => .error fault (change node, symbols)

/-- From a node of the schema, the step goes the same way whatever text the key holds. It leaves the node its
tag and schema, and the key its value. -/
def Blind (schema : Schema) (key : Keyword) (step : Closing α) : Prop :=
  ∀ node symbols, node.signature = schema.toSignature →
    (∀ allowed text, step (node.respell allowed key text, symbols) =
      mapNode (·.respell allowed key text) (step (node, symbols))) ∧
    ∀ a after registered, step (node, symbols) = .ok a (after, registered) →
      after.tag = node.tag ∧ after.signature = schema.toSignature ∧ after.values key = node.values key

namespace Blind

variable {schema : Schema} {key : Keyword}

theorem pure (a : α) : Blind schema key (Pure.pure a : Closing α) := by
  refine fun node symbols hsignature => ⟨fun _ _ => rfl, ?_⟩
  rintro _ _ _ ⟨⟩
  exact ⟨rfl, hsignature, rfl⟩

theorem bind {step : Closing β} {next : β → Closing α} (hstep : Blind schema key step)
    (hnext : ∀ b, Blind schema key (next b)) : Blind schema key (step >>= next) := by
  intro node symbols hsignature
  obtain ⟨hsame, hkept⟩ := hstep node symbols hsignature
  cases hrun : step (node, symbols) with
  | error fault after =>
    refine ⟨fun allowed text => ?_, fun a after registered h => ?_⟩
    · have hother := hsame allowed text
      rw [hrun] at hother
      rw [bind_of_error hrun, bind_of_error hother]
      rfl
    · rw [bind_of_error hrun] at h
      cases h
  | ok b between =>
    obtain ⟨between, registered⟩ := between
    obtain ⟨htag, hbetween, hvalue⟩ := hkept _ _ _ hrun
    obtain ⟨hsame', hkept'⟩ := hnext b between registered hbetween
    rw [bind_of_ok hrun]
    refine ⟨fun allowed text => ?_, fun a after registered h => ?_⟩
    · have hother := hsame allowed text
      rw [hrun] at hother
      rw [bind_of_ok hother, hsame']
    · obtain ⟨htag', hafter, hvalue'⟩ := hkept' _ _ _ h
      exact ⟨htag'.trans htag, hafter, hvalue'.trans hvalue⟩

theorem forM {body : β → Closing Unit} {items : List β} (h : ∀ item ∈ items, Blind schema key (body item)) :
    Blind schema key (items.forM body) := by
  induction items with
  | nil => exact .pure ()
  | cons item items ih =>
    rw [List.forall_mem_cons] at h
    rw [List.forM_eq_forM, List.forM_cons]
    exact bind h.1 fun _ => ih h.2

theorem look {next : Node → Closing α} (h : ∀ node, Blind schema key (next node))
    (hsame : ∀ node allowed text, next (node.respell allowed key text) = next node) :
    Blind schema key (node >>= next) := by
  intro node symbols hsignature
  obtain ⟨hblind, hkept⟩ := h node node symbols hsignature
  refine ⟨fun allowed text => ?_, hkept⟩
  change next (node.respell allowed key text) (node.respell allowed key text, symbols) = _
  rw [hsame]
  exact hblind allowed text

theorem fail (cause : Fault.Cause) : Blind schema key (Closing.fail cause : Closing α) := by
  refine fun node symbols _ => ⟨fun _ _ => rfl, ?_⟩
  rintro _ _ _ ⟨⟩

theorem check {check : NodeCheck}
    (h : ∀ node allowed text, check.accepts (node.respell allowed key text) = check.accepts node) :
    Blind schema key (Closing.check check) := by
  refine look (fun node => ?_) fun node allowed text => ?_
  · split
    · exact .pure ()
    · exact fail _
  · rw [h]
    rfl

theorem register {registration : Registration} (h : registration.key ≠ key) :
    Blind schema key (Closing.register registration) := by
  intro node symbols hsignature
  have hvalue (allowed : Vocabulary) (text : String) :
      (node.respell allowed key text).values registration.key = node.values registration.key := by
    rw [Node.values_respell, if_neg h]
  unfold Closing.register
  simp only [hvalue]
  cases (node.values registration.key).bind (·.symbol?) with
  | none =>
    refine ⟨fun _ _ => rfl, ?_⟩
    rintro _ _ _ ⟨⟩
    exact ⟨rfl, hsignature, rfl⟩
  | some name =>
    simp only [Node.place_respell, Node.tag_respell]
    cases Symbols.register name registration.space node.place registration.delimiter symbols with
    | error fault registered =>
      refine ⟨fun _ _ => rfl, ?_⟩
      rintro _ _ _ ⟨⟩
    | ok _ registered =>
      refine ⟨fun _ _ => rfl, ?_⟩
      rintro _ _ _ ⟨⟩
      exact ⟨rfl, hsignature, rfl⟩

theorem fillWith (hkey : ∀ tag ∈ schema.tags, tag.key ≠ key) (closeChild : Schema → Closing Unit)
    (grammar : Grammar) (tag : Tag) (words : List String) :
    Blind schema key (Closing.fillWith closeChild grammar tag words) := by
  unfold Closing.fillWith
  cases tag.schema with
  | none => exact .pure ()
  | some name =>
    dsimp only
    cases grammar.find? name with
    | none => exact fail _
    | some inner =>
      intro node symbols hsignature
      have htags : ∀ tag ∈ node.signature.tags, tag.key ≠ key := by
        rw [hsignature]
        exact hkey
      simp only [Node.place_respell, Node.adopt_respell htags]
      split
      · refine ⟨fun _ _ => rfl, ?_⟩
        rintro _ _ _ ⟨⟩
      · next child registered _ =>
        cases hadopt : node.adopt child with
        | error fault =>
          refine ⟨fun _ _ => rfl, ?_⟩
          rintro _ _ _ ⟨⟩
        | ok after =>
          refine ⟨fun _ _ => rfl, ?_⟩
          rintro _ _ _ ⟨⟩
          obtain ⟨own, hown, taken, hkey, htaken, rfl⟩ := Node.exists_attach_of_adopt hadopt
          have hapart : key ≠ taken.tag := by
            rw [htaken, ← hkey]
            exact (htags own hown).symm
          refine ⟨rfl, hsignature, ?_⟩
          rw [Node.values_attach, if_neg hapart]

theorem fillDefault {fill : Tag → List String → Closing Unit}
    (hfill : ∀ tag words, Blind schema key (fill tag words)) (tag : Tag) :
    Blind schema key (Closing.fillDefault fill tag) := by
  unfold Closing.fillDefault
  split
  · next words _ =>
    refine look (fun node => ?_) fun _ _ _ => rfl
    split
    · exact hfill tag _
    · exact .pure ()
  · exact .pure ()

theorem fillImplicit {fill : Tag → List String → Closing Unit}
    (hfill : ∀ tag words, Blind schema key (fill tag words)) (words : List String) :
    Blind schema key (Closing.fillImplicit fill words) := by
  unfold Closing.fillImplicit
  split
  · exact .pure ()
  · refine look (fun node => ?_) fun _ _ _ => rfl
    split
    · exact fail _
    · split
      · exact hfill _ _
      · exact fail _

end Blind

end Closing

/-- Nothing that the schema does after the words are assigned pays heed to the text of a key: no completion, no
check and no registration. -/
structure Schema.Heedless (schema : Schema) (key : Keyword) : Prop where
  completion : ∀ completion ∈ schema.completions, Blind schema key (complete completion)
  check : ∀ check ∈ schema.checks, ∀ node allowed text,
    check.accepts (Node.respell allowed key text node) = check.accepts node
  registration : ∀ registration ∈ schema.registrations, registration.key ≠ key

theorem Schema.heedless_of_implied {schema : Schema} {key : Keyword} (hcompletions : schema.completions = [])
    (hchecks : ∀ complaint holds, .predicate complaint holds ∉ schema.checks)
    (hregistrations : ∀ registration ∈ schema.registrations, registration.key ≠ key) : schema.Heedless key := by
  refine ⟨by simp [hcompletions], fun check hcheck node allowed text => ?_, hregistrations⟩
  cases check with
  | requiredProperty own =>
    simp only [NodeCheck.accepts, Node.holds, Node.values_respell]
    split
    · rw [Option.isSome_map]
      rfl
    · rfl
  | requiredTag | singularTag => rfl
  | predicate complaint holds => exact absurd hcheck (hchecks complaint holds)

namespace Closing

theorem Blind.following {schema : Schema} {key : Keyword} (hkey : ∀ tag ∈ schema.tags, tag.key ≠ key)
    (heedless : schema.Heedless key) (grammar : Grammar) (rest : List String) :
    Blind schema key (Closing.following (filler grammar) schema rest) := by
  have hfill (tag : Tag) (words : List String) : Blind schema key (filler grammar tag words) :=
    .fillWith hkey _ grammar tag words
  refine .bind (.fillImplicit hfill rest) fun _ => .bind (.forM fun tag _ => .fillDefault hfill tag) fun _ => ?_
  refine .bind (.forM heedless.completion) fun _ => ?_
  refine .bind (.forM fun check hcheck => .check (heedless.check check hcheck)) fun _ => ?_
  refine .bind (.forM fun registration h => .register (heedless.registration registration h)) fun _ => ?_
  intro node symbols hsignature
  refine ⟨fun _ _ => rfl, ?_⟩
  rintro _ _ _ ⟨⟩
  exact ⟨rfl, hsignature, rfl⟩

end Closing
end TagSchema
