import TagSchema.Proofs.Adoption
import TagSchema.Proofs.Conversions

/-! Folding children into a node, one after the other. A child that is folded in comes last of its tag, with
its literal brought to the lead of the literal's group; a child that is refused leaves no trace. So the
children of a tag always differ in the property that tells them apart. -/
namespace TagSchema

namespace Node

/-- What a tag takes in for a child: where the tag prescribes literals, a text scalar becomes the lead of the
first group that holds it. -/
inductive Canonized (tag : Tag) (child : Node) : Node → Prop
  | kept (h : tag.allowed = none ∨ ∀ text, child.scalar? ≠ some (.text text)) : Canonized tag child child
  | led {allowed : Vocabulary} {key : Keyword} {text : String} {group : Synonyms}
    (hallowed : tag.allowed = some allowed) (hscalar : child.signature.scalar = some key)
    (htext : child.values key = some (.text text)) (hgroup : allowed.FirstFor text group) :
    Canonized tag child (child.set key (.text group.lead))

def Illegal (tag : Tag) (child : Node) : Prop :=
  ∃ allowed text, tag.allowed = some allowed ∧ child.scalar? = some (.text text) ∧
    ∀ group ∈ allowed.groups, text ∉ group.members

/-- Why a child cannot be folded in, and the kind of fault that it is. -/
inductive Misplaced (node child : Node) : Fault.Kind → Prop
  | undeclared (h : node.signature.tag? child.tag = none) : Misplaced node child .unsupportedTag
  | illegal {tag : Tag} (htag : node.signature.tag? child.tag = some tag) (h : Illegal tag child) :
    Misplaced node child .propertyValue
  | repeated {tag : Tag} {key : Keyword} {taken sibling : Node} {value : Datum}
    (htag : node.signature.tag? child.tag = some tag) (htaken : Canonized tag child taken)
    (hunique : tag.unique = some key) (hvalue : taken.values key = some value)
    (hsibling : sibling ∈ node.childrenOf child.tag) (hsame : sibling.values key = some value) :
    Misplaced node child .tagCardinality

section adopting

variable {node child taken : Node} {tag : Tag}

section text

variable {key : Keyword} {text : String} (hscalar : child.signature.scalar = some key)
  (htext : child.values key = some (.text text)) {allowed : Vocabulary}
include hscalar htext

theorem normalize_of_legal {canonical : String} (h : allowed.canonical? text = some canonical) :
    child.normalize allowed = .ok (child.set key (.text canonical)) := by
  simp only [normalize, hscalar, text?, htext, Option.bind_some, Datum.text?, h]

theorem normalize_of_illegal (h : allowed.canonical? text = none) :
    child.normalize allowed = .error (child.fault (.illegalScalar child.tag text allowed)) := by
  simp only [normalize, hscalar, text?, htext, Option.bind_some, Datum.text?, h]

end text

theorem normalize_of_no_text (h : ∀ text, child.scalar? ≠ some (.text text)) (allowed : Vocabulary) :
    child.normalize allowed = .ok child := by
  unfold normalize
  cases hscalar : child.signature.scalar with
  | none => rfl
  | some key =>
    cases hvalue : child.values key with
    | none => simp [text?, hvalue]
    | some value =>
      cases value with
      | text text => exact absurd (by rw [scalar?, hscalar, Option.bind_some, hvalue]) (h text)
      | integer _ | boolean _ | list _ => simp [text?, hvalue, Datum.text?]

theorem Canonized.tag_eq (h : Canonized tag child taken) : taken.tag = child.tag := by
  cases h <;> rfl

theorem Canonized.canonize (h : Canonized tag child taken) :
    tag.allowed.elim (.ok child) child.normalize = .ok taken := by
  cases h with
  | kept h =>
    cases hallowed : tag.allowed with
    | none => rfl
    | some allowed => exact normalize_of_no_text (h.resolve_left (by simp [hallowed])) allowed
  | led hallowed hscalar htext hgroup =>
    rw [hallowed, Option.elim_some]
    exact normalize_of_legal hscalar htext (Vocabulary.canonical?_eq_some.mpr ⟨_, hgroup, rfl⟩)

theorem canonize_cases (tag : Tag) (child : Node) :
    (∃ taken, tag.allowed.elim (.ok child) child.normalize = .ok taken ∧ Canonized tag child taken ∧
      ¬ Illegal tag child) ∨
    ∃ fault, tag.allowed.elim (.ok child) child.normalize = .error fault ∧
      fault.kind = .propertyValue ∧ Illegal tag child := by
  cases hallowed : tag.allowed with
  | none => exact .inl ⟨child, rfl, .kept (.inl hallowed), by simp [Illegal, hallowed]⟩
  | some allowed =>
    rw [Option.elim_some]
    by_cases htext : ∃ text, child.scalar? = some (.text text)
    · obtain ⟨text, htext⟩ := htext
      obtain ⟨key, hscalar, hvalue⟩ := Option.bind_eq_some_iff.mp htext
      cases hcanonical : allowed.canonical? text with
      | some lead =>
        obtain ⟨group, hgroup, rfl⟩ := Vocabulary.canonical?_eq_some.mp hcanonical
        refine .inl ⟨_, normalize_of_legal hscalar hvalue hcanonical,
          .led hallowed hscalar hvalue hgroup, ?_⟩
        rintro ⟨allowed', text', hallowed', htext', hnone⟩
        cases hallowed.symm.trans hallowed'
        cases htext.symm.trans htext'
        cases hcanonical.symm.trans (Vocabulary.canonical?_eq_none.mpr hnone)
      | none =>
        exact .inr ⟨_, normalize_of_illegal hscalar hvalue hcanonical, rfl, allowed, text, hallowed, htext,
          Vocabulary.canonical?_eq_none.mp hcanonical⟩
    · refine .inl ⟨child, normalize_of_no_text (not_exists.mp htext) allowed,
        .kept (.inr (not_exists.mp htext)), ?_⟩
      rintro ⟨_, text, -, hscalar, -⟩
      exact htext ⟨text, hscalar⟩

theorem exists_of_rival? {rival : Node} {key : Keyword} (h : node.rival? child key = some rival) :
    ∃ value, child.values key = some value ∧ rival ∈ node.childrenOf child.tag ∧
      rival.values key = some value := by
  unfold rival? at h
  cases hvalue : child.values key with
  | none => simp [hvalue] at h
  | some value =>
    rw [hvalue] at h
    exact ⟨value, rfl, List.mem_of_find?_eq_some h, by simpa using List.find?_some h⟩

theorem misplaced_iff_of_canonized (htag : node.signature.tag? child.tag = some tag)
    (htaken : Canonized tag child taken) (hlegal : ¬ Illegal tag child) {kind : Fault.Kind} :
    Misplaced node child kind ↔
      kind = .tagCardinality ∧ ∃ key ∈ tag.unique, node.rival? taken key ≠ none := by
  constructor
  · intro h
    cases h with
    | undeclared h => cases h.symm.trans htag
    | illegal hother h =>
      cases hother.symm.trans htag
      exact absurd h hlegal
    | repeated hother hcanonized hunique hvalue hsibling hsame =>
      cases hother.symm.trans htag
      cases hcanonized.canonize.symm.trans htaken.canonize
      rw [← htaken.tag_eq] at hsibling
      exact ⟨rfl, _, hunique, fun hnone => rival?_eq_none hnone hvalue _ hsibling hsame⟩
  · rintro ⟨rfl, key, hunique, hrival⟩
    obtain ⟨rival, hrival⟩ := Option.ne_none_iff_exists'.mp hrival
    obtain ⟨value, hvalue, hsibling, hsame⟩ := exists_of_rival? hrival
    exact .repeated htag htaken hunique hvalue (htaken.tag_eq ▸ hsibling) hsame

/-- A child is folded in as what its tag takes it for, or there is one kind of reason why it cannot be. -/
theorem adopt_cases (node child : Node) :
    (∃ tag taken, node.signature.tag? child.tag = some tag ∧ Canonized tag child taken ∧
      (∀ key ∈ tag.unique, node.rival? taken key = none) ∧ node.adopt child = .ok (node.attach taken) ∧
        ∀ kind, ¬ Misplaced node child kind) ∨
    ∃ fault, node.adopt child = .error fault ∧ ∀ kind, Misplaced node child kind ↔ fault.kind = kind := by
  cases htag : node.signature.tag? child.tag with
  | none =>
    refine .inr ⟨_, by rw [adopt, htag], fun kind => ⟨fun h => ?_, ?_⟩⟩
    · cases h with
      | undeclared => rfl
      | illegal hother | repeated hother => cases hother.symm.trans htag
    · rintro rfl
      exact .undeclared htag
  | some tag =>
    rcases canonize_cases tag child with ⟨taken, hok, htaken, hlegal⟩ | ⟨fault, herror, hkind, hillegal⟩
    · by_cases hrival : ∃ key ∈ tag.unique, node.rival? taken key ≠ none
      · refine .inr ?_
        obtain ⟨key, hunique, hsome⟩ := hrival
        obtain ⟨rival, hsome⟩ := Option.ne_none_iff_exists'.mp hsome
        refine ⟨taken.fault (.repeatedSibling taken.tag key rival.place.line), ?_, fun kind => ?_⟩
        · simp [adopt, htag, hok, Option.mem_def.mp hunique, hsome, bind, Except.bind]
        · rw [misplaced_iff_of_canonized htag htaken hlegal]
          exact ⟨fun h => h.1.symm, fun h => ⟨h.symm, key, hunique, by simp [hsome]⟩⟩
      · have hnone : ∀ key ∈ tag.unique, node.rival? taken key = none := by simpa using hrival
        refine .inl ⟨tag, taken, rfl, htaken, hnone, adopt_eq_attach htag hok hnone, fun kind => ?_⟩
        rw [misplaced_iff_of_canonized htag htaken hlegal]
        exact fun h => hrival h.2
    · refine .inr ⟨fault, by simp [adopt, htag, herror, bind, Except.bind], fun kind => ⟨fun h => ?_, ?_⟩⟩
      · cases h with
        | undeclared hother => cases hother.symm.trans htag
        | illegal => exact hkind
        | repeated hother hcanonized =>
          cases hother.symm.trans htag
          cases hcanonized.canonize.symm.trans herror
      · rintro rfl
        exact hkind ▸ .illegal htag hillegal

end adopting

/-- Folds a child into the node. A child that is refused leaves the node as it was. -/
def fold (child : Node) : EStateM Fault Node Unit := fun node =>
  match node.adopt child with
  | .ok after => .ok () after
  | .error fault => .error fault node

def foldAll : List Node → Node → Node
  | [], node => node
  | child :: children, node =>
    match fold child node with
    | .ok () after => foldAll children after
    | .error _ after => foldAll children after

/-- The node after is the node with one more child, which comes last of its tag. -/
structure Gains (node child after : Node) : Prop where
  same : after = { node with children := after.children }
  own : after.childrenOf child.tag = node.childrenOf child.tag ++ [child]
  others : ∀ key, key ≠ child.tag → after.childrenOf key = node.childrenOf key

structure Gathered (node : Node) : Prop where
  bare : ∀ key, node.values key = none
  distinct : ∀ key tag, node.signature.tag? key = some tag → ∀ property ∈ tag.unique,
    ((node.childrenOf key).filterMap (·.values property)).Nodup

theorem gathered_start (tag : Keyword) (signature : Signature) (place : Place) :
    (start tag signature place).Gathered :=
  ⟨fun _ => rfl, fun _ _ _ _ _ => .nil⟩

namespace Gathered

variable {node child taken : Node} {tag : Tag}

theorem gains (gathered : node.Gathered) (child : Node) : Gains node child (node.attach child) := by
  refine ⟨?_, by simp, fun key hkey => by simp [hkey]⟩
  have hvalues : (node.attach child).values = node.values := by
    funext key
    rw [values_attach, gathered.bare, ite_self]
  rw [← hvalues]
  rfl

theorem attach (gathered : node.Gathered) (htag : node.signature.tag? child.tag = some tag)
    (hrival : ∀ key ∈ tag.unique, node.rival? child key = none) : (node.attach child).Gathered := by
  refine ⟨fun key => by rw [values_attach, gathered.bare, ite_self], fun key own hown property hunique => ?_⟩
  have hdistinct := gathered.distinct key own hown property hunique
  by_cases hkey : key = child.tag
  · subst hkey
    cases htag.symm.trans hown
    exact nodup_attach (hrival property hunique) hdistinct
  · rw [childrenOf_attach, if_neg hkey]
    exact hdistinct

theorem fold_cases (gathered : node.Gathered) (child : Node) :
    (∃ tag taken after, fold child node = .ok () after ∧ node.signature.tag? child.tag = some tag ∧
      Canonized tag child taken ∧ Gains node taken after ∧ after.Gathered ∧
        ∀ kind, ¬ Misplaced node child kind) ∨
    ∃ fault, fold child node = .error fault node ∧ ∀ kind, Misplaced node child kind ↔ fault.kind = kind := by
  unfold fold
  rcases adopt_cases node child with
    ⟨tag, taken, htag, htaken, hrival, hadopt, hplaced⟩ | ⟨fault, hadopt, hkind⟩
  · rw [hadopt]
    refine .inl ⟨tag, taken, _, rfl, htag, htaken, gathered.gains taken, ?_, hplaced⟩
    exact gathered.attach (htaken.tag_eq ▸ htag) hrival
  · rw [hadopt]
    exact .inr ⟨fault, rfl, hkind⟩

theorem foldAll (gathered : node.Gathered) (children : List Node) :
    (Node.foldAll children node).Gathered ∧ (Node.foldAll children node).signature = node.signature := by
  induction children generalizing node with
  | nil => exact ⟨gathered, rfl⟩
  | cons child children ih =>
    unfold Node.foldAll
    rcases gathered.fold_cases child with ⟨_, _, after, hfold, -, -, hgains, hafter, -⟩ | ⟨fault, hfold, -⟩
    · have hsame : after.signature = node.signature := by rw [hgains.same]
      rw [hfold]
      exact ⟨(ih hafter).1, (ih hafter).2.trans hsame⟩
    · rw [hfold]
      exact ih gathered

end Gathered

/-- After any folds into a new node, siblings differ where they have to. A further child is refused just if
it is misplaced, and then nothing changes; else it comes last of its tag, as what the tag takes it for, and
nothing else changes. -/
theorem fold_of_folds (tag : Keyword) (signature : Signature) (place : Place) (children : List Node)
    (child : Node) :
    let node := foldAll children (start tag signature place)
    (∀ key own, signature.tag? key = some own → ∀ property ∈ own.unique,
      ((node.childrenOf key).filterMap (·.values property)).Nodup) ∧
    (∀ kind, (∃ fault after, fold child node = .error fault after ∧ fault.kind = kind) ↔
      Misplaced node child kind) ∧
    (∀ fault after, fold child node = .error fault after → after = node) ∧
    ∀ after, fold child node = .ok () after → ∃ own taken, signature.tag? child.tag = some own ∧
      Canonized own child taken ∧ Gains node taken after := by
  intro node
  obtain ⟨gathered, hsignature⟩ := (gathered_start tag signature place).foldAll children
  have hsame : node.signature = signature := hsignature
  refine ⟨fun key own hown => gathered.distinct key own (hsignature ▸ hown), ?_⟩
  rcases gathered.fold_cases child with
    ⟨own, taken, after, hfold, hown, htaken, hgains, -, hplaced⟩ | ⟨fault, hfold, hkind⟩
  · refine ⟨fun kind => ⟨?_, fun h => absurd h (hplaced kind)⟩, ?_, ?_⟩
    · rintro ⟨fault, lost, herror, -⟩
      cases hfold.symm.trans herror
    · intro fault lost herror
      cases hfold.symm.trans herror
    · intro found hfound
      cases hfold.symm.trans hfound
      exact ⟨own, taken, hsame ▸ hown, htaken, hgains⟩
  · refine ⟨fun kind => ⟨?_, fun h => ⟨fault, _, hfold, (hkind kind).mp h⟩⟩, ?_, ?_⟩
    · rintro ⟨found, lost, herror, hfound⟩
      cases hfold.symm.trans herror
      exact (hkind kind).mpr hfound
    · intro found lost herror
      cases hfold.symm.trans herror
      rfl
    · intro found hfound
      cases hfold.symm.trans hfound

/-- Here the second child has another spelling of what the first one is taken in as. -/
theorem fold_of_folds_synonyms :
    let kinds : Tag := { Grammar.Standard.text .type with
      unique := some .value, allowed := some (.ofGroups [["enumeration", "enum"], ["class"]]) }
    let parent := start .see { name := .reference, tags := [kinds] } ⟨"a.talk", 1⟩
    let child (line : Nat) (text : String) : Node :=
      (start .type (Grammar.Standard.signature .string) ⟨"a.talk", line⟩).set .value (.text text)
    (∃ fault, fold (child 3 "enumeration") (foldAll [child 2 "enum"] parent) =
      .error fault (foldAll [child 2 "enum"] parent) ∧ fault.kind = .tagCardinality) ∧
    ∃ after, fold (child 3 "class") (foldAll [child 2 "enum"] parent) = .ok () after ∧
      (after.childrenOf .type).map (·.text? .value) = [some "enumeration", some "class"] := by
  intro kinds parent child
  have hfirst : foldAll [child 2 "enum"] parent =
      parent.attach ((child 2 "enum").set .value (.text "enumeration")) := rfl
  have hled (line : Nat) (text : String) (h : text ∈ ["enumeration", "enum"]) :
      Canonized kinds (child line text) ((child line text).set .value (.text "enumeration")) := by
    have hgroup : (Vocabulary.ofGroups [["enumeration", "enum"], ["class"]]).FirstFor text
        ⟨"enumeration", ["enum"]⟩ := ⟨[], [⟨"class", []⟩], rfl, h, nofun⟩
    exact .led rfl rfl rfl hgroup
  constructor
  · obtain ⟨-, hrefused, hleaves, -⟩ :=
      fold_of_folds .see { name := .reference, tags := [kinds] } ⟨"a.talk", 1⟩ [child 2 "enum"]
        (child 3 "enumeration")
    have hmem : (child 2 "enum").set .value (.text "enumeration") ∈
        (foldAll [child 2 "enum"] parent).childrenOf .type := by
      rw [hfirst]
      exact List.mem_singleton_self _
    obtain ⟨fault, after, hfold, hkind⟩ := (hrefused .tagCardinality).mpr
      (.repeated rfl (hled 3 "enumeration" (by decide)) rfl rfl hmem rfl)
    exact ⟨fault, by rw [hfold, hleaves fault after hfold], hkind⟩
  · exact ⟨_, rfl, rfl⟩

end Node
end TagSchema
