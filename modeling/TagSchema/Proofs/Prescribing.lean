import TagSchema.Proofs.Declaring
import TagSchema.Proofs.Respelling

/-! Two ways to prescribe literals for a text. A property may take only these, or a tag may take in only
children with such a scalar. The one looks when the words are assigned and the other one when the child is
folded in, so they part where something looks at the text in between, or fails. -/
namespace TagSchema
open Closing

namespace Vocabulary

variable {groups : List (List String)} {literal lead : String}

theorem mem_ofGroups {group : Synonyms} : group ∈ (ofGroups groups).groups ↔ group.members ∈ groups := by
  change group ∈ groups.filterMap Synonyms.ofList? ↔ _
  rw [List.mem_filterMap]
  constructor
  · rintro ⟨_ | ⟨lead, others⟩, hmem, hgroup⟩
    · cases hgroup
    · cases hgroup
      exact hmem
  · exact fun hmem => ⟨group.members, hmem, rfl⟩

theorem canonical?_ofGroups_eq_none :
    (ofGroups groups).canonical? literal = none ↔ ∀ group ∈ groups, literal ∉ group := by
  rw [canonical?_eq_none]
  constructor
  · rintro h (_ | ⟨lead, others⟩) hgroup
    · exact List.not_mem_nil
    · exact h ⟨lead, others⟩ (mem_ofGroups.mpr hgroup)
  · exact fun h group hgroup => h group.members (mem_ofGroups.mp hgroup)

theorem contains_of_canonical? {words : Vocabulary} (h : words.canonical? literal = some lead) :
    words.contains lead := by
  obtain ⟨group, ⟨before, behind, hgroups, -, -⟩, rfl⟩ := canonical?_eq_some.mp h
  rw [contains, Option.isSome_iff_ne_none, Ne, canonical?_eq_none]
  intro hnone
  exact hnone group (by simp [hgroups]) List.mem_cons_self

theorem contains_ofGroups_iff : (ofGroups groups).contains literal ↔ ∃ group ∈ groups, literal ∈ group := by
  rw [contains, Option.isSome_iff_ne_none, Ne, canonical?_ofGroups_eq_none]
  simp only [not_forall, not_not, exists_prop]

end Vocabulary

namespace Property

variable {property : Property} {allowed : Vocabulary} {words : List String} {lead : String}

structure Plain (property : Property) : Prop where
  conversions : property.conversions = []
  rules : property.rules = []

theorem Plain.makes (plain : property.Plain) (words : List String) :
    property.Makes words (.text (" ".intercalate words)) := by
  refine ⟨by rw [plain.conversions]; exact .done _, ?_⟩
  rw [plain.rules]
  exact List.forall_mem_nil _

theorem Plain.allowing_converts (plain : property.Plain) (allowed : Vocabulary) (text : String) :
    Conversion.applyAll (property.allowing allowed).conversions (.text text) =
      .ok (.text ((allowed.canonical? text).getD text)) := by
  change Conversion.applyAll (property.conversions ++ [.canonical allowed]) _ = _
  rw [plain.conversions]
  rfl

theorem Plain.allowing_rules (plain : property.Plain) (allowed : Vocabulary) (value : Datum) :
    (∀ rule ∈ (property.allowing allowed).rules, rule.check.accepts value) ↔
      value.text?.any allowed.contains := by
  change (∀ rule ∈ property.rules ++ [_], _) ↔ _
  rw [plain.rules, List.nil_append, List.forall_mem_singleton]
  rfl

theorem Plain.allowing_makes (plain : property.Plain)
    (h : allowed.canonical? (" ".intercalate words) = some lead) :
    (property.allowing allowed).Makes words (.text lead) := by
  refine ⟨?_, (plain.allowing_rules allowed _).mpr (Vocabulary.contains_of_canonical? h)⟩
  rw [← Conversion.applyAll_eq_ok_iff, plain.allowing_converts, h]
  rfl

theorem Plain.not_allowing_makes (plain : property.Plain)
    (h : allowed.canonical? (" ".intercalate words) = none) (value : Datum) :
    ¬(property.allowing allowed).Makes words value := by
  rintro ⟨hconverted, haccepted⟩
  rw [← Conversion.applyAll_eq_ok_iff, plain.allowing_converts, h] at hconverted
  cases hconverted
  have hcontains : allowed.contains (" ".intercalate words) = true :=
    (plain.allowing_rules allowed _).mp haccepted
  rw [Vocabulary.contains, h] at hcontains
  cases hcontains

theorem allowing_takes {taken rest : List String} (h : property.Takes words taken rest) :
    (property.allowing allowed).Takes words taken rest := by
  cases h with
  | fixed _ _ harity => exact .fixed _ _ harity
  | all _ harity hwords hleast hmost => exact .all _ harity hwords hleast hmost
  | most _ _ harity htaken hleast => exact .most _ _ harity htaken hleast

theorem allowing_leaves (h : property.Leaves words) : (property.allowing allowed).Leaves words := by
  cases h with
  | omitted harity hwanted hoptional => exact .omitted harity hwanted hoptional
  | nothing harity hnone => exact .nothing harity hnone

/-- The property takes words that make a text in none of the groups. -/
def Strays (property : Property) (groups : List (List String)) (words : List String) : Prop :=
  ∃ taken rest, property.Takes words taken rest ∧ ∀ group ∈ groups, " ".intercalate taken ∉ group

theorem strays_iff_of_takes {taken rest : List String} (h : property.Takes words taken rest)
    (groups : List (List String)) :
    property.Strays groups words ↔ ∀ group ∈ groups, " ".intercalate taken ∉ group := by
  refine ⟨?_, fun hstrays => ⟨taken, rest, h, hstrays⟩⟩
  rintro ⟨taken', rest', h', hstrays⟩
  cases (slice_of_takes property.key h).symm.trans (slice_of_takes property.key h')
  exact hstrays

theorem not_strays_of_leaves (h : property.Leaves words) (groups : List (List String)) :
    ¬property.Strays groups words := by
  rintro ⟨taken, rest, htakes, -⟩
  cases (slice_of_leaves property.key h).symm.trans (slice_of_takes property.key htakes)

theorem not_strays_of_short (h : property.Short words) (groups : List (List String)) :
    ¬property.Strays groups words := by
  rintro ⟨taken, rest, htakes, -⟩
  obtain ⟨cause, hslice⟩ := slice_of_short property.key h
  cases hslice.symm.trans (slice_of_takes property.key htakes)

end Property

def Declaration.allowing (allowed : Vocabulary) : Declaration → Declaration
  | .property own => .property (own.allowing allowed)
  | other => other

namespace Schema

theorem uses_restrict (allowed : Vocabulary) (schema : Schema) (key : Keyword) :
    (schema.restrict allowed).uses key = schema.uses key := by
  have hproperty : (schema.restrict allowed).property? key = (schema.property? key).map (·.allowing allowed) :=
    List.find?_map ..
  rw [Signature.uses, Signature.uses, hproperty, Option.isSome_map]
  rfl

theorem declare_restrict (allowed : Vocabulary) (schema : Schema) {declaration : Declaration}
    (hrule : ∀ key complaint holds, declaration ≠ .rule key complaint holds) :
    (schema.restrict allowed).declare (declaration.allowing allowed) =
      (schema.declare declaration).map (·.restrict allowed) := by
  cases declaration with
  | property property =>
    have huses : (schema.restrict allowed).uses (property.allowing allowed).key = schema.uses property.key :=
      uses_restrict allowed schema property.key
    simp only [Declaration.allowing, declare, huses]
    split
    · rfl
    · simp [Except.map, restrict]
  | tag tag =>
    simp only [Declaration.allowing, declare, uses_restrict]
    split <;> rfl
  | rule key complaint holds => exact absurd rfl (hrule key complaint holds)
  | checkNode | complete | register | refer | scalar => rfl

theorem ofDeclarations_allowing (name : SchemaName) (declarations : List Declaration)
    (hrules : ∀ key complaint holds, .rule key complaint holds ∉ declarations) (allowed : Vocabulary) :
    ofDeclarations name (declarations.map (·.allowing allowed)) =
      (ofDeclarations name declarations).map (·.restrict allowed) := by
  have hfold : ∀ start : Schema,
      (declarations.map (·.allowing allowed)).foldlM declare (start.restrict allowed) =
        (declarations.foldlM declare start).map (·.restrict allowed) := by
    induction declarations with
    | nil => exact fun start => rfl
    | cons declaration declarations ih =>
      intro start
      simp only [List.mem_cons, not_or] at hrules
      have hdeclare := declare_restrict allowed start fun key complaint holds heq =>
        (hrules key complaint holds).1 heq.symm
      rw [List.map_cons, List.foldlM_cons, List.foldlM_cons, hdeclare]
      cases start.declare declaration with
      | error defect => rfl
      | ok after => exact ih (fun key complaint holds => (hrules key complaint holds).2) after
  have hempty : (declarations.map (·.allowing allowed)).foldlM declare { name } =
      (declarations.foldlM declare { name }).map (·.restrict allowed) := hfold { name }
  cases hdeclared : declarations.foldlM declare { name } with
  | error defect =>
    rw [hdeclared] at hempty
    simp only [ofDeclarations, hempty, hdeclared, bind, Except.bind, Except.map]
  | ok schema =>
    have hmisplaced : (schema.restrict allowed).misplaced? = schema.misplaced? :=
      misplaced?_map schema (·.allowing allowed) (fun _ => rfl) fun _ => rfl
    have hchecks : (schema.restrict allowed).impliedChecks = schema.impliedChecks := by
      simp only [impliedChecks, restrict, List.filter_map, List.map_map]
      rfl
    rw [hdeclared] at hempty
    simp only [ofDeclarations, hempty, hdeclared, bind, Except.bind, Except.map, hmisplaced, hchecks]
    cases schema.misplaced? <;> rfl

end Schema

/-- The schema stands for the text of its only property, and does not look at it in any other way. -/
structure Schema.SoleText (schema : Schema) (property : Property) : Prop where
  properties : schema.properties = [property]
  scalar : schema.scalar = some property.key
  plain : property.Plain
  heedless : schema.Heedless property.key

theorem Schema.soleText_of_lone {name : SchemaName} {schema : Schema} {property : Property}
    (plain : property.Plain) (h : ofDeclarations name [.property property, .scalar property.key] = .ok schema) :
    schema.SoleText property := by
  have hbuilt : ofDeclarations name [.property property, .scalar property.key] = .ok _ := rfl
  cases hbuilt.symm.trans h
  refine ⟨rfl, rfl, plain, heedless_of_implied rfl (fun complaint holds hmem => ?_) fun _ hmem => by cases hmem⟩
  simp [impliedChecks] at hmem

namespace Node

/-- The node of the schema is open and its property has no value yet. -/
structure Blank (schema : Schema) (property : Property) (node : Node) : Prop where
  signature : node.signature = schema.toSignature
  opened : node.phase = .opened
  unset : node.values property.key = none

def restrict (allowed : Vocabulary) (node : Node) : Node :=
  { node with signature := node.signature.restrict allowed }

def closeUnder (grammar : Grammar) (schema : Schema) (parent child : Node) (symbols : Symbols) :
    Except Fault (Node × Symbols) :=
  match close grammar schema (child, symbols) with
  | .error fault _ => .error fault
  | .ok () (closed, registered) => (parent.adopt closed).map (·, registered)

section closing

variable {schema : Schema} {property : Property} (hproperties : schema.properties = [property]) (child : Node)
  (hopened : child.phase = .opened) {taken rest : List String} {value : Datum}
include hproperties hopened

theorem close_of_takes (htakes : property.Takes child.words taken rest) (hmakes : property.Makes taken value)
    (grammar : Grammar) (symbols : Symbols) :
    close grammar schema (child, symbols) = following (filler grammar) schema rest
      (({ child with words := [] } : Node).set property.key value, symbols) := by
  have hslices : Slices schema.properties child.words [⟨property, taken, value⟩] rest := by
    rw [hproperties]
    exact .taken htakes hmakes .done
  rw [close_eq_assign child hopened, bind_of_ok (assign_of_slices hslices)]
  rfl

theorem close_of_leaves (hleaves : property.Leaves child.words) (grammar : Grammar) (symbols : Symbols) :
    close grammar schema (child, symbols) =
      following (filler grammar) schema child.words ({ child with words := [] }, symbols) := by
  have hslices : Slices schema.properties child.words [] child.words := by
    rw [hproperties]
    exact .unset hleaves .done
  rw [close_eq_assign child hopened, bind_of_ok (assign_of_slices hslices)]
  rfl

theorem close_of_unsliced {cause : Fault.Cause} (hslice : property.slice child.tag child.words = .error cause)
    (grammar : Grammar) (symbols : Symbols) :
    close grammar schema (child, symbols) =
      .error (child.fault cause) ({ child with words := [] }, symbols) := by
  have hassign : assign [property] child.words ({ child with words := [] }, symbols) =
      .error (child.fault cause) ({ child with words := [] }, symbols) := assign_cons_of_unsliced hslice
  rw [close_eq_assign child hopened, hproperties, bind_of_error hassign]

theorem close_of_unread (htakes : property.Takes child.words taken rest)
    (hnone : ∀ value, ¬property.Makes taken value) (grammar : Grammar) (symbols : Symbols) :
    ∃ fault lost, close grammar schema (child, symbols) = .error fault lost ∧ fault.kind = .propertyValue := by
  have hstuck : Stuck schema.properties child.words .propertyValue := by
    rw [hproperties]
    exact .refused rfl .done htakes hnone
  obtain ⟨fault, lost, hassign, hkind⟩ := assign_of_stuck hstuck { child with words := [] } symbols
  exact ⟨fault, lost, by rw [close_eq_assign child hopened, bind_of_error hassign], hkind⟩

end closing

section restricted

variable {schema : Schema} {property : Property} {child : Node} {taken rest : List String} {lead : String}
  (hkey : ∀ tag ∈ schema.tags, tag.key ≠ property.key) (sole : schema.SoleText property)
  (blank : child.Blank schema property) (allowed : Vocabulary)
include sole

theorem properties_restrict : (schema.restrict allowed).properties = [property.allowing allowed] := by
  rw [Schema.restrict, sole.properties]
  rfl

include hkey

theorem kept_of_following {start after : Node} {grammar : Grammar} {symbols registered : Symbols}
    (h : following (filler grammar) schema rest (start, symbols) = .ok () (after, registered))
    (hsignature : start.signature = schema.toSignature) :
    after.tag = start.tag ∧ after.signature = schema.toSignature ∧
      after.values property.key = start.values property.key :=
  (Blind.following hkey sole.heedless grammar rest start symbols hsignature).2 _ _ _ h

theorem following_respell (rest : List String) (lead : String) (start : Node)
    (hsignature : start.signature = schema.toSignature) (grammar : Grammar) (symbols : Symbols) :
    following (filler grammar) (schema.restrict allowed) rest
        (start.respell allowed property.key lead, symbols) =
      mapNode (·.respell allowed property.key lead)
        (following (filler grammar) schema rest (start, symbols)) :=
  (Blind.following hkey sole.heedless grammar rest start symbols hsignature).1 allowed lead

include blank

theorem close_restrict_of_lead (htakes : property.Takes child.words taken rest)
    (hlead : allowed.canonical? (" ".intercalate taken) = some lead) (grammar : Grammar) (symbols : Symbols) :
    close grammar (schema.restrict allowed) (child.restrict allowed, symbols) =
      mapNode (·.respell allowed property.key lead) (close grammar schema (child, symbols)) := by
  let start : Node := { child with words := [] }
  have hset : (start.restrict allowed).set property.key (.text lead) =
      (start.set property.key (.text (" ".intercalate taken))).respell allowed property.key lead :=
    (respell_set allowed property.key lead _ start).symm
  have hrestricted := close_of_takes (properties_restrict sole allowed) (child.restrict allowed) blank.opened
    (Property.allowing_takes htakes) (sole.plain.allowing_makes hlead) grammar symbols
  rw [hrestricted, close_of_takes sole.properties child blank.opened htakes (sole.plain.makes taken)]
  change following _ _ _ ((start.restrict allowed).set property.key (.text lead), symbols) = _
  rw [hset]
  exact following_respell hkey sole allowed rest lead (start.set property.key (.text (" ".intercalate taken)))
    blank.signature grammar symbols

theorem close_restrict_of_leaves (hleaves : property.Leaves child.words) (text : String) (grammar : Grammar)
    (symbols : Symbols) :
    close grammar (schema.restrict allowed) (child.restrict allowed, symbols) =
      mapNode (·.respell allowed property.key text) (close grammar schema (child, symbols)) := by
  let start : Node := { child with words := [] }
  have hunset : start.restrict allowed = start.respell allowed property.key text :=
    (respell_of_unset start blank.unset allowed text).symm
  have hrestricted := close_of_leaves (properties_restrict sole allowed) (child.restrict allowed) blank.opened
    (Property.allowing_leaves hleaves) grammar symbols
  rw [hrestricted, close_of_leaves sole.properties child blank.opened hleaves]
  change following _ _ _ (start.restrict allowed, symbols) = _
  rw [hunset]
  exact following_respell hkey sole allowed child.words text start blank.signature grammar symbols

omit hkey in
theorem close_restrict_of_short (hshort : property.Short child.words) (text : String) (grammar : Grammar)
    (symbols : Symbols) :
    close grammar (schema.restrict allowed) (child.restrict allowed, symbols) =
      mapNode (·.respell allowed property.key text) (close grammar schema (child, symbols)) := by
  let start : Node := { child with words := [] }
  have hunset : start.restrict allowed = start.respell allowed property.key text :=
    (respell_of_unset start blank.unset allowed text).symm
  obtain ⟨cause, hslice⟩ := Property.slice_of_short child.tag hshort
  have hrestricted := close_of_unsliced (properties_restrict sole allowed) (child.restrict allowed) blank.opened
    hslice grammar symbols
  rw [hrestricted, close_of_unsliced sole.properties child blank.opened hslice]
  change EStateM.Result.error _ (start.restrict allowed, symbols) = _
  rw [hunset]
  rfl

/-- Either no text strays, and the two ways to close the child come to the same but for the spelling of its
text, or the text strays, and the restricted schema refuses it. -/
theorem restrict_cases (groups : List (List String)) (grammar : Grammar) (symbols : Symbols) :
    (¬property.Strays groups child.words ∧ ∃ text,
      close grammar (schema.restrict (.ofGroups groups)) (child.restrict (.ofGroups groups), symbols) =
        mapNode (·.respell (.ofGroups groups) property.key text) (close grammar schema (child, symbols)) ∧
      ∀ after registered, close grammar schema (child, symbols) = .ok () (after, registered) →
        after.tag = child.tag ∧ after.signature = schema.toSignature ∧
          (after.values property.key = none ∨ ∃ given, after.values property.key = some (.text given) ∧
            (Vocabulary.ofGroups groups).canonical? given = some text)) ∨
    property.Strays groups child.words ∧
      (∃ fault lost, close grammar (schema.restrict (.ofGroups groups))
        (child.restrict (.ofGroups groups), symbols) = .error fault lost ∧ fault.kind = .propertyValue) ∧
      ∀ after registered, close grammar schema (child, symbols) = .ok () (after, registered) →
        after.tag = child.tag ∧ after.signature = schema.toSignature ∧
          ∃ given, after.values property.key = some (.text given) ∧
            (Vocabulary.ofGroups groups).canonical? given = none := by
  obtain ⟨taken, rest, htakes⟩ | hleaves | hshort := property.takes_or_leaves_or_short child.words
  · have hmakes := sole.plain.makes taken
    have hclose := close_of_takes sole.properties child blank.opened htakes hmakes grammar symbols
    have hkept : ∀ after registered, close grammar schema (child, symbols) = .ok () (after, registered) →
        after.tag = child.tag ∧ after.signature = schema.toSignature ∧
          after.values property.key = some (.text (" ".intercalate taken)) := by
      intro after registered h
      rw [hclose] at h
      obtain ⟨htag, hsignature, hvalue⟩ := kept_of_following hkey sole h blank.signature
      exact ⟨htag, hsignature, hvalue.trans (by rw [values_set, if_pos rfl])⟩
    cases hcanonical : (Vocabulary.ofGroups groups).canonical? (" ".intercalate taken) with
    | some lead =>
      have hlegal : ¬property.Strays groups child.words := by
        rw [Property.strays_iff_of_takes htakes, ← Vocabulary.canonical?_ofGroups_eq_none, hcanonical]
        exact Option.some_ne_none lead
      refine .inl ⟨hlegal, lead, close_restrict_of_lead hkey sole blank _ htakes hcanonical grammar symbols, ?_⟩
      intro after registered h
      obtain ⟨htag, hsignature, hvalue⟩ := hkept after registered h
      exact ⟨htag, hsignature, .inr ⟨_, hvalue, hcanonical⟩⟩
    | none =>
      have hstrays : property.Strays groups child.words :=
        (Property.strays_iff_of_takes htakes groups).mpr (Vocabulary.canonical?_ofGroups_eq_none.mp hcanonical)
      refine .inr ⟨hstrays, ?_, ?_⟩
      · exact close_of_unread (properties_restrict sole _) (child.restrict _) blank.opened
          (Property.allowing_takes htakes) (sole.plain.not_allowing_makes hcanonical) grammar symbols
      · intro after registered h
        obtain ⟨htag, hsignature, hvalue⟩ := hkept after registered h
        exact ⟨htag, hsignature, _, hvalue, hcanonical⟩
  · refine .inl ⟨Property.not_strays_of_leaves hleaves groups, "",
      close_restrict_of_leaves hkey sole blank _ hleaves "" grammar symbols, ?_⟩
    intro after registered h
    rw [close_of_leaves sole.properties child blank.opened hleaves] at h
    obtain ⟨htag, hsignature, hvalue⟩ := kept_of_following hkey sole h blank.signature
    exact ⟨htag, hsignature, .inl (hvalue.trans blank.unset)⟩
  · refine .inl ⟨Property.not_strays_of_short hshort groups, "",
      close_restrict_of_short sole blank _ hshort "" grammar symbols, ?_⟩
    obtain ⟨cause, hslice⟩ := Property.slice_of_short child.tag hshort
    intro after registered h
    rw [close_of_unsliced sole.properties child blank.opened hslice] at h
    cases h

end restricted

section folding

variable {grammar : Grammar} {schema : Schema} {parent child closed : Node} {symbols registered : Symbols}

theorem closeUnder_of_error {fault : Fault} {lost : Node × Symbols}
    (h : close grammar schema (child, symbols) = .error fault lost) (parent : Node) :
    closeUnder grammar schema parent child symbols = .error fault := by
  rw [closeUnder, h]

theorem closeUnder_of_ok (h : close grammar schema (child, symbols) = .ok () (closed, registered))
    (parent : Node) :
    closeUnder grammar schema parent child symbols = (parent.adopt closed).map (·, registered) := by
  rw [closeUnder, h]

variable {tag : Tag} (hunique : tag.unique = none)
include hunique

theorem adopt_of_plain (htag : parent.signature.tag? child.tag = some tag) (hallowed : tag.allowed = none) :
    parent.adopt child = .ok (parent.attach child) :=
  adopt_eq_attach htag (by rw [hallowed]; rfl) (by simp [hunique])

variable {allowed : Vocabulary} {key : Keyword}
  (htag : parent.signature.tag? child.tag = some { tag with allowed := some allowed })
include htag

theorem adopt_of_legal {lead : String} (hscalar : child.signature.scalar = some key)
    (hlegal : child.values key = none ∨
      ∃ given, child.values key = some (.text given) ∧ allowed.canonical? given = some lead) :
    ∃ stored, parent.adopt child = .ok (parent.attach stored) ∧
      (child.respell allowed key lead).text? key = stored.text? key ∧
      ∀ text, stored.text? key = some text → allowed.contains text := by
  rcases hlegal with hunset | ⟨given, hgiven, hlead⟩
  · refine ⟨child, adopt_eq_attach htag (normalize_of_no_text (fun text htext => ?_) allowed) (by simp [hunique]),
      ?_, ?_⟩
    · rw [scalar?, hscalar, Option.bind_some, hunset] at htext
      cases htext
    · simp [text?, values_respell, hunset]
    · simp [text?, hunset]
  · refine ⟨child.set key (.text lead),
      adopt_eq_attach htag (normalize_of_legal hscalar hgiven hlead) (by simp [hunique]), ?_, ?_⟩
    · simp [text?, values_respell, hgiven, Datum.text?]
    · intro text htext
      obtain rfl : lead = text := by simpa [text?, Datum.text?] using htext
      exact Vocabulary.contains_of_canonical? hlead

omit hunique in
theorem adopt_of_stray {given : String} (hscalar : child.signature.scalar = some key)
    (hvalue : child.values key = some (.text given)) (hnone : allowed.canonical? given = none) :
    ∃ fault, parent.adopt child = .error fault ∧ fault.kind = .propertyValue := by
  refine ⟨child.fault (.illegalScalar child.tag given allowed), ?_, rfl⟩
  simp only [adopt, htag, Option.elim_some, normalize_of_illegal hscalar hvalue hnone, bind, Except.bind]

end folding

def refusal? : Except Fault α → Option Fault.Kind
  | .ok _ => none
  | .error fault => some fault.kind

end Node
end TagSchema
