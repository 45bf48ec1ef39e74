import TagSchema.Proofs.Likeness
import TagSchema.Proofs.Wholeness

/-! What may be left out and what may be written short. A node whose tag is filled for it closes like one to
which the same was folded as a child of its own: up to that point the two differ by the child alone, and
from there on only by the place at which it stands. -/
namespace TagSchema
open Grammar Closing Draft

namespace Grammar.Standard

theorem of_describing (name : SchemaName) (h : describing ∈ (signature name).tags) :
    (signature name).implicitTag? = some describing ∧
      ∀ property ∈ (signature name).properties, property.arity = .fixed 1 := by
  revert h
  cases name <;> decide

end Grammar.Standard

namespace Node

/-- The node is what closing a tag of a schema with some words makes, whatever is registered. -/
def Written (tag : Keyword) (name : SchemaName) (place : Place) (words : List String) (child : Node) : Prop :=
  ∀ symbols, close .standard (Standard.schema name)
    ({ start tag (Standard.signature name) place with words }, symbols) = .ok () (child, symbols)

theorem written_leaf {tag : Keyword} {name : SchemaName} (hscalar : Standard.isScalar name)
    {words : List String} (hsuited : Suited name words) (place : Place) :
    Written tag name place words (leaf place tag name words) :=
  fun _ => within_eq_ok hscalar hsuited _

theorem relocate_leaf (move : Place → Place) (place : Place) (tag : Keyword) (name : SchemaName)
    (words : List String) : (leaf place tag name words).relocate move = leaf (move place) tag name words := by
  rw [relocate_eq]
  rfl

theorem fillsLeaf_filler (name : SchemaName) : FillsLeaf (filler .standard) name := fillsLeaf_fillWith name _

theorem alike_leaf {step : Closing Unit} (hstep : Natural nowhere step) (node : Node) (place other : Place)
    (tag : Keyword) (name : SchemaName) (words : List String) (symbols : Symbols) :
    Alike (step (node.attach (leaf place tag name words), symbols))
      (step (node.attach (leaf other tag name words), symbols)) := by
  refine alike_of_natural hstep ?_ symbols
  rw [relocate_attach, relocate_attach, relocate_leaf, relocate_leaf]
  rfl

section describing

variable {name : SchemaName} {words rest : List String}

theorem assign_describing (node : Node) (hdescribing : Standard.describing ∈ (Standard.signature name).tags)
    (hsignature : node.signature = Standard.signature name) (hnone : node.childrenOf .description = [])
    (hlength : words.length = (Standard.signature name).properties.length) (hrest : rest ≠ []) (place : Place)
    (symbols : Symbols) :
    Alike ((assign (Standard.signature name).properties (words ++ rest) >>=
        following (filler .standard) (Standard.schema name)) (node, symbols))
      ((assign (Standard.signature name).properties words >>=
        following (filler .standard) (Standard.schema name))
        (node.attach (leaf place .description .string rest), symbols)) := by
  obtain ⟨himplicit, hfixed⟩ := Standard.of_describing name hdescribing
  have hkeys : ∀ property ∈ (Standard.signature name).properties, property.key ≠ .description :=
    fun property hproperty => Standard.property_ne_tag name property hproperty _ hdescribing
  have hbeside : Moved id (beside (leaf place .description .string rest)) _ _ :=
    assign_attach hkeys words node symbols
  obtain ⟨slots, hslices⟩ | ⟨fault, lost, -, hassign⟩ := deals_or_refuses hfixed hlength node symbols
  · have hexact := hslices []
    rw [List.append_nil] at hexact
    have hempty : (node.filling slots).childrenOf .description = [] := by
      rw [(holding_filling (hexact.key_not_mem hkeys) node).2]
      exact hnone
    have hsame : (node.filling slots).signature = Standard.signature name := by
      rw [signature_filling]
      exact hsignature
    have hleaf := fillsLeaf_filler name _ hdescribing (.inl rfl) .string rfl rest (suited_string hrest) _
      hsame symbols
    have hfill := fillImplicit_of_some (filler .standard) _ hrest (hsame ▸ himplicit) hempty symbols
    have hfilled := hfill.trans hleaf
    rw [assign_of_slices hexact] at hbeside
    rw [bind_of_ok (assign_of_slices (hslices rest)), following, bind_of_ok hfilled, bind_of_ok hbeside.of_ok]
    exact alike_leaf (Natural.concluding name) _ _ place _ _ _ symbols
  · have hfailed := hassign []
    rw [List.append_nil] at hfailed
    rw [hfailed] at hbeside
    obtain ⟨moved, hmoved, hmoves⟩ := hbeside.of_error
    rw [bind_of_error (hassign rest), bind_of_error hmoved]
    exact .error _ _ ⟨hmoves.cause.symm, hmoves.tag.symm⟩

theorem assign_described_twice (node : Node)
    (hdescribing : Standard.describing ∈ (Standard.signature name).tags)
    (hsignature : node.signature = Standard.signature name) (hgiven : node.childrenOf .description ≠ [])
    (hlength : words.length = (Standard.signature name).properties.length) (hrest : rest ≠ [])
    (symbols : Symbols) :
    let outcome := (assign (Standard.signature name).properties (words ++ rest) >>=
      following (filler .standard) (Standard.schema name)) (node, symbols)
    ((∃ slots, Slices (Standard.signature name).properties words slots []) →
        faultKind? outcome = some .tagCardinality) ∧
      ((∀ slots, ¬Slices (Standard.signature name).properties words slots []) →
        faultKind? outcome = some .propertyValue) := by
  obtain ⟨himplicit, hfixed⟩ := Standard.of_describing name hdescribing
  obtain ⟨slots, hslices⟩ | ⟨fault, lost, hkind, hassign⟩ := deals_or_refuses hfixed hlength node symbols
  · have hexact := hslices []
    rw [List.append_nil] at hexact
    have hkeys : ∀ property ∈ (Standard.signature name).properties, property.key ≠ .description :=
      fun property hproperty => Standard.property_ne_tag name property hproperty _ hdescribing
    have hfilled : (node.filling slots).childrenOf .description ≠ [] := by
      rw [(holding_filling (hexact.key_not_mem hkeys) node).2]
      exact hgiven
    have hsame : (node.filling slots).signature.implicitTag? = some Standard.describing := by
      rw [signature_filling, hsignature, himplicit]
    refine ⟨fun _ => ?_, fun hnone => absurd hexact (hnone slots)⟩
    have hrefused := fillImplicit_of_given (filler .standard) (node.filling slots) hrest hsame hfilled symbols
    rw [bind_of_ok (assign_of_slices (hslices rest)), following, bind_of_error hrefused]
    rfl
  · refine ⟨?_, fun _ => ?_⟩
    · rintro ⟨slots, hslices⟩
      have hfailed := hassign []
      rw [List.append_nil] at hfailed
      cases (assign_of_slices hslices).symm.trans hfailed
    · rw [bind_of_error (hassign rest), faultKind?, hkind]

end describing

section defaults

/-- Both runs succeed and still differ by the child alone, which the first one lacks, or both fail for the
same cause. -/
inductive Apart (name : SchemaName) (child : Node) :
    EStateM.Result Fault (Node × Symbols) α → EStateM.Result Fault (Node × Symbols) α → Prop
  | ok {node : Node} (a : α) (symbols : Symbols) (hsignature : node.signature = Standard.signature name)
    (hnone : node.childrenOf child.tag = []) :
    Apart name child (.ok a (node, symbols)) (.ok a (node.attach child, symbols))
  | error {fault other : Fault} (lost lost' : Node × Symbols) (hcause : fault.Agrees other) :
    Apart name child (.error fault lost) (.error other lost')

variable {name : SchemaName} {node child : Node} {symbols : Symbols}

theorem Apart.alike {step : Closing α} {next : α → Closing Unit}
    (h : Apart name child (step (node, symbols)) (step (node.attach child, symbols)))
    (hnext : ∀ (a : α) (after : Node) (registered : Symbols), after.signature = Standard.signature name →
      after.childrenOf child.tag = [] →
        Alike (next a (after, registered)) (next a (after.attach child, registered))) :
    Alike ((step >>= next) (node, symbols)) ((step >>= next) (node.attach child, symbols)) := by
  generalize hfirst : step (node, symbols) = first at h
  generalize hsecond : step (node.attach child, symbols) = second at h
  cases h with
  | ok a registered hsignature hnone =>
    rw [bind_of_ok hfirst, bind_of_ok hsecond]
    exact hnext a _ registered hsignature hnone
  | error lost lost' hcause =>
    rw [bind_of_error hfirst, bind_of_error hsecond]
    exact .error lost lost' hcause

theorem agrees_attach (cause : Fault.Cause) : (node.fault cause).Agrees ((node.attach child).fault cause) :=
  ⟨rfl, rfl⟩

variable (hsignature : node.signature = Standard.signature name) (hnone : node.childrenOf child.tag = [])
include hsignature hnone

theorem apart_attach {other : Node} (hother : child.tag ≠ other.tag) (symbols : Symbols) :
    Apart name child (.ok () (node.attach other, symbols))
      (.ok () ((node.attach child).attach other, symbols)) := by
  rw [attach_comm hother]
  exact .ok () symbols hsignature (by rw [childrenOf_attach, if_neg hother, hnone])

theorem apart_assign (hkeys : ∀ property ∈ (Standard.signature name).properties, property.key ≠ child.tag)
    (words : List String) (symbols : Symbols) :
    Apart name child (assign (Standard.signature name).properties words (node, symbols))
      (assign (Standard.signature name).properties words (node.attach child, symbols)) := by
  have hbeside := assign_attach hkeys words node symbols
  cases hassign : assign (Standard.signature name).properties words (node, symbols) with
  | error fault lost =>
    rw [hassign] at hbeside
    obtain ⟨moved, hmoved, hmoves⟩ := hbeside.of_error
    rw [hmoved]
    exact .error _ _ ⟨hmoves.cause.symm, hmoves.tag.symm⟩
  | ok rest after =>
    rw [hassign] at hbeside
    obtain ⟨slots, hslices, rfl⟩ := exists_slots_of_assign hassign
    rw [hbeside.of_ok]
    refine .ok rest symbols ((signature_filling slots node).trans hsignature) ?_
    rw [(holding_filling (hslices.key_not_mem hkeys) node).2, hnone]

theorem apart_fillImplicit
    (hother : ∀ tag, (Standard.signature name).implicitTag? = some tag → child.tag ≠ tag.key)
    (rest : List String) (symbols : Symbols) :
    Apart name child (fillImplicit (filler .standard) rest (node, symbols))
      (fillImplicit (filler .standard) rest (node.attach child, symbols)) := by
  by_cases hrest : rest = []
  · rw [hrest]
    exact .ok () symbols hsignature hnone
  cases himplicit : (Standard.signature name).implicitTag? with
  | none =>
    rw [fillImplicit_of_none _ node hrest (hsignature ▸ himplicit),
      fillImplicit_of_none _ (node.attach child) hrest (hsignature ▸ himplicit)]
    exact .error _ _ (agrees_attach _)
  | some tag =>
    have hkey := hother tag himplicit
    have hchildren : (node.attach child).childrenOf tag.key = node.childrenOf tag.key := by
      rw [childrenOf_attach, if_neg hkey.symm]
    by_cases hempty : node.childrenOf tag.key = []
    · have hmem : tag ∈ (Standard.signature name).tags := List.mem_of_find?_eq_some himplicit
      have hstands : tag.implicit = true := by simpa using List.find?_some himplicit
      have hleaf := fillsLeaf_filler name tag hmem (.inl hstands) .string
        (Standard.implicit_text name tag hmem hstands).1 rest (suited_string hrest)
      rw [fillImplicit_of_some _ node hrest (hsignature ▸ himplicit) hempty, hleaf node hsignature symbols,
        fillImplicit_of_some _ (node.attach child) hrest (hsignature ▸ himplicit) (hchildren ▸ hempty),
        hleaf (node.attach child) hsignature symbols]
      exact apart_attach hsignature hnone hkey symbols
    · rw [fillImplicit_of_given _ node hrest (hsignature ▸ himplicit) hempty,
        fillImplicit_of_given _ (node.attach child) hrest (hsignature ▸ himplicit) (hchildren ▸ hempty)]
      exact .error _ _ (agrees_attach _)

theorem apart_fillDefault {tag : Tag} (hmem : tag ∈ (Standard.signature name).tags)
    (hother : child.tag ≠ tag.key) (symbols : Symbols) :
    Apart name child (fillDefault (filler .standard) tag (node, symbols))
      (fillDefault (filler .standard) tag (node.attach child, symbols)) := by
  have hchildren : (node.attach child).childrenOf tag.key = node.childrenOf tag.key := by
    rw [childrenOf_attach, if_neg hother.symm]
  by_cases hfilled : tag.default.isSome ∧ node.childrenOf tag.key = []
  · obtain ⟨words, hwords⟩ := Option.isSome_iff_exists.mp hfilled.1
    obtain ⟨⟨inner, hinner, -⟩, -⟩ := Standard.filled_scalar name tag hmem (.inr hfilled.1)
    have hleaf := fillsLeaf_filler name tag hmem (.inr hfilled.1) inner hinner (Text.words words.toList)
      (Standard.default_suited name tag hmem words hwords inner hinner)
    rw [fillDefault_of_empty _ node hwords hfilled.2, hleaf node hsignature symbols,
      fillDefault_of_empty _ (node.attach child) hwords (hchildren ▸ hfilled.2),
      hleaf (node.attach child) hsignature symbols]
    exact apart_attach hsignature hnone hother symbols
  · have hgiven : tag.default = none ∨ node.childrenOf tag.key ≠ [] := by
      refine (not_and_or.mp hfilled).imp_left fun hdefault => ?_
      simpa using hdefault
    rw [fillDefault_of_given _ node hgiven, fillDefault_of_given _ (node.attach child) (hchildren ▸ hgiven)]
    exact .ok () symbols hsignature hnone

theorem alike_fillDefaults {tags : List Tag} (hsub : tags ⊆ (Standard.signature name).tags) {tag : Tag}
    (htag : tag ∈ tags) {words : String} (hwords : tag.default = some words) {inner : SchemaName}
    (hinner : tag.schema = some inner) (place : Place)
    (hchild : child = leaf place tag.key inner (Text.words words.toList)) {step : Closing Unit}
    (hstep : Natural nowhere step) (symbols : Symbols) :
    Alike ((tags.forM (fillDefault (filler .standard)) >>= fun _ => step) (node, symbols))
      ((tags.forM (fillDefault (filler .standard)) >>= fun _ => step) (node.attach child, symbols)) := by
  have hkey : child.tag = tag.key := by rw [hchild]; rfl
  induction tags generalizing node symbols with
  | nil => cases htag
  | cons first tags ih =>
    have hrest : tags ⊆ (Standard.signature name).tags := fun other hother => hsub (.tail _ hother)
    rw [List.forM_eq_forM, List.forM_cons, bind_assoc]
    by_cases hfirst : tag = first
    · subst hfirst
      -- Here the tag is filled on one side only, and from here on the sides differ by places alone.
      have hdefault : tag.default.isSome := by rw [hwords]; rfl
      have hleaf := fillsLeaf_filler name tag (hsub htag) (.inr hdefault) inner hinner _
        (Standard.default_suited name tag (hsub htag) words hwords inner hinner) node hsignature symbols
      have hfill := (fillDefault_of_empty (filler .standard) node hwords (hkey ▸ hnone) symbols).trans hleaf
      have hgiven : (node.attach child).childrenOf tag.key ≠ [] := hkey ▸ childrenOf_attach_ne_nil node child
      have hskip := fillDefault_of_given (filler .standard) (node.attach child) (.inr hgiven) symbols
      rw [bind_of_ok hfill, bind_of_ok hskip, hchild]
      have hnatural : Natural nowhere (tags.forM (fillDefault (filler .standard)) >>= fun _ => step) :=
        .bind (.forM fun other _ => .fillDefault .filler other) fun _ => hstep
      exact alike_leaf hnatural node _ place _ _ _ symbols
    · have hother : child.tag ≠ first.key := fun hsame =>
        hfirst (List.inj_on_of_nodup_map (Standard.tags_nodup name) (hsub htag) (hsub List.mem_cons_self)
          (hkey.symm.trans hsame))
      refine (apart_fillDefault hsignature hnone (hsub List.mem_cons_self) hother symbols).alike ?_
      intro _ after registered hafter hlacks
      exact ih hafter hlacks hrest ((List.mem_cons.mp htag).resolve_left hfirst) registered

theorem close_default (hopened : node.phase = .opened) {tag : Tag}
    (htag : tag ∈ (Standard.signature name).tags) {words : String} (hwords : tag.default = some words)
    {inner : SchemaName} (hinner : tag.schema = some inner) (place : Place)
    (hchild : child = leaf place tag.key inner (Text.words words.toList)) (symbols : Symbols) :
    Alike (close .standard (Standard.schema name) (node, symbols))
      (close .standard (Standard.schema name) (node.attach child, symbols)) := by
  have hkey : child.tag = tag.key := by rw [hchild]; rfl
  have hproperties : ∀ property ∈ (Standard.signature name).properties, property.key ≠ child.tag :=
    fun property hproperty => hkey ▸ Standard.property_ne_tag name property hproperty tag htag
  have himplicit : ∀ other, (Standard.signature name).implicitTag? = some other → child.tag ≠ other.key := by
    intro other hother hsame
    have hmem : other ∈ (Standard.signature name).tags := List.mem_of_find?_eq_some hother
    obtain rfl : tag = other :=
      List.inj_on_of_nodup_map (Standard.tags_nodup name) htag hmem (hkey.symm.trans hsame)
    have hstands : tag.implicit = true := by simpa using List.find?_some hother
    rw [(Standard.implicit_text name tag htag hstands).2] at hwords
    cases hwords
  have hsame : ({ node with words := [] } : Node).signature = Standard.signature name := hsignature
  rw [close_eq_assign node hopened, close_eq_assign (node.attach child) hopened]
  refine (apart_assign hsame hnone hproperties node.words symbols).alike ?_
  intro rest after registered hafter hlacks
  refine (apart_fillImplicit hafter hlacks himplicit rest registered).alike ?_
  intro _ after registered hafter hlacks
  have hchecking : Natural nowhere (Closing.checking (Standard.schema name)) := .checking name
  exact alike_fillDefaults hafter hlacks (List.Subset.refl _) htag hwords hinner place hchild hchecking
    registered

end defaults

section term

variable {node : Node} {word : String}

theorem makes_text (property : Property) (hconversions : property.conversions = [])
    (hrules : property.rules = []) (word : String) : property.Makes [word] (.text word) := by
  have hjoined : " ".intercalate [word] = word := rfl
  exact ⟨by rw [hconversions, hjoined]; exact .done _, by simp [hrules]⟩

theorem standForItself_of_none (node : Node) {value : Datum} (hnone : node.values .value = none)
    (hname : node.values .name = some value) :
    Standard.standForItself node = .ok () (node.set .value value) := by
  rw [Standard.standForItself, hnone, hname]

theorem standForItself_of_some (node : Node) {value : Datum} (hvalue : node.values .value = some value) :
    Standard.standForItself node = .ok () node := by
  rw [Standard.standForItself, hvalue]

theorem following_term {before after : Node} (h : Standard.standForItself before = .ok () after)
    (symbols : Symbols) :
    following (filler .standard) (Standard.schema .term) [] (before, symbols) =
      (do
        (Standard.schema .term).checks.forM check
        (Standard.schema .term).registrations.forM register
        modifyNode fun node => { node with phase := .closed } : Closing Unit) (after, symbols) := by
  -- A term whose words are all placed is completed next, since none of its tags has a default.
  have hdefaults : (Standard.schema .term).tags.forM (fillDefault (filler .standard)) (before, symbols) =
      .ok () (before, symbols) := by
    have hall : ∀ tag ∈ (Standard.schema .term).tags, tag.default = none := by decide
    exact forM_eq_ok fun tag htag => fillDefault_of_given _ before (.inl (hall tag htag)) symbols
  have hnil : fillImplicit (filler .standard) [] (before, symbols) = .ok () (before, symbols) := rfl
  have hcomplete : complete Standard.standForItself (before, symbols) = .ok () (after, symbols) := by
    rw [complete]
    simp only [h]
  have hcompletions : (Standard.schema .term).completions = [Standard.standForItself] := rfl
  rw [following, bind_of_ok hnil, concluding, bind_of_ok hdefaults, checking, hcompletions, List.forM_eq_forM,
    List.forM_cons, bind_assoc, bind_of_ok hcomplete]
  rfl

theorem close_term (hopened : node.phase = .opened) (hnone : node.values .value = none) (word : String)
    (symbols : Symbols) :
    close .standard (Standard.schema .term) ({ node with words := [word] }, symbols) =
      close .standard (Standard.schema .term) ({ node with words := [word, word] }, symbols) := by
  have hname := makes_text Standard.name rfl rfl word
  have hvalue := makes_text (.range .value 0 none) rfl rfl word
  have hshort : Slices (Standard.schema .term).properties [word] [⟨Standard.name, [word], .text word⟩] [] :=
    .taken (.fixed [word] [] rfl) hname (.unset (.nothing rfl (.inl rfl)) .done)
  have hfull : Slices (Standard.schema .term).properties [word, word]
      [⟨Standard.name, [word], .text word⟩, ⟨.range .value 0 none, [word], .text word⟩] [] :=
    .taken (.fixed [word] [word] rfl) hname
      (.taken (.all [word] rfl (List.cons_ne_nil _ _) (Nat.zero_le _) nofun) hvalue .done)
  rw [close_eq_assign { node with words := [word] } hopened,
    close_eq_assign { node with words := [word, word] } hopened,
    bind_of_ok (assign_of_slices hshort), bind_of_ok (assign_of_slices hfull)]
  -- Either the term takes its name for its value, or it was given just that.
  have hstands := standForItself_of_none (({ node with words := [] } : Node).filling
    [⟨Standard.name, [word], .text word⟩]) hnone rfl
  have hkept := standForItself_of_some (({ node with words := [] } : Node).filling
    [⟨Standard.name, [word], .text word⟩, ⟨.range .value 0 none, [word], .text word⟩]) rfl
  rw [following_term hstands, following_term hkept]
  rfl

end term

/-- The second node is the first one after a tag with some words was closed and folded into it. -/
def Folds (tag : Keyword) (name : SchemaName) (place : Place) (words : List String) (node after : Node) :
    Prop :=
  ∃ child, Written tag name place words child ∧ node.adopt child = .ok after

theorem folds_leaf {name : SchemaName} {node : Node} (hsignature : node.signature = Standard.signature name)
    {tag : Tag} (htag : tag ∈ (Standard.signature name).tags) (hstands : tag.implicit ∨ tag.default.isSome)
    {inner : SchemaName} (hinner : tag.schema = some inner) {words : List String}
    (hsuited : Suited inner words) (place : Place) :
    Folds tag.key inner place words node (node.attach (leaf place tag.key inner words)) := by
  obtain ⟨⟨scalar, hschema, hscalar⟩, hallowed, hunique⟩ := Standard.filled_scalar name tag htag hstands
  cases hschema.symm.trans hinner
  refine ⟨_, written_leaf hscalar hsuited place, adopt_plain ?_ hallowed hunique⟩
  rw [hsignature]
  exact Standard.tag?_of_mem name tag htag

theorem default_written_out {name : SchemaName} {node : Node}
    (hsignature : node.signature = Standard.signature name) (hopened : node.phase = .opened) {tag : Tag}
    (htag : tag ∈ (Standard.signature name).tags)
    (hnone : node.childrenOf tag.key = []) {words : String} (hwords : tag.default = some words)
    {inner : SchemaName} (hinner : tag.schema = some inner) (place : Place) (symbols : Symbols) :
    let explicit := node.attach (leaf place tag.key inner (Text.words words.toList))
    Folds tag.key inner place (Text.words words.toList) node explicit ∧
      Alike (close .standard (Standard.schema name) (node, symbols))
        (close .standard (Standard.schema name) (explicit, symbols)) := by
  have hstands : tag.implicit ∨ tag.default.isSome := .inr (by rw [hwords]; rfl)
  have hsuited := Standard.default_suited name tag htag words hwords inner hinner
  exact ⟨folds_leaf hsignature htag hstands hinner hsuited place,
    close_default hsignature hnone hopened htag hwords hinner place rfl symbols⟩

section classes

variable {node : Node} (hsignature : node.signature = Standard.signature .classSchema)
  (hopened : node.phase = .opened)
include hsignature hopened

theorem version_written_out (hnone : node.childrenOf .version = []) (place : Place) (symbols : Symbols) :
    let explicit := node.attach (leaf place .version .string ["0"])
    Folds .version .string place ["0"] node explicit ∧
      Alike (close .standard (Standard.schema .classSchema) (node, symbols))
        (close .standard (Standard.schema .classSchema) (explicit, symbols)) := by
  have htag : { Standard.text .version with default := some "0" } ∈
      (Standard.signature .classSchema).tags := by
    decide
  exact default_written_out hsignature hopened htag hnone rfl rfl place symbols

theorem implement_written_out (hnone : node.childrenOf .implement = []) (place : Place) (symbols : Symbols) :
    let explicit := node.attach (leaf place .implement .boolean ["true"])
    Folds .implement .boolean place ["true"] node explicit ∧
      Alike (close .standard (Standard.schema .classSchema) (node, symbols))
        (close .standard (Standard.schema .classSchema) (explicit, symbols)) := by
  have htag : { Standard.flag .implement with default := some "true" } ∈
      (Standard.signature .classSchema).tags := by
    decide
  exact default_written_out hsignature hopened htag hnone rfl rfl place symbols

end classes

/-- What is written short closes like what is written out: words behind the properties like a description, a
class without a version or an implement tag like one with the default, a term of one word like one with the
word as its text. A description that is given in both ways is refused, once the words before it are
accepted. -/
theorem close_shorthand :
    (∀ name, Standard.describing ∈ (Standard.signature name).tags →
      ∀ (node : Node) (words rest : List String) (place : Place) (symbols : Symbols),
        node.signature = Standard.signature name → node.phase = .opened → node.childrenOf .description = [] →
        words.length = (Standard.signature name).properties.length → rest ≠ [] →
        ∃ explicit, Folds .description .string place rest node explicit ∧
          Alike (close .standard (Standard.schema name) ({ node with words := words ++ rest }, symbols))
            (close .standard (Standard.schema name) ({ explicit with words }, symbols)) ∧
          ∀ more, more ≠ [] →
            let both := close .standard (Standard.schema name)
              ({ explicit with words := words ++ more }, symbols)
            ((∃ slots, Slices (Standard.signature name).properties words slots []) →
                faultKind? both = some .tagCardinality) ∧
              ((∀ slots, ¬Slices (Standard.signature name).properties words slots []) →
                faultKind? both = some .propertyValue)) ∧
    (∀ (node : Node) (place other : Place) (symbols : Symbols),
      node.signature = Standard.signature .classSchema → node.phase = .opened →
      (node.childrenOf .version = [] → ∃ explicit, Folds .version .string place ["0"] node explicit ∧
        Alike (close .standard (Standard.schema .classSchema) (node, symbols))
          (close .standard (Standard.schema .classSchema) (explicit, symbols))) ∧
      (node.childrenOf .implement = [] → ∃ explicit, Folds .implement .boolean other ["true"] node explicit ∧
        Alike (close .standard (Standard.schema .classSchema) (node, symbols))
          (close .standard (Standard.schema .classSchema) (explicit, symbols))) ∧
      (node.childrenOf .version = [] → node.childrenOf .implement = [] → ∃ between explicit,
        Folds .version .string place ["0"] node between ∧
        Folds .implement .boolean other ["true"] between explicit ∧
        Alike (close .standard (Standard.schema .classSchema) (node, symbols))
          (close .standard (Standard.schema .classSchema) (explicit, symbols)))) ∧
    ∀ (node : Node) (word : String) (symbols : Symbols), node.phase = .opened → node.values .value = none →
      close .standard (Standard.schema .term) ({ node with words := [word] }, symbols) =
        close .standard (Standard.schema .term) ({ node with words := [word, word] }, symbols) := by
  refine ⟨?_, ?_, fun node word symbols hopened hnone => close_term hopened hnone word symbols⟩
  · intro name hdescribing node words rest place symbols hsignature hopened hnone hlength hrest
    have hfolds : Folds .description .string place rest node
        (node.attach (leaf place .description .string rest)) :=
      folds_leaf hsignature hdescribing (.inl rfl) rfl (suited_string hrest) place
    refine ⟨_, hfolds, ?_, fun more hmore => ?_⟩
    · rw [close_eq_assign { node with words := words ++ rest } hopened,
        close_eq_assign { node.attach (leaf place .description .string rest) with words } hopened]
      exact assign_describing { node with words := [] } hdescribing hsignature hnone hlength hrest place
        symbols
    · have hgiven := childrenOf_attach_ne_nil node (leaf place .description .string rest)
      rw [close_eq_assign { node.attach (leaf place .description .string rest) with words := words ++ more }
        hopened]
      exact assign_described_twice { node.attach (leaf place .description .string rest) with words := [] }
        hdescribing hsignature hgiven hlength hmore symbols
  · intro node place other symbols hsignature hopened
    refine ⟨fun hnone => ⟨_, version_written_out hsignature hopened hnone place symbols⟩,
      fun hnone => ⟨_, implement_written_out hsignature hopened hnone other symbols⟩, fun hnone hnone' => ?_⟩
    obtain ⟨hversion, halike⟩ := version_written_out hsignature hopened hnone place symbols
    -- The node keeps its signature and its phase when the version is folded.
    have hkept : (node.attach (leaf place .version .string ["0"])).signature =
        Standard.signature .classSchema := hsignature
    have hempty : (node.attach (leaf place .version .string ["0"])).childrenOf .implement = [] := by
      simpa [leaf] using hnone'
    obtain ⟨himplement, halike'⟩ := implement_written_out hkept hopened hempty other symbols
    exact ⟨_, _, hversion, himplement, halike.trans halike'⟩

/-- Here a field is described, a class has its defaults, and a term stands for itself. -/
theorem close_shorthand_examples :
    let field := start .field (Standard.signature .field) ⟨"a.talk", 1⟩
    let classNode := { start .classWord (Standard.signature .classSchema) ⟨"a.talk", 1⟩ with words := ["A"] }
    let term := start .term (Standard.signature .term) ⟨"a.talk", 1⟩
    (∃ explicit, Folds .description .string ⟨"a.talk", 2⟩ ["some", "text"] field explicit ∧
      Alike (close .standard (Standard.schema .field)
          ({ field with words := ["uint8", "x", "some", "text"] }, .empty))
        (close .standard (Standard.schema .field) ({ explicit with words := ["uint8", "x"] }, .empty))) ∧
    (∃ between explicit, Folds .version .string ⟨"a.talk", 2⟩ ["0"] classNode between ∧
      Folds .implement .boolean ⟨"a.talk", 3⟩ ["true"] between explicit ∧
      Alike (close .standard (Standard.schema .classSchema) (classNode, .empty))
        (close .standard (Standard.schema .classSchema) (explicit, .empty))) ∧
    close .standard (Standard.schema .term) ({ term with words := ["n"] }, .empty) =
      close .standard (Standard.schema .term) ({ term with words := ["n", "n"] }, .empty) := by
  intro field classNode term
  obtain ⟨hdescribed, hdefaults, hterm⟩ := close_shorthand
  obtain ⟨explicit, hfolds, halike, -⟩ := hdescribed .field (by decide) field ["uint8", "x"] ["some", "text"]
    ⟨"a.talk", 2⟩ .empty rfl rfl rfl rfl (List.cons_ne_nil _ _)
  obtain ⟨-, -, hboth⟩ := hdefaults classNode ⟨"a.talk", 2⟩ ⟨"a.talk", 3⟩ .empty rfl rfl
  exact ⟨⟨explicit, hfolds, halike⟩, hboth rfl rfl, hterm term "n" .empty rfl rfl⟩

/-- Here the words before a description that is given twice are refused. -/
theorem described_twice_misnamed :
    ∃ explicit, Folds .description .string ⟨"t.talk", 2⟩ ["w"]
        (start .field (Standard.signature .field) ⟨"t.talk", 1⟩) explicit ∧
      faultKind? (close .standard (Standard.schema .field)
        ({ explicit with words := ["uint8", "__x", "w"] }, .empty)) = some .propertyValue := by
  have hsignature : (start .field (Standard.signature .field) ⟨"t.talk", 1⟩).signature =
      Standard.signature .field := rfl
  have hdescribing : Standard.describing ∈ (Standard.signature .field).tags := by decide
  have hfolds := folds_leaf hsignature hdescribing (.inl rfl) rfl (suited_string (List.cons_ne_nil "w" []))
    ⟨"t.talk", 2⟩
  exact ⟨_, hfolds, by decide +kernel⟩

end Node
end TagSchema
