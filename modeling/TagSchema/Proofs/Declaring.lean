import Mathlib.Data.List.Induction
import TagSchema.Proofs.Slots

/-! What a list of declarations makes up. Each declaration has to fit behind those before it, and it has to be
clear which words belong where; then the schema has what was declared, in that order, behind the checks that
its properties and tags call for by themselves. -/
namespace TagSchema

namespace Property

def withRules (property : Property) (rules : List ValueRule) : Property :=
  { property with rules := property.rules ++ rules }

@[simp] theorem withRules_nil (property : Property) : property.withRules [] = property := by
  simp [withRules]

theorem withRules_append (property : Property) (rules more : List ValueRule) :
    property.withRules (rules ++ more) = (property.withRules rules).withRules more := by
  simp [withRules]

end Property

namespace Declaration

def property? : Declaration → Option Property
  | .property declared => some declared
  | _ => none

def tag? : Declaration → Option Tag
  | .tag declared => some declared
  | _ => none

def key? (declaration : Declaration) : Option Keyword :=
  (declaration.property?.map (·.key)).or (declaration.tag?.map (·.key))

def ruleFor? (key : Keyword) : Declaration → Option ValueRule
  | rule own complaint holds => if own = key then some ⟨complaint, .predicate holds⟩ else none
  | _ => none

def ruled (declarations : List Declaration) (property : Property) : Property :=
  property.withRules (declarations.filterMap (ruleFor? property.key))

def check? : Declaration → Option NodeCheck
  | checkNode complaint holds => some (.predicate complaint holds)
  | _ => none

def completion? : Declaration → Option Completion
  | complete completion => some completion
  | _ => none

def registration? : Declaration → Option Registration
  | register key space delimiter => some ⟨key, space, delimiter⟩
  | _ => none

def reference? : Declaration → Option Reference
  | refer reference => some reference
  | _ => none

def scalar? : Declaration → Option Keyword
  | scalar key => some key
  | _ => none

/-- What is wrong with a declaration that comes behind others. -/
inductive Misfit (name : SchemaName) (earlier : List Declaration) : Declaration → Defect → Prop
  | taken {declaration : Declaration} {key : Keyword} (hkey : declaration.key? = some key)
    (htaken : key ∈ earlier.filterMap key?) : Misfit name earlier declaration (.duplicateKey name key)
  | unknown {key : Keyword} {complaint : String} {holds : Datum → Bool}
    (hnone : key ∉ (earlier.filterMap property?).map (·.key)) :
    Misfit name earlier (rule key complaint holds) (.unknownProperty name key)

def Fit (name : SchemaName) (declarations : List Declaration) : Prop :=
  ∀ earlier declaration later, declarations = earlier ++ declaration :: later →
    ∀ defect, ¬Misfit name earlier declaration defect

def FirstMisfit (name : SchemaName) (declarations : List Declaration) (defect : Defect) : Prop :=
  ∃ earlier declaration later, declarations = earlier ++ declaration :: later ∧ Fit name earlier ∧
    Misfit name earlier declaration defect

end Declaration

namespace Schema
open Declaration

/-- The key of what makes it unclear which words belong where: a second implicit tag, or else the first
property of variable length that is not the last taker of words. -/
inductive Unclear (properties : List Property) (tags : List Tag) : Keyword → Prop
  | secondImplicit {before between after : List Tag} {first second : Tag}
    (htags : tags = before ++ first :: between ++ second :: after) (hfirst : first.implicit)
    (hsecond : second.implicit) (hothers : ∀ tag ∈ before ++ between, ¬tag.implicit) :
    Unclear properties tags second.key
  | notLast {before after : List Property} {property : Property}
    (hproperties : properties = before ++ property :: after) (hvariable : property.arity.isVariable)
    (hothers : ∀ other ∈ before, ¬other.arity.isVariable)
    (hfew : (tags.filter (·.implicit)).length ≤ 1) (hbehind : after ≠ [] ∨ ∃ tag ∈ tags, tag.implicit) :
    Unclear properties tags property.key

/-- The schema has what the declarations say, in their order. -/
structure Assembles (name : SchemaName) (declarations : List Declaration) (schema : Schema) : Prop where
  name : schema.name = name
  properties : schema.properties = (declarations.filterMap property?).map (ruled declarations)
  tags : schema.tags = declarations.filterMap tag?
  registrations : schema.registrations = declarations.filterMap registration?
  references : schema.references = declarations.filterMap reference?
  scalar : schema.scalar = (declarations.filterMap scalar?).getLast?
  completions : schema.completions = declarations.filterMap completion?
  checks : schema.checks =
    ((declarations.filterMap property?).filter (·.required)).map (.requiredProperty ·.key) ++
      ((declarations.filterMap tag?).filter (·.schema.isSome)).flatMap (fun tag =>
        (if tag.multi then [] else [.singularTag tag.key]) ++
          if tag.required then [.requiredTag tag.key] else []) ++
      declarations.filterMap check?
  distinct : schema.keys.Nodup

/-- What comes of the declarations of a schema. -/
inductive Verdict (name : SchemaName) (declarations : List Declaration) : Except Defect Schema → Prop
  | misfit {defect : Defect} (h : FirstMisfit name declarations defect) :
    Verdict name declarations (.error defect)
  | unclear {key : Keyword} (hfit : Fit name declarations)
    (h : Unclear (declarations.filterMap property?) (declarations.filterMap tag?) key) :
    Verdict name declarations (.error (.variableLengthNotLast name key))
  | built {schema : Schema} (hfit : Fit name declarations)
    (hclear : ∀ key, ¬Unclear (declarations.filterMap property?) (declarations.filterMap tag?) key)
    (h : Assembles name declarations schema) : Verdict name declarations (.ok schema)

def declared (name : SchemaName) (declarations : List Declaration) : Schema where
  name
  properties := (declarations.filterMap property?).map (ruled declarations)
  tags := declarations.filterMap tag?
  registrations := declarations.filterMap registration?
  references := declarations.filterMap reference?
  scalar := (declarations.filterMap scalar?).getLast?
  checks := declarations.filterMap check?
  completions := declarations.filterMap completion?

section steps

variable {name : SchemaName} {earlier : List Declaration} {declaration : Declaration} {defect : Defect}

theorem uses_iff {schema : Schema} {key : Keyword} : schema.uses key = true ↔ key ∈ schema.keys := by
  simp [Signature.uses, Signature.property?, Signature.tag?, keys]

theorem property?_isNone {schema : Schema} {key : Keyword} :
    (schema.property? key).isNone = true ↔ key ∉ schema.properties.map (·.key) := by
  simp [Signature.property?]

theorem properties_keys_declared (name : SchemaName) (declarations : List Declaration) :
    (declared name declarations).properties.map (·.key) =
      (declarations.filterMap property?).map (·.key) := by
  rw [declared, List.map_map]
  rfl

theorem mem_keys_declared {key : Keyword} :
    key ∈ (declared name earlier).keys ↔ key ∈ earlier.filterMap key? := by
  have hkey (declaration : Declaration) : declaration.key? = some key ↔
      (∃ property, declaration.property? = some property ∧ property.key = key) ∨
        ∃ tag, declaration.tag? = some tag ∧ tag.key = key := by
    cases declaration <;> simp [key?, Declaration.property?, Declaration.tag?]
  rw [keys, properties_keys_declared, declared]
  simp only [List.mem_append, List.mem_map, List.mem_filterMap, hkey]
  grind

theorem declare_of_misfit (h : Misfit name earlier declaration defect) :
    (declared name earlier).declare declaration = .error defect := by
  cases h with
  | @taken _ key hkey htaken =>
    have huses : (declared name earlier).uses key = true := uses_iff.mpr (mem_keys_declared.mpr htaken)
    cases declaration with
    | property property =>
      cases hkey
      exact if_pos huses
    | tag tag =>
      cases hkey
      exact if_pos huses
    | rule | checkNode | complete | register | refer | scalar => cases hkey
  | unknown hnone => exact if_pos (property?_isNone.mpr (properties_keys_declared name earlier ▸ hnone))

theorem addRule_eq_map {properties : List Property} (hnodup : (properties.map (·.key)).Nodup) (key : Keyword)
    (rule : ValueRule) : addRule key rule properties =
      properties.map fun property => if property.key = key then property.withRule rule else property := by
  induction properties with
  | nil => rfl
  | cons property properties ih =>
    rw [List.map_cons, List.nodup_cons] at hnodup
    rw [addRule, List.map_cons]
    split
    · next hkey =>
      have hothers : ∀ other ∈ properties, other.key ≠ key := fun other hother hsame =>
        hnodup.1 (List.mem_map.mpr ⟨other, hother, hsame.trans hkey.symm⟩)
      congr 1
      conv_lhs => rw [← List.map_id properties]
      exact List.map_congr_left fun other hother => (if_neg (hothers other hother)).symm
    · rw [ih hnodup.2]

theorem fit_concat : Fit name (earlier ++ [declaration]) ↔
    Fit name earlier ∧ ∀ defect, ¬Misfit name earlier declaration defect := by
  constructor
  · intro hfit
    refine ⟨fun before other after hsplit => ?_, hfit earlier declaration [] rfl⟩
    exact hfit before other (after ++ [declaration]) (by rw [hsplit, List.append_assoc, List.cons_append])
  · rintro ⟨hfit, hlast⟩ before other after hsplit
    rcases List.eq_nil_or_concat after with rfl | ⟨inner, last, rfl⟩
    · obtain ⟨rfl, hother⟩ := List.append_inj' hsplit rfl
      cases hother
      exact hlast
    · rw [List.concat_eq_append, ← List.cons_append, ← List.append_assoc] at hsplit
      exact hfit before other inner (List.append_inj' hsplit rfl).1

theorem rules_of_fit (hfit : Fit name earlier) {key : Keyword}
    (hnone : key ∉ (earlier.filterMap property?).map (·.key)) : earlier.filterMap (ruleFor? key) = [] := by
  refine List.filterMap_eq_nil_iff.mpr fun declaration hdeclaration => ?_
  obtain ⟨before, after, rfl⟩ := List.append_of_mem hdeclaration
  cases declaration with
  | rule own complaint holds =>
    refine if_neg fun hown => hfit before _ after rfl _ (.unknown fun hmem => hnone ?_)
    rw [List.filterMap_append, List.map_append]
    exact List.mem_append_left _ (hown ▸ hmem)
  | property | tag | checkNode | complete | register | refer | scalar => rfl

theorem filterMap_concat (take : Declaration → Option α) (earlier : List Declaration)
    (declaration : Declaration) :
    (earlier ++ [declaration]).filterMap take = earlier.filterMap take ++ (take declaration).toList := by
  cases htake : take declaration <;> simp [htake]

theorem ruled_concat (earlier : List Declaration) (declaration : Declaration) (property : Property) :
    ruled (earlier ++ [declaration]) property =
      (ruled earlier property).withRules (declaration.ruleFor? property.key).toList := by
  rw [ruled, filterMap_concat, Property.withRules_append]
  rfl

theorem declared_concat (name : SchemaName)
    (hbehind : ∀ property, declaration.property? = some property →
      earlier.filterMap (ruleFor? property.key) = []) :
    declared name (earlier ++ [declaration]) =
      { name := (declared name earlier).name
        properties := ((declared name earlier).properties ++ declaration.property?.toList).map fun property =>
          property.withRules (declaration.ruleFor? property.key).toList
        tags := (declared name earlier).tags ++ declaration.tag?.toList
        registrations := (declared name earlier).registrations ++ declaration.registration?.toList
        references := (declared name earlier).references ++ declaration.reference?.toList
        scalar := declaration.scalar?.or (declared name earlier).scalar
        checks := (declared name earlier).checks ++ declaration.check?.toList
        completions := (declared name earlier).completions ++ declaration.completion?.toList } := by
  have hold : ((earlier.filterMap property?).map (ruled (earlier ++ [declaration]))) =
      ((earlier.filterMap property?).map (ruled earlier)).map fun property =>
        property.withRules (declaration.ruleFor? property.key).toList := by
    rw [List.map_map]
    exact List.map_congr_left fun property _ => ruled_concat earlier declaration property
  have hnew : declaration.property?.toList.map (ruled (earlier ++ [declaration])) =
      declaration.property?.toList.map fun property =>
        property.withRules (declaration.ruleFor? property.key).toList := by
    refine List.map_congr_left fun property hproperty => ?_
    rw [ruled_concat, ruled, hbehind property (by simpa using hproperty), Property.withRules_nil]
  have hscalar (keys : List Keyword) :
      (keys ++ declaration.scalar?.toList).getLast? = declaration.scalar?.or keys.getLast? := by
    cases declaration.scalar? <;> simp
  simp only [declared, filterMap_concat, List.map_append, hold, hnew, hscalar]

theorem declare_of_fit (hfit : Fit name (earlier ++ [declaration]))
    (hnodup : (declared name earlier).keys.Nodup) :
    (declared name earlier).declare declaration = .ok (declared name (earlier ++ [declaration])) := by
  obtain ⟨hbefore, hlast⟩ := fit_concat.mp hfit
  have hunused {key : Keyword} (hkey : declaration.key? = some key) : key ∉ (declared name earlier).keys :=
    fun hmem => hlast _ (.taken hkey (mem_keys_declared.mp hmem))
  have hbehind (property : Property) (h : declaration.property? = some property) :
      earlier.filterMap (ruleFor? property.key) = [] := by
    have hkey : declaration.key? = some property.key := by simp [key?, h]
    refine rules_of_fit hbefore fun hmem => hunused hkey (List.mem_append_left _ ?_)
    rwa [properties_keys_declared]
  rw [declared_concat name hbehind]
  cases declaration with
  | property property =>
    refine (if_neg fun huses => hunused rfl (uses_iff.mp huses)).trans ?_
    simp [Declaration.property?, Declaration.tag?, ruleFor?, registration?, reference?, scalar?, check?,
      completion?]
  | tag tag =>
    refine (if_neg fun huses => hunused rfl (uses_iff.mp huses)).trans ?_
    simp [Declaration.property?, Declaration.tag?, ruleFor?, registration?, reference?, scalar?, check?,
      completion?]
  | rule key complaint holds =>
    have hknown : ¬((declared name earlier).property? key).isNone = true := fun hnone =>
      hlast _ (.unknown (properties_keys_declared name earlier ▸ property?_isNone.mp hnone))
    have hadds (property : Property) :
        (if property.key = key then property.withRule ⟨complaint, .predicate holds⟩ else property) =
          property.withRules ((rule key complaint holds).ruleFor? property.key).toList := by
      by_cases hkey : property.key = key
      · rw [if_pos hkey, ruleFor?, if_pos hkey.symm]
        rfl
      · rw [if_neg hkey, ruleFor?, if_neg (Ne.symm hkey)]
        exact (property.withRules_nil).symm
    refine (if_neg hknown).trans ?_
    rw [addRule_eq_map (List.nodup_append.mp hnodup).1]
    simp only [hadds]
    simp [Declaration.property?, Declaration.tag?, registration?, reference?, scalar?, check?, completion?]
  | checkNode | complete | register | refer | scalar =>
    simp [declare, Declaration.property?, Declaration.tag?, ruleFor?, registration?, reference?, scalar?,
      check?, completion?]

theorem foldlM_of_fit {declarations : List Declaration} (hfit : Fit name declarations) :
    declarations.foldlM declare { name } = .ok (declared name declarations) ∧
      (declared name declarations).keys.Nodup := by
  induction declarations using List.reverseRecOn with
  | nil => exact ⟨rfl, .nil⟩
  | append_singleton earlier declaration ih =>
    obtain ⟨hrun, hnodup⟩ := ih (fit_concat.mp hfit).1
    have hdeclare := declare_of_fit hfit hnodup
    refine ⟨?_, keys_nodup_of_declare hdeclare hnodup⟩
    rw [List.foldlM_append, hrun]
    change [declaration].foldlM declare (declared name earlier) = _
    rw [List.foldlM_cons, hdeclare]
    rfl

theorem foldlM_of_firstMisfit {declarations : List Declaration} (h : FirstMisfit name declarations defect) :
    declarations.foldlM declare { name } = .error defect := by
  obtain ⟨earlier, declaration, later, rfl, hfit, hmisfit⟩ := h
  rw [List.foldlM_append, (foldlM_of_fit hfit).1]
  change (declaration :: later).foldlM declare (declared name earlier) = _
  rw [List.foldlM_cons, declare_of_misfit hmisfit]
  rfl

theorem fit_or_firstMisfit (name : SchemaName) (declarations : List Declaration) :
    Fit name declarations ∨ ∃ defect, FirstMisfit name declarations defect := by
  induction declarations using List.reverseRecOn with
  | nil => exact .inl fun earlier declaration later hsplit => by simp at hsplit
  | append_singleton earlier declaration ih =>
    rcases ih with hfit | ⟨defect, before, first, later, rfl, hfit, hmisfit⟩
    · by_cases hmisfit : ∃ defect, Misfit name earlier declaration defect
      · obtain ⟨defect, hmisfit⟩ := hmisfit
        exact .inr ⟨defect, earlier, declaration, [], rfl, hfit, hmisfit⟩
      · exact .inl (fit_concat.mpr ⟨hfit, not_exists.mp hmisfit⟩)
    · exact .inr ⟨defect, before, first, later ++ [declaration], by simp, hfit, hmisfit⟩

end steps

section misplaced

variable {tags : List Tag} {first second : Tag}

theorem filter_implicit_of_split {before between after : List Tag}
    (htags : tags = before ++ first :: between ++ second :: after) (hfirst : first.implicit)
    (hsecond : second.implicit) (hothers : ∀ tag ∈ before ++ between, ¬tag.implicit) :
    tags.filter (·.implicit) = first :: second :: after.filter (·.implicit) := by
  rw [List.forall_mem_append] at hothers
  have hbefore := List.filter_eq_nil_iff.mpr hothers.1
  have hbetween := List.filter_eq_nil_iff.mpr hothers.2
  simp [htags, hbefore, hbetween, hfirst, hsecond]

theorem exists_split_of_filter_implicit {others : List Tag}
    (h : tags.filter (·.implicit) = first :: second :: others) :
    ∃ before between after, tags = before ++ first :: between ++ second :: after ∧ first.implicit ∧
      second.implicit ∧ ∀ tag ∈ before ++ between, ¬tag.implicit := by
  obtain ⟨before, rest, rfl, hbefore, hfirst, hrest⟩ := List.filter_eq_cons_iff.mp h
  obtain ⟨between, after, rfl, hbetween, hsecond, -⟩ := List.filter_eq_cons_iff.mp hrest
  exact ⟨before, between, after, by simp, hfirst, hsecond, List.forall_mem_append.mpr ⟨hbefore, hbetween⟩⟩

theorem find?_takers {properties : List Property} {property : Property} (last : Bool) :
    (if last then properties.dropLast else properties).find? (·.arity.isVariable) = some property ↔
      ∃ before after, properties = before ++ property :: after ∧ property.arity.isVariable ∧
        (∀ other ∈ before, ¬other.arity.isVariable) ∧ (after ≠ [] ∨ last = false) := by
  rw [List.find?_eq_some_iff_append]
  constructor
  · rintro ⟨hvariable, before, after, hsplit, hothers⟩
    have hothers : ∀ other ∈ before, ¬other.arity.isVariable := by simpa using hothers
    cases last with
    | false => exact ⟨before, after, hsplit, hvariable, hothers, .inr rfl⟩
    | true =>
      have hsplit : properties.dropLast = before ++ property :: after := hsplit
      have hproperties : properties ≠ [] := by
        rintro rfl
        simp at hsplit
      refine ⟨before, after ++ [properties.getLast hproperties], ?_, hvariable, hothers, .inl (by simp)⟩
      rw [← List.cons_append, ← List.append_assoc, ← hsplit, List.dropLast_concat_getLast]
  · rintro ⟨before, after, rfl, hvariable, hothers, hbehind⟩
    have hothers : ∀ other ∈ before, (!other.arity.isVariable) = true := by simpa using hothers
    cases last with
    | false => exact ⟨hvariable, before, after, rfl, hothers⟩
    | true =>
      have hafter : after ≠ [] := hbehind.resolve_right (by simp)
      refine ⟨hvariable, before, after.dropLast, ?_, hothers⟩
      rw [if_pos rfl, List.dropLast_append_of_ne_nil (List.cons_ne_nil _ _),
        List.dropLast_cons_of_ne_nil hafter]

theorem misplaced?_eq_some {schema : Schema} {key : Keyword} :
    schema.misplaced? = some key ↔ Unclear schema.properties schema.tags key := by
  unfold misplaced?
  split
  · next first second others hfilter =>
    obtain ⟨before, between, after, htags, hfirst, hsecond, hothers⟩ := exists_split_of_filter_implicit hfilter
    constructor
    · rintro ⟨⟩
      exact .secondImplicit htags hfirst hsecond hothers
    · intro h
      cases h with
      | secondImplicit htags hfirst hsecond hothers =>
        cases hfilter.symm.trans (filter_implicit_of_split htags hfirst hsecond hothers)
        rfl
      | notLast _ _ _ hfew => simp [hfilter] at hfew
  · next hnone =>
    have hfew : (schema.tags.filter (·.implicit)).length ≤ 1 := by
      match hfilter : schema.tags.filter (·.implicit) with
      | [] | [_] => simp [hfilter]
      | first :: second :: others => exact (hnone _ _ _ hfilter).elim
    have himplicit : (schema.tags.filter (·.implicit)).isEmpty = false ↔ ∃ tag ∈ schema.tags, tag.implicit := by
      simp [← Bool.not_eq_true]
    simp only [Option.map_eq_some_iff, find?_takers, himplicit]
    constructor
    · rintro ⟨property, ⟨before, after, hproperties, hvariable, hothers, hbehind⟩, rfl⟩
      exact .notLast hproperties hvariable hothers hfew hbehind
    · intro h
      cases h with
      | secondImplicit htags hfirst hsecond hothers =>
        exact (hnone _ _ _ (filter_implicit_of_split htags hfirst hsecond hothers)).elim
      | notLast hproperties hvariable hothers _ hbehind =>
        exact ⟨_, ⟨_, _, hproperties, hvariable, hothers, hbehind⟩, rfl⟩

end misplaced

theorem misplaced?_map (schema : Schema) (change : Property → Property)
    (hkey : ∀ property, (change property).key = property.key)
    (harity : ∀ property, (change property).arity = property.arity) :
    ({ schema with properties := schema.properties.map change } : Schema).misplaced? = schema.misplaced? := by
  simp only [misplaced?, ← List.map_dropLast, ← apply_ite (List.map _), List.find?_map, Option.map_map,
    Function.comp_def, hkey, harity]

theorem misplaced?_declared {name : SchemaName} {declarations : List Declaration} {key : Keyword} :
    (declared name declarations).misplaced? = some key ↔
      Unclear (declarations.filterMap property?) (declarations.filterMap tag?) key := by
  let plain : Schema :=
    { name, properties := declarations.filterMap property?, tags := declarations.filterMap tag? }
  have hplain : (declared name declarations).misplaced? = plain.misplaced? :=
    misplaced?_map plain (ruled declarations) (fun _ => rfl) fun _ => rfl
  rw [hplain]
  exact misplaced?_eq_some

def assembled (name : SchemaName) (declarations : List Declaration) : Schema :=
  { declared name declarations with
    checks := (declared name declarations).impliedChecks ++ (declared name declarations).checks }

theorem assembles_assembled {name : SchemaName} {declarations : List Declaration}
    (hfit : Fit name declarations) : Assembles name declarations (assembled name declarations) := by
  have hproperties : ((declared name declarations).properties.filter (·.required)).map
      (NodeCheck.requiredProperty ·.key) =
        ((declarations.filterMap property?).filter (·.required)).map (.requiredProperty ·.key) := by
    rw [declared, List.filter_map, List.map_map]
    rfl
  have hopens : (fun tag : Tag => !tag.closes) = fun tag => tag.schema.isSome := by
    funext tag
    simp [Tag.closes]
  refine ⟨rfl, rfl, rfl, rfl, rfl, rfl, rfl, ?_, (foldlM_of_fit hfit).2⟩
  rw [assembled, impliedChecks, hproperties, hopens]
  rfl

theorem Assembles.eq {name : SchemaName} {declarations : List Declaration} {schema other : Schema}
    (h : Assembles name declarations schema) (h' : Assembles name declarations other) : schema = other := by
  obtain ⟨⟨⟩, _, _⟩ := schema
  obtain ⟨⟨⟩, _, _⟩ := other
  obtain ⟨rfl, rfl, rfl, rfl, rfl, rfl, rfl, rfl, -⟩ := h
  obtain ⟨rfl, rfl, rfl, rfl, rfl, rfl, rfl, rfl, -⟩ := h'
  rfl

theorem ofDeclarations_of_firstMisfit {name : SchemaName} {declarations : List Declaration} {defect : Defect}
    (h : FirstMisfit name declarations defect) : ofDeclarations name declarations = .error defect := by
  unfold ofDeclarations
  simp only [foldlM_of_firstMisfit h]
  rfl

theorem ofDeclarations_of_fit {name : SchemaName} {declarations : List Declaration}
    (hfit : Fit name declarations) :
    ofDeclarations name declarations =
      match (declared name declarations).misplaced? with
      | some key => .error (.variableLengthNotLast name key)
      | none => .ok (assembled name declarations) := by
  unfold ofDeclarations
  simp only [(foldlM_of_fit hfit).1]
  rfl

/-- A schema is built just if every declaration fits behind those before it and it is clear which words belong
where. Else the first declaration that does not fit tells what is wrong, or what makes it unclear. -/
theorem ofDeclarations_eq_iff (name : SchemaName) (declarations : List Declaration)
    (result : Except Defect Schema) :
    ofDeclarations name declarations = result ↔ Verdict name declarations result := by
  constructor
  · rintro rfl
    rcases fit_or_firstMisfit name declarations with hfit | ⟨defect, hmisfit⟩
    · rw [ofDeclarations_of_fit hfit]
      cases hmisplaced : (declared name declarations).misplaced? with
      | some key => exact .unclear hfit (misplaced?_declared.mp hmisplaced)
      | none =>
        refine .built hfit (fun key hunclear => ?_) (assembles_assembled hfit)
        cases hmisplaced.symm.trans (misplaced?_declared.mpr hunclear)
    · rw [ofDeclarations_of_firstMisfit hmisfit]
      exact .misfit hmisfit
  · intro h
    cases h with
    | misfit h => exact ofDeclarations_of_firstMisfit h
    | unclear hfit h => rw [ofDeclarations_of_fit hfit, misplaced?_declared.mpr h]
    | built hfit hclear h =>
      have hnone : (declared name declarations).misplaced? = none :=
        Option.eq_none_iff_forall_ne_some.mpr fun key hkey => hclear key (misplaced?_declared.mp hkey)
      rw [ofDeclarations_of_fit hfit, hnone, h.eq (assembles_assembled hfit)]

end Schema
end TagSchema
