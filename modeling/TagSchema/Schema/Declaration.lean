import TagSchema.Schema.Basic

/-! Schemas by declaration. All declarations are looked at in order. A property or tag whose key is
taken, and a rule for a property that is not there yet, are errors; the first error counts. -/
namespace TagSchema

inductive Declaration where
  | property (property : Property)
  | tag (tag : Tag)
  | rule (key : Keyword) (complaint : String) (holds : Datum → Bool)
  | checkNode (complaint : String) (holds : Node → Bool)
  | complete (completion : Completion)
  | register (key : Keyword) (space : Namespace) (delimiter : Option Char)
  | refer (reference : Reference)
  | scalar (key : Keyword)

namespace Schema

def addRule (key : Keyword) (rule : ValueRule) : List Property → List Property
  | [] => []
  | property :: rest =>
    if property.key = key then property.withRule rule :: rest
    else property :: addRule key rule rest

def declare (schema : Schema) : Declaration → Except Defect Schema
  | .property property =>
    if schema.uses property.key then .error (.duplicateKey schema.name property.key)
    else .ok { schema with properties := schema.properties ++ [property] }
  | .tag tag =>
    if schema.uses tag.key then .error (.duplicateKey schema.name tag.key)
    else .ok { schema with tags := schema.tags ++ [tag] }
  | .rule key complaint holds =>
    if (schema.property? key).isNone then .error (.unknownProperty schema.name key)
    else
      .ok { schema with
        properties := addRule key ⟨complaint, .predicate holds⟩ schema.properties }
  | .checkNode complaint holds =>
    .ok { schema with checks := schema.checks ++ [.predicate complaint holds] }
  | .complete completion => .ok { schema with completions := schema.completions ++ [completion] }
  | .register key space delimiter =>
    .ok { schema with registrations := schema.registrations ++ [⟨key, space, delimiter⟩] }
  | .refer reference => .ok { schema with references := schema.references ++ [reference] }
  | .scalar key => .ok { schema with scalar := some key }

/-- Two things make it unclear which words belong where: a second implicit tag, and a property of
variable length that is not the last taker of words. -/
def misplaced? (schema : Schema) : Option Keyword :=
  match schema.tags.filter (·.implicit) with
  | _ :: second :: _ => some second.key
  | implicit =>
    let takers := if implicit.isEmpty then schema.properties.dropLast else schema.properties
    (takers.find? (·.arity.isVariable)).map (·.key)

def impliedChecks (schema : Schema) : List NodeCheck :=
  (schema.properties.filter (·.required)).map (.requiredProperty ·.key) ++
    (schema.tags.filter (!·.closes)).flatMap fun tag =>
      (if tag.multi then [] else [.singularTag tag.key]) ++
        (if tag.required then [.requiredTag tag.key] else [])

def ofDeclarations (name : SchemaName) (declarations : List Declaration) :
    Except Defect Schema := do
  let empty : Schema := { name }
  let schema ← declarations.foldlM declare empty
  match schema.misplaced? with
  | some key => .error (.variableLengthNotLast name key)
  | none => .ok { schema with checks := schema.impliedChecks ++ schema.checks }

end Schema
end TagSchema
