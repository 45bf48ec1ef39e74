import TagSchema.Schema.Basic

/-! A grammar is a collection of schemas that refer to each other by name. -/
namespace TagSchema

structure Grammar where
  schemas : List Schema

namespace Grammar

def empty : Grammar := ⟨[]⟩

def find? (grammar : Grammar) (name : SchemaName) : Option Schema :=
  grammar.schemas.find? (·.name = name)

def defines (grammar : Grammar) (name : SchemaName) : Bool :=
  (grammar.find? name).isSome

def names (grammar : Grammar) : List SchemaName :=
  SchemaName.all.filter grammar.defines

def add (source : SchemaName → Schema) (grammar : Grammar) (name : SchemaName) : Grammar :=
  if grammar.defines name then grammar else ⟨grammar.schemas ++ [source name]⟩

def addOpened (source : SchemaName → Schema) (grammar : Grammar) : Grammar :=
  (grammar.schemas.flatMap (·.opens)).foldl (add source) grammar

/-- Defines a name and all that can be reached from it. A round that adds no name is the last that
is needed, so there are enough rounds. -/
def define (source : SchemaName → Schema) (grammar : Grammar) (name : SchemaName) : Grammar :=
  SchemaName.all.foldl (fun grammar _ => grammar.addOpened source) (grammar.add source name)

def meaning (tag : Tag) : String :=
  tag.schema.elim "close" (·.spelling)

/-- What is wrong with one tag of a schema: its children lack the property that tells them apart,
or they give one of the schema's own tags another meaning, so that it is unclear whether it closes
them. -/
def tagError? (grammar : Grammar) (parent : Schema) (tag : Tag) : Option Defect := do
  let child ← tag.schema.bind grammar.find?
  let unknownKey : Option Defect := do
    let key ← tag.unique
    if (child.property? key).isNone then
      some (.unknownUniqueKey parent.name tag.key child.name key)
    else none
  unknownKey.or <| child.tags.findSome? fun inner => do
    let outer ← parent.tag? inner.key
    if outer.schema ≠ inner.schema then
      some (.ambiguousTag parent.name child.name inner.key (meaning outer) (meaning inner))
    else none

/-- The first inconsistency between the schemas of the grammar, in the order of their names. -/
def check (grammar : Grammar) : Except Defect Unit :=
  match (SchemaName.all.filterMap grammar.find?).findSome? fun parent =>
      parent.tags.findSome? (grammar.tagError? parent) with
  | some error => .error error
  | none => .ok ()

end Grammar
end TagSchema
