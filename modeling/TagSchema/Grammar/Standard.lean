import TagSchema.Grammar.Basic
import TagSchema.Schema.Declaration

/-! The grammar of the language: classes with fields, enumerations with constants, glossaries with
terms, and protocols with methods. -/
namespace TagSchema.Grammar.Standard

/-- Field types that are built in and so need no class. -/
def builtInTypes : List String :=
  ["uint8", "uint16", "uint32", "uint64", "int8", "int16", "int32", "int64", "string", "real",
    "bool", "object", "talkobject"]

def text (key : Keyword) : Tag := { key, schema := some .string }

def flag (key : Keyword) : Tag := { key, schema := some .boolean }

def child (key : Keyword) (schema : SchemaName) : Tag := { key, schema := some schema }

def children (key : Keyword) (schema : SchemaName) : Tag :=
  { key, schema := some schema, multi := true }

def named (key : Keyword) (schema : SchemaName) : Tag :=
  { key, schema := some schema, multi := true, unique := some .name }

def endMarker : Tag := { key := .endWord, schema := none }

/-- The description is a tag of its own or whatever follows the last property. -/
def describing : Tag := { text .description with implicit := true }

def namedExtras : Tag := named .extra .extra

def name : Property := .fixed .name 1

def literals (groups : List (List String)) : Vocabulary := .ofGroups groups

/-- A class whose parent bears its own name would be its own parent. -/
def hasOtherParent (node : Node) : Bool :=
  match node.text? .name, (node.childScalar? .inherits).bind (·.text?) with
  | some name, some parent => name != parent
  | _, _ => true

/-- The table for a reference is chosen by the kind of thing it says it refers to. -/
def spaceOfType (values : Keyword → Option Datum) : Option Namespace := do
  match ← (values .type).bind (·.text?) with
  | "class" => some .classes
  | "enumeration" => some .enumerations
  | "glossary" => some .glossaries
  | _ => none

def standForItself : Completion := fun node =>
  match node.values .value, node.values .name with
  | none, some name => .ok () (node.set .value name)
  | _, _ => .ok () node

def successor? (number : Int64) : Option Int64 :=
  if number = Int64.maxValue then none else some (number + 1)

/-- Gives each constant its own value or else the next number, counting from zero on; a number
given explicitly moves the count. Beyond the greatest number there is no next one: the constants
before it keep what they got. -/
def numberChildren (next : Option Int64) : List Node → List Node × Option String
  | [] => ([], none)
  | node :: rest =>
    if node.tag = .constant then
      match (node.values .value).bind (·.integer?), next with
      | some explicit, _ =>
        let (rest, failure) := numberChildren (successor? explicit) rest
        (node :: rest, failure)
      | none, some implied =>
        let (rest, failure) := numberChildren (successor? implied) rest
        (node.set .value (.integer implied) :: rest, failure)
      | none, none =>
        let constant := (node.text? .name).getD "?"
        (node :: rest, some s!"constant {constant} overflows the enumeration counter")
    else
      let (rest, failure) := numberChildren next rest
      (node :: rest, failure)

def numberInOrder : Completion := fun node =>
  match numberChildren (some 0) node.children with
  | (children, none) => .ok () { node with children }
  | (children, some failure) => .error failure { node with children }

def classDeclarations : List Declaration :=
  [.register .name .classes (some '.'),
    .refer ⟨.inherits, .fixed .classes, []⟩,
    .property name,
    .tag describing,
    .tag { text .version with default := some "0" },
    .tag (named .field .field),
    .tag { flag .implement with default := some "true" },
    .tag (text .inherits),
    .tag namedExtras,
    .tag endMarker,
    .checkNode "class cannot inherit from itself" hasOtherParent]

def fieldDeclarations : List Declaration :=
  [.refer ⟨.type, .fixed .classes, builtInTypes⟩,
    .property ((Property.fixed .type 1).withConversion .typeChain),
    .property name,
    .rule .name "field name cannot start with __" fun value =>
      !value.text?.any (·.startsWith "__"),
    .tag describing,
    .tag (text .version),
    .tag { text .caveat with multi := true },
    .tag (text .deprecated),
    .tag (children .see .reference),
    .tag endMarker]

def referenceDeclarations : List Declaration :=
  [.property (((Property.fixed .type 1).withConversion .lowercase).allowing
      (literals [["class"], ["enumeration", "enum"], ["glossary"]])),
    .property name,
    .refer ⟨.name, .computed spaceOfType, []⟩]

def enumerationDeclarations : List Declaration :=
  [.register .name .enumerations none,
    .property name,
    .tag describing,
    .tag (named .constant .constant),
    .tag endMarker,
    .complete numberInOrder]

def constantDeclarations : List Declaration :=
  [.property name,
    .property ((Property.fixed .value 1).optional.withConversion .integer),
    .tag describing,
    .tag endMarker]

def glossaryDeclarations : List Declaration :=
  [.register .name .glossaries none,
    .property name,
    .tag describing,
    .tag (named .term .term),
    .tag endMarker]

def termDeclarations : List Declaration :=
  [.property name,
    .property (.range .value 0 none),
    .tag (text .description),
    .tag namedExtras,
    .tag endMarker,
    .complete standForItself]

def protocolDeclarations : List Declaration :=
  [.register .name .protocols none,
    .property name,
    .tag describing,
    .tag { text .scheme with multi := true },
    .tag { named .method .method with required := true },
    .tag (text .source),
    .tag namedExtras,
    .tag endMarker]

def methodDeclarations : List Declaration :=
  [.refer ⟨.request, .fixed .classes, ["none"]⟩,
    .refer ⟨.response, .fixed .classes, ["none"]⟩,
    .property name,
    .tag (text .description),
    .tag (text .request),
    .tag (text .response),
    .tag (text .requirements),
    .tag (text .followup),
    .tag { text .origin with allowed := some (literals [["client"], ["server"], ["both"]]) },
    .tag { text .needs with allowed := some (literals [["nothing"], ["connection"], ["both"]]) },
    .tag namedExtras,
    .tag endMarker]

def declarations : SchemaName → List Declaration
  | .base =>
    [.tag (children .classWord .classSchema),
      .tag (children .enumeration .enumeration),
      .tag (children .glossary .glossary),
      .tag (children .protocol .protocol)]
  | .classSchema => classDeclarations
  | .field => fieldDeclarations
  | .reference => referenceDeclarations
  | .enumeration => enumerationDeclarations
  | .constant => constantDeclarations
  | .glossary => glossaryDeclarations
  | .term => termDeclarations
  | .protocol => protocolDeclarations
  | .method => methodDeclarations
  | .extra => [.property name, .property (.range .value 0 none), .tag endMarker]
  | .string => [.property (.range .value 1 none), .scalar .value]
  | .boolean =>
    [.property (((Property.fixed .value 1).withConversion .lowercase).withConversion .boolean),
      .scalar .value]

theorem declarations_fit (name : SchemaName) :
    (Schema.ofDeclarations name (declarations name)).toOption.isSome := by
  cases name <;> decide +kernel

def schema (name : SchemaName) : Schema :=
  (Schema.ofDeclarations name (declarations name)).toOption.get (declarations_fit name)

@[simp] theorem name_schema (name : SchemaName) : (schema name).name = name := by
  cases name <;> rfl

end Standard

def defineStandard (grammar : Grammar) (name : SchemaName) : Grammar :=
  grammar.define Standard.schema name

def standard : Grammar := ⟨SchemaName.all.map Standard.schema⟩

@[simp] theorem find?_standard (name : SchemaName) :
    standard.find? name = some (Standard.schema name) := by
  cases name <;> simp [standard, find?, SchemaName.all]

end TagSchema.Grammar
