/-! Names of the schemas that a grammar may define. Several tags can share one schema: free text
tags all have the schema `string`. -/
namespace TagSchema

inductive SchemaName where
  | base | classSchema | field | reference | enumeration | constant | glossary | term | protocol
  | method | extra | string | boolean
  deriving DecidableEq, Repr

namespace SchemaName

def all : List SchemaName :=
  [.base, .classSchema, .field, .reference, .enumeration, .constant, .glossary, .term, .protocol,
    .method, .extra, .string, .boolean]

def spelling : SchemaName → String
  | base => "base"
  | classSchema => "class"
  | field => "field"
  | reference => "reference"
  | enumeration => "enumeration"
  | constant => "constant"
  | glossary => "glossary"
  | term => "term"
  | protocol => "protocol"
  | method => "method"
  | extra => "extra"
  | string => "string"
  | boolean => "boolean"

instance : ToString SchemaName := ⟨spelling⟩

def ofSpelling? (text : String) : Option SchemaName :=
  all.find? (·.spelling == text)

theorem mem_all (name : SchemaName) : name ∈ all := by
  cases name <;> decide

@[simp] theorem ofSpelling?_spelling (name : SchemaName) :
    ofSpelling? name.spelling = some name := by
  cases name <;> rfl

end SchemaName
end TagSchema
