/-! The closed vocabulary of the language: one set of words names both the properties and the
child tags of a schema. The order of the words is the order in which a node's entries are
visited. -/
namespace TagSchema

inductive Keyword where
  | base | classWord | enumeration | glossary | protocol
  | name | description | version | field | implement | inherits | extra | endWord
  | type | caveat | deprecated | see | constant | value | term
  | scheme | method | source | request | response | requirements | followup | origin | needs
  deriving DecidableEq, Repr

namespace Keyword

def all : List Keyword :=
  [.base, .classWord, .enumeration, .glossary, .protocol, .name, .description, .version, .field,
    .implement, .inherits, .extra, .endWord, .type, .caveat, .deprecated, .see, .constant, .value,
    .term, .scheme, .method, .source, .request, .response, .requirements, .followup, .origin,
    .needs]

def spelling : Keyword → String
  | base => "base"
  | classWord => "class"
  | enumeration => "enumeration"
  | glossary => "glossary"
  | protocol => "protocol"
  | name => "name"
  | description => "description"
  | version => "version"
  | field => "field"
  | implement => "implement"
  | inherits => "inherits"
  | extra => "extra"
  | endWord => "end"
  | type => "type"
  | caveat => "caveat"
  | deprecated => "deprecated"
  | see => "see"
  | constant => "constant"
  | value => "value"
  | term => "term"
  | scheme => "scheme"
  | method => "method"
  | source => "source"
  | request => "request"
  | response => "response"
  | requirements => "requirements"
  | followup => "followup"
  | origin => "origin"
  | needs => "needs"

instance : ToString Keyword := ⟨spelling⟩

/-- Letter case matters: only the exact spelling is the keyword. -/
def ofSpelling? (text : String) : Option Keyword :=
  all.find? (·.spelling == text)

def rank (key : Keyword) : Nat := key.ctorIdx

theorem mem_all (key : Keyword) : key ∈ all := by
  cases key <;> decide

@[simp] theorem ofSpelling?_spelling (key : Keyword) : ofSpelling? key.spelling = some key := by
  cases key <;> rfl

theorem spelling_of_ofSpelling? {text : String} {key : Keyword} (h : ofSpelling? text = some key) :
    key.spelling = text := by
  simpa using List.find?_some h

end Keyword
end TagSchema
