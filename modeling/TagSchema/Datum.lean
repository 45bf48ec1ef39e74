/-! What a property holds. Every property starts as text, its words joined by single spaces, and
conversions may turn it into something narrower. -/
namespace TagSchema

inductive Datum where
  | text (content : String)
  | integer (number : Int64)
  | boolean (truth : Bool)
  | list (items : List String)
  deriving DecidableEq, Repr

namespace Datum

def kind : Datum → String
  | text _ => "text"
  | integer _ => "integer"
  | boolean _ => "boolean"
  | list _ => "list"

def text? : Datum → Option String
  | text content => some content
  | _ => none

def integer? : Datum → Option Int64
  | integer number => some number
  | _ => none

/-- The name that a value stands for in a cross-reference: a type chain names its base. -/
def symbol? : Datum → Option String
  | text content => some content
  | list items => items.head?
  | integer _ | boolean _ => none

def display : Datum → String
  | text content => content
  | integer number => toString number.toInt
  | boolean truth => toString truth
  | list items => String.join items

instance : ToString Datum := ⟨display⟩

end Datum
end TagSchema
