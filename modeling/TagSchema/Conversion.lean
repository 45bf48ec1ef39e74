import TagSchema.Datum
import TagSchema.Vocabulary
import TagSchema.Literal
import TagSchema.Text.Shape

/-! Conversions turn the text of a property into the value it stands for. They form a closed set,
run in the order in which a property lists them, and all expect text. -/
namespace TagSchema

inductive Conversion where
  | lowercase
  | canonical (words : Vocabulary)
  | integer
  | boolean
  | typeChain
  deriving DecidableEq, Repr

def Vocabulary.shape (words : Vocabulary) : Text.Shape :=
  .record "AllowedValues"
    [("groups", .list (words.groups.map fun group => .list (group.members.map .text)))]

namespace Conversion

def shape : Conversion → Text.Shape
  | lowercase => .atom "Lowercase"
  | canonical words => .apply "Alias" [words.shape]
  | integer => .atom "Integer"
  | boolean => .atom "Boolean"
  | typeChain => .atom "TypeChain"

inductive Failure where
  | notInteger (text : String)
  | notBoolean (text : String)
  | malformedType (text : String)
  | wrongKind (conversion : Conversion) (kind : String)
  deriving DecidableEq, Repr

def Failure.message : Failure → String
  | notInteger text => "`" ++ text ++ "` is not an integer"
  | notBoolean text =>
    "`" ++ text ++ "` is not a boolean; expected one of true, false, yes, no, on, off, 1, 0"
  | malformedType text =>
    "malformed type `" ++ text ++ "`; expected a name followed by [] or \x7b\x7d"
  | wrongKind conversion kind =>
    conversion.shape.render ++ " transform cannot apply to a " ++ kind ++ " value"

def applyText : Conversion → String → Except Failure Datum
  | lowercase, text => .ok (.text (Text.lowercase text))
  | canonical words, text => .ok (.text ((words.canonical? text).getD text))
  | integer, text => ((Literal.integer? text).map .integer).elim (.error (.notInteger text)) .ok
  | boolean, text => ((Literal.boolean? text).map .boolean).elim (.error (.notBoolean text)) .ok
  | typeChain, text => ((Literal.typeChain? text).map .list).elim (.error (.malformedType text)) .ok

def apply (conversion : Conversion) : Datum → Except Failure Datum
  | .text text => conversion.applyText text
  | value => .error (.wrongKind conversion value.kind)

def applyAll (conversions : List Conversion) (value : Datum) : Except Failure Datum :=
  conversions.foldlM (fun value conversion => conversion.apply value) value

end Conversion
end TagSchema
