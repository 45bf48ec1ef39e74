import TagSchema.Text.Lowercase
import TagSchema.Text.HiddenTable

/-! How diagnostics show a value by its structure: a name, a name applied to arguments, a record
with named fields, or a list. -/
namespace TagSchema.Text

def hexDigits (n : Nat) : List Char :=
  Nat.toDigits 16 n

def quoteChar (c : Char) : List Char :=
  match c with
  | '"' => ['\\', '"']
  | '\\' => ['\\', '\\']
  | '\t' => ['\\', 't']
  | '\r' => ['\\', 'r']
  | '\n' => ['\\', 'n']
  | '\x00' => ['\\', '0']
  | c =>
    if inRanges hiddenRanges c then '\\' :: 'u' :: '\x7b' :: hexDigits c.toNat ++ ['\x7d']
    else [c]

/-- Text between double quotes: quotes, backslashes and the usual controls are escaped, and every other
character that would not show is spelled by its number. -/
def quote (text : String) : String :=
  String.ofList ('"' :: text.toList.flatMap quoteChar ++ ['"'])

inductive Shape where
  | atom (name : String)
  | apply (name : String) (arguments : List Shape)
  | record (name : String) (fields : List (String × Shape))
  | partialRecord (name : String) (fields : List (String × Shape))
  | list (items : List Shape)

namespace Shape

def text (text : String) : Shape := atom (quote text)

def nat (n : Nat) : Shape := atom (toString n)

def case (name : String) : Shape := atom name.capitalize

def option (toShape : α → Shape) : Option α → Shape
  | none => atom "None"
  | some a => apply "Some" [toShape a]

mutual

/-- A partial record ends in two dots that stand for what it does not show. -/
def render : Shape → String
  | atom name => name
  | apply name arguments => name ++ "(" ++ ", ".intercalate (renderAll arguments) ++ ")"
  | record name fields => name ++ " \x7b " ++ ", ".intercalate (renderFields fields) ++ " \x7d"
  | partialRecord name fields =>
    name ++ " \x7b " ++ ", ".intercalate (renderFields fields ++ [".."]) ++ " \x7d"
  | list items => "[" ++ ", ".intercalate (renderAll items) ++ "]"

def renderAll : List Shape → List String
  | [] => []
  | shape :: shapes => shape.render :: renderAll shapes

def renderFields : List (String × Shape) → List String
  | [] => []
  | (name, shape) :: fields => (name ++ ": " ++ shape.render) :: renderFields fields

end

end Shape
end TagSchema.Text
