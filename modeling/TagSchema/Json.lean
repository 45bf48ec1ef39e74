/-! JSON values as reports use them: the numbers are integers, and a record lists its fields. The text of
a value is on one line or indented by two spaces, and its strings escape quotes, backslashes and the
controls below the space, and nothing else. -/
namespace TagSchema

inductive Json where
  | null
  | boolean (truth : Bool)
  | integer (number : Int)
  | text (content : String)
  | array (items : List Json)
  | record (fields : List (String × Json))

namespace Json

mutual

def sorted : Json → Json
  | array items => array (sortedAll items)
  | record fields => record ((sortedFields fields).mergeSort fun a b => decide (a.1 ≤ b.1))
  | json => json

def sortedAll : List Json → List Json
  | [] => []
  | item :: items => item.sorted :: sortedAll items

def sortedFields : List (String × Json) → List (String × Json)
  | [] => []
  | (name, value) :: fields => (name, value.sorted) :: sortedFields fields

end

def escapeControl (c : Char) : List Char :=
  let digits := Nat.toDigits 16 c.toNat
  '\\' :: 'u' :: List.replicate (4 - digits.length) '0' ++ digits

def escapeChar (c : Char) : List Char :=
  match c with
  | '"' => ['\\', '"']
  | '\\' => ['\\', '\\']
  | '\x08' => ['\\', 'b']
  | '\t' => ['\\', 't']
  | '\n' => ['\\', 'n']
  | '\x0c' => ['\\', 'f']
  | '\r' => ['\\', 'r']
  | c => if c < ' ' then escapeControl c else [c]

def literal (text : String) : String :=
  String.ofList ('"' :: text.toList.flatMap escapeChar ++ ['"'])

mutual

def compact : Json → String
  | null => "null"
  | boolean truth => toString truth
  | integer number => toString number
  | text content => literal content
  | array items => "[" ++ ",".intercalate (compactItems items) ++ "]"
  | record fields => "\x7b" ++ ",".intercalate (compactFields fields) ++ "\x7d"

def compactItems : List Json → List String
  | [] => []
  | item :: items => item.compact :: compactItems items

def compactFields : List (String × Json) → List String
  | [] => []
  | (name, value) :: fields => (literal name ++ ":" ++ value.compact) :: compactFields fields

end

def newline (depth : Nat) : String :=
  String.ofList ('\n' :: List.replicate (2 * depth) ' ')

/-- Parts between brackets, each on a line of its own; without parts the brackets stay together. -/
def enclose (depth : Nat) (opening closing : String) : List String → String
  | [] => opening ++ closing
  | parts =>
    opening ++ newline (depth + 1) ++ ("," ++ newline (depth + 1)).intercalate parts ++
      newline depth ++ closing

mutual

def prettyAt (depth : Nat) : Json → String
  | array items => enclose depth "[" "]" (prettyItems (depth + 1) items)
  | record fields => enclose depth "\x7b" "\x7d" (prettyFields (depth + 1) fields)
  | json => json.compact

def prettyItems (depth : Nat) : List Json → List String
  | [] => []
  | item :: items => item.prettyAt depth :: prettyItems depth items

def prettyFields (depth : Nat) : List (String × Json) → List String
  | [] => []
  | (name, value) :: fields =>
    (literal name ++ ": " ++ value.prettyAt depth) :: prettyFields depth fields

end

def pretty (json : Json) : String := json.prettyAt 0

end Json
end TagSchema
