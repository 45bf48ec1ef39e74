import TagSchema.Literal

/-! Reading JSON strictly. A document keeps what a configuration can use: truth values, texts,
arrays and records. A string may spell half of a surrogate pair; it is well formed but denotes no
text. -/
namespace TagSchema.Json

inductive Document where
  | boolean (truth : Bool)
  | text (content : Option String)
  | array (items : List Document)
  | record (fields : List (Option String × Document))
  /-- A number or null. -/
  | other

namespace Document

def skipBlanks (input : List Char) : List Char :=
  input.dropWhile fun c => c == ' ' || c == '\t' || c == '\n' || c == '\r'

def unit? (a b c d : Char) : Option Nat := do
  let digits ← [a, b, c, d].mapM Text.digitValue?
  return digits.foldl (fun number digit => number * 16 + digit) 0

def escaped? : Char → Option Nat
  | '"' => some 0x22
  | '\\' => some 0x5c
  | '/' => some 0x2f
  | 'b' => some 0x08
  | 'f' => some 0x0c
  | 'n' => some 0x0a
  | 'r' => some 0x0d
  | 't' => some 0x09
  | _ => none

def units? : List Char → Option (List Nat × List Char)
  | [] => none
  | '"' :: rest => some ([], rest)
  | '\\' :: 'u' :: a :: b :: c :: d :: rest => do
    let unit ← unit? a b c d
    let (units, rest) ← units? rest
    return (unit :: units, rest)
  | '\\' :: c :: rest => do
    let unit ← escaped? c
    let (units, rest) ← units? rest
    return (unit :: units, rest)
  | c :: rest =>
    if c == '\\' || c < ' ' then none
    else do
      let (units, rest) ← units? rest
      return (c.toNat :: units, rest)

def isHigh (unit : Nat) : Bool := 0xd800 ≤ unit && unit ≤ 0xdbff

def isLow (unit : Nat) : Bool := 0xdc00 ≤ unit && unit ≤ 0xdfff

/-- Joins surrogate pairs; a half that stands alone is no character. -/
def characters? : List Nat → Option (List Char)
  | [] => some []
  | high :: low :: rest =>
    if isHigh high && isLow low then
      (characters? rest).map (Char.ofNat (0x10000 + (high - 0xd800) * 0x400 + (low - 0xdc00)) :: ·)
    else if isHigh high || isLow high then none
    else (characters? (low :: rest)).map (Char.ofNat high :: ·)
  | [unit] => if isHigh unit || isLow unit then none else some [Char.ofNat unit]

def string? (input : List Char) : Option (Option String × List Char) :=
  (units? input).map fun (units, rest) => ((characters? units).map String.ofList, rest)

def skipDigits? (input : List Char) : Option (List Char) :=
  match input with
  | c :: rest => if c.isDigit then some (rest.dropWhile Char.isDigit) else none
  | [] => none

def skipFraction? : List Char → Option (List Char)
  | '.' :: rest => skipDigits? rest
  | input => some input

def skipExponent? : List Char → Option (List Char)
  | 'e' :: '+' :: rest | 'e' :: '-' :: rest | 'E' :: '+' :: rest | 'E' :: '-' :: rest =>
    skipDigits? rest
  | 'e' :: rest | 'E' :: rest => skipDigits? rest
  | input => some input

/-- A number does not start with a zero that more digits follow. -/
def skipNumber? (input : List Char) : Option (List Char) := do
  let digits := match input with
    | '-' :: rest => rest
    | rest => rest
  let afterInteger ← match digits with
    | '0' :: rest => if (rest.head?.any Char.isDigit) then none else some rest
    | digits => skipDigits? digits
  skipExponent? (← skipFraction? afterInteger)

mutual

/-- A value at the head of an input that starts with no blank. The fuel bounds the values read. -/
def value? : Nat → List Char → Option (Document × List Char)
  | 0, _ => none
  | fuel + 1, input =>
    match input with
    | '"' :: rest => (string? rest).map fun (input, rest) => (.text input, rest)
    | '[' :: rest =>
      match skipBlanks rest with
      | ']' :: rest => some (.array [], rest)
      | rest => (items? fuel rest).map fun (items, rest) => (.array items, rest)
    | '\x7b' :: rest =>
      match skipBlanks rest with
      | '\x7d' :: rest => some (.record [], rest)
      | rest => (fields? fuel rest).map fun (fields, rest) => (.record fields, rest)
    | 't' :: 'r' :: 'u' :: 'e' :: rest => some (.boolean true, rest)
    | 'f' :: 'a' :: 'l' :: 's' :: 'e' :: rest => some (.boolean false, rest)
    | 'n' :: 'u' :: 'l' :: 'l' :: rest => some (.other, rest)
    | input => (skipNumber? input).map (.other, ·)

def items? : Nat → List Char → Option (List Document × List Char)
  | 0, _ => none
  | fuel + 1, input => do
    let (item, rest) ← value? fuel input
    match skipBlanks rest with
    | ',' :: rest => do
      let (items, rest) ← items? fuel (skipBlanks rest)
      return (item :: items, rest)
    | ']' :: rest => return ([item], rest)
    | _ => none

def fields? : Nat → List Char → Option (List (Option String × Document) × List Char)
  | 0, _ => none
  | fuel + 1, input => do
    match input with
    | '"' :: rest =>
      let (name, rest) ← string? rest
      match skipBlanks rest with
      | ':' :: rest =>
        let (value, rest) ← value? fuel (skipBlanks rest)
        match skipBlanks rest with
        | ',' :: rest => do
          let (fields, rest) ← fields? fuel (skipBlanks rest)
          return ((name, value) :: fields, rest)
        | '\x7d' :: rest => return ([(name, value)], rest)
        | _ => none
      | _ => none
    | _ => none

end

/-- The document that a whole input is. Every value takes a character at least. -/
def ofText? (input : String) : Option Document := do
  let (document, rest) ← value? (input.length + 1) (skipBlanks input.toList)
  if (skipBlanks rest).isEmpty then some document else none

end Document
end TagSchema.Json
