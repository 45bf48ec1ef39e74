import TagSchema.Text.Lowercase

/-! How texts spell integers, truth values and field types. -/
namespace TagSchema.Text

/-- The ASCII digits of all bases up to sixteen, in either letter case. -/
def digitValue? (c : Char) : Option Nat :=
  if '0' ≤ c && c ≤ '9' then some (c.toNat - '0'.toNat)
  else if 'a' ≤ c && c ≤ 'f' then some (c.toNat - 'a'.toNat + 10)
  else if 'A' ≤ c && c ≤ 'F' then some (c.toNat - 'A'.toNat + 10)
  else none

end TagSchema.Text

namespace TagSchema.Literal

/-! Integer literals: an optional sign, then decimal digits or `0x` and hexadecimal digits. Both
spellings share one range, that of signed 64-bit numbers. -/

/-- Digits of a base, most significant first, after a number already read. -/
def digitsFrom? (base : Nat) (read : Nat) : List Char → Option Nat
  | [] => some read
  | c :: rest => do
    let digit ← Text.digitValue? c
    if digit < base then digitsFrom? base (read * base + digit) rest else none

def digits? (base : Nat) : List Char → Option Nat
  | [] => none
  | digits => digitsFrom? base 0 digits

def magnitude? : List Char → Option Nat
  | '0' :: 'x' :: digits => digits? 16 digits
  | '0' :: 'X' :: digits => digits? 16 digits
  | digits => digits? 10 digits

def signed? : List Char → Option Int
  | '-' :: body => (magnitude? body).map fun n => -(n : Int)
  | '+' :: body => (magnitude? body).map fun n => (n : Int)
  | body => (magnitude? body).map fun n => (n : Int)

/-- A number outside the range is no literal. -/
def toInt64? (n : Int) : Option Int64 :=
  if Int64.minValue.toInt ≤ n ∧ n ≤ Int64.maxValue.toInt then some (Int64.ofInt n) else none

def integer? (text : String) : Option Int64 :=
  (signed? text.toList).bind toInt64?

/-- Truth values in words, in any letter case. -/
def boolean? (text : String) : Option Bool :=
  let word := Text.lowercase text
  if ["true", "yes", "on", "1"].contains word then some true
  else if ["false", "no", "off", "0"].contains word then some false
  else none

/-! Field types: a base name followed by containers, each `[]` or the pair of braces. A chain is
read off from left to right, so the type prints as the concatenation of its chain. -/

def isBracket (c : Char) : Bool :=
  c == '[' || c == ']' || c == '\x7b' || c == '\x7d'

def containers? : List Char → Option (List String)
  | [] => some []
  | '[' :: ']' :: rest => (containers? rest).map ("[]" :: ·)
  | '\x7b' :: '\x7d' :: rest => (containers? rest).map ("\x7b\x7d" :: ·)
  | _ => none

/-- The base is all that stands before the first bracket, and is not empty. -/
def typeChain? (text : String) : Option (List String) :=
  match text.toList.takeWhile (!isBracket ·) with
  | [] => none
  | base =>
    (containers? (text.toList.dropWhile (!isBracket ·))).map (String.ofList base :: ·)

end TagSchema.Literal
