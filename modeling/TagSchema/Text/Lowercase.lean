import TagSchema.Text.CaseTable

/-! Lower case for all of Unicode. Three things go beyond a table of characters: a dotted capital
I becomes two characters, and a capital sigma has one form inside a word and one at its end. -/
namespace TagSchema.Text

def CaseRun.lower? (run : CaseRun) (n : Nat) : Option Char :=
  if run.first ≤ n && n ≤ run.last && (n - run.first) % run.step == 0 then
    some (Char.ofNat (n + run.offset).toNat)
  else none

def inRanges (ranges : List (Nat × Nat)) (c : Char) : Bool :=
  ranges.any fun (first, last) => first ≤ c.toNat && c.toNat ≤ last

def lowerChar (c : Char) : Char :=
  (lowercaseRuns.findSome? (·.lower? c.toNat)).getD c

/-- Whether the nearest character that a word does not merely carry along has case. -/
def touchesLetter (neighbours : List Char) : Bool :=
  match neighbours.dropWhile (inRanges caseIgnorableRanges) with
  | [] => false
  | c :: _ => inRanges casedRanges c

/-- The lower case of one character between its neighbours; those before it are nearest first. -/
def lowerBetween (before : List Char) (c : Char) (after : List Char) : List Char :=
  if c = 'İ' then ['i', '\u0307']
  else if c = 'Σ' then [if touchesLetter before && !touchesLetter after then 'ς' else 'σ']
  else [lowerChar c]

def lowerAfter (before : List Char) : List Char → List Char
  | [] => []
  | c :: after => lowerBetween before c after ++ lowerAfter (c :: before) after

def lowercase (text : String) : String :=
  String.ofList (lowerAfter [] text.toList)

end TagSchema.Text
