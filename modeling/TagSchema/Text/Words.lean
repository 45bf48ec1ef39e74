/-! Splitting text into the words of its lines. A line ends at a line feed; a carriage return
before it is blank and so belongs to no word. -/
namespace TagSchema.Text

/-- The white space of Unicode, which is more than the white space of ASCII. -/
def isBlank (c : Char) : Bool :=
  let n := c.toNat
  (0x9 ≤ n && n ≤ 0xd) || n == 0x20 || n == 0x85 || n == 0xa0 || n == 0x1680 ||
    (0x2000 ≤ n && n ≤ 0x200a) || n == 0x2028 || n == 0x2029 || n == 0x202f || n == 0x205f ||
    n == 0x3000

/-- The maximal runs of characters that are not blank, in order. -/
def words (text : List Char) : List String :=
  ((text.splitOnP isBlank).filter (!·.isEmpty)).map String.ofList

def lineWords (text : String) : List (List String) :=
  (text.toList.splitOn '\n').map words

def isComment : List String → Bool
  | [] => false
  | word :: _ => word.toList.head? == some '#'

/-- Every word outside comment lines, with the number of its line, counted from one. -/
def numberedWords (text : String) : List (Nat × String) :=
  ((lineWords text).zipIdx 1).flatMap fun (line, number) =>
    if isComment line then [] else line.map (number, ·)

end TagSchema.Text
