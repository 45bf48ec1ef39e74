import TagSchema.Fault

/-! A table of registered names. It may have a delimiter that cuts names into segments; a name is
then found by itself and by each of its suffixes that starts at a segment. -/
namespace TagSchema

structure Symbol where
  name : String
  place : Place
  deriving DecidableEq, Repr

/-- A registered symbol with the segments that its name had when it was registered. -/
structure Symbol.Entry extends Symbol where
  segments : List String
  deriving DecidableEq, Repr

namespace Symbols

/-- Entries are in the order of their registration. The outline of all paths and the index of all
suffixes are both read off them, and `Ledger.Follows.call_views` proves that every call changes the
two as it would change them if they were kept. -/
structure Table where
  delimiter : Option Char := none
  entries : List Symbol.Entry := []
  deriving DecidableEq, Repr

namespace Table

def split (table : Table) (name : String) : List String :=
  match table.delimiter with
  | none => [name]
  | some c => (name.toList.splitOn c).map String.ofList

def join (table : Table) (segments : List String) : String :=
  match table.delimiter with
  | none => String.join segments
  | some c => (String.singleton c).intercalate segments

/-- The names of the non-empty suffixes of a path, the whole path first. -/
def suffixNames (table : Table) : List String → List String
  | [] => []
  | segment :: rest => table.join (segment :: rest) :: table.suffixNames rest

def adoptDelimiter (table : Table) (delimiter : Option Char) : Table :=
  { table with delimiter := table.delimiter.or delimiter }

def find? (table : Table) (segments : List String) : Option Place :=
  (table.entries.find? (·.segments == segments)).map (·.place)

def add (table : Table) (name : String) (place : Place) : Table :=
  let segments := table.split name
  { table with entries := table.entries ++ [⟨⟨table.join segments, place⟩, segments⟩] }

def answersTo (table : Table) (name : String) (entry : Symbol.Entry) : Bool :=
  (table.suffixNames entry.segments).contains name

def resolves (table : Table) (name : String) : Bool :=
  (table.find? (table.split name)).isSome || table.entries.any (table.answersTo name)

/-- A symbol with exactly this name hides those that merely end in it. -/
def lookup (table : Table) (name : String) : List Symbol :=
  let found := (table.entries.filter (table.answersTo name)).map (·.toSymbol)
  match found.filter (·.name == name) with
  | [] => found
  | exact => exact

/-- All symbols by name; symbols of one name stay in the order of their registration. -/
def byName (table : Table) : List Symbol :=
  (table.entries.map (·.toSymbol)).mergeSort fun a b => decide (a.name ≤ b.name)

end Table
end Symbols
end TagSchema
