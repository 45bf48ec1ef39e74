import TagSchema.Symbols

/-! The outline of the symbols: the segments of the names in each table as a tree, in the order of
the segments, with the place of every segment that ends a registered name. -/
namespace TagSchema.Symbols

structure Branch where
  segment : String
  place : Option Place
  inner : List Branch

namespace Branch

/-- Changes the branch of a segment in a level, which keeps its order and gains the branch if it
lacks it. -/
def alter (segment : String) (change : Branch → Branch) : List Branch → List Branch
  | [] => [change ⟨segment, none, []⟩]
  | branch :: level =>
    if segment = branch.segment then change branch :: level
    else if segment < branch.segment then change ⟨segment, none, []⟩ :: branch :: level
    else branch :: alter segment change level

def insert (place : Place) : List String → List Branch → List Branch
  | [], level => level
  | [last], level => alter last (fun branch => { branch with place := some place }) level
  | segment :: rest, level =>
    alter segment (fun branch => { branch with inner := insert place rest branch.inner }) level

mutual

def render (depth : Nat) : Branch → String
  | ⟨segment, place, inner⟩ =>
    String.ofList (List.replicate (4 * depth) ' ') ++ segment ++
      (place.elim "" fun place => s!" (entry from {place})") ++ "\n" ++ renderAll (depth + 1) inner

def renderAll (depth : Nat) : List Branch → String
  | [] => ""
  | branch :: level => branch.render depth ++ renderAll depth level

end

end Branch

def Table.outline (table : Table) : List Branch :=
  table.entries.foldl (fun level entry => Branch.insert entry.place entry.segments level) []

def display (symbols : Symbols) : String :=
  if symbols.isEmpty then "Empty registry\n"
  else
    String.join <| (Namespace.all.filter fun space => !(symbols.table space).entries.isEmpty).map
      fun space => s!"Namespace {space}:\n" ++ Branch.renderAll 1 (symbols.table space).outline

end TagSchema.Symbols
