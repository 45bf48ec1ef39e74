/-! The literals that a value may be, grouped by synonym. Each group has a lead, the spelling that
its other members are replaced by. -/
namespace TagSchema

structure Synonyms where
  lead : String
  others : List String
  deriving DecidableEq, Repr

namespace Synonyms

def members (group : Synonyms) : List String := group.lead :: group.others

def ofList? : List String → Option Synonyms
  | [] => none
  | lead :: others => some ⟨lead, others⟩

def display (group : Synonyms) : String :=
  match group.others with
  | [] => group.lead
  | others => group.lead ++ " (" ++ ", ".intercalate others ++ ")"

end Synonyms

structure Vocabulary where
  groups : List Synonyms
  deriving DecidableEq, Repr

namespace Vocabulary

/-- A group without members says nothing and is dropped. -/
def ofGroups (groups : List (List String)) : Vocabulary :=
  ⟨groups.filterMap Synonyms.ofList?⟩

def canonical? (words : Vocabulary) (literal : String) : Option String :=
  (words.groups.find? (·.members.contains literal)).map (·.lead)

def contains (words : Vocabulary) (literal : String) : Bool :=
  (words.canonical? literal).isSome

def display (words : Vocabulary) : String :=
  ", ".intercalate (words.groups.map (·.display))

instance : ToString Vocabulary := ⟨display⟩

end Vocabulary
end TagSchema
