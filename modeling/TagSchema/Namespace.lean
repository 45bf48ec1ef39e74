/-! The independent symbol tables of a corpus, one for each kind of top-level tag. -/
namespace TagSchema

inductive Namespace where
  | classes | enumerations | glossaries | protocols
  deriving DecidableEq, Repr

namespace Namespace

def all : List Namespace := [.classes, .enumerations, .glossaries, .protocols]

def spelling : Namespace → String
  | classes => "classes"
  | enumerations => "enumerations"
  | glossaries => "glossaries"
  | protocols => "protocols"

instance : ToString Namespace := ⟨spelling⟩

def ofSpelling? (text : String) : Option Namespace :=
  all.find? (·.spelling == text)

theorem mem_all (space : Namespace) : space ∈ all := by
  cases space <;> decide

@[simp] theorem ofSpelling?_spelling (space : Namespace) :
    ofSpelling? space.spelling = some space := by
  cases space <;> rfl

end Namespace
end TagSchema
