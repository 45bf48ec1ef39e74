import TagSchema.Symbols.Table

/-! The symbols of a corpus, one table for each namespace. -/
namespace TagSchema

structure Symbols where
  classes : Symbols.Table := {}
  enumerations : Symbols.Table := {}
  glossaries : Symbols.Table := {}
  protocols : Symbols.Table := {}
  deriving DecidableEq, Repr

namespace Symbols

def empty : Symbols := {}

def table (symbols : Symbols) : Namespace → Table
  | .classes => symbols.classes
  | .enumerations => symbols.enumerations
  | .glossaries => symbols.glossaries
  | .protocols => symbols.protocols

def setTable (symbols : Symbols) (space : Namespace) (table : Table) : Symbols :=
  match space with
  | .classes => { symbols with classes := table }
  | .enumerations => { symbols with enumerations := table }
  | .glossaries => { symbols with glossaries := table }
  | .protocols => { symbols with protocols := table }

@[simp] theorem table_setTable (symbols : Symbols) (space other : Namespace) (table : Table) :
    (symbols.setTable space table).table other =
      if other = space then table else symbols.table other := by
  cases space <;> cases other <;> rfl

/-- Registers a name unless its path is taken. A refused registration, too, may bring the table
its delimiter. -/
def register (name : String) (space : Namespace) (place : Place) (delimiter : Option Char) :
    EStateM Fault Symbols Unit := fun symbols =>
  let table := (symbols.table space).adoptDelimiter delimiter
  match table.find? (table.split name) with
  | some previous =>
    .error ⟨.registeredBefore name space previous, none, place⟩ (symbols.setTable space table)
  | none => .ok () (symbols.setTable space (table.add name place))

def resolves (symbols : Symbols) (name : String) (space : Namespace) : Bool :=
  (symbols.table space).resolves name

def lookup (symbols : Symbols) (name : String) (space : Namespace) : List Symbol :=
  (symbols.table space).lookup name

def byName (symbols : Symbols) (space : Namespace) : List Symbol :=
  (symbols.table space).byName

def isEmpty (symbols : Symbols) : Bool :=
  Namespace.all.all fun space => (symbols.table space).entries.isEmpty

end Symbols
end TagSchema
