import TagSchema.Fault

/-! The part of a schema that a node keeps: the properties its words fill, the tags it may hold,
the symbols it registers and the references it makes. -/
namespace TagSchema

inductive Arity where
  | fixed (words : Nat)
  | range (min : Nat) (max : Option Nat)
  deriving DecidableEq, Repr

namespace Arity

def isVariable : Arity → Bool
  | fixed _ => false
  | range .. => true

def shape : Arity → Text.Shape
  | fixed words => .apply "Fixed" [.nat words]
  | range min max => .record "Range" [("min", .nat min), ("max", .option .nat max)]

end Arity

inductive ValueCheck where
  | oneOf (allowed : Vocabulary)
  | predicate (holds : Datum → Bool)

namespace ValueCheck

/-- Only text can be one of the allowed literals. -/
def accepts : ValueCheck → Datum → Bool
  | oneOf allowed, value => value.text?.any allowed.contains
  | predicate holds, value => holds value

def shape : ValueCheck → Text.Shape
  | oneOf allowed => .apply "OneOf" [allowed.shape]
  | predicate _ => .atom "Predicate(..)"

end ValueCheck

structure ValueRule where
  complaint : String
  check : ValueCheck

structure Property where
  key : Keyword
  arity : Arity
  required : Bool
  conversions : List Conversion
  rules : List ValueRule

namespace Property

def fixed (key : Keyword) (words : Nat) : Property := ⟨key, .fixed words, true, [], []⟩

/-- Required only if it takes at least one word. -/
def range (key : Keyword) (min : Nat) (max : Option Nat) : Property :=
  ⟨key, .range min max, 0 < min, [], []⟩

def optional (property : Property) : Property := { property with required := false }

def withConversion (property : Property) (conversion : Conversion) : Property :=
  { property with conversions := property.conversions ++ [conversion] }

def withRule (property : Property) (rule : ValueRule) : Property :=
  { property with rules := property.rules ++ [rule] }

/-- Synonyms become the lead of their group, and all other text is refused. -/
def allowing (property : Property) (allowed : Vocabulary) : Property :=
  (property.withConversion (.canonical allowed)).withRule
    ⟨s!"illegal {property.key} value; must be one of {allowed}", .oneOf allowed⟩

/-- The words that the property takes from a list, if it takes any, and those it leaves. -/
def slice (tag : Keyword) (property : Property) (words : List String) :
    Except Fault.Cause (Option (List String) × List String) :=
  match property.arity with
  | .fixed wanted =>
    if wanted ≤ words.length then .ok (some (words.take wanted), words.drop wanted)
    else if words.isEmpty && !property.required then .ok (none, words)
    else .error (.tooFewWords tag property.key (.exactly wanted) words.length)
  | .range min max =>
    let taken := (max.elim words.length fun max => Nat.min words.length max)
    if taken < min then .error (.tooFewWords tag property.key (.atLeast min) taken)
    else if taken = 0 then .ok (none, words)
    else .ok (some (words.take taken), words.drop taken)

def read (property : Property) (words : List String) : Except Fault.Cause Datum := do
  let text := Datum.text (" ".intercalate words)
  let value ← (Conversion.applyAll property.conversions text).mapError (.unconverted property.key)
  match property.rules.find? (!·.check.accepts value) with
  | some refusing => .error (.rejected refusing.complaint value)
  | none => .ok value

end Property

/-- A tag that a node may hold. A tag without a schema closes the node instead. -/
structure Tag where
  key : Keyword
  schema : Option SchemaName
  multi : Bool := false
  required : Bool := false
  /-- The property in which the children of this tag differ from each other. -/
  unique : Option Keyword := none
  /-- The words of the child that an omitted tag stands for. -/
  default : Option String := none
  /-- The literals that the scalar of a child may be. -/
  allowed : Option Vocabulary := none
  /-- Words after the last property fill this tag. -/
  implicit : Bool := false
  deriving DecidableEq, Repr

namespace Tag

def closes (tag : Tag) : Bool := tag.schema.isNone

end Tag

structure Registration where
  key : Keyword
  space : Namespace
  delimiter : Option Char
  deriving DecidableEq, Repr

/-- The table that a reference is looked up in. A computed one depends on the property values of
the referring node; without a table nothing is looked up. -/
inductive Target where
  | fixed (space : Namespace)
  | computed (space? : (Keyword → Option Datum) → Option Namespace)

namespace Target

def space? : Target → (Keyword → Option Datum) → Option Namespace
  | fixed space, _ => some space
  | computed space?, values => space? values

def shape : Target → Text.Shape
  | fixed space => .apply "Fixed" [.case space.spelling]
  | computed _ => .atom "Computed(..)"

end Target

structure Reference where
  key : Keyword
  target : Target
  /-- Names that need not be registered. -/
  skip : List String

structure Signature where
  name : SchemaName
  properties : List Property := []
  tags : List Tag := []
  registrations : List Registration := []
  references : List Reference := []
  /-- The property that a node is shown as, where one says it all. -/
  scalar : Option Keyword := none

namespace Signature

def property? (signature : Signature) (key : Keyword) : Option Property :=
  signature.properties.find? (·.key = key)

def tag? (signature : Signature) (key : Keyword) : Option Tag :=
  signature.tags.find? (·.key = key)

def uses (signature : Signature) (key : Keyword) : Bool :=
  (signature.property? key).isSome || (signature.tag? key).isSome

def implicitTag? (signature : Signature) : Option Tag :=
  signature.tags.find? (·.implicit)

def opens (signature : Signature) : List SchemaName :=
  signature.tags.filterMap (·.schema)

def shape (signature : Signature) : Text.Shape :=
  .partialRecord "SchemaClass"
    [("id", .case signature.name.spelling),
      ("properties", .list (signature.properties.map fun p => .case p.key.spelling)),
      ("tags", .list (signature.tags.map fun t => .case t.key.spelling))]

end Signature
end TagSchema
