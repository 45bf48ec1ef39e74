import TagSchema.Signature

/-! A node is one use of a tag. While it is open it collects words and finished children; closing
turns the words into property values, and finalizing checks its references. -/
namespace TagSchema

inductive Phase where
  | opened | closed | finalized
  deriving DecidableEq, Repr

def Phase.spelling : Phase → String
  | opened => "open"
  | closed => "closed"
  | finalized => "finalized"

/-- A key holds a value or children, never both. The children are in the order of their tags, and
within one tag in the order in which they were attached. -/
structure Node where
  tag : Keyword
  signature : Signature
  place : Place
  words : List String
  values : Keyword → Option Datum
  children : List Node
  phase : Phase

namespace Node

def start (tag : Keyword) (signature : Signature) (place : Place) : Node :=
  ⟨tag, signature, place, [], fun _ => none, [], .opened⟩

def text? (node : Node) (key : Keyword) : Option String :=
  (node.values key).bind (·.text?)

def childrenOf (node : Node) (key : Keyword) : List Node :=
  node.children.filter (·.tag = key)

def holds (node : Node) (key : Keyword) : Bool :=
  (node.values key).isSome || node.children.any (·.tag = key)

/-- The value that the node is shown as, if its schema names one and the node has it. -/
def scalar? (node : Node) : Option Datum :=
  node.signature.scalar.bind node.values

def childScalar? (node : Node) (key : Keyword) : Option Datum :=
  (node.childrenOf key).head?.bind (·.scalar?)

def set (key : Keyword) (value : Datum) (node : Node) : Node :=
  { node with
    values := fun k => if k = key then some value else node.values k
    children := node.children.filter (·.tag ≠ key) }

def modifyChildren (key : Keyword) (change : Node → Node) (node : Node) : Node :=
  { node with children := node.children.map fun child =>
      if child.tag = key then change child else child }

def addWord (word : String) (node : Node) : Node :=
  { node with words := node.words ++ [word] }

def fault (node : Node) (cause : Fault.Cause) : Fault := ⟨cause, some node.tag, node.place⟩

/-- Takes in a child unconditionally; its tag then holds children instead of a value. The child
comes behind the children of its own tag and of the tags before it. -/
def attach (node child : Node) : Node :=
  { node with
    values := fun k => if k = child.tag then none else node.values k
    children := node.children.filter (·.tag.rank ≤ child.tag.rank) ++
      child :: node.children.filter (child.tag.rank < ·.tag.rank) }

def normalize (allowed : Vocabulary) (node : Node) : Except Fault Node :=
  match node.signature.scalar with
  | none => .ok node
  | some key =>
    match node.text? key with
    | none => .ok node
    | some text =>
      match allowed.canonical? text with
      | some canonical => .ok (node.set key (.text canonical))
      | none => .error (node.fault (.illegalScalar node.tag text allowed))

/-- The earliest child of the same tag that has the same value of a property. -/
def rival? (node child : Node) (property : Keyword) : Option Node :=
  match child.values property with
  | none => none
  | some value =>
    (node.childrenOf child.tag).find? fun sibling => sibling.values property = some value

def adopt (node child : Node) : Except Fault Node :=
  match node.signature.tag? child.tag with
  | none => .error (child.fault (.unsupportedTag child.tag.spelling node.tag))
  | some tag => do
    let child ← tag.allowed.elim (.ok child) child.normalize
    match tag.unique.bind fun key => (node.rival? child key).map (key, ·) with
    | some (key, rival) => .error (child.fault (.repeatedSibling child.tag key rival.place.line))
    | none => .ok (node.attach child)

@[simp] theorem values_set (node : Node) (key k : Keyword) (value : Datum) :
    (node.set key value).values k = if k = key then some value else node.values k := rfl

@[simp] theorem childrenOf_set (node : Node) (key k : Keyword) (value : Datum) :
    (node.set key value).childrenOf k = if k = key then [] else node.childrenOf k := by
  simp only [childrenOf, set, List.filter_filter]
  split
  case isTrue h => simp [h]
  case isFalse h =>
    apply List.filter_congr
    intro child _
    by_cases hc : child.tag = k <;> simp [hc, h]

@[simp] theorem values_attach (node child : Node) (k : Keyword) :
    (node.attach child).values k = if k = child.tag then none else node.values k := rfl

@[simp] theorem childrenOf_attach (node child : Node) (k : Keyword) :
    (node.attach child).childrenOf k =
      if k = child.tag then node.childrenOf k ++ [child] else node.childrenOf k := by
  have before : (node.children.filter (·.tag.rank ≤ child.tag.rank)).filter (·.tag = k) =
      if k.rank ≤ child.tag.rank then node.childrenOf k else [] := by
    rw [List.filter_filter]
    split
    case isTrue h => exact List.filter_congr fun c _ => by by_cases hc : c.tag = k <;> simp [hc, h]
    case isFalse h => simp only [List.filter_eq_nil_iff]; grind
  have behind : (node.children.filter (child.tag.rank < ·.tag.rank)).filter (·.tag = k) =
      if k.rank ≤ child.tag.rank then [] else node.childrenOf k := by
    rw [List.filter_filter]
    split
    case isTrue h => simp only [List.filter_eq_nil_iff]; grind
    case isFalse h =>
      exact List.filter_congr fun c _ => by by_cases hc : c.tag = k <;> simp [hc]; omega
  rw [childrenOf, attach, List.filter_append, List.filter_cons, before, behind]
  by_cases hk : k = child.tag
  · simp [hk]
  · have : ¬ child.tag = k := fun h => hk h.symm
    simp only [this, decide_false, hk, if_false]
    split <;> simp

end Node
end TagSchema
