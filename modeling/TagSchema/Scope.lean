import TagSchema.Node.Closing

/-! A scope is a node that is still open, with the schema that it will be closed by. -/
namespace TagSchema

structure Scope where
  schema : Schema
  node : Node

namespace Scope

def start (tag : Keyword) (schema : Schema) (place : Place) : Scope :=
  ⟨schema, .start tag schema.toSignature place⟩

def declares (scope : Scope) (key : Keyword) : Bool :=
  (scope.node.signature.tag? key).isSome

/-- The scope that a tag opens inside this one, or nothing if the tag closes this one. -/
def child (grammar : Grammar) (scope : Scope) (key : Keyword) (place : Place) :
    Except Fault (Option Scope) :=
  match scope.node.signature.tag? key with
  | none =>
    .error ⟨.unsupportedTag key.spelling scope.node.tag, some scope.node.tag, place⟩
  | some tag =>
    match tag.schema with
    | none => .ok none
    | some name =>
      match grammar.find? name with
      | none => .error (scope.node.fault (.undefinedSchema name))
      | some schema => .ok (some (start key schema place))

/-- Closes the node of the scope. What closing changed stays changed when it fails. -/
def close (grammar : Grammar) (scope : Scope) (symbols : Symbols) :
    EStateM.Result Fault (Scope × Symbols) Unit :=
  match Node.close grammar scope.schema (scope.node, symbols) with
  | .ok () (node, symbols) => .ok () (⟨scope.schema, node⟩, symbols)
  | .error fault (node, symbols) => .error fault (⟨scope.schema, node⟩, symbols)

end Scope
end TagSchema
