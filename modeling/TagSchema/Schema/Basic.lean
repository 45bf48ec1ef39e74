import TagSchema.Node

/-! A schema is a signature together with what closing a node of it does beyond filling its
properties: completing the node, and checking it as a whole. A schema is built from a list of
declarations; the first declaration that does not fit is the error. -/
namespace TagSchema

inductive NodeCheck where
  | requiredProperty (key : Keyword)
  | requiredTag (key : Keyword)
  | singularTag (key : Keyword)
  | predicate (complaint : String) (holds : Node → Bool)

namespace NodeCheck

def accepts : NodeCheck → Node → Bool
  | requiredProperty key, node => node.holds key
  | requiredTag key, node => !(node.childrenOf key).isEmpty
  | singularTag key, node => (node.childrenOf key).length ≤ 1
  | predicate _ holds, node => holds node

def cause (schema : SchemaName) : NodeCheck → Fault.Cause
  | requiredProperty key => .missingProperty schema key
  | requiredTag key => .missingTag schema key
  | singularTag key => .repeatedTag schema key
  | predicate complaint _ => .unmet complaint

def shape : NodeCheck → Text.Shape
  | requiredProperty key => .apply "RequiredProperty" [.case key.spelling]
  | requiredTag key => .apply "RequiredTag" [.case key.spelling]
  | singularTag key => .apply "SingularTag" [.case key.spelling]
  | predicate .. => .atom "Predicate(..)"

end NodeCheck

/-- Completes a node that is being closed. A completion that fails keeps what it changed before. -/
abbrev Completion := EStateM String Node Unit

structure Schema extends Signature where
  checks : List NodeCheck := []
  completions : List Completion := []

inductive Defect where
  | duplicateKey (schema : SchemaName) (key : Keyword)
  | undefinedSchema (schema : SchemaName)
  | unknownProperty (schema : SchemaName) (key : Keyword)
  | variableLengthNotLast (schema : SchemaName) (key : Keyword)
  | unknownUniqueKey (schema : SchemaName) (tag : Keyword) (child : SchemaName) (key : Keyword)
  | ambiguousTag (parent child : SchemaName) (key : Keyword) (outer inner : String)
  deriving DecidableEq, Repr

namespace Defect

def code : Defect → String
  | duplicateKey .. => "duplicate_key"
  | undefinedSchema .. => "undefined_schema"
  | unknownProperty .. => "unknown_property"
  | variableLengthNotLast .. => "variable_length_not_last"
  | unknownUniqueKey .. => "unknown_unique_key"
  | ambiguousTag .. => "ambiguous_tag"

def message : Defect → String
  | duplicateKey schema key => s!"duplicate definition of `{key}` in schema `{schema}`"
  | undefinedSchema schema => s!"schema `{schema}` is not defined"
  | unknownProperty schema key => s!"schema `{schema}` has no property `{key}` to validate"
  | variableLengthNotLast schema key =>
    s!"schema `{schema}`: variable-length slot `{key}` must be the last and only one"
  | unknownUniqueKey schema tag child key =>
    s!"schema `{schema}`: tag @{tag} is unique by `{key}`, " ++
      s!"which `{child}` does not declare as a property"
  | ambiguousTag parent child key outer inner =>
    s!"ambiguous closing: @{key} means `{outer}` in `{parent}` but " ++
      s!"`{inner}` inside its child `{child}`"

end Defect
end TagSchema
