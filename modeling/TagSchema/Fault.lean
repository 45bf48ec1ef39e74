import TagSchema.Keyword
import TagSchema.SchemaName
import TagSchema.Namespace
import TagSchema.Conversion

/-! What can be wrong with an input, and where. A fault ends the reading of a corpus; its cause
determines its kind and its wording. -/
namespace TagSchema

/-- Where a tag was written: a file and a line counted from one. -/
structure Place where
  file : String
  line : Nat
  deriving DecidableEq, Repr

instance : ToString Place := ⟨fun place => place.file ++ ":" ++ toString place.line⟩

inductive Fault.Kind where
  | unsupportedTag | propertyArity | propertyValue | tagCardinality | registrationConflict
  | crossReference
  deriving DecidableEq, Repr

namespace Fault.Kind

def all : List Kind :=
  [unsupportedTag, propertyArity, propertyValue, tagCardinality, registrationConflict,
    crossReference]

def title : Kind → String
  | unsupportedTag => "unsupported tag"
  | propertyArity => "property arity"
  | propertyValue => "property value"
  | tagCardinality => "tag cardinality"
  | registrationConflict => "registration conflict"
  | crossReference => "cross-reference"

def code : Kind → String
  | unsupportedTag => "unsupported_tag"
  | propertyArity => "property_arity"
  | propertyValue => "property_value"
  | tagCardinality => "tag_cardinality"
  | registrationConflict => "registration_conflict"
  | crossReference => "cross_reference"

def ofCode? (code : String) : Option Kind :=
  all.find? (·.code == code)

end Fault.Kind

inductive Fault.Demand where
  | exactly (words : Nat)
  | atLeast (words : Nat)
  deriving DecidableEq, Repr

def Fault.Demand.display : Demand → String
  | exactly words => "exactly " ++ toString words
  | atLeast words => "at least " ++ toString words

inductive Fault.Cause where
  /-- No open scope declares the tag; the innermost is named. -/
  | unsupportedTag (word : String) (scope : Keyword)
  | undefinedSchema (schema : SchemaName)
  | strayWord (word : String)
  | tooFewWords (tag property : Keyword) (demand : Demand) (given : Nat)
  | trailingWords (tag : Keyword) (words : List String)
  | trailingWordsAndTag (tag : Keyword)
  | unconverted (property : Keyword) (failure : Conversion.Failure)
  | rejected (complaint : String) (value : Datum)
  | illegalScalar (tag : Keyword) (text : String) (allowed : Vocabulary)
  | repeatedSibling (tag property : Keyword) (line : Nat)
  | missingProperty (schema : SchemaName) (property : Keyword)
  | missingTag (schema : SchemaName) (tag : Keyword)
  | repeatedTag (schema : SchemaName) (tag : Keyword)
  /-- A schema's own check of the whole node failed. -/
  | unmet (complaint : String)
  /-- A schema's own completion of the node failed. -/
  | incomplete (complaint : String)
  | registeredBefore (name : String) (space : Namespace) (previous : Place)
  | unresolved (name : String) (space : Namespace)
  /-- A fault that a caller of the library words itself. -/
  | stated (kind : Kind) (message : String)
  deriving DecidableEq, Repr

namespace Fault.Cause

def kind : Cause → Kind
  | unsupportedTag .. | undefinedSchema .. => .unsupportedTag
  | strayWord .. | tooFewWords .. | trailingWords .. | missingProperty .. => .propertyArity
  | unconverted .. | rejected .. | illegalScalar .. | unmet .. | incomplete .. => .propertyValue
  | trailingWordsAndTag .. | repeatedSibling .. | missingTag .. | repeatedTag .. => .tagCardinality
  | registeredBefore .. => .registrationConflict
  | unresolved .. => .crossReference
  | stated kind _ => kind

def message : Cause → String
  | unsupportedTag word scope => s!"tag @{word} not supported in @{scope}"
  | undefinedSchema schema => s!"schema {schema} is not defined"
  | strayWord word => "unexpected word `" ++ word ++ "` outside of any tag"
  | tooFewWords tag property demand given =>
    let subject := "@" ++ tag.spelling ++ " property '" ++ property.spelling ++ "' "
    if given = 0 then subject ++ "cannot be omitted"
    else subject ++ "needs " ++ demand.display ++ " words, got " ++ toString given
  | trailingWords tag words =>
    s!"@{tag} has unexpected trailing words: " ++ " ".intercalate words
  | trailingWordsAndTag tag => s!"@{tag} given both as a tag and as trailing words"
  | unconverted property failure => property.spelling ++ ": " ++ failure.message
  | rejected complaint value => complaint ++ " (got `" ++ value.display ++ "`)"
  | illegalScalar tag text allowed =>
    s!"illegal {tag} value " ++ "`" ++ text ++ "`; must be one of " ++ allowed.display
  | repeatedSibling tag property line =>
    s!"child tag @{tag} must have unique {property} value; " ++
      s!"previously used in sibling at line {line}"
  | missingProperty schema property => s!"{schema}.{property}: required property cannot be omitted"
  | missingTag schema tag => s!"{schema}->@{tag}: required tag cannot be omitted"
  | repeatedTag schema tag => s!"{schema}->@{tag}: tag may only be added once"
  | unmet complaint => complaint
  | incomplete complaint => complaint
  | registeredBefore name space previous =>
    s!"duplicate registration {name} in {space}; previously defined at {previous}"
  | unresolved name space => s!"cross-reference failed: no symbol {name} in {space}"
  | stated _ message => message

end Fault.Cause

/-- The tag is the scope that the fault lies in, where one is known. -/
structure Fault where
  cause : Fault.Cause
  tag : Option Keyword
  place : Place
  deriving DecidableEq, Repr

namespace Fault

def kind (fault : Fault) : Kind := fault.cause.kind

def message (fault : Fault) : String := fault.cause.message

def inScope (fault : Fault) (tag : Keyword) : Fault :=
  { fault with tag := fault.tag.or (some tag) }

def display (fault : Fault) : String :=
  let scope := fault.tag.elim "" fun tag => s!" near @{tag}"
  s!"{fault.place}  parse error{scope}: {fault.message}"

end Fault
end TagSchema
