import TagSchema.Json
import TagSchema.Node

/-! The mapping of a node: what a generator reads. Properties come first, then tags, each in the
order of their declaration. A tag that may repeat is always an array, any other tag is absent or
its one child, and a child with a scalar is shown as its scalar. -/
namespace TagSchema

def Datum.json : Datum → Json
  | .text content => .text content
  | .integer number => .integer number.toInt
  | .boolean truth => .boolean truth
  | .list items => .array (items.map .text)

namespace Node

def fields (node : Node) (shown : List (Keyword × Json)) : List (String × Json) :=
  let properties := node.signature.properties.filterMap fun property =>
    (node.values property.key).map fun value => (property.key.spelling, value.json)
  let tags := (node.signature.tags.filter (!·.closes)).filterMap fun tag =>
    let children := (shown.filter (·.1 = tag.key)).map (·.2)
    if tag.multi then some (tag.key.spelling, Json.array children)
    else children.head?.map (tag.key.spelling, ·)
  properties ++ tags

mutual

def mapping : Node → Json
  | ⟨tag, signature, place, words, values, children, phase⟩ =>
    .record (fields ⟨tag, signature, place, words, values, children, phase⟩ (shownAll children))

/-- Each child with its tag: the scalar of a schema that has one, else the mapping. -/
def shownAll : List Node → List (Keyword × Json)
  | [] => []
  | child :: rest =>
    (child.tag, match child.signature.scalar with
      | some key => (child.values key).elim .null (·.json)
      | none => child.mapping) :: shownAll rest

end

end Node
end TagSchema
