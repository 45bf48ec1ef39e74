import TagSchema.Grammar.Basic
import TagSchema.Symbols
import TagSchema.Text.Words

/-! Closing a node: its words become property values, the words that are left over and the tags
that are left out become children, the schema completes and checks the whole, and its names are
registered. A step that fails leaves what the steps before it did. -/
namespace TagSchema

abbrev Closing := EStateM Fault (Node × Symbols)

namespace Closing

def node : Closing Node := return (← get).1

def modifyNode (change : Node → Node) : Closing Unit :=
  modify fun (node, symbols) => (change node, symbols)

def fail (cause : Fault.Cause) : Closing α := do throw ((← node).fault cause)

def attempt : Except Fault.Cause α → Closing α
  | .ok a => return a
  | .error cause => fail cause

/-- Each property takes its words in turn; the result is what no property took. -/
def assign : List Property → List String → Closing (List String)
  | [], words => return words
  | property :: properties, words => do
    let (taken, rest) ← attempt (property.slice (← node).tag words)
    match taken with
    | some taken => modifyNode (Node.set property.key (← attempt (property.read taken)))
    | none => pure ()
    assign properties rest

/-- Left-over words fill the implicit tag, unless it was given as a tag. -/
def fillImplicit (fill : Tag → List String → Closing Unit) : List String → Closing Unit
  | [] => return
  | words => do
    let node ← node
    match node.signature.implicitTag? with
    | none => fail (.trailingWords node.tag words)
    | some tag =>
      if (node.childrenOf tag.key).isEmpty then fill tag words
      else fail (.trailingWordsAndTag tag.key)

def fillDefault (fill : Tag → List String → Closing Unit) (tag : Tag) : Closing Unit := do
  match tag.default with
  | some words => if ((← node).childrenOf tag.key).isEmpty then fill tag (Text.words words.toList)
  | none => return

def complete (completion : Completion) : Closing Unit := fun (node, symbols) =>
  match completion node with
  | .ok () node => .ok () (node, symbols)
  | .error complaint node => .error (node.fault (.incomplete complaint)) (node, symbols)

def check (check : NodeCheck) : Closing Unit := do
  let node ← node
  unless check.accepts node do fail (check.cause node.signature.name)

def register (registration : Registration) : Closing Unit := fun (node, symbols) =>
  match (node.values registration.key).bind (·.symbol?) with
  | none => .ok () (node, symbols)
  | some name =>
    match Symbols.register name registration.space node.place registration.delimiter symbols with
    | .ok () symbols => .ok () (node, symbols)
    | .error fault symbols => .error (fault.inScope node.tag) (node, symbols)

/-- Closes a node in full, given how a tag is filled with words. -/
def run (fill : Tag → List String → Closing Unit) (schema : Schema) : Closing Unit := do
  if (← node).phase = .opened then
    let words := (← node).words
    modifyNode fun node => { node with words := [] }
    fillImplicit fill (← assign schema.properties words)
    schema.tags.forM (fillDefault fill)
    schema.completions.forM complete
    schema.checks.forM check
    schema.registrations.forM register
    modifyNode fun node => { node with phase := .closed }

/-- Fills a tag with a child of some words, which stands where its parent stands. -/
def fillWith (closeChild : Schema → Closing Unit) (grammar : Grammar) (tag : Tag)
    (words : List String) : Closing Unit := do
  match tag.schema with
  | none => return
  | some name =>
    match grammar.find? name with
    | none => fail (.undefinedSchema name)
    | some schema => fun (node, symbols) =>
      let child := { Node.start tag.key schema.toSignature node.place with words }
      match closeChild schema (child, symbols) with
      | .error fault (_, symbols) => .error fault (node, symbols)
      | .ok () (child, symbols) =>
        match node.adopt child with
        | .error fault => .error fault (node, symbols)
        | .ok node => .ok () (node, symbols)

/-- Closes a node whose filled-in children are nested to a depth at most; at the bound nothing is
filled in. -/
def within (grammar : Grammar) : Nat → Schema → Closing Unit
  | 0 => run fun _ _ => return
  | depth + 1 => run (fillWith (within grammar depth) grammar)

end Closing

/-- Closes a node of a schema; a node that is not open stays as it is. The language fills in only
nodes that have no tags to fill, so the bound on the depth is never reached: by `Node.close_eq_run` a
filled-in child is closed like its parent. -/
def Node.close (grammar : Grammar) (schema : Schema) : Closing Unit :=
  Closing.within grammar SchemaName.all.length schema

end TagSchema
