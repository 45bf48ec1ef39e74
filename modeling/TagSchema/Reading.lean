import TagSchema.Grammar.Standard
import TagSchema.Node.Mapping
import TagSchema.Node.References
import TagSchema.Scope
import TagSchema.Text.Words

/-! Reading a corpus, file by file and word by word. Above the root lie the open scopes. A tag word
belongs to the innermost scope that declares it and closes the scopes inside that one; any other
word is kept by the innermost scope. Symbols are registered as scopes close. -/
namespace TagSchema

/-- What was read to its end, and whose references all resolve. -/
structure Corpus where
  root : Node
  symbols : Symbols

namespace Corpus

def nodes (corpus : Corpus) (key : Keyword) : List Node := corpus.root.childrenOf key

def results (corpus : Corpus) : List (Keyword × List Json) :=
  corpus.root.signature.tags.map fun tag => (tag.key, (corpus.nodes tag.key).map (·.mapping))

def json (corpus : Corpus) : Json := corpus.root.mapping

end Corpus

/-- The open scopes come innermost first. -/
structure Reading where
  grammar : Grammar
  root : Scope
  opened : List Scope
  symbols : Symbols

namespace Reading

/-- Reading starts at a root of its own, which has no place in any file. -/
def start (grammar : Grammar) : Except Defect Reading :=
  match grammar.find? .base with
  | none => .error (.undefinedSchema .base)
  | some schema => .ok ⟨grammar, .start .base schema ⟨"", 0⟩, [], .empty⟩

def standard : Reading :=
  ⟨.standard, .start .base (Grammar.Standard.schema .base) ⟨"", 0⟩, [], .empty⟩

@[simp] theorem start_standard : start .standard = .ok standard := by
  simp [start, standard]

def depth (reading : Reading) : Nat := reading.opened.length

def frames (reading : Reading) : List Scope := reading.opened ++ [reading.root]

def innermost (reading : Reading) : Keyword :=
  (reading.opened.headD reading.root).node.tag

/-- The number of scopes inside the innermost one that declares a tag. -/
def inside? (reading : Reading) (key : Keyword) : Option Nat :=
  reading.frames.findIdx? (·.declares key)

/-- A step of reading; one that fails leaves what it did. -/
abbrev Step := EStateM Fault Reading

def adopt (node : Node) : Step Unit := fun reading =>
  match reading.opened with
  | [] =>
    match reading.root.node.adopt node with
    | .error fault => .error fault reading
    | .ok root => .ok () { reading with root := { reading.root with node := root } }
  | parent :: outer =>
    match parent.node.adopt node with
    | .error fault => .error fault reading
    | .ok updated => .ok () { reading with opened := { parent with node := updated } :: outer }

/-- Closes the innermost scope and puts its node into the next. A scope that cannot be closed is
lost. -/
def closeInnermost : Step Unit := fun reading =>
  match reading.opened with
  | [] => .ok () reading
  | scope :: outer =>
    match scope.close reading.grammar reading.symbols with
    | .error fault (_, symbols) => .error fault { reading with opened := outer, symbols }
    | .ok () (scope, symbols) => adopt scope.node { reading with opened := outer, symbols }

def closeScopes : Nat → Step Unit
  | 0 => return
  | n + 1 => do closeInnermost; closeScopes n

def closeAll : Step Unit := do closeScopes (← get).depth

/-- Opens the scope of a tag word, or closes the scope that the tag ends. Once the scopes inside it
are closed, the scope that declares the tag is the innermost. -/
def enter (word : String) (place : Place) : Step Unit := do
  let reading ← get
  match (Keyword.ofSpelling? word).bind fun key => (reading.inside? key).map (key, ·) with
  | none => throw ⟨.unsupportedTag word reading.innermost, some reading.innermost, place⟩
  | some (key, inside) => do
    closeScopes inside
    let declaring := (← get).opened.headD (← get).root
    match declaring.child reading.grammar key place with
    | .error fault => throw fault
    | .ok none => closeInnermost
    | .ok (some child) => modify fun reading => { reading with opened := child :: reading.opened }

def keep (word : String) (place : Place) : Step Unit := fun reading =>
  match reading.opened with
  | [] => .error ⟨.strayWord word, some .base, place⟩ reading
  | scope :: outer =>
    .ok () { reading with opened := { scope with node := scope.node.addWord word } :: outer }

def word (place : Place) (word : String) : Step Unit :=
  match word.toList with
  | '@' :: name => enter (String.ofList name) place
  | _ => keep word place

/-- Reads the text of a file. After its last word all scopes are closed; a word that fails leaves
them open. -/
def file (name : String) (text : String) : Step Unit := do
  (Text.numberedWords text).forM fun (line, content) => word ⟨name, line⟩ content
  closeAll

def files (files : List (String × String)) : Step Unit :=
  files.forM fun (name, text) => file name text

/-- Ends the reading: the root closes, and then every reference is checked. -/
def finish (reading : Reading) : Except Fault Corpus :=
  match closeAll reading with
  | .error fault _ => .error fault
  | .ok () reading =>
    match reading.root.close reading.grammar reading.symbols with
    | .error fault _ => .error fault
    | .ok () (root, symbols) =>
      match root.node.finalize symbols with
      | .error fault _ => .error fault
      | .ok () root => .ok ⟨root, symbols⟩

end Reading
end TagSchema
