import TagSchema.Proofs.Standard
import TagSchema.Proofs.Tree
import TagSchema.Reading

/-! Moving all places of a tree, of a table of symbols or of a reading at once. What is done to a node
does not depend on where anything stands, so that it may as well be done after the move. A fault moves
with the node that it is about, and says the same apart from the places that it mentions. -/
namespace TagSchema
open Grammar

def Fault.Cause.unplaced : Fault.Cause → Fault.Cause
  | repeatedSibling tag property _ => repeatedSibling tag property 0
  | registeredBefore name space _ => registeredBefore name space ⟨"", 0⟩
  | cause => cause

@[simp] theorem Fault.Cause.kind_unplaced (cause : Fault.Cause) : cause.unplaced.kind = cause.kind := by
  cases cause <;> rfl

structure Fault.Moves (move : Place → Place) (fault moved : Fault) : Prop where
  cause : moved.cause.unplaced = fault.cause.unplaced
  tag : moved.tag = fault.tag
  place : moved.place = move fault.place

inductive MovedValue (move : Place → Place) (carry : α → α) : Except Fault α → Except Fault α → Prop
  | ok (a : α) : MovedValue move carry (.ok a) (.ok (carry a))
  | error {fault moved : Fault} :
    fault.Moves move moved → MovedValue move carry (.error fault) (.error moved)

/-- The second outcome of a step is the first one after a move, with the state that it leaves. -/
inductive Moved (move : Place → Place) (carry : σ → σ) :
    EStateM.Result Fault σ α → EStateM.Result Fault σ α → Prop
  | ok (a : α) (after : σ) : Moved move carry (.ok a after) (.ok a (carry after))
  | error {fault moved : Fault} (after : σ) :
    fault.Moves move moved → Moved move carry (.error fault after) (.error moved (carry after))

theorem Fault.Moves.inScope {move : Place → Place} {fault moved : Fault} (h : fault.Moves move moved)
    (tag : Keyword) : (fault.inScope tag).Moves move (moved.inScope tag) :=
  ⟨h.cause, congrArg (·.or (some tag)) h.tag, h.place⟩

namespace Node

variable (move : Place → Place)

mutual

def relocate : Node → Node
  | ⟨tag, signature, place, words, values, children, phase⟩ =>
    ⟨tag, signature, move place, words, values, relocateAll children, phase⟩

def relocateAll : List Node → List Node
  | [] => []
  | node :: nodes => node.relocate :: relocateAll nodes

end

theorem relocateAll_eq_map (nodes : List Node) : relocateAll move nodes = nodes.map (relocate move) := by
  induction nodes with
  | nil => rfl
  | cons node nodes ih => rw [relocateAll, ih, List.map_cons]

theorem relocate_eq (node : Node) : node.relocate move =
    { node with place := move node.place, children := node.children.map (relocate move) } := by
  cases node
  rw [relocate, relocateAll_eq_map]

section fields

variable (node : Node)

@[simp] theorem tag_relocate : (node.relocate move).tag = node.tag := by rw [relocate_eq]

@[simp] theorem signature_relocate : (node.relocate move).signature = node.signature := by
  rw [relocate_eq]

@[simp] theorem place_relocate : (node.relocate move).place = move node.place := by rw [relocate_eq]

@[simp] theorem words_relocate : (node.relocate move).words = node.words := by rw [relocate_eq]

@[simp] theorem values_relocate : (node.relocate move).values = node.values := by rw [relocate_eq]

@[simp] theorem children_relocate :
    (node.relocate move).children = node.children.map (relocate move) := by rw [relocate_eq]

@[simp] theorem phase_relocate : (node.relocate move).phase = node.phase := by rw [relocate_eq]

end fields

theorem filter_relocate (p : Keyword → Bool) (nodes : List Node) :
    (nodes.map (relocate move)).filter (fun node => p node.tag) =
      (nodes.filter fun node => p node.tag).map (relocate move) := by
  rw [List.filter_map]
  simp [Function.comp_def]

@[simp] theorem childrenOf_relocate (node : Node) (key : Keyword) :
    (node.relocate move).childrenOf key = (node.childrenOf key).map (relocate move) := by
  unfold childrenOf
  rw [children_relocate]
  exact filter_relocate move (fun tag => tag = key) node.children

@[simp] theorem text?_relocate (node : Node) (key : Keyword) :
    (node.relocate move).text? key = node.text? key := by
  simp [text?]

@[simp] theorem scalar?_relocate (node : Node) : (node.relocate move).scalar? = node.scalar? := by
  simp [scalar?]

@[simp] theorem childScalar?_relocate (node : Node) (key : Keyword) :
    (node.relocate move).childScalar? key = node.childScalar? key := by
  simp only [childScalar?, childrenOf_relocate, List.head?_map, Option.bind_map]
  congr 1
  funext child
  exact scalar?_relocate move child

@[simp] theorem holds_relocate (node : Node) (key : Keyword) :
    (node.relocate move).holds key = node.holds key := by
  simp [holds, Function.comp_def]

theorem relocate_set (node : Node) (key : Keyword) (value : Datum) :
    (node.set key value).relocate move = (node.relocate move).set key value := by
  rw [relocate_eq, relocate_eq]
  simp only [set]
  rw [filter_relocate move (fun tag => tag ≠ key)]

theorem relocate_attach (node child : Node) :
    (node.attach child).relocate move = (node.relocate move).attach (child.relocate move) := by
  rw [relocate_eq, relocate_eq]
  simp only [attach, tag_relocate, List.map_append, List.map_cons]
  rw [filter_relocate move (fun tag => tag.rank ≤ child.tag.rank),
    filter_relocate move (fun tag => child.tag.rank < tag.rank)]

theorem relocate_addWord (node : Node) (word : String) :
    (node.addWord word).relocate move = (node.relocate move).addWord word := by
  rw [relocate_eq, relocate_eq]
  rfl

theorem relocate_withWords (node : Node) (words : List String) :
    { node with words }.relocate move = { node.relocate move with words } := by
  rw [relocate_eq, relocate_eq]

theorem relocate_withPhase (node : Node) (phase : Phase) :
    { node with phase }.relocate move = { node.relocate move with phase } := by
  rw [relocate_eq, relocate_eq]

theorem relocate_start (tag : Keyword) (signature : Signature) (place : Place) :
    (start tag signature place).relocate move = start tag signature (move place) := by
  rw [relocate_eq]
  rfl

theorem moves_fault {node : Node} (cause : Fault.Cause) :
    (node.fault cause).Moves move ((node.relocate move).fault cause) :=
  ⟨rfl, congrArg some (tag_relocate move node), place_relocate move node⟩

theorem normalize_relocate (allowed : Vocabulary) (node : Node) :
    MovedValue move (relocate move) (node.normalize allowed)
      ((node.relocate move).normalize allowed) := by
  unfold normalize
  rw [signature_relocate]
  cases node.signature.scalar with
  | none => exact .ok node
  | some key =>
    dsimp only
    rw [text?_relocate]
    cases node.text? key with
    | none => exact .ok node
    | some text =>
      dsimp only
      cases allowed.canonical? text with
      | none =>
        dsimp only
        rw [tag_relocate]
        exact .error (moves_fault move _)
      | some canonical =>
        dsimp only
        rw [← relocate_set]
        exact .ok (node.set key (.text canonical))

theorem rival?_relocate (node child : Node) (property : Keyword) :
    (node.relocate move).rival? (child.relocate move) property =
      (node.rival? child property).map (relocate move) := by
  unfold rival?
  rw [values_relocate, tag_relocate, childrenOf_relocate]
  cases child.values property with
  | none => rfl
  | some value =>
    dsimp only
    rw [List.find?_map]
    simp only [Function.comp_def, values_relocate]

theorem adopt_relocate (node child : Node) :
    MovedValue move (relocate move) (node.adopt child)
      ((node.relocate move).adopt (child.relocate move)) := by
  unfold adopt
  rw [signature_relocate, tag_relocate]
  cases htag : node.signature.tag? child.tag with
  | none =>
    dsimp only
    rw [tag_relocate]
    exact .error (moves_fault move _)
  | some tag =>
    have hadopted : MovedValue move (relocate move) (tag.allowed.elim (.ok child) child.normalize)
        (tag.allowed.elim (.ok (child.relocate move)) (child.relocate move).normalize) := by
      cases tag.allowed with
      | none => exact .ok child
      | some allowed => exact normalize_relocate move allowed child
    dsimp only
    generalize tag.allowed.elim (.ok child) child.normalize = adopted at hadopted ⊢
    generalize tag.allowed.elim (.ok (child.relocate move)) (child.relocate move).normalize = moved
      at hadopted ⊢
    cases hadopted with
    | error hmoves => exact .error hmoves
    | ok adopted =>
      simp only [bind, Except.bind, rival?_relocate]
      cases tag.unique with
      | none =>
        rw [← relocate_attach]
        exact .ok _
      | some key =>
        simp only [Option.bind_some]
        cases node.rival? adopted key with
        | none =>
          rw [← relocate_attach]
          exact .ok _
        | some rival =>
          -- The line that the fault mentions is that of the rival, which has moved as well.
          refine .error ⟨?_, congrArg some (tag_relocate move adopted), place_relocate move adopted⟩
          simp [fault, Fault.Cause.unplaced]

end Node

namespace Symbol

variable (move : Place → Place)

def relocate (symbol : Symbol) : Symbol := { symbol with place := move symbol.place }

def Entry.relocate (entry : Entry) : Entry := { entry with place := move entry.place }

end Symbol

namespace Symbols

variable (move : Place → Place)

def Table.relocate (table : Table) : Table :=
  { table with entries := table.entries.map (Symbol.Entry.relocate move) }

def relocate (symbols : Symbols) : Symbols where
  classes := symbols.classes.relocate move
  enumerations := symbols.enumerations.relocate move
  glossaries := symbols.glossaries.relocate move
  protocols := symbols.protocols.relocate move

@[simp] theorem table_relocate (symbols : Symbols) (space : Namespace) :
    (symbols.relocate move).table space = (symbols.table space).relocate move := by
  cases space <;> rfl

theorem relocate_setTable (symbols : Symbols) (space : Namespace) (table : Table) :
    (symbols.setTable space table).relocate move =
      (symbols.relocate move).setTable space (table.relocate move) := by
  cases space <;> rfl

namespace Table

variable (table : Table)

theorem find?_relocate (segments : List String) :
    (table.relocate move).find? segments = (table.find? segments).map move := by
  unfold find? relocate
  simp only [List.find?_map, Option.map_map]
  rfl

theorem relocate_add (name : String) (place : Place) :
    (table.add name place).relocate move = (table.relocate move).add name (move place) := by
  simp only [relocate, add, List.map_append, List.map_cons, List.map_nil]
  rfl

theorem suffixNames_relocate (segments : List String) :
    (table.relocate move).suffixNames segments = table.suffixNames segments := by
  induction segments with
  | nil => rfl
  | cons segment rest ih =>
    rw [suffixNames, suffixNames, ih]
    rfl

theorem answersTo_relocate (name : String) (entry : Symbol.Entry) :
    (table.relocate move).answersTo name (entry.relocate move) =
      table.answersTo name entry := by
  unfold answersTo
  rw [suffixNames_relocate]
  rfl

theorem resolves_relocate (name : String) : (table.relocate move).resolves name = table.resolves name := by
  have hsplit : (table.relocate move).split name = table.split name := rfl
  unfold resolves
  rw [hsplit, find?_relocate, Option.isSome_map]
  congr 1
  have hentries : (table.relocate move).entries =
      table.entries.map (Symbol.Entry.relocate move) := rfl
  rw [hentries, List.any_map]
  simp only [Function.comp_def, answersTo_relocate]

theorem lookup_relocate (name : String) :
    (table.relocate move).lookup name = (table.lookup name).map (Symbol.relocate move) := by
  have hentries : (table.relocate move).entries =
      table.entries.map (Symbol.Entry.relocate move) := rfl
  have hfound : ((table.relocate move).entries.filter ((table.relocate move).answersTo name)).map
      (·.toSymbol) = ((table.entries.filter (table.answersTo name)).map (·.toSymbol)).map
        (Symbol.relocate move) := by
    rw [hentries, List.filter_map]
    simp only [Function.comp_def, answersTo_relocate, List.map_map]
    rfl
  have hexact (found : List Symbol) : (found.map (Symbol.relocate move)).filter (·.name == name) =
      (found.filter (·.name == name)).map (Symbol.relocate move) := by
    rw [List.filter_map]
    rfl
  unfold lookup
  simp only [hfound, hexact]
  cases ((table.entries.filter (table.answersTo name)).map (·.toSymbol)).filter (·.name == name) with
  | nil => rfl
  | cons symbol exact => rfl

theorem byName_relocate : (table.relocate move).byName = table.byName.map (Symbol.relocate move) := by
  have hsorted := List.map_mergeSort (f := Symbol.relocate move) (l := table.entries.map (·.toSymbol))
    (r := fun a b => decide (a.name ≤ b.name)) (s := fun a b => decide (a.name ≤ b.name))
    fun _ _ _ _ => rfl
  have hentries : ((table.relocate move).entries.map (·.toSymbol)) =
      (table.entries.map (·.toSymbol)).map (Symbol.relocate move) := by
    unfold relocate
    simp only [List.map_map, Function.comp_def]
    rfl
  unfold byName
  rw [hsorted, hentries]

end Table

theorem register_relocate (name : String) (space : Namespace) (place : Place) (delimiter : Option Char)
    (symbols : Symbols) :
    Moved move (relocate move) (register name space place delimiter symbols)
      (register name space (move place) delimiter (symbols.relocate move)) := by
  have hadopt : ((symbols.table space).relocate move).adoptDelimiter delimiter =
      ((symbols.table space).adoptDelimiter delimiter).relocate move := rfl
  have hsplit : (((symbols.table space).adoptDelimiter delimiter).relocate move).split name =
      ((symbols.table space).adoptDelimiter delimiter).split name := rfl
  unfold register
  dsimp only
  rw [table_relocate, hadopt, hsplit, Table.find?_relocate]
  cases ((symbols.table space).adoptDelimiter delimiter).find?
      (((symbols.table space).adoptDelimiter delimiter).split name) with
  | some previous =>
    dsimp only [Option.map_some]
    rw [← relocate_setTable]
    exact .error _ ⟨rfl, rfl, rfl⟩
  | none =>
    dsimp only [Option.map_none]
    rw [← Table.relocate_add, ← relocate_setTable]
    exact .ok () _

theorem resolves_relocate (symbols : Symbols) (name : String) (space : Namespace) :
    (symbols.relocate move).resolves name space = symbols.resolves name space := by
  unfold resolves
  rw [table_relocate, Table.resolves_relocate]

theorem lookup_relocate (symbols : Symbols) (name : String) (space : Namespace) :
    (symbols.relocate move).lookup name space =
      (symbols.lookup name space).map (Symbol.relocate move) := by
  unfold lookup
  rw [table_relocate, Table.lookup_relocate]

theorem byName_relocate (symbols : Symbols) (space : Namespace) :
    (symbols.relocate move).byName space =
      (symbols.byName space).map (Symbol.relocate move) := by
  unfold byName
  rw [table_relocate, Table.byName_relocate]

end Symbols
end TagSchema
