import TagSchema.Node
import TagSchema.Symbols

/-! Finalizing a tree: once everything is registered, each reference must name a symbol. Children
come before their parent. The nodes that were found in order stay finalized when a later one is
not. -/
namespace TagSchema.Node

/-- The names that a key refers to: the symbol of its value, or those of its children's scalars. -/
def symbolsAt (node : Node) (key : Keyword) : List String :=
  match node.values key with
  | some value => value.symbol?.toList
  | none => (node.childrenOf key).filterMap fun child => child.scalar?.bind (·.symbol?)

def unresolved (symbols : Symbols) (node : Node) (reference : Reference) :
    List Fault.Cause :=
  match reference.target.space? node.values with
  | none => []
  | some space =>
    (node.symbolsAt reference.key).filterMap fun name =>
      if reference.skip.contains name || symbols.resolves name space then none
      else some (.unresolved name space)

def referenceFault? (symbols : Symbols) (node : Node) : Option Fault :=
  (node.signature.references.flatMap (node.unresolved symbols)).head?.map node.fault

mutual

def finalize (symbols : Symbols) : Node → EStateM.Result Fault Node Unit
  | ⟨tag, signature, place, words, values, children, phase⟩ =>
    if phase = .finalized then
      .ok () ⟨tag, signature, place, words, values, children, phase⟩
    else
      match finalizeAll symbols children with
      | .error fault children =>
        .error fault ⟨tag, signature, place, words, values, children, phase⟩
      | .ok () children =>
        match referenceFault? symbols ⟨tag, signature, place, words, values, children, phase⟩ with
        | some fault => .error fault ⟨tag, signature, place, words, values, children, phase⟩
        | none => .ok () ⟨tag, signature, place, words, values, children, .finalized⟩

def finalizeAll (symbols : Symbols) : List Node → EStateM.Result Fault (List Node) Unit
  | [] => .ok () []
  | node :: rest =>
    match node.finalize symbols with
    | .error fault node => .error fault (node :: rest)
    | .ok () node =>
      match finalizeAll symbols rest with
      | .error fault rest => .error fault (node :: rest)
      | .ok () rest => .ok () (node :: rest)

end

end TagSchema.Node
