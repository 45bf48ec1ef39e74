/-! A tree of files in memory. -/
namespace TagSchema

inductive FileTree where
  | file (contents : ByteArray)
  | directory (entries : List (String × FileTree))

namespace FileTree

def empty : FileTree := directory []

def isDirectory : FileTree → Bool
  | file _ => false
  | directory _ => true

def entries : FileTree → List (String × FileTree)
  | file _ => []
  | directory entries => entries

def entry? (tree : FileTree) (name : String) : Option FileTree :=
  (tree.entries.find? (·.1 = name)).map (·.2)

def get? (tree : FileTree) : List String → Option FileTree
  | [] => some tree
  | name :: names => (tree.entry? name).bind (·.get? names)

def setEntry (name : String) (entry : FileTree) :
    List (String × FileTree) → List (String × FileTree)
  | [] => [(name, entry)]
  | (other, tree) :: rest =>
    if other = name then (name, entry) :: rest else (other, tree) :: setEntry name entry rest

/-- Puts a tree at the end of a row of names and makes the directories on the way. -/
def put (tree : FileTree) (names : List String) (placed : FileTree) : FileTree :=
  match names with
  | [] => placed
  | name :: names =>
    directory (setEntry name (((tree.entry? name).getD empty).put names placed) tree.entries)

mutual

def files : FileTree → List (List String × ByteArray)
  | file contents => [([], contents)]
  | directory entries => filesOf entries

def filesOf : List (String × FileTree) → List (List String × ByteArray)
  | [] => []
  | (name, tree) :: rest =>
    tree.files.map (fun (names, contents) => (name :: names, contents)) ++ filesOf rest

end

theorem find?_setEntry (name : String) (entry : FileTree) (entries : List (String × FileTree)) :
    (setEntry name entry entries).find? (·.1 = name) = some (name, entry) := by
  induction entries with
  | nil => simp [setEntry]
  | cons first rest ih =>
    simp only [setEntry]
    split <;> simp_all

@[simp] theorem get?_put (tree placed : FileTree) (names : List String) :
    (tree.put names placed).get? names = some placed := by
  induction names generalizing tree with
  | nil => rfl
  | cons name names ih => simp [put, get?, entry?, entries, find?_setEntry, ih]

end FileTree
end TagSchema
