import TagSchema.FileTree

/-! A tree of files with the directory that relative paths start from, and what paths lead to.

Paths are used as they are spelled. Two spellings are the same path if they have the same parts: doubled
and trailing slashes do not count, and neither does a dot, unless a relative path starts with it. -/
namespace TagSchema

namespace Path

/-- What stands between the slashes, empty pieces included. -/
def pieces (path : String) : List String :=
  (path.toList.splitOn '/').map String.ofList

def isAbsolute (path : String) : Bool := path.toList.head? == some '/'

def parts (path : String) : List String :=
  let start :=
    if isAbsolute path then ["/"]
    else if (pieces path).head? = some "." then ["."]
    else []
  start ++ (pieces path).filter fun piece => piece ≠ "" && piece ≠ "."

def join (directory name : String) : String :=
  if directory.toList.getLast? == some '/' then directory ++ name else directory ++ "/" ++ name

/-- What follows the last dot of a file name, unless that dot is also its first character. -/
def extension? (name : String) : Option String :=
  match name.toList.splitOn '.' with
  | [] | [_] | [[], _] => none
  | pieces => pieces.getLast?.map String.ofList

end Path

/-- The working directory is given by the names that lead to it. -/
structure Disk where
  root : FileTree
  workingDirectory : List String

namespace Disk

/-- One piece of a path, from a directory given by the names that lead to it, last name first. -/
def follow (disk : Disk) (trail : List String) (piece : String) : Option (List String) :=
  if (disk.root.get? trail.reverse).any (·.isDirectory) then
    match piece with
    | "" | "." => some trail
    | ".." => some trail.tail
    | name => some (name :: trail)
  else none

/-- The names that a path leads along. The last of them may lead nowhere. -/
def trail? (disk : Disk) (path : String) : Option (List String) :=
  if path = "" then none
  else
    let start := if Path.isAbsolute path then [] else disk.workingDirectory
    ((Path.pieces path).foldlM disk.follow start.reverse).map (·.reverse)

def lookup (disk : Disk) (path : String) : Option FileTree :=
  (disk.trail? path).bind disk.root.get?

def isDirectory (disk : Disk) (path : String) : Bool :=
  (disk.lookup path).any (·.isDirectory)

def isFile (disk : Disk) (path : String) : Bool :=
  (disk.lookup path).any (!·.isDirectory)

inductive Unreadable where
  | missing | directory | notText
  deriving DecidableEq, Repr

def Unreadable.message : Unreadable → String
  | missing => "No such file or directory (os error 2)"
  | directory => "Is a directory (os error 21)"
  | notText => "stream did not contain valid UTF-8"

def readText (disk : Disk) (path : String) : Except Unreadable String :=
  match disk.lookup path with
  | none => .error .missing
  | some (.directory _) => .error .directory
  | some (.file contents) => (String.fromUTF8? contents).elim (.error .notText) .ok

/-- The disk after a file is written, if it can be: its directory must be there, and no directory
may stand in its place. -/
def write? (disk : Disk) (path : String) (contents : String) : Option Disk := do
  let last ← (Path.pieces path).getLast?
  if last = "" || last = "." || last = ".." then none
  else do
    let trail ← disk.trail? path
    if (disk.root.get? trail).any (·.isDirectory) then none
    else some { disk with root := disk.root.put trail (.file contents.toUTF8) }

end Disk
end TagSchema
