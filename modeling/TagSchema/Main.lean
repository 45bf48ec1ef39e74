import TagSchema.Command

/-! The command line on the machine's files: what the arguments name is loaded, the command runs
on that, and its outcome is carried out. -/
namespace TagSchema.Main

/-- Loads a file or a directory. Entries that are links or cannot be read are left out. -/
partial def loadTree (path : String) : IO FileTree := do
  let here ← IO.FS.realPath path
  if ← here.isDir then
    let mut entries := []
    for entry in ← here.readDir do
      try
        if (← IO.FS.realPath entry.path).toString = entry.path.toString then
          entries := (entry.fileName, ← loadTree entry.path.toString) :: entries
      catch _ => pure ()
    return .directory entries
  else
    return .file (← IO.FS.readBinFile here)

def names (path : String) : List String := (Path.pieces path).filter (· ≠ "")

def mount (root : FileTree) (path : String) : IO FileTree := do
  try
    let place := (← IO.FS.realPath path).toString
    return root.put (names place) (← loadTree place)
  catch _ => return root

def leaves (argument : String) : Bool :=
  Path.isAbsolute argument || (Path.pieces argument).contains ".."

def loadDisk (arguments : List String) : IO Disk := do
  let here := (← IO.FS.realPath ".").toString
  let root ← mount .empty here
  return ⟨← (arguments.filter leaves).foldlM mount root, names here⟩

def carryOut (outcome : Outcome) : IO UInt32 := do
  (← IO.getStdout).putStr outcome.stdout
  if let some (path, text) := outcome.write then IO.FS.writeFile path text
  (← IO.getStderr).putStr outcome.stderr
  return UInt32.ofNat outcome.exit

end TagSchema.Main

def main (arguments : List String) : IO UInt32 := do
  TagSchema.Main.carryOut (TagSchema.Command.run (← TagSchema.Main.loadDisk arguments) arguments)
