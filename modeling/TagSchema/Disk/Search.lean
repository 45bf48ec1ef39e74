import TagSchema.Disk
import TagSchema.Settings

/-! Finding source files. A file stands for itself, whatever its name, and a directory stands for
the sources in it. -/
namespace TagSchema.Disk

inductive SearchFailure where
  | missing (path : String)
  | nothingFound (extension : String)
  deriving DecidableEq, Repr

def SearchFailure.message : SearchFailure → String
  | missing path => "no such file or directory: " ++ path
  | nothingFound extension => "no ." ++ extension ++ " sources found"

def descends (settings : Settings) (name : String) : Bool :=
  settings.recursive && !settings.excluded.contains name

def isSource (settings : Settings) (name : String) : Bool :=
  Path.extension? name == some settings.extension

mutual

def sourcesIn (settings : Settings) (path : String) : FileTree → List String
  | .file _ => []
  | .directory entries =>
    ((sourcesByEntry settings path entries).mergeSort fun a b => decide (a.1 ≤ b.1)).flatMap (·.2)

def sourcesByEntry (settings : Settings) (path : String) :
    List (String × FileTree) → List (String × List String)
  | [] => []
  | (name, tree) :: rest =>
    let found :=
      if tree.isDirectory then
        if descends settings name then sourcesIn settings (Path.join path name) tree else []
      else if isSource settings name then [Path.join path name] else []
    (name, found) :: sourcesByEntry settings path rest

end

def sourcesAt (disk : Disk) (settings : Settings) (path : String) :
    Except SearchFailure (List String) :=
  match disk.lookup path with
  | none => .error (.missing path)
  | some (.file _) => .ok [path]
  | some directory => .ok (sourcesIn settings path directory)

/-- The sources that paths stand for, in the order of the paths. Of several spellings of one path
the first is kept. -/
def sources (disk : Disk) (settings : Settings) (paths : List String) :
    Except SearchFailure (List String) := do
  let found ← paths.mapM (disk.sourcesAt settings)
  match found.flatten.eraseDupsBy fun a b => Path.parts a == Path.parts b with
  | [] => .error (.nothingFound settings.extension)
  | sources => .ok sources

end TagSchema.Disk
