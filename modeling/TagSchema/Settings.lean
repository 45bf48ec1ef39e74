import TagSchema.Disk
import TagSchema.Json.Document

/-! The settings of the command line, read from JSON: a record whose fields may each be left out
and whose other fields are ignored, or an array that gives the fields by position. -/
namespace TagSchema

structure Settings where
  /-- The extension of source files, without its dot. -/
  extension : String := "talk"
  /-- Whether directories inside the given ones are searched. -/
  recursive : Bool := true
  /-- Whether JSON is written on many lines. -/
  pretty : Bool := true
  /-- Names of directories that are never searched. -/
  excluded : List String := [".git", "target"]
  deriving DecidableEq, Repr

namespace Settings

open Json (Document)

def text? : Document → Option String
  | .text content => content
  | _ => none

def flag? : Document → Option Bool
  | .boolean truth => some truth
  | _ => none

def texts? : Document → Option (List String)
  | .array items => items.mapM text?
  | _ => none

abbrev Setter := Document → Settings → Option Settings

def setters : List (String × Setter) :=
  [("source_extension", fun value settings =>
      (text? value).map fun extension => { settings with extension }),
    ("recursive", fun value settings =>
      (flag? value).map fun recursive => { settings with recursive }),
    ("pretty", fun value settings => (flag? value).map fun pretty => { settings with pretty }),
    ("exclude_dirs", fun value settings =>
      (texts? value).map fun excluded => { settings with excluded })]

/-- Sets the fields of a record. A field's name must be a text, and a known field may occur only
once. -/
def setFields (settings : Settings) (seen : List String) :
    List (Option String × Document) → Option Settings
  | [] => some settings
  | (name, value) :: rest => do
    let name ← name
    match setters.lookup name with
    | none => setFields settings seen rest
    | some set =>
      if seen.contains name then none
      else setFields (← set value settings) (name :: seen) rest

/-- Sets the fields in their order. There may be fewer values than fields, but not more. -/
def setByPosition (settings : Settings) : List (String × Setter) → List Document → Option Settings
  | _, [] => some settings
  | [], _ :: _ => none
  | (_, set) :: setters, value :: values => do
    setByPosition (← set value settings) setters values

def ofDocument? : Document → Option Settings
  | .record fields => setFields {} [] fields
  | .array items => setByPosition {} setters items
  | _ => none

def ofText? (text : String) : Option Settings := do ofDocument? (← Document.ofText? text)

inductive Failure where
  | unreadable (path : String)
  | malformed (path : String)
  deriving DecidableEq, Repr

def Failure.message : Failure → String
  | unreadable path => "failed to read config " ++ path
  | malformed path => "invalid config " ++ path

def ofFile (disk : Disk) (path : String) : Except Failure Settings :=
  match disk.readText path with
  | .error _ => .error (.unreadable path)
  | .ok text => (ofText? text).elim (.error (.malformed path)) .ok

def defaultPath : String := "talk.json"

/-- A file that is named must be there; the default one need not. -/
def load (disk : Disk) : Option String → Except Failure Settings
  | some path => ofFile disk path
  | none => if disk.isFile defaultPath then ofFile disk defaultPath else .ok {}

end Settings
end TagSchema
