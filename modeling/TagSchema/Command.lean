import TagSchema.Invocation
import TagSchema.Disk.Search
import TagSchema.Disk.Corpus
import TagSchema.Symbols.Outline

/-! The command line as a function of its arguments and of the files it finds. -/
namespace TagSchema

/-- What a run of the command shows and does. At most one file is written. What `-v` asks to be
logged on the standard error stream is left out. -/
structure Outcome where
  exit : Nat
  stdout : String := ""
  stderr : String := ""
  write : Option (String × String) := none
  deriving DecidableEq, Repr

namespace Command

/-- The wording of this text and of `version` is the library's own; it only names the options. -/
def usage : String :=
  "Usage: talk [-v] [--config FILE] check PATHS...\n" ++
    "       talk [-v] [--config FILE] dump [-o FILE] [--compact] PATHS...\n" ++
    "       talk [-v] [--config FILE] symbols [--json] PATHS...\n"

def version : String := "talk 0.3.0\n"

def failed (message : String) (stdout : String) : Outcome :=
  { exit := 1, stdout, stderr := "Error: " ++ message ++ "\n" }

def render (settings : Settings) (json : Json) : String :=
  if settings.pretty then json.pretty else json.compact

def counts (corpus : Corpus) : String :=
  String.join <| [Keyword.classWord, .enumeration, .glossary, .protocol].map fun key =>
    let count := (corpus.nodes key).length
    s!"  {key}: {count}\n"

def resultsJson (corpus : Corpus) : Json :=
  (Json.record (corpus.results.map fun (key, mappings) =>
    (key.spelling, .array mappings))).sorted

def symbolJson (symbol : Symbol) : Json :=
  .record
    [("name", .text symbol.name), ("file", .text symbol.place.file),
      ("line", .integer symbol.place.line)]

def symbolsJson (symbols : Symbols) : Json :=
  .record <| Namespace.all.map fun space =>
    (space.spelling, .array ((symbols.byName space).map symbolJson))

def load (disk : Disk) (settings : Settings) (paths : List String) : Except String Corpus := do
  let sources ← (disk.sources settings paths).mapError (·.message)
  (disk.corpus sources).mapError (·.message)

/-- The number of sources is shown before any of them is read. -/
def check (disk : Disk) (settings : Settings) (paths : List String) : Outcome :=
  match disk.sources settings paths with
  | .error failure => failed failure.message ""
  | .ok sources =>
    let heading := "Checking " ++ toString sources.length ++ " source file(s)\n"
    match disk.corpus sources with
    | .error failure => failed failure.message heading
    | .ok corpus => { exit := 0, stdout := heading ++ counts corpus ++ "Valid.\n" }

def dump (disk : Disk) (settings : Settings) (paths : List String) (out : Option String)
    (compact : Bool) : Outcome :=
  match load disk settings paths with
  | .error message => failed message ""
  | .ok corpus =>
    let text :=
      render { settings with pretty := settings.pretty && !compact } (resultsJson corpus) ++ "\n"
    match out with
    | none => { exit := 0, stdout := text }
    | some path =>
      if (disk.write? path text).isSome then
        { exit := 0, stderr := "wrote " ++ path ++ "\n", write := some (path, text) }
      else failed ("failed to write " ++ path) ""

def symbols (disk : Disk) (settings : Settings) (paths : List String) (json : Bool) : Outcome :=
  match load disk settings paths with
  | .error message => failed message ""
  | .ok corpus =>
    let shown :=
      if json then render settings (symbolsJson corpus.symbols) ++ "\n"
      else corpus.symbols.display
    { exit := 0, stdout := shown }

def perform (disk : Disk) (settings : Settings) : Action → Outcome
  | .check paths => check disk settings paths
  | .dump paths out compact => dump disk settings paths out compact
  | .symbols paths json => symbols disk settings paths json

/-- Runs a command line. The settings are read before anything else. -/
def run (disk : Disk) (arguments : List String) : Outcome :=
  match Invocation.ofArguments? arguments with
  | none => { exit := 2, stderr := usage }
  | some .usage => { exit := 0, stdout := usage }
  | some .version => { exit := 0, stdout := version }
  | some (.perform explicit action) =>
    match Settings.load disk explicit with
    | .error failure => failed failure.message ""
    | .ok settings => perform disk settings action

end Command
end TagSchema
