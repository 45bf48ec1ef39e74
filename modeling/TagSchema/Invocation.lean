/-! What a command line asks for. Options may stand anywhere among the paths, until two hyphens end
them. The options of every command may also stand before the command. -/
namespace TagSchema

inductive Action where
  | check (paths : List String)
  | dump (paths : List String) (out : Option String) (compact : Bool)
  | symbols (paths : List String) (json : Bool)
  deriving DecidableEq, Repr

inductive Request where
  | perform (settings : Option String) (action : Action)
  | version
  | usage
  deriving DecidableEq, Repr

namespace Invocation

/-- An option by its names. One that takes a value may be given only once, and so may a flag that
is not repeatable. -/
structure Switch where
  name : String
  letter : Option Char := none
  takesValue : Bool := false
  repeatable : Bool := false

def verbose : Switch := { name := "verbose", letter := some 'v', repeatable := true }

def config : Switch := { name := "config", takesValue := true }

def help : Switch := { name := "help", letter := some 'h' }

def version : Switch := { name := "version", letter := some 'V' }

def out : Switch := { name := "out", letter := some 'o', takesValue := true }

def compact : Switch := { name := "compact" }

def json : Switch := { name := "json" }

/-- Why reading a command line ends early: it is wrong, or an option asks for something else. -/
inductive Stop where
  | wrong
  | version
  | usage
  deriving DecidableEq, Repr

/-- What was read so far: the options with their values, an option that still wants its value, and
the paths. -/
structure Progress where
  options : List (String × String) := []
  pending : Option Switch := none
  paths : List String := []

namespace Progress

def value? (progress : Progress) (switch : Switch) : Option String :=
  progress.options.lookup switch.name

def has (progress : Progress) (switch : Switch) : Bool := (progress.value? switch).isSome

def addFlag (progress : Progress) (switch : Switch) : Except Stop Progress :=
  if switch.name = help.name then .error .usage
  else if switch.name = version.name then .error .version
  else if progress.has switch && !switch.repeatable then .error .wrong
  else .ok { progress with options := (switch.name, "") :: progress.options }

/-- A value is never empty. -/
def addValue (progress : Progress) (switch : Switch) (value : String) : Except Stop Progress :=
  if value = "" || progress.has switch then .error .wrong
  else .ok { progress with options := (switch.name, value) :: progress.options, pending := none }

/-- A path is never empty. -/
def addPath (progress : Progress) (path : String) : Except Stop Progress :=
  if path = "" then .error .wrong else .ok { progress with paths := progress.paths ++ [path] }

def addLong (switches : List Switch) (progress : Progress) (option : List Char) :
    Except Stop Progress :=
  let name := option.takeWhile (· ≠ '=')
  match switches.find? (·.name.toList = name), option.drop name.length with
  | none, _ => .error .wrong
  | some switch, [] =>
    if switch.takesValue then .ok { progress with pending := some switch }
    else progress.addFlag switch
  | some switch, _ :: value =>
    if switch.takesValue then progress.addValue switch (String.ofList value) else .error .wrong

/-- Letters may share one hyphen. What follows the letter of an option with a value is the value,
with or without an equals sign. -/
def addLetters (switches : List Switch) (progress : Progress) : List Char → Except Stop Progress
  | [] => .ok progress
  | letter :: rest =>
    match switches.find? (·.letter = some letter) with
    | none => .error .wrong
    | some switch =>
      if switch.takesValue then
        match rest with
        | [] => .ok { progress with pending := some switch }
        | '=' :: value => progress.addValue switch (String.ofList value)
        | value => progress.addValue switch (String.ofList value)
      else do addLetters switches (← progress.addFlag switch) rest

/-- Takes in an option or the value of one. Any other argument is none of these; a hyphen alone is
no option. -/
def addOption? (switches : List Switch) (progress : Progress) (argument : String) :
    Except Stop (Option Progress) :=
  match argument.toList, progress.pending with
  | '-' :: _ :: _, some _ => .error .wrong
  | _, some switch => return some (← progress.addValue switch argument)
  | '-' :: '-' :: option, none => return some (← progress.addLong switches option)
  | '-' :: letter :: letters, none =>
    return some (← progress.addLetters switches (letter :: letters))
  | _, none => return none

def finish (progress : Progress) : Except Stop Progress :=
  if progress.pending.isSome then .error .wrong else .ok progress

end Progress

def readOptions (switches : List Switch) (progress : Progress) :
    List String → Except Stop (Progress × List String)
  | [] => return (← progress.finish, [])
  | argument :: rest => do
    match ← progress.addOption? switches argument with
    | some progress => readOptions switches progress rest
    | none => return (progress, argument :: rest)

/-- Reads options and paths in any order. Behind two hyphens there are only paths. -/
def readPaths (switches : List Switch) (progress : Progress) :
    List String → Except Stop Progress
  | [] => progress.finish
  | argument :: rest => do
    if argument = "--" then rest.foldlM Progress.addPath (← progress.finish)
    else
      match ← progress.addOption? switches argument with
      | some progress => readPaths switches progress rest
      | none => readPaths switches (← progress.addPath argument) rest

def commands : List (String × List Switch) :=
  [("check", []), ("dump", [out, compact]), ("symbols", [json])]

/-- The action of a command whose arguments are read. There must be a path. -/
def action? (command : String) (progress : Progress) : Option Action :=
  if progress.paths.isEmpty then none
  else
    match command with
    | "check" => some (.check progress.paths)
    | "dump" => some (.dump progress.paths (progress.value? out) (progress.has compact))
    | "symbols" => some (.symbols progress.paths (progress.has json))
    | _ => none

def readHelp : List String → Except Stop Request
  | [] => .error .usage
  | [command] => if (commands.lookup command).isSome then .error .usage else .error .wrong
  | _ => .error .wrong

/-- Settings that are named behind the command go before those named in front of it. -/
def read (arguments : List String) : Except Stop Request := do
  match ← readOptions [verbose, config, help, version] {} arguments with
  | (_, []) => .error .wrong
  | (before, command :: rest) =>
    match commands.lookup command with
    | none => if command = "help" then readHelp rest else .error .wrong
    | some switches =>
      let after ← readPaths (switches ++ [verbose, config, help]) {} rest
      match action? command after with
      | none => .error .wrong
      | some action => return .perform ((after.value? config).or (before.value? config)) action

def ofArguments? (arguments : List String) : Option Request :=
  match read arguments with
  | .ok request => some request
  | .error .version => some .version
  | .error .usage => some .usage
  | .error .wrong => none

end Invocation
end TagSchema
