import ScriptTree.Command.Arguments
import ScriptTree.Command.Host
import ScriptTree.Json.Printer
import ScriptTree.Settings.File

/-! A run of the command: settings, input, report, output. -/
namespace ScriptTree.Command

def join (path name : String) : String :=
  if path = "" then name
  else if path.toList.getLast? = some '/' then path ++ name
  else path ++ "/" ++ name

def userFile? {m : Type → Type} (host : Host m) : Option String := do
  let directory ← host.configHome <|> host.home.map (join · ".config")
  some (join (join directory "ecmatree") "config.toml")

/-- The settings file of the project in the working directory. -/
def projectFile : String := ".ecmatree/config.toml"

variable {m : Type → Type} [Monad m]

/-- The settings of a file; none are set if it cannot be read or has a fault. -/
def settingsAt (host : Host m) (path : String) : m Settings := do
  match ← host.readFile path with
  | .ok bytes => return .ofFile (some bytes)
  | .error _ => return .ofFile none

/-- The settings of the files: those of the project over those of the user, or those of the one file
that the arguments name. -/
def fileSettings (host : Host m) (a : Arguments) : m Settings := do
  match a.config with
  | some path => settingsAt host path
  | none =>
    let user ← match userFile? host with
      | some path => settingsAt host path
      | none => pure {}
    return user.merge (← settingsAt host projectFile)

/-- The settings of a run: those of the arguments over those of the files. -/
def settings (host : Host m) (a : Arguments) : m Settings := do
  return (← fileSettings host a).merge a.settings

/-- The source text, or what is reported in its place. Bytes that are no text are replaced. -/
def source (host : Host m) (a : Arguments) : m (Except String String) := do
  let (name, result) ← match a.input? with
    | some path => do pure (path, ← host.readFile path)
    | none => do pure ("stdin", ← host.readInput)
  match result with
  | .ok bytes => return .ok (String.ofList (Text.decodeLossy bytes))
  | .error e => return .error ("failed to read " ++ name ++ ": " ++ e.message)

def report (host : Host m) (engines : Dialect → Option Engine) (a : Arguments) (s : Settings) :
    m Report := do
  match ← source host a with
  | .ok text => return (Pipeline.new s.options (engines .typed) (engines .plain)).run text
  | .error message => return .failed message

/-- A report as it is written: one JSON value and a line break. -/
def output (style : Json.Style) (r : Report) : String :=
  String.ofList (r.toJson.render style ++ ['\n'])

def run (host : Host m) (engines : Dialect → Option Engine) (argv : List String) :
    m (Except ArgumentError String) := do
  match Arguments.parse argv with
  | .error e => return .error e
  | .ok a =>
    let s ← settings host a
    return .ok (output s.style (← report host engines a s))

end ScriptTree.Command
