import ScriptTree.Command.Run
import ScriptTree.Command.Verbosity
import ScriptTree.Json.Parser
import ScriptTree.Syntax.Rows

/-! The command. Parsing proper is done by another program, which leaves the rows of its trees by dialect
in the JSON file named by `ECMATREE_TREES`; without it no engine is available. -/
namespace ScriptTree.Command

/-- Whether an error code of the system, which may come negated, is the given one. -/
def isCode (code expected : UInt32) : Bool := code = expected || code = 0 - expected

def readError : IO.Error → ReadError
  | .noFileOrDirectory .. => .notFound
  | .inappropriateType _ code _ => if isCode code 21 then .isDirectory else .notDirectory
  | e@(.invalidArgument _ code _) => if isCode code 36 then .nameTooLong else .other (toString e)
  | e => .other (toString e)

def readFile (path : String) : IO (Except ReadError (List UInt8)) := do
  try
    return .ok (← IO.FS.readBinFile path).toList
  catch e =>
    return .error (readError e)

/-- All bytes that a stream still has, after those already read. -/
partial def readAll (stream : IO.FS.Stream) (before : ByteArray) : IO ByteArray := do
  let bytes ← stream.read 65536
  if bytes.isEmpty then return before else readAll stream (before ++ bytes)

def readInput : IO (Except ReadError (List UInt8)) := do
  try
    return .ok (← readAll (← IO.getStdin) .empty).toList
  catch e =>
    return .error (readError e)

def machine : IO (Host IO) := do
  return { readFile := readFile
           readInput := readInput
           configHome := ← IO.getEnv "XDG_CONFIG_HOME"
           home := ← IO.getEnv "HOME" }

def parsedTrees : IO (Option Json) := do
  match ← IO.getEnv "ECMATREE_TREES" with
  | none => return none
  | some path =>
    match ← readFile path with
    | .ok bytes => return (Text.decode? bytes).bind Json.parse?
    | .error _ => return none

/-- The engine of a dialect over the trees that the parser has left. -/
def engineFor (trees : Option Json) (dialect : Dialect) : Option Engine :=
  (trees.bind (·.get? dialect.name)).map fun rows => .ofParser dialect fun _ => Tree.ofJson? rows

def usage : String :=
  "Usage: ecmatree [--dialect DIALECT] [--fallback] [--plain-tree SHAPE] " ++
    "[--offsets UNIT] [--pretty] [--config PATH] [-v] [FILE]"

/-- What is said in the place of a report. -/
def argumentText : ArgumentError → String
  | .invalidValue => "error: invalid value"
  | .unknownArgument => "error: unexpected argument"
  | .argumentConflict => "error: an argument cannot be used multiple times"
  | .tooManyValues => "error: unexpected value"
  | .helpAsked => usage
  | .versionAsked => "ecmatree"

end ScriptTree.Command

/-- Runs the command and leaves with a failure only on wrong arguments. -/
def main (argv : List String) : IO UInt32 := do
  let trees ← ScriptTree.Command.parsedTrees
  let host ← ScriptTree.Command.machine
  match ← ScriptTree.Command.run host (ScriptTree.Command.engineFor trees) argv with
  | .ok text =>
    IO.print text
    return 0
  | .error e =>
    if e = .helpAsked ∨ e = .versionAsked then
      IO.println (ScriptTree.Command.argumentText e)
      return 0
    else
      IO.eprintln (ScriptTree.Command.argumentText e)
      return 2
