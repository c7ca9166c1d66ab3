import ScriptTree.Settings.Basic

/-! The arguments of the command. -/
namespace ScriptTree

structure Arguments where
  file : Option String := none
  dialect : Option DialectChoice := none
  fallback : Bool := false
  plainTree : Option Shape := none
  offsets : Option OffsetUnit := none
  pretty : Bool := false
  config : Option String := none
  verbose : Nat := 0
  deriving DecidableEq, Repr

/-- Why the command does not run with the arguments. -/
inductive ArgumentError where
  /-- A value is missing, empty or not among the possible ones. -/
  | invalidValue
  /-- An option that does not exist, or a second file. -/
  | unknownArgument
  /-- An option given twice. -/
  | argumentConflict
  /-- A value for a flag. -/
  | tooManyValues
  | helpAsked
  | versionAsked
  deriving DecidableEq, Repr

namespace Arguments

def settings (a : Arguments) : Settings where
  strategy := if a.fallback then some .fallback else none
  dialect := a.dialect
  plainTree := a.plainTree
  offsets := a.offsets
  pretty := if a.pretty then some true else none

/-- The file to read; standard input if there is none or it is called `-`. -/
def input? (a : Arguments) : Option String :=
  a.file.filter (· ≠ "-")

/-- What takes a value. -/
inductive Slot where
  | file
  | dialect
  | plainTree
  | offsets
  | config
  deriving DecidableEq, Repr

/-- What takes none. -/
inductive Flag where
  | fallback
  | pretty
  | verbose
  | help
  | version
  deriving DecidableEq, Repr

def option? : String → Option (Slot ⊕ Flag)
  | "dialect" => some (.inl .dialect)
  | "plain-tree" => some (.inl .plainTree)
  | "offsets" => some (.inl .offsets)
  | "config" => some (.inl .config)
  | "fallback" => some (.inr .fallback)
  | "pretty" => some (.inr .pretty)
  | "verbose" => some (.inr .verbose)
  | "help" => some (.inr .help)
  | "version" => some (.inr .version)
  | _ => none

def flag? : Char → Option Flag
  | 'v' => some .verbose
  | 'h' => some .help
  | 'V' => some .version
  | _ => none

/-- A result, or the error that a value is wrong. -/
def orInvalid {α : Type} : Option α → Except ArgumentError α
  | some a => .ok a
  | none => .error .invalidValue

def nonempty? (s : String) : Option String := if s = "" then none else some s

/-- Nothing, if a value is absent; otherwise the error that it is given twice. -/
def once {α : Type} : Option α → Except ArgumentError Unit
  | none => .ok ()
  | some _ => .error .argumentConflict

/-- Sets a value. That it is the first one counts before its being right. -/
def set (a : Arguments) (value : String) : Slot → Except ArgumentError Arguments
  | .file => do
    once a.file
    return { a with file := some (← orInvalid (nonempty? value)) }
  | .dialect => do
    once a.dialect
    return { a with dialect := some (← orInvalid (Named.ofName? value)) }
  | .plainTree => do
    once a.plainTree
    return { a with plainTree := some (← orInvalid (Named.ofName? value)) }
  | .offsets => do
    once a.offsets
    return { a with offsets := some (← orInvalid (Named.ofName? value)) }
  | .config => do
    once a.config
    return { a with config := some (← orInvalid (nonempty? value)) }

/-- The greatest count of verbosity flags. -/
def maxVerbose : Nat := 255

/-- Sets a flag. Only verbosity may be given more than once. -/
def setFlag (a : Arguments) : Flag → Except ArgumentError Arguments
  | .fallback =>
    if a.fallback then .error .argumentConflict else .ok { a with fallback := true }
  | .pretty => if a.pretty then .error .argumentConflict else .ok { a with pretty := true }
  | .verbose => .ok { a with verbose := min (a.verbose + 1) maxVerbose }
  | .help => .error .helpAsked
  | .version => .error .versionAsked

/-- The reader of a command line. A value is set when the next argument that is understood comes, so an
unknown one is noticed before a wrong value right in front of it. -/
structure Reader where
  done : Arguments := {}
  /-- What is to be set, with its value once that is there. -/
  pending : Option (Slot × Option String) := none
  /-- Whether the file has been given. -/
  hasFile : Bool := false
  /-- Whether `--` has been given, after which there are no options. -/
  filesOnly : Bool := false
  deriving DecidableEq, Repr

/-- The arguments with what is pending set. -/
def Reader.resolve (r : Reader) : Except ArgumentError Arguments :=
  match r.pending with
  | none => .ok r.done
  | some (_, none) => .error .invalidValue
  | some (slot, some value) => r.done.set value slot

def Reader.readFlag (r : Reader) (flag : Flag) : Except ArgumentError Reader := do
  let a ← r.resolve
  return { r with done := ← a.setFlag flag, pending := none }

def Reader.readLetters (r : Reader) : List Char → Except ArgumentError Reader
  | [] => .ok r
  | c :: cs =>
    match flag? c with
    | none => .error .unknownArgument
    | some flag => do (← r.readFlag flag).readLetters cs

/-- Reads an option with a long name, and its value if there is one behind an equals sign. -/
def Reader.readLong (r : Reader) (name : String) (value : Option String) :
    Except ArgumentError Reader :=
  match option? name, value with
  | none, _ => .error .unknownArgument
  | some (.inr flag), none => r.readFlag flag
  | some (.inr _), some _ => .error .tooManyValues
  | some (.inl slot), none => do
    return { r with done := ← r.resolve, pending := some (slot, none) }
  | some (.inl slot), some value => do
    return { r with done := ← (← r.resolve).set value slot, pending := none }

def Reader.readFile (r : Reader) (name : String) : Except ArgumentError Reader :=
  if r.hasFile then .error .unknownArgument
  else do
    return { r with done := ← r.resolve, pending := some (.file, some name), hasFile := true }

/-- Reads what is no option: the value that an option waits for, or a file name. -/
def Reader.readPlain (r : Reader) (arg : String) : Except ArgumentError Reader :=
  match r.pending with
  | some (slot, none) => .ok { r with pending := some (slot, some arg) }
  | _ => r.readFile arg

def Reader.read (r : Reader) (arg : String) : Except ArgumentError Reader :=
  if r.filesOnly then r.readFile arg
  else match arg.toList with
    | ['-', '-'] => .ok { r with filesOnly := true }
    | '-' :: '-' :: long =>
      let name := String.ofList (long.takeWhile (· ≠ '='))
      match long.dropWhile (· ≠ '=') with
      | [] => r.readLong name none
      | _ :: value => r.readLong name (some (String.ofList value))
    | ['-'] => r.readPlain arg
    | '-' :: letters => r.readLetters letters
    | _ => r.readPlain arg

def parse (argv : List String) : Except ArgumentError Arguments := do
  (← argv.foldlM Reader.read {}).resolve

end Arguments

end ScriptTree
