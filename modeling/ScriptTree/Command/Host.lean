/-! What the command needs from its surroundings. -/
namespace ScriptTree

/-- Why a file could not be read. -/
inductive ReadError where
  | notFound
  | notDirectory
  | isDirectory
  | nameTooLong
  | other (text : String)
  deriving DecidableEq, Repr

def ReadError.message : ReadError → String
  | .notFound => "No such file or directory (os error 2)"
  | .notDirectory => "Not a directory (os error 20)"
  | .isDirectory => "Is a directory (os error 21)"
  | .nameTooLong => "File name too long (os error 36)"
  | .other text => text

/-- The surroundings of the command: files, standard input and where settings are kept. -/
structure Host (m : Type → Type) where
  readFile : String → m (Except ReadError (List UInt8))
  readInput : m (Except ReadError (List UInt8))
  /-- The directory for the settings of programs. -/
  configHome : Option String
  /-- The directory of the user. -/
  home : Option String

end ScriptTree
