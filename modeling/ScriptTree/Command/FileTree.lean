import ScriptTree.Command.Host

/-! A directory with its files in memory, read the way an operating system does. -/
namespace ScriptTree

/-- The files below a directory by their paths; a path without contents is a directory. -/
structure FileTree where
  entries : List (List String × Option (List UInt8))

namespace FileTree

/-- What is at a place. -/
inductive Entry where
  | directory
  | file (bytes : List UInt8)

def names (path : String) : List String :=
  (path.toList.splitOn '/').map String.ofList

/-- The names of a path that lead somewhere. -/
def steps (path : String) : List String :=
  (names path).filter fun name => name ≠ "" ∧ name ≠ "."

/-- The tree of files by path; a path that ends in a slash is a directory. -/
def ofFiles (files : List (String × List UInt8)) : FileTree :=
  ⟨files.map fun (path, bytes) =>
    (steps path, if path.toList.getLast? = some '/' then none else some bytes)⟩

/-- What is at a place given by names. -/
def entry? (t : FileTree) (place : List String) : Option Entry :=
  if place = [] then some .directory
  else match t.entries.find? fun (p, _) => place.isPrefixOf p with
    | none => none
    | some (p, some bytes) => if p = place then some (.file bytes) else some .directory
    | some (_, none) => some .directory

/-- The longest name in bytes. -/
def maxName : Nat := 255

/-- The longest path in bytes. -/
def maxPath : Nat := 4095

/-- A place on the way along a path: inside the tree, or in a directory outside of it. -/
inductive Place where
  | inside (names : List String)
  | outside

/-- One name along a path. Nothing is known to be outside of the tree. -/
def step (t : FileTree) (place : Place) (name : String) : Except ReadError Place :=
  match place with
  | .outside =>
    if name = "" ∨ name = "." ∨ name = ".." then .ok .outside
    else if maxName < name.utf8ByteSize then .error .nameTooLong
    else .error .notFound
  | .inside names =>
    match t.entry? names with
    | none => .error .notFound
    | some (.file _) => .error .notDirectory
    | some .directory =>
      if name = "" ∨ name = "." then .ok place
      else if name = ".." then .ok (if names = [] then .outside else .inside names.dropLast)
      else if maxName < name.utf8ByteSize then .error .nameTooLong
      else if (t.entry? (names ++ [name])).isSome then .ok (.inside (names ++ [name]))
      else .error .notFound

/-- The contents of the file at a path. -/
def read (t : FileTree) (path : String) : Except ReadError (List UInt8) := do
  if path = "" then .error .notFound
  if maxPath < path.utf8ByteSize then .error .nameTooLong
  let start : Place := if path.toList.head? = some '/' then .outside else .inside []
  match ← (names path).foldlM t.step start with
  | .outside => .error .isDirectory
  | .inside place =>
    match t.entry? place with
    | some (.file bytes) => .ok bytes
    | _ => .error .isDirectory

/-- A host with the tree as its working directory. -/
def host (t : FileTree) (input : List UInt8) (configHome home : Option String) : Host Id where
  readFile := t.read
  readInput := .ok input
  configHome := configHome
  home := home

end FileTree

end ScriptTree
