import ScriptTree.Toml.Value

/-! Building TOML tables: what a key and a header may add to the tables that are there. -/
namespace ScriptTree.Toml

/-- A dotted key: the tables it goes through and the last part. -/
structure Path where
  tables : List String
  last : String
  deriving DecidableEq, Repr

/-- Applies `f` to the last of several rows. -/
def onLast {α : Type} (f : α → Option α) : List α → Option (List α)
  | [] => none
  | [a] => (f a).map ([·])
  | a :: as => (onLast f as).map (a :: ·)

/-- Adds a value under a dotted key. Tables that are missing are made, tables made by dotted keys and,
short of the last one, tables implied by headers may be added to; no value is replaced. -/
def addAt (key : String) (value : Value) : List String → Entries → Option Entries
  | [], entries =>
    if (entries.get? key).isSome then none else some (entries ++ [(key, value)])
  | k :: path, entries =>
    match entries.get? k with
    | none => (addAt key value path []).map fun sub => entries ++ [(k, .table .dotted sub)]
    | some (.table origin sub) =>
      if origin = .dotted ∨ (origin = .implied ∧ path ≠ []) then
        (addAt key value path sub).map fun sub => entries.set k (.table origin sub)
      else none
    | some (.tables rows) =>
      if path = [] then none
      else (onLast (addAt key value path) rows).map fun rows => entries.set k (.tables rows)
    | some _ => none

def addAll (entries : Entries) (pairs : List (Path × Value)) : Option Entries :=
  pairs.foldlM (fun entries (path, value) => addAt path.last value path.tables entries) entries

/-- Changes the value at the place of a header. Tables on the way that are missing are implied; the way
goes through any table but an inline one, and through the last of repeated tables. -/
def changeAt (key : String) (f : Option Value → Option Value) :
    List String → Entries → Option Entries
  | [], entries => (f (entries.get? key)).map fun value => entries.set key value
  | k :: path, entries =>
    match entries.get? k with
    | none => (changeAt key f path []).map fun sub => entries ++ [(k, .table .implied sub)]
    | some (.table origin sub) =>
      if origin = .inline then none
      else (changeAt key f path sub).map fun sub => entries.set k (.table origin sub)
    | some (.tables rows) =>
      (onLast (changeAt key f path) rows).map fun rows => entries.set k (.tables rows)
    | some _ => none

/-- Defines the table of a header. It may be implied by earlier headers, and nothing else. -/
def defineTable (pairs : List (Path × Value)) : Option Value → Option Value
  | none => (addAll [] pairs).map (.table .header)
  | some (.table .implied entries) => (addAll entries pairs).map (.table .header)
  | some _ => none

/-- Defines one more of the tables of a repeated header. -/
def defineRow (pairs : List (Path × Value)) : Option Value → Option Value
  | none => (addAll [] pairs).map fun row => .tables [row]
  | some (.tables rows) => (addAll [] pairs).map fun row => .tables (rows ++ [row])
  | some _ => none

end ScriptTree.Toml
