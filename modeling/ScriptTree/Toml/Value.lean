/-! Values of TOML documents. -/
namespace ScriptTree.Toml

/-- How a table came about, which decides what may still be added to it. -/
inductive Origin where
  /-- Written between braces. -/
  | inline
  /-- Given by a header of its own. -/
  | header
  /-- Named in the header of a table below it. -/
  | implied
  /-- Named in a dotted key. -/
  | dotted
  deriving DecidableEq, Repr

/-- A value. Entries of tables keep their order. -/
inductive Value where
  | str (s : String)
  | int (n : Int)
  /-- A floating-point number as it is written. -/
  | float (text : String)
  | bool (b : Bool)
  /-- A date, a time or both, as written. -/
  | datetime (text : String)
  | array (items : List Value)
  | table (origin : Origin) (entries : List (String × Value))
  /-- The tables given by repeated headers in double brackets. -/
  | tables (rows : List (List (String × Value)))
  deriving Repr

abbrev Entries := List (String × Value)

/-- The value under a key. -/
def Entries.get? (entries : Entries) (key : String) : Option Value :=
  (entries.find? (·.1 == key)).map (·.2)

/-- Puts a value under a key, in the place of the one that is there. -/
def Entries.set (key : String) (value : Value) : Entries → Entries
  | [] => [(key, value)]
  | (k, v) :: entries =>
    if k = key then (k, value) :: entries else (k, v) :: Entries.set key value entries

end ScriptTree.Toml
