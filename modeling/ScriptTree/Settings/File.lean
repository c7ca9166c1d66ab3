import ScriptTree.Settings.Basic
import ScriptTree.Text.Utf8
import ScriptTree.Toml.Document

/-! Settings files. A file with a fault anywhere sets nothing. -/
namespace ScriptTree.Settings

open Toml (Value Entries)

def isEmpty : Value → Bool
  | .array [] => true
  | .table _ [] => true
  | .tables [] => true
  | _ => false

/-- A named value: its name as a string, or a table with that as its only key and nothing under it. -/
def named? {α : Type} [Named α] : Value → Option α
  | .str s => Named.ofName? s
  | .table _ [(key, value)] => if isEmpty value then Named.ofName? key else none
  | _ => none

def bool? : Value → Option Bool
  | .bool b => some b
  | _ => none

/-- The values of a section by place and key: a table has them by key, an array by place, and a date has
none. -/
def slots? : Value → Option (Nat → String → Option Value)
  | .table _ entries => some fun _ key => Entries.get? entries key
  | .array items => some fun place _ => items[place]?
  | .tables rows => some fun place _ => rows[place]?.map (.table .header)
  | .datetime _ => some fun _ _ => none
  | _ => none

/-- The values of a section that may be left out. -/
def sectionSlots? (entries : Entries) (key : String) : Option (Nat → String → Option Value) :=
  match entries.get? key with
  | none => some fun _ _ => none
  | some value => slots? value

/-- A value that may be left out, read by `f`. -/
def optional {α : Type} (f : Value → Option α) : Option Value → Option (Option α)
  | none => some none
  | some value => (f value).map some

/-- The settings of a document, unless a known key has a wrong value. Other keys are ignored. -/
def ofEntries? (entries : Entries) : Option Settings := do
  let detect ← sectionSlots? entries "detect"
  let output ← sectionSlots? entries "output"
  some
    { strategy := ← optional named? (detect 0 "strategy")
      dialect := ← optional named? (detect 1 "dialect")
      plainTree := ← optional named? (output 0 "plain_tree")
      offsets := ← optional named? (output 1 "offsets")
      pretty := ← optional bool? (output 2 "pretty") }

def ofBytes? (bytes : List UInt8) : Option Settings := do
  ofEntries? (← Toml.parse? (← Text.decode? bytes))

/-- The settings of a file that may be missing; none are set if it is or has a fault. -/
def ofFile (bytes : Option (List UInt8)) : Settings :=
  (bytes.bind ofBytes?).getD {}

end ScriptTree.Settings
