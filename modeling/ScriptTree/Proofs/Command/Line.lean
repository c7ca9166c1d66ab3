import Mathlib.Data.List.TakeWhile
import ScriptTree.Command.Arguments
import ScriptTree.Proofs.Settings.Words

/-! Command lines that are put together from items, each written in one of several ways. They are read item by
item: what the reader holds back is set in the end as if it had been set at once. -/
namespace ScriptTree.Arguments

/-- The name of an input file as it can be given: a dash, or a name that does not begin with one. -/
structure FileName where
  text : String
  nonempty : text ≠ ""
  notOption : text = "-" ∨ text.toList.head? ≠ some '-'
  deriving DecidableEq

/-- The path of a settings file as it can be given. -/
structure ConfigPath where
  text : String
  nonempty : text ≠ ""
  notOption : text.toList.head? ≠ some '-'
  deriving DecidableEq

/-- One thing that a command line says. -/
inductive Item where
  | file (name : FileName)
  | dialect (choice : DialectChoice)
  | plainTree (shape : Shape)
  | offsets (unit : OffsetUnit)
  | config (path : ConfigPath)
  | fallback
  | pretty
  /-- Verbosity flags, as many of them. -/
  | verbose (count : Nat)
  deriving DecidableEq

/-- The name of the option for a value. -/
def Slot.optionName? : Slot → Option String
  | .file => none
  | .dialect => some "dialect"
  | .plainTree => some "plain-tree"
  | .offsets => some "offsets"
  | .config => some "config"

namespace Item

/-- The value that an item gives, and for what. -/
def value? : Item → Option (Slot × String)
  | .file name => some (.file, name.text)
  | .dialect choice => some (.dialect, Setting.dialect.word choice)
  | .plainTree shape => some (.plainTree, Setting.plainTree.word shape)
  | .offsets unit => some (.offsets, Setting.offsets.word unit)
  | .config path => some (.config, path.text)
  | _ => none

/-- What an item is for, if that may be given only once. -/
def key? : Item → Option (Slot ⊕ Flag)
  | .fallback => some (.inr .fallback)
  | .pretty => some (.inr .pretty)
  | .verbose _ => none
  | i => i.value?.map fun v => .inl v.1

/-- The name of the flag for an item that is one flag. -/
def flagName? : Item → Option String
  | .fallback => some "fallback"
  | .pretty => some "pretty"
  | .verbose 1 => some "verbose"
  | _ => none

def isFile : Item → Bool
  | .file _ => true
  | _ => false

/-- The ways to write an item. An option has its value behind it or behind an equals sign, and verbosity is
written out or as a row of letters. -/
inductive Written : Item → List String → Prop
  | file (name : FileName) : Written (.file name) [name.text]
  | separate {i : Item} {slot : Slot} {name value : String} (hvalue : i.value? = some (slot, value))
      (hname : slot.optionName? = some name) : Written i ["--" ++ name, value]
  | joined {i : Item} {slot : Slot} {name value : String} (hvalue : i.value? = some (slot, value))
      (hname : slot.optionName? = some name) : Written i ["--" ++ name ++ "=" ++ value]
  | flag {i : Item} {name : String} (hname : i.flagName? = some name) : Written i ["--" ++ name]
  | letters (n : Nat) : Written (.verbose (n + 1)) [String.ofList ('-' :: List.replicate (n + 1) 'v')]

end Item

/-- Whether the arguments are the given items one after the other. -/
inductive Line : List Item → List String → Prop
  | nil : Line [] []
  | cons {i : Item} {words argv : List String} {items : List Item} (h : i.Written words)
      (hrest : Line items argv) : Line (i :: items) (words ++ argv)

/-- Whether something has been given. -/
def holds (a : Arguments) : Slot ⊕ Flag → Bool
  | .inl .file => a.file.isSome
  | .inl .dialect => a.dialect.isSome
  | .inl .plainTree => a.plainTree.isSome
  | .inl .offsets => a.offsets.isSome
  | .inl .config => a.config.isSome
  | .inr .fallback => a.fallback
  | .inr .pretty => a.pretty
  | .inr _ => false

/-- The arguments with an item put in, whether or not its place is free. -/
def put (a : Arguments) : Item → Arguments
  | .file name => { a with file := some name.text }
  | .dialect choice => { a with dialect := some choice }
  | .plainTree shape => { a with plainTree := some shape }
  | .offsets unit => { a with offsets := some unit }
  | .config path => { a with config := some path.text }
  | .fallback => { a with fallback := true }
  | .pretty => { a with pretty := true }
  | .verbose count => { a with verbose := min (a.verbose + count) maxVerbose }

/-- The arguments with one more item. What may be given once must not be there yet. -/
def add (a : Arguments) (i : Item) : Except ArgumentError Arguments :=
  if i.key?.any a.holds then .error .argumentConflict else .ok (a.put i)

section Words

variable {slot : Slot} {name value : String}

theorem option?_of_name (h : slot.optionName? = some name) :
    option? name = some (.inl slot) ∧ name ≠ "" ∧ '=' ∉ name.toList := by
  cases slot with
  | file => contradiction
  | _ =>
    obtain rfl := Option.some.inj h
    decide

theorem once_bind {α β : Type} (o : Option α) (x : Except ArgumentError β) :
    (once o >>= fun _ => x) = if o.isSome then .error .argumentConflict else x := by
  cases o <;> rfl

/-- The value of an item is right, so that only its being the first one counts. -/
theorem set_of_value? {i : Item} (h : i.value? = some (slot, value)) (a : Arguments) :
    a.set value slot = a.add i := by
  obtain ⟨-, hdialect, hshape, hoffsets⟩ := Setting.word_read
  cases i <;> cases h <;> simp only [set, once_bind]
  case file name =>
    rw [nonempty?, if_neg name.nonempty]
    rfl
  case config path =>
    rw [nonempty?, if_neg path.nonempty]
    rfl
  case dialect choice =>
    rw [(hdialect _ choice).2 rfl]
    rfl
  case plainTree shape =>
    rw [(hshape _ shape).2 rfl]
    rfl
  case offsets unit =>
    rw [(hoffsets _ unit).2 rfl]
    rfl

theorem head?_value {i : Item} (h : i.value? = some (slot, value)) (hname : slot.optionName? = some name) :
    value.toList.head? ≠ some '-' := by
  cases i <;> cases h
  case file => contradiction
  case config path => exact path.notOption
  case dialect choice => obtain _ | (_ | _) := choice <;> decide
  case plainTree shape => cases shape <;> decide
  case offsets unit => cases unit <;> decide

variable {r : Reader} (hr : r.filesOnly = false)

include hr

theorem read_plain {arg : String} (h : arg = "-" ∨ arg.toList.head? ≠ some '-') :
    r.read arg = r.readPlain arg := by
  obtain rfl | h := h
  · simp [Reader.read, hr]
  · cases harg : arg.toList with
    | nil => simp [Reader.read, hr, harg]
    | cons c cs =>
      have hc : c ≠ '-' := by simpa [harg] using h
      simp [Reader.read, hr, harg, hc]

theorem read_dashes {arg : String} {long : List Char} (harg : arg.toList = '-' :: '-' :: long)
    (hne : long ≠ []) :
    r.read arg =
      match long.dropWhile (· ≠ '=') with
      | [] => r.readLong (String.ofList (long.takeWhile (· ≠ '='))) none
      | _ :: value => r.readLong (String.ofList (long.takeWhile (· ≠ '='))) (some (String.ofList value)) := by
  obtain ⟨c, cs, rfl⟩ := List.exists_cons_of_ne_nil hne
  unfold Reader.read
  rw [hr, harg]
  rfl

theorem read_long (hne : name ≠ "") (h : '=' ∉ name.toList) :
    r.read ("--" ++ name) = r.readLong name none := by
  have hname : ∀ c ∈ name.toList, decide (c ≠ '=') = true := by grind
  have harg : ("--" ++ name).toList = '-' :: '-' :: name.toList := by simp
  rw [read_dashes hr harg (mt String.toList_eq_nil_iff.mp hne), List.dropWhile_eq_nil_iff.mpr hname,
    List.takeWhile_eq_self_iff.mpr hname, String.ofList_toList]

theorem read_joined (h : '=' ∉ name.toList) :
    r.read ("--" ++ name ++ "=" ++ value) = r.readLong name (some value) := by
  have hname : ∀ c ∈ name.toList, decide (c ≠ '=') = true := by grind
  have harg : ("--" ++ name ++ "=" ++ value).toList = '-' :: '-' :: (name.toList ++ '=' :: value.toList) := by
    simp
  rw [read_dashes hr harg (by simp), List.dropWhile_append_of_pos hname, List.takeWhile_append_of_pos hname]
  simp

theorem read_letters (n : Nat) :
    r.read (String.ofList ('-' :: List.replicate (n + 1) 'v')) =
      r.readLetters (List.replicate (n + 1) 'v') := by
  simp [Reader.read, hr, List.replicate_succ]

end Words

theorem put_verbose_verbose (a : Arguments) (m n : Nat) :
    (a.put (.verbose m)).put (.verbose n) = a.put (.verbose (m + n)) := by
  have h : min (min (a.verbose + m) maxVerbose + n) maxVerbose = min (a.verbose + (m + n)) maxVerbose := by
    omega
  simp only [put, h]

namespace Reader

/-- Whether the reader is between two items. -/
structure Ready (r : Reader) : Prop where
  filesOnly : r.filesOnly = false
  complete : ∀ slot, r.pending ≠ some (slot, none)

/-- What a reader may become by an item: one that has it set or held back, or the error of adding it. -/
def Took (r : Reader) (i : Item) : Except ArgumentError Reader → Prop
  | .error e => (r.resolve >>= fun a => a.add i) = .error e
  | .ok s => s.Ready ∧ s.hasFile = (r.hasFile || i.isFile) ∧ s.resolve = r.resolve >>= fun a => a.add i

/-- The reader with an item set. -/
def settle (r : Reader) (i : Item) : Except ArgumentError Reader := do
  let a ← r.resolve
  return { r with done := ← a.add i, pending := none }

/-- The reader with an item for the next argument to set. -/
def holdBack (r : Reader) (i : Item) (given : Slot × String) : Except ArgumentError Reader := do
  return { r with
    done := ← r.resolve
    pending := some (given.1, some given.2)
    hasFile := r.hasFile || i.isFile }

variable {r : Reader} {i : Item} {words : List String}

theorem took_settle (hr : r.Ready) (hi : i.isFile = false) : r.Took i (r.settle i) := by
  have h : r.settle i =
      (r.resolve >>= fun a => a.add i) >>= fun b => pure { r with done := b, pending := none } :=
    (bind_assoc _ _ _).symm
  rw [h]
  cases hb : r.resolve >>= fun a => a.add i with
  | error e => exact hb
  | ok b => exact ⟨⟨hr.filesOnly, nofun⟩, by rw [hi, Bool.or_false], hb.symm⟩

theorem took_holdBack (hr : r.Ready) {given : Slot × String} (hi : i.value? = some given) :
    r.Took i (r.holdBack i given) := by
  unfold holdBack
  cases ha : r.resolve with
  | error e =>
    change (r.resolve >>= fun a => a.add i) = .error e
    rw [ha]
    rfl
  | ok a =>
    refine ⟨⟨hr.filesOnly, fun _ => by simp⟩, rfl, ?_⟩
    rw [ha]
    exact set_of_value? hi a

theorem settle_verbose_settle_verbose (r : Reader) (m n : Nat) :
    (r.settle (.verbose m) >>= fun s => s.settle (.verbose n)) = r.settle (.verbose (m + n)) := by
  unfold settle
  cases r.resolve with
  | error e => rfl
  | ok a =>
    change Except.ok { r with done := (a.put (.verbose m)).put (.verbose n), pending := none } =
      Except.ok { r with done := a.put (.verbose (m + n)), pending := none }
    rw [put_verbose_verbose]

/-- A row of letters is one item, although its letters are set one by one. -/
theorem readLetters_eq_settle (r : Reader) (n : Nat) :
    r.readLetters (List.replicate (n + 1) 'v') = r.settle (.verbose (n + 1)) := by
  induction n generalizing r with
  | zero => exact bind_pure (r.settle (.verbose 1))
  | succ n ih =>
    calc r.readLetters (List.replicate (n + 1 + 1) 'v')
        = (r.settle (.verbose 1) >>= fun s => s.readLetters (List.replicate (n + 1) 'v')) := rfl
      _ = r.settle (.verbose (1 + (n + 1))) := by simp only [ih, settle_verbose_settle_verbose]
      _ = r.settle (.verbose (n + 1 + 1)) := by rw [Nat.add_comm 1]

theorem foldlM_read_singleton (r : Reader) (arg : String) : [arg].foldlM Reader.read r = r.read arg := by
  rw [List.foldlM_cons]
  exact bind_pure _

theorem read_file (hr : r.Ready) (name : FileName) :
    r.read name.text =
      if r.hasFile then .error .unknownArgument else r.holdBack (.file name) (.file, name.text) := by
  have hplain : r.readPlain name.text = r.readFile name.text := by
    unfold readPlain
    split
    · exact absurd ‹_› (hr.complete _)
    · rfl
  rw [read_plain hr.filesOnly name.notOption, hplain, readFile, holdBack, Item.isFile, Bool.or_true]

section Option

variable {slot : Slot} {name value : String}

theorem isFile_of_value? (hvalue : i.value? = some (slot, value)) (hname : slot.optionName? = some name) :
    i.isFile = false := by
  cases i with
  | file => cases hvalue; contradiction
  | _ => rfl

theorem foldlM_separate (hr : r.Ready) (hvalue : i.value? = some (slot, value))
    (hname : slot.optionName? = some name) :
    ["--" ++ name, value].foldlM Reader.read r = r.holdBack i (slot, value) := by
  obtain ⟨hoption, hne, heq⟩ := option?_of_name hname
  rw [List.foldlM_cons, read_long hr.filesOnly hne heq]
  simp only [foldlM_read_singleton, readLong, hoption, holdBack, isFile_of_value? hvalue hname, Bool.or_false]
  cases r.resolve with
  | error e => rfl
  | ok a =>
    exact read_plain (r := { r with done := a, pending := some (slot, none) }) hr.filesOnly
      (.inr (head?_value hvalue hname))

theorem read_joined_eq_settle (hr : r.Ready) (hvalue : i.value? = some (slot, value))
    (hname : slot.optionName? = some name) :
    r.read ("--" ++ name ++ "=" ++ value) = r.settle i := by
  obtain ⟨hoption, -, heq⟩ := option?_of_name hname
  simp only [read_joined hr.filesOnly heq, readLong, hoption, set_of_value? hvalue, settle]

end Option

theorem read_flag_eq_settle (hr : r.Ready) {name : String} (hname : i.flagName? = some name) :
    r.read ("--" ++ name) = r.settle i := by
  unfold Item.flagName? at hname
  split at hname <;> cases hname
  all_goals exact read_long hr.filesOnly (by decide) (by decide)

theorem words_of_file {name : FileName} (h : (Item.file name).Written words) : words = [name.text] := by
  cases h with
  | file => rfl
  | separate hvalue hname => cases hvalue; cases hname
  | joined hvalue hname => cases hvalue; cases hname
  | flag hname => cases hname

/-- Reading an item adds it. -/
theorem took_written (h : i.Written words) (hr : r.Ready) (hfile : i.isFile → r.hasFile = false) :
    r.Took i (words.foldlM Reader.read r) := by
  cases h with
  | file name =>
    rw [foldlM_read_singleton, read_file hr, hfile rfl]
    exact took_holdBack hr rfl
  | separate hvalue hname =>
    rw [foldlM_separate hr hvalue hname]
    exact took_holdBack hr hvalue
  | joined hvalue hname =>
    rw [foldlM_read_singleton, read_joined_eq_settle hr hvalue hname]
    exact took_settle hr (isFile_of_value? hvalue hname)
  | flag hname =>
    have hi : i.isFile = false := by
      cases i with
      | file => cases hname
      | _ => rfl
    rw [foldlM_read_singleton, read_flag_eq_settle hr hname]
    exact took_settle hr hi
  | letters n =>
    rw [foldlM_read_singleton, read_letters hr.filesOnly, readLetters_eq_settle]
    exact took_settle hr rfl

variable {items : List Item} {argv : List String}

theorem toNat_or_add_countP {seen : Bool} (h : i.isFile → seen = false) :
    (seen || i.isFile).toNat + items.countP Item.isFile = seen.toNat + (i :: items).countP Item.isFile := by
  cases hi : i.isFile with
  | false => simp [hi]
  | true => simp [hi, h hi, Nat.add_comm]

/-- A line with one file at most is read item by item. -/
theorem foldlM_line (h : Line items argv) (hr : r.Ready)
    (hfiles : r.hasFile.toNat + items.countP Item.isFile ≤ 1) :
    (argv.foldlM Reader.read r >>= resolve) = r.resolve >>= fun a => items.foldlM add a := by
  induction h generalizing r with
  | nil => exact (bind_pure r.resolve).symm
  | @cons i words argv items hi _ ih =>
    have hfile : i.isFile → r.hasFile = false := by
      intro hi
      rw [List.countP_cons_of_pos hi] at hfiles
      exact Bool.toNat_eq_zero.mp (by omega)
    have htook := took_written hi hr hfile
    simp only [List.foldlM_append, List.foldlM_cons, bind_assoc]
    rw [← bind_assoc r.resolve]
    cases hs : words.foldlM Reader.read r with
    | error e =>
      have hadd : (r.resolve >>= fun a => a.add i) = .error e := by rwa [hs] at htook
      rw [hadd]
      rfl
    | ok s =>
      rw [hs] at htook
      obtain ⟨hready, hhas, hadd⟩ := htook
      rw [← hadd]
      refine ih hready ?_
      rwa [hhas, toNat_or_add_countP hfile]

/-- A second file is not taken, whatever stands between the two. -/
theorem foldlM_line_of_two_files (h : Line items argv) (hr : r.Ready)
    (hfiles : 1 < r.hasFile.toNat + items.countP Item.isFile) :
    ∃ e, argv.foldlM Reader.read r = .error e := by
  induction h generalizing r with
  | nil => exact absurd hfiles (Nat.not_lt.mpr (Bool.toNat_le r.hasFile))
  | @cons i words argv items hi _ ih =>
    rw [List.foldlM_append]
    by_cases hsecond : i.isFile ∧ r.hasFile
    · obtain ⟨hfile, hhas⟩ := hsecond
      cases i with
      | file name =>
        rw [words_of_file hi, foldlM_read_singleton, read_file hr, hhas]
        exact ⟨_, rfl⟩
      | _ => contradiction
    · have hfile : i.isFile → r.hasFile = false := by grind
      have htook := took_written hi hr hfile
      cases hs : words.foldlM Reader.read r with
      | error e => exact ⟨e, rfl⟩
      | ok s =>
        rw [hs] at htook
        obtain ⟨hready, hhas, -⟩ := htook
        refine ih hready ?_
        rwa [hhas, toNat_or_add_countP hfile]

end Reader

variable {items : List Item} {argv : List String}

theorem parse_line (h : Line items argv) (hfiles : items.countP Item.isFile ≤ 1) :
    parse argv = items.foldlM add {} :=
  Reader.foldlM_line h ⟨rfl, nofun⟩ (by simpa using hfiles)

theorem parse_line_of_two_files (h : Line items argv) (hfiles : 1 < items.countP Item.isFile) :
    ∃ e, parse argv = .error e := by
  obtain ⟨e, he⟩ := Reader.foldlM_line_of_two_files (r := {}) h ⟨rfl, nofun⟩ (by simpa using hfiles)
  exact ⟨e, by rw [parse, he]; rfl⟩

end ScriptTree.Arguments
