import Mathlib.Algebra.GroupWithZero.Nat
import Mathlib.Data.List.Nodup
import Mathlib.Data.List.Pairwise
import Mathlib.Tactic.SplitIfs
import ScriptTree.Proofs.Command.Line

/-! The order of the items of a command line does not matter, and what may be given once is not taken
twice. -/
namespace ScriptTree.Arguments

theorem holds_put (a : Arguments) (i : Item) (k : Slot ⊕ Flag) :
    (a.put i).holds k = (a.holds k || decide (i.key? = some k)) := by
  cases i <;> rcases k with k | k <;> cases k <;> simp [holds, put, Item.key?, Item.value?]

theorem put_right_comm {i j : Item} (h : ∀ k, i.key? = some k → ∀ l, j.key? = some l → k ≠ l)
    (a : Arguments) : (a.put i).put j = (a.put j).put i := by
  cases i <;> cases j
  case verbose.verbose m n => rw [put_verbose_verbose, put_verbose_verbose, Nat.add_comm]
  case file.file | dialect.dialect | plainTree.plainTree | offsets.offsets | config.config | fallback.fallback |
      pretty.pretty =>
    exact absurd rfl (h _ rfl _ rfl)
  all_goals rfl

/-- Items can be added if no two of them are for the same and none is for what is there already. -/
theorem foldlM_add_eq (items : List Item) (a : Arguments) :
    items.foldlM add a =
      if (items.filterMap Item.key?).Nodup ∧ ∀ k ∈ items.filterMap Item.key?, a.holds k = false
      then .ok (items.foldl put a) else .error .argumentConflict := by
  induction items generalizing a with
  | nil => rfl
  | cons i items ih =>
    rw [List.foldlM_cons]
    cases hkey : i.key? with
    | none =>
      have hadd : a.add i = .ok (a.put i) := by simp [add, hkey]
      have hholds : (a.put i).holds = a.holds := by
        funext k
        simp [holds_put, hkey]
      rw [hadd, List.filterMap_cons_none hkey, ← hholds]
      exact ih (a.put i)
    | some k =>
      rw [List.filterMap_cons_some hkey]
      cases hk : a.holds k with
      | true =>
        have hadd : a.add i = .error .argumentConflict := by simp [add, hkey, hk]
        rw [hadd, if_neg]
        · rfl
        · simp [hk]
      | false =>
        have hadd : a.add i = .ok (a.put i) := by simp [add, hkey, hk]
        have hfit : ((items.filterMap Item.key?).Nodup ∧
              ∀ l ∈ items.filterMap Item.key?, (a.put i).holds l = false) ↔
            (k :: items.filterMap Item.key?).Nodup ∧
              ∀ l ∈ k :: items.filterMap Item.key?, a.holds l = false := by
          simp only [holds_put, hkey, List.nodup_cons, List.forall_mem_cons, hk]
          grind
        rw [hadd]
        exact (ih (a.put i)).trans (by simp only [hfit, List.foldl_cons])

theorem foldl_put_perm {l₁ l₂ : List Item} (h : l₁.Perm l₂) (hkeys : (l₁.filterMap Item.key?).Nodup)
    (a : Arguments) : l₁.foldl put a = l₂.foldl put a := by
  let Free (i j : Item) : Prop := ∀ a : Arguments, (a.put i).put j = (a.put j).put i
  have : Std.Symm Free := ⟨fun _ _ h a => (h a).symm⟩
  have hpair : l₁.Pairwise Free := (List.pairwise_filterMap.mp hkeys).imp put_right_comm
  have hfree : ∀ i ∈ l₁, ∀ j ∈ l₁, Free i j := fun i hi j hj =>
    hpair.forall_of_forall (fun _ _ _ => rfl) hi hj
  exact h.foldl_eq' hfree a

/-- The order of items matters neither for what they give nor for whether they can be added. -/
theorem foldlM_add_perm {l₁ l₂ : List Item} (h : l₁.Perm l₂) (a : Arguments) :
    l₁.foldlM add a = l₂.foldlM add a := by
  have hkeys := h.filterMap Item.key?
  rw [foldlM_add_eq, foldlM_add_eq]
  simp only [hkeys.nodup_iff, hkeys.mem_iff]
  split_ifs with hfit
  · rw [foldl_put_perm h (hkeys.nodup_iff.mpr hfit.1)]
  · rfl

section Lines

variable {items : List Item} {argv : List String}

theorem countP_isFile_le_one (hkeys : (items.filterMap Item.key?).Nodup) : items.countP Item.isFile ≤ 1 := by
  let : BEq (Slot ⊕ Flag) := instBEqOfDecidableEq
  have hfile : Item.isFile = fun i => (i.key?.map (· == .inl .file)).getD false := by
    funext i
    cases i <;> rfl
  rw [hfile, ← List.countP_filterMap]
  exact List.nodup_iff_count_le_one.mp hkeys _

/-- A line is read as its items if they can be added. -/
theorem parse_line_of_add {a : Arguments} (h : Line items argv) (hadd : items.foldlM add {} = .ok a) :
    parse argv = .ok a := by
  have hkeys : (items.filterMap Item.key?).Nodup := by
    rw [foldlM_add_eq] at hadd
    split_ifs at hadd with hfit
    exact hfit.1
  rw [parse_line h (countP_isFile_le_one hkeys), hadd]

theorem parse_line_of_not_nodup (h : Line items argv) (hkeys : ¬(items.filterMap Item.key?).Nodup) :
    ∃ e, parse argv = .error e ∧ (items.countP Item.isFile ≤ 1 → e = .argumentConflict) := by
  by_cases hfiles : items.countP Item.isFile ≤ 1
  · refine ⟨.argumentConflict, ?_, fun _ => rfl⟩
    rw [parse_line h hfiles, foldlM_add_eq, if_neg (fun hfit => hkeys hfit.1)]
  · obtain ⟨e, he⟩ := parse_line_of_two_files h (Nat.lt_of_not_le hfiles)
    exact ⟨e, he, fun hle => absurd hle hfiles⟩

end Lines

/-- What can be asked of the command: each thing once at most, and verbosity as often as wanted. -/
structure Invocation where
  file : Option FileName := none
  dialect : Option DialectChoice := none
  fallback : Bool := false
  plainTree : Option Shape := none
  offsets : Option OffsetUnit := none
  pretty : Bool := false
  config : Option ConfigPath := none
  /-- How many verbosity flags there are. -/
  verbosity : Nat := 0

namespace Invocation

def arguments (v : Invocation) : Arguments where
  file := v.file.map FileName.text
  dialect := v.dialect
  fallback := v.fallback
  plainTree := v.plainTree
  offsets := v.offsets
  pretty := v.pretty
  config := v.config.map ConfigPath.text
  verbose := min v.verbosity maxVerbose

/-- The items that are given once. -/
def items (v : Invocation) : List Item :=
  [v.file.map .file, v.dialect.map .dialect, if v.fallback then some .fallback else none,
    v.plainTree.map .plainTree, v.offsets.map .offsets, if v.pretty then some .pretty else none,
    v.config.map .config].filterMap id

/-- Whether items are all that is asked for and nothing else, in any order. Verbosity flags may be grouped. -/
def Listed (v : Invocation) (items : List Item) : Prop :=
  ∃ counts : List Nat, counts.sum = v.verbosity ∧ items.Perm (v.items ++ counts.map .verbose)

theorem foldlM_items (v : Invocation) :
    v.items.foldlM add {} = .ok { v.arguments with verbose := 0 } := by
  -- Each item is there or not, and with all others fixed the reading can be computed.
  obtain ⟨_ | _, _ | _, _ | _, _ | _, _ | _, _ | _, _ | _, _⟩ := v <;> rfl

theorem foldlM_verbose (counts : List Nat) {a : Arguments} (ha : a.verbose ≤ maxVerbose) :
    (counts.map Item.verbose).foldlM add a = .ok (a.put (.verbose counts.sum)) := by
  induction counts generalizing a with
  | nil =>
    have h : min (a.verbose + 0) maxVerbose = a.verbose := Nat.min_eq_left ha
    simp only [put, List.sum_nil, h]
    rfl
  | cons n counts ih =>
    have h := ih (a := a.put (.verbose n)) (Nat.min_le_right ..)
    rw [put_verbose_verbose] at h
    exact h

theorem foldlM_of_listed {v : Invocation} {items : List Item} (h : v.Listed items) :
    items.foldlM add {} = .ok v.arguments := by
  obtain ⟨counts, hsum, hperm⟩ := h
  have hput : { v.arguments with verbose := 0 }.put (.verbose v.verbosity) = v.arguments := by
    simp only [put, Nat.zero_add]
    rfl
  rw [foldlM_add_perm hperm, List.foldlM_append, foldlM_items, ← hput, ← hsum]
  exact foldlM_verbose counts (Nat.zero_le _)

end Invocation

/-- Items are read in any order and spelling, but none twice that may be given once. -/
theorem parse_in_any_order {items : List Item} {argv : List String} (hline : Line items argv) :
    (∀ v : Invocation, v.Listed items →
      parse argv = .ok v.arguments ∧ v.arguments.verbose = min v.verbosity 255 ∧
        (v.arguments.input? = none ↔ ∀ name ∈ v.file, name.text = "-") ∧
        v.arguments.settings =
          { strategy := if v.fallback then some .fallback else none
            dialect := v.dialect
            plainTree := v.plainTree
            offsets := v.offsets
            pretty := if v.pretty then some true else none }) ∧
      (¬(items.filterMap Item.key?).Nodup →
        ∃ e, parse argv = .error e ∧ (items.countP Item.isFile ≤ 1 → e = .argumentConflict)) := by
  refine ⟨fun v hlisted => ⟨?_, rfl, ?_, rfl⟩, parse_line_of_not_nodup hline⟩
  · exact parse_line_of_add hline (Invocation.foldlM_of_listed hlisted)
  · simp [input?, Invocation.arguments, Option.filter_eq_none_iff]

/-- Verbosity is split up, one option has its value behind an equals sign and another as an argument of its
own, and the file stands between them. A flag that comes a second time is refused. -/
theorem appRun_in_any_order :
    parse ["-vv", "--offsets=utf8", "app.ts", "--pretty", "--config", "c.toml", "--verbose"] =
        .ok
          { file := some "app.ts", offsets := some .utf8, pretty := true, config := some "c.toml"
            verbose := 3 } ∧
      parse ["--pretty", "-v", "--pretty"] = .error .argumentConflict := by
  let name : FileName := ⟨"app.ts", by decide, by decide⟩
  let path : ConfigPath := ⟨"c.toml", by decide, by decide⟩
  have hmixed := Line.cons (.letters 1) <| .cons (.joined (i := .offsets .utf8) rfl rfl) <|
    .cons (.file name) <| .cons (.flag (i := .pretty) rfl) <| .cons (.separate (i := .config path) rfl rfl) <|
    .cons (.flag (i := .verbose 1) rfl) .nil
  have htwice := Line.cons (.flag (i := .pretty) rfl) <| .cons (.letters 0) <|
    .cons (.flag (i := .pretty) rfl) .nil
  have hread := (parse_in_any_order hmixed).1
    { file := some name, offsets := some .utf8, pretty := true, config := some path, verbosity := 3 }
    ⟨[2, 1], rfl, by decide⟩
  obtain ⟨e, he, hconflict⟩ := (parse_in_any_order htwice).2 (by decide)
  rw [hconflict (by decide)] at he
  exact ⟨hread.1, he⟩

end ScriptTree.Arguments
