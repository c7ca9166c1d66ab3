import Mathlib.Data.Prod.Lex
import Mathlib.Tactic.SplitIfs
import ScriptTree.Proofs.Text.Boundary
import ScriptTree.Syntax.Check

/-! The line and the column of a fault denote one place of the source. Each further character moves the end of a
text to a later line, or to a later column of the same line. -/
namespace ScriptTree

/-- The line and the column that a failure reports. -/
def Failure.place? : Failure → Option (Nat ×ₗ Nat)
  | .fault line column _ => some (toLex (line, column))
  | .engine _ => none

namespace Text

/-- Whether a text ends in the given line and column, both counted from one: it has so many line breaks, and so
many characters behind the last of them, or behind its beginning if it has none. -/
def EndsAt (s : List Char) (line column : Nat) : Prop :=
  ∃ lines rest, s = lines ++ rest ∧ (lines = [] ∨ lines.getLast? = some '\n') ∧ '\n' ∉ rest ∧
    s.count '\n' + 1 = line ∧ rest.length + 1 = column

/-- The line and the column in which a text ends. -/
def endPlace (s : List Char) : Nat ×ₗ Nat :=
  toLex (s.count '\n' + 1, (Tree.lastLine s).length + 1)

theorem lastLine_snoc (s : List Char) (c : Char) :
    Tree.lastLine (s ++ [c]) = if c = '\n' then [] else Tree.lastLine s ++ [c] := by
  unfold Tree.lastLine
  rw [List.reverse_append, List.reverse_singleton, List.singleton_append]
  split_ifs with hc
  · rw [List.takeWhile_cons_of_neg (by simpa using hc), List.reverse_nil]
  · rw [List.takeWhile_cons_of_pos (by simpa using hc), List.reverse_cons]

theorem lastLine_append {lines rest : List Char} (hlines : lines = [] ∨ lines.getLast? = some '\n')
    (hrest : '\n' ∉ rest) : Tree.lastLine (lines ++ rest) = rest := by
  have hall : ∀ c ∈ rest.reverse, decide (c ≠ '\n') = true := by
    intro c hc
    have hne : c ≠ '\n' := by
      rintro rfl
      exact hrest (List.mem_reverse.1 hc)
    exact decide_eq_true hne
  have hstop : lines.reverse.takeWhile (· ≠ '\n') = [] := by
    rcases hlines with rfl | hlast
    · rfl
    · rw [← List.head?_reverse] at hlast
      obtain ⟨t, ht⟩ := List.head?_eq_some_iff.1 hlast
      rw [ht, List.takeWhile_cons_of_neg (by simp)]
  rw [Tree.lastLine, List.reverse_append, List.takeWhile_append_of_pos hall, hstop, List.append_nil,
    List.reverse_reverse]

/-- The last line is what stands behind the last line break. -/
theorem exists_append_lastLine (s : List Char) :
    ∃ lines, s = lines ++ Tree.lastLine s ∧ (lines = [] ∨ lines.getLast? = some '\n') ∧
      '\n' ∉ Tree.lastLine s := by
  induction s using List.reverseRecOn with
  | nil => exact ⟨[], rfl, Or.inl rfl, List.not_mem_nil⟩
  | append_singleton s c ih =>
    obtain ⟨lines, hs, hlines, hrest⟩ := ih
    rw [lastLine_snoc]
    split_ifs with hc
    · subst hc
      exact ⟨s ++ ['\n'], (List.append_nil _).symm, Or.inr List.getLast?_concat, List.not_mem_nil⟩
    · refine ⟨lines, ?_, hlines, ?_⟩
      · rw [← List.append_assoc, ← hs]
      · simpa [hrest] using Ne.symm hc

theorem endsAt_iff {s : List Char} {line column : Nat} :
    EndsAt s line column ↔ endPlace s = toLex (line, column) := by
  rw [endPlace, toLex_inj, Prod.mk.injEq]
  constructor
  · rintro ⟨lines, rest, hs, hlines, hrest, hline, hcolumn⟩
    have hlast : Tree.lastLine s = rest := by rw [hs, lastLine_append hlines hrest]
    rw [hlast]
    exact ⟨hline, hcolumn⟩
  · rintro ⟨hline, hcolumn⟩
    obtain ⟨lines, hs, hlines, hrest⟩ := exists_append_lastLine s
    exact ⟨lines, Tree.lastLine s, hs, hlines, hrest, hline, hcolumn⟩

theorem endPlace_lt_snoc (s : List Char) (c : Char) : endPlace s < endPlace (s ++ [c]) := by
  rw [endPlace, endPlace, Prod.Lex.toLex_lt_toLex, lastLine_snoc]
  split_ifs with hc
  · left
    simp [hc]
  · right
    simp [hc]

theorem endPlace_le_append (p m : List Char) : endPlace p ≤ endPlace (p ++ m) := by
  induction m using List.reverseRecOn with
  | nil => rw [List.append_nil]
  | append_singleton m c ih =>
    rw [← List.append_assoc]
    exact ih.trans (endPlace_lt_snoc (p ++ m) c).le

theorem endPlace_lt_append (p : List Char) {m : List Char} (hm : m ≠ []) :
    endPlace p < endPlace (p ++ m) := by
  obtain ⟨c, m, rfl⟩ := List.exists_cons_of_ne_nil hm
  have hrest := endPlace_le_append (p ++ [c]) m
  rw [List.append_assoc, List.singleton_append] at hrest
  exact (endPlace_lt_snoc p c).trans_le hrest

section Beginnings

variable {s p r : List Char} (hp : p <+: s) (hr : r <+: s)

include hp hr

/-- Of two places in a text the later one is in a later line, or in a later column of the same one. -/
theorem endPlace_lt_of_byteLength_lt (h : byteLength p < byteLength r) :
    endPlace p < endPlace r := by
  rcases List.prefix_or_prefix_of_prefix hp hr with ⟨m, rfl⟩ | ⟨m, rfl⟩
  · have hm : m ≠ [] := by
      rintro rfl
      simp at h
    exact endPlace_lt_append p hm
  · rw [byteLength_append] at h
    omega

/-- Only one place in a text is in a given line and column. -/
theorem byteLength_eq_of_endPlace_eq (h : endPlace p = endPlace r) : byteLength p = byteLength r := by
  rcases Nat.lt_trichotomy (byteLength p) (byteLength r) with hlt | heq | hlt
  · exact absurd h (endPlace_lt_of_byteLength_lt hp hr hlt).ne
  · exact heq
  · exact absurd h.symm (endPlace_lt_of_byteLength_lt hr hp hlt).ne

end Beginnings

end Text

namespace Tree

theorem lineBreaksBefore_append (p q : List Char) :
    lineBreaksBefore (Text.byteLength p) (p ++ q) = p.count '\n' := by
  induction p with
  | nil => cases q <;> rfl
  | cons c p ih =>
    obtain ⟨n, hlen, -, hsub⟩ := Text.byteLength_cons c p
    rw [hlen, List.cons_append, lineBreaksBefore, hsub, ih, List.count_cons, Nat.add_comm]
    simp only [beq_iff_eq]

theorem before?_append (p q : List Char) : before? (p ++ q) (Text.byteLength p) = some p := by
  have hmin : min (Text.byteLength p) (Text.byteLength (p ++ q)) = Text.byteLength p := by simp
  rw [before?, hmin, Text.takeBytes?_append]

/-- At a boundary a fault is reported in the line and column in which the text before it ends. -/
theorem place?_faultAt {source p : List Char} (hp : p <+: source) {info : NodeInfo}
    (hstart : Text.byteLength p = info.start) :
    (faultAt source info).place? = some (Text.endPlace p) := by
  obtain ⟨q, rfl⟩ := hp
  rw [faultAt, ← hstart, before?_append, lineBreaksBefore_append]
  rfl

/-- A fault that begins at a boundary of the source reports a line and a column that no other boundary has, and
faults that begin later report later places. -/
theorem fault_denotes_start (source : List Char) (info : NodeInfo)
    (h : Text.IsBoundary source info.start) :
    (∃ line column, faultAt source info = .fault line column (faultDetail source info) ∧
      ∀ byte, (∃ p, p <+: source ∧ Text.byteLength p = byte ∧ Text.EndsAt p line column) ↔
        byte = info.start) ∧
    ∀ other : NodeInfo, Text.IsBoundary source other.start →
      (info.start ≠ other.start → (faultAt source info).place? ≠ (faultAt source other).place?) ∧
      (info.start < other.start → ∃ a b, (faultAt source info).place? = some a ∧
        (faultAt source other).place? = some b ∧ a < b) := by
  obtain ⟨p, hp, hstart⟩ := h
  have hplace := place?_faultAt hp hstart
  constructor
  · refine ⟨_, _, rfl, ?_⟩
    intro byte
    have hline := Option.some.inj hplace
    constructor
    · rintro ⟨r, hr, rfl, hends⟩
      rw [← hstart]
      exact Text.byteLength_eq_of_endPlace_eq hr hp ((Text.endsAt_iff.1 hends).trans hline)
    · rintro rfl
      exact ⟨p, hp, hstart, Text.endsAt_iff.2 hline.symm⟩
  · rintro other ⟨r, hr, hother⟩
    have hplace' := place?_faultAt hr hother
    rw [hplace, hplace', ← hstart, ← hother]
    constructor
    · intro hne heq
      exact hne (Text.byteLength_eq_of_endPlace_eq hp hr (Option.some.inj heq))
    · intro hlt
      exact ⟨_, _, rfl, rfl, Text.endPlace_lt_of_byteLength_lt hp hr hlt⟩

/-- A semicolon that is missing behind a character of four bytes in the second line. -/
def missingSemicolon : NodeInfo :=
  { kind := 24, kindName := ";", missing := true, start := 7, stop := 7 }

theorem missingSemicolon_denotes_start :
    Text.IsBoundary ['é', '\n', '😀', 'x'] missingSemicolon.start ∧
    (faultAt ['é', '\n', '😀', 'x'] missingSemicolon).place? = some (toLex (2, 2)) ∧
    ∀ byte, (∃ p, p <+: ['é', '\n', '😀', 'x'] ∧ Text.byteLength p = byte ∧ Text.EndsAt p 2 2) ↔
      byte = 7 := by
  have h : Text.IsBoundary ['é', '\n', '😀', 'x'] missingSemicolon.start := by decide
  obtain ⟨line, column, hfault, honly⟩ := (fault_denotes_start _ _ h).1
  have hplace : (faultAt ['é', '\n', '😀', 'x'] missingSemicolon).place? = some (toLex (2, 2)) := by decide
  rw [hfault] at hplace
  obtain ⟨rfl, rfl⟩ := Prod.mk.inj (toLex_inj.1 (Option.some.inj hplace))
  refine ⟨h, ?_, honly⟩
  rw [hfault]
  rfl

end Tree

end ScriptTree
