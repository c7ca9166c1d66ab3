import ScriptTree.Proofs.Shapes

/-! The check of a tree is exact. The cursor takes one step to each node, in preorder, and its counter is the
depth of the node it stands at; so the first node that is too deep or a fault decides. -/
namespace ScriptTree

namespace Tree

/-- The trees that are so many levels below the top. -/
def level (t : Tree) : Nat → List Tree
  | 0 => [t]
  | depth + 1 => (t.level depth).flatMap children

mutual

/-- The depth of the deepest node, that of the top being zero. -/
def height : Tree → Nat
  | .node _ children => heightList children

def heightList : List Tree → Nat
  | [] => 0
  | t :: ts => max (t.height + 1) (heightList ts)

end

theorem add_heightList_le_iff {ts : List Tree} {depth d : Nat} :
    depth + heightList ts ≤ d ↔ depth ≤ d ∧ ∀ t ∈ ts, depth + 1 + t.height ≤ d := by
  induction ts with
  | nil => simp [heightList]
  | cons t ts ih =>
    rw [heightList, ← Nat.add_max_add_left, Nat.max_le, ih, List.forall_mem_cons,
      Nat.add_right_comm, ← Nat.add_assoc]
    tauto

theorem depth_rows_le_iff (t : Tree) (depth d : Nat) :
    (∀ row ∈ t.rows depth, row.depth ≤ d) ↔ depth + t.height ≤ d := by
  induction t generalizing depth with
  | node info children ih =>
    rw [height, add_heightList_le_iff, rows_eq, List.forall_mem_cons, children_node]
    simp only [List.forall_mem_flatMap]
    exact and_congr_right fun _ => forall₂_congr fun c hc => ih c hc (depth + 1)

theorem info_rows (t : Tree) (depth : Nat) :
    (t.rows depth).map (·.info) = t.subtrees.map info := by
  induction t generalizing depth with
  | node info children ih =>
    rw [rows_eq, subtrees, subtreesList_eq_flatMap, List.map_cons, List.map_cons, List.map_flatMap,
      List.map_flatMap]
    congr 1
    exact List.flatMap_congr fun c hc => ih c hc (depth + 1)

theorem length_rows (t : Tree) (depth : Nat) : (t.rows depth).length = t.size := by
  induction t generalizing depth with
  | node info children ih =>
    rw [rows_eq, size_eq, List.length_cons, List.length_flatMap, Nat.add_comm]
    congr 2
    exact List.map_congr_left fun c hc => ih c hc (depth + 1)

theorem forall_info_rows (t : Tree) (depth : Nat) (p : NodeInfo → Prop) :
    (∀ row ∈ t.rows depth, p row.info) ↔ ∀ u ∈ t.subtrees, p u.info := by
  have h := List.forall_mem_map (f := Row.info) (l := t.rows depth) (P := p)
  rw [info_rows, List.forall_mem_map] at h
  exact h.symm

theorem check_eq_ok_iff_height (source : List Char) (limit : Nat) (t : Tree) :
    t.check source limit = .ok t ↔
      t.height ≤ limit ∧ ∀ u ∈ t.subtrees, u.info.isFault = false := by
  have hfault := t.forall_info_rows 0 (·.isFault = false)
  have hdepth := t.depth_rows_le_iff 0 limit
  rw [Nat.zero_add] at hdepth
  rw [check_eq_ok_iff, ← hdepth, ← hfault, ← forall₂_and]

end Tree

namespace Cursor

/-- The node under the cursor, with the counter. -/
def row (c : Cursor) : Tree.Row := ⟨c.depth, c.focus.info⟩

/-- The cursor after so many steps, unless the walk is over by then. -/
def after (c : Cursor) : Nat → Option Cursor
  | 0 => some c
  | n + 1 => c.next.bind fun d => d.after n

theorem row_after (c : Cursor) (n : Nat) : (c.after n).map row = c.rows[n]? := by
  induction n generalizing c with
  | zero =>
    rw [rows_next]
    rfl
  | succ n ih =>
    rw [rows_next, List.getElem?_cons_succ, after]
    cases c.next with
    | none => rfl
    | some d => exact ih d

/-- Whether the counter is above zero each time it is lowered on the way out to the next tree. -/
def LowersPositive : Nat → List (List Tree) → Prop
  | _, [] => True
  | depth, [] :: right => 0 < depth ∧ LowersPositive (depth - 1) right
  | _, (_ :: _) :: _ => True

/-- Whether a tree is found in `t` by going down so many levels, past the trees to the left and with the
given ones to the right on each of them. -/
inductive At (t : Tree) : Tree → Nat → List (List Tree) → Prop
  | top : At t t 0 []
  | child {u v : Tree} {depth : Nat} {left ts : List Tree} {right : List (List Tree)}
      (h : At t u depth right) (hc : u.children = left ++ v :: ts) : At t v (depth + 1) (ts :: right)

variable {t u : Tree} {depth : Nat} {right : List (List Tree)}

theorem At.mem_level (h : At t u depth right) : u ∈ t.level depth := by
  induction h with
  | top => exact List.mem_singleton_self t
  | child h hc ih => exact List.mem_flatMap.2 ⟨_, ih, by rw [hc]; simp⟩

theorem At.lowersPositive (h : At t u depth right) : LowersPositive depth right := by
  induction h with
  | top => trivial
  | @child u v depth left ts right h hc ih =>
    cases ts with
    | nil => exact ⟨Nat.succ_pos depth, ih⟩
    | cons w ws => trivial

theorem At.leave {c : Cursor} (h : At t u depth right) (hl : leave depth right = some c) :
    At t c.focus c.depth c.right := by
  induction h with
  | top => contradiction
  | @child u v depth left ts right h hc ih =>
    cases ts with
    | nil => exact ih hl
    | cons w ws =>
      obtain rfl := Option.some.inj hl
      exact h.child (show u.children = (left ++ [v]) ++ w :: ws by simpa using hc)

theorem At.next {c d : Cursor} (h : At t c.focus c.depth c.right) (hn : c.next = some d) :
    At t d.focus d.depth d.right := by
  unfold Cursor.next at hn
  split at hn
  · next v ts hc =>
    obtain rfl := Option.some.inj hn
    exact h.child (show c.focus.children = [] ++ v :: ts from hc)
  · exact h.leave hn

theorem At.after {c d : Cursor} {n : Nat} (h : At t c.focus c.depth c.right)
    (hd : c.after n = some d) : At t d.focus d.depth d.right := by
  induction n generalizing c with
  | zero =>
    obtain rfl := Option.some.inj hd
    exact h
  | succ n ih =>
    obtain ⟨e, he, hd⟩ := Option.bind_eq_some_iff.1 hd
    exact ih (h.next he) hd

end Cursor

namespace Tree

/-- Whether the cursor takes one step to each node of a tree, in preorder, and is done after the last. Its
counter is the depth of the node it stands at, and above zero whenever it is lowered. -/
structure WalkedInPreorder (t : Tree) : Prop where
  rows : ∀ n, ((Cursor.top t).after n).map Cursor.row = (t.rows 0)[n]?
  place : ∀ n c, (Cursor.top t).after n = some c → c.focus ∈ t.level c.depth
  lowers : ∀ n c, (Cursor.top t).after n = some c → Cursor.LowersPositive c.depth c.right
  ends : (Cursor.top t).after t.size = none

theorem walkedInPreorder (t : Tree) : t.WalkedInPreorder := by
  have hrows (n : Nat) : ((Cursor.top t).after n).map Cursor.row = (t.rows 0)[n]? := by
    rw [Cursor.row_after, Cursor.rows, Cursor.top, Cursor.rightRows, List.append_nil]
  refine ⟨hrows, ?_, ?_, ?_⟩
  · intro n c hc
    exact (Cursor.At.top.after hc).mem_level
  · intro n c hc
    exact (Cursor.At.top.after hc).lowersPositive
  · rw [← t.length_rows 0, ← Option.map_eq_none_iff, hrows, List.getElem?_length]

/-- Whether the children of each node lie inside it, one behind the other. -/
def RangesOrdered (t : Tree) : Prop :=
  ∀ u ∈ t.subtrees,
    (∀ c ∈ u.children, u.info.start ≤ c.info.start ∧ c.info.start ≤ c.info.stop ∧
      c.info.stop ≤ u.info.stop) ∧
    u.children.Pairwise fun a b => a.info.stop ≤ b.info.start

instance (t : Tree) : Decidable t.RangesOrdered := List.decidableBAll _ _

theorem RangesOrdered.child {t c : Tree} (h : t.RangesOrdered) (hc : c ∈ t.children) :
    c.RangesOrdered :=
  fun u hu => h u (subtrees_trans (child_mem_subtrees hc) hu)

theorem RangesOrdered.start_mem {t : Tree} (h : t.RangesOrdered) (depth : Nat) :
    ∀ row ∈ t.rows depth, t.info.start ≤ row.info.start ∧
      (t.info.start ≤ t.info.stop → row.info.start ≤ t.info.stop) := by
  induction t generalizing depth with
  | node info children ih =>
    rw [rows_eq, List.forall_mem_cons]
    refine ⟨⟨le_rfl, id⟩, ?_⟩
    intro row hrow
    obtain ⟨c, hc, hrow⟩ := List.mem_flatMap.1 hrow
    obtain ⟨hstart, hle, hstop⟩ := (h _ (self_mem_subtrees _)).1 c hc
    obtain ⟨hrow, hrow'⟩ := ih c hc (h.child hc) _ row hrow
    exact ⟨hstart.trans hrow, fun _ => (hrow' hle).trans hstop⟩

/-- Preorder is the order of the source. -/
theorem RangesOrdered.pairwise_start {t : Tree} (h : t.RangesOrdered) (depth : Nat) :
    (t.rows depth).Pairwise fun a b => a.info.start ≤ b.info.start := by
  induction t generalizing depth with
  | node info children ih =>
    obtain ⟨hinside, hbehind⟩ := h _ (self_mem_subtrees _)
    have hfirst := h.start_mem depth
    rw [rows_eq, List.forall_mem_cons] at hfirst
    rw [rows_eq, List.pairwise_cons, List.pairwise_flatMap]
    refine ⟨fun row hrow => (hfirst.2 row hrow).1, fun c hc => ih c hc (h.child hc) _, ?_⟩
    -- What is in one child begins before that child ends, and so before the next one begins.
    apply hbehind.imp_of_mem
    intro a b ha hb hab x hx y hy
    have hx := ((h.child ha).start_mem _ x hx).2 (hinside a ha).2.1
    have hy := ((h.child hb).start_mem _ y hy).1
    exact hx.trans (hab.trans hy)

/-- Whether a node is the first one in preorder that is too deep or a fault. -/
def IsFirstFailing (limit : Nat) (t : Tree) (row : Row) : Prop :=
  (limit < row.depth ∨ row.info.isFault) ∧ ∃ before after, t.rows 0 = before ++ row :: after ∧
    ∀ r ∈ before, r.depth ≤ limit ∧ r.info.isFault = false

section Check

variable (source : List Char) (limit : Nat)

theorem fault?_eq_some_iff (row : Row) (failure : Failure) :
    row.fault? source limit = some failure ↔ (limit < row.depth ∨ row.info.isFault) ∧
      failure = if limit < row.depth then tooDeep limit else faultAt source row.info := by
  unfold Row.fault?
  split_ifs with hdepth hfault
  · rw [Option.some.injEq, eq_comm (a := tooDeep limit)]
    exact (and_iff_right (Or.inl hdepth)).symm
  · rw [Option.some.injEq, eq_comm (a := faultAt source row.info)]
    exact (and_iff_right (Or.inr hfault)).symm
  · simp [hdepth, hfault]

theorem check_eq_error_iff (t : Tree) (failure : Failure) :
    t.check source limit = .error failure ↔ ∃ row, t.IsFirstFailing limit row ∧
      failure = if limit < row.depth then tooDeep limit else faultAt source row.info := by
  have hcheck : t.check source limit = .error failure ↔
      (t.rows 0).findSome? (Row.fault? source limit) = some failure := by
    rw [check_eq]
    cases (t.rows 0).findSome? (Row.fault? source limit) <;> simp
  rw [hcheck, List.findSome?_eq_some_iff]
  simp only [fault?_eq_some_iff, fault?_eq_none_iff, IsFirstFailing]
  constructor
  · rintro ⟨before, row, after, hrows, ⟨hrow, hfailure⟩, hbefore⟩
    exact ⟨row, ⟨hrow, before, after, hrows, hbefore⟩, hfailure⟩
  · rintro ⟨row, ⟨hrow, before, after, hrows, hbefore⟩, hfailure⟩
    exact ⟨before, row, after, hrows, ⟨hrow, hfailure⟩, hbefore⟩

theorem RangesOrdered.start_le {t : Tree} (h : t.RangesOrdered) {row : Row}
    (hrow : t.IsFirstFailing limit row) :
    ∀ u ∈ t.subtrees, u.info.isFault → row.info.start ≤ u.info.start := by
  obtain ⟨-, before, after, hrows, hbefore⟩ := hrow
  have hsorted := h.pairwise_start 0
  rw [hrows, List.pairwise_append, List.pairwise_cons] at hsorted
  apply (t.forall_info_rows 0 fun info => info.isFault → row.info.start ≤ info.start).1
  rw [hrows]
  intro other hother hfault
  rcases List.mem_append.1 hother with hmem | hmem
  · rw [(hbefore other hmem).2] at hfault
    contradiction
  · rcases List.mem_cons.1 hmem with rfl | hmem
    · exact le_rfl
    · exact hsorted.2.1.1 other hmem

end Check

end Tree

theorem Engine.exists_of_parse_ofTrees {dialect : Dialect} {parser : TreeParser} {text : String}
    {request : Request} {ast : Ast} (h : (Engine.ofTrees dialect parser).parse text request = .ok ast) :
    ∃ t, parser.tree? text = .ok (some t) ∧ t.check text.toList Engine.maxDepth = .ok t ∧
      ast = t.describe parser.grammar text.toList request := by
  rw [Engine.parse_ofTrees] at h
  rcases ht : parser.tree? text with message | _ | t
  · rw [ht] at h
    contradiction
  · rw [ht] at h
    contradiction
  · simp only [ht] at h
    cases hcheck : t.check text.toList Engine.maxDepth with
    | error failure =>
      rw [hcheck] at h
      contradiction
    | ok u =>
      obtain rfl := Tree.eq_of_check _ _ hcheck
      rw [hcheck] at h
      exact ⟨u, rfl, hcheck, (Except.ok.inj h).symm⟩

namespace Tree

/-- The check walks the whole tree in preorder and is decided by the first node that is too deep or a fault,
its depth counting before its fault. With ranges in order no fault begins before the reported one, and what
an engine describes is never deeper than its limit and free of faults. -/
theorem check_exact (source : List Char) (limit : Nat) (t : Tree) :
    t.WalkedInPreorder ∧
    (t.check source limit = .ok t ↔
      t.height ≤ limit ∧ ∀ u ∈ t.subtrees, u.info.isFault = false) ∧
    (∀ failure, t.check source limit = .error failure ↔ ∃ row, t.IsFirstFailing limit row ∧
      failure = if limit < row.depth then tooDeep limit else faultAt source row.info) ∧
    (t.RangesOrdered → ∀ line column detail,
      t.check source limit = .error (.fault line column detail) →
        ∃ row, t.IsFirstFailing limit row ∧ row.info.isFault ∧
          .fault line column detail = faultAt source row.info ∧
          ∀ u ∈ t.subtrees, u.info.isFault → row.info.start ≤ u.info.start) ∧
    ∀ dialect parser text request ast,
      (Engine.ofTrees dialect parser).parse text request = .ok ast →
        ∃ u, parser.tree? text = .ok (some u) ∧ ast = u.describe parser.grammar text.toList request ∧
          u.height ≤ Engine.maxDepth ∧ ∀ v ∈ u.subtrees, v.info.isFault = false := by
  refine ⟨t.walkedInPreorder, t.check_eq_ok_iff_height source limit,
    t.check_eq_error_iff source limit, ?_, ?_⟩
  · intro hordered line column detail hcheck
    obtain ⟨row, hrow, hfailure⟩ := (t.check_eq_error_iff source limit _).1 hcheck
    split_ifs at hfailure with hdepth
    · contradiction
    · exact ⟨row, hrow, hrow.1.resolve_left hdepth, hfailure, hordered.start_le limit hrow⟩
  · intro dialect parser text request ast hparse
    obtain ⟨u, hu, hcheck, rfl⟩ := Engine.exists_of_parse_ofTrees hparse
    exact ⟨u, hu, rfl, (u.check_eq_ok_iff_height text.toList Engine.maxDepth).1 hcheck⟩

/-- A bracket that is never closed, in front of a name without its semicolon. -/
def unclosed : Tree :=
  .node { kind := 134, kindName := "program", named := true, start := 0, stop := 3 }
    [.node { kind := 65535, kindName := "ERROR", named := true, extra := true, error := true
             start := 0, stop := 1 }
      [.node { kind := 8, kindName := "(", start := 0, stop := 1 } []],
      .node { kind := 150, kindName := "expression_statement", named := true, start := 2, stop := 3 }
        [.node { kind := 1, kindName := "identifier", named := true, start := 2, stop := 3 } [],
          .node { kind := 24, kindName := ";", missing := true, start := 3, stop := 3 } []]]

/-- A source with nothing in it. -/
def emptyProgram : Tree :=
  .node { kind := 134, kindName := "program", named := true, start := 0, stop := 0 } []

/-- A parser that finds nothing in any source. -/
def emptyParser : TreeParser := ⟨.plain, fun _ => .ok emptyProgram⟩

theorem unclosed_check_exact :
    unclosed.RangesOrdered ∧
    unclosed.check "( a".toList Engine.maxDepth = .error (.fault 1 1 "unexpected `(`") ∧
    (∃ row, unclosed.IsFirstFailing Engine.maxDepth row ∧ row.info.isFault ∧
      .fault 1 1 "unexpected `(`" = faultAt "( a".toList row.info ∧
      ∀ u ∈ unclosed.subtrees, u.info.isFault → row.info.start ≤ u.info.start) ∧
    (∃ ast, (Engine.ofTrees .plain emptyParser).parse "" {} = .ok ast) ∧
    emptyProgram.height ≤ Engine.maxDepth ∧
    ∀ u ∈ emptyProgram.subtrees, u.info.isFault = false := by
  have hordered : unclosed.RangesOrdered := by decide
  have hcheck : unclosed.check "( a".toList Engine.maxDepth =
      .error (.fault 1 1 "unexpected `(`") := by
    rw [check_eq]
    rfl
  have hparse : (Engine.ofTrees .plain emptyParser).parse "" {} =
      .ok (emptyProgram.describe .plain [] {}) := by
    rw [Engine.parse_ofTrees]
    simp only [emptyParser, check_eq]
    rfl
  obtain ⟨-, -, -, hfault, hengine⟩ := check_exact "( a".toList Engine.maxDepth unclosed
  obtain ⟨_, ⟨⟩, -, hpassed⟩ := hengine .plain emptyParser "" {} _ hparse
  exact ⟨hordered, hcheck, hfault hordered 1 1 _ hcheck, ⟨_, hparse⟩, hpassed⟩

end Tree

end ScriptTree
