import ScriptTree.Proofs.OffsetMap
import ScriptTree.Proofs.Roles
import ScriptTree.Proofs.Walk

/-! Positions are nested and ordered as the ranges of the tree are. In both shapes what is inside something
lies in its positions, and what stands in one list comes one behind the other. -/
namespace ScriptTree

/-- A stretch of positions. -/
structure Span where
  start : Nat
  stop : Nat
  deriving DecidableEq, Repr

/-- Whether `a` has a stretch of positions, in order, and all that is inside it has one within that. -/
def Covers {α : Type} (span? : α → Option Span) (a : α) (inside : List α) : Prop :=
  ∃ s, span? a = some s ∧ s.start ≤ s.stop ∧
    ∀ b ∈ inside, ∃ t, span? b = some t ∧ s.start ≤ t.start ∧ t.stop ≤ s.stop

/-- Whether each one that has a stretch of positions ends before any later one begins. -/
def InOrder {α : Type} (span? : α → Option Span) (as : List α) : Prop :=
  as.Pairwise fun a b => ∀ s t, span? a = some s → span? b = some t → s.stop ≤ t.start

def Record.span? (r : Record) : Option Span := do
  some ⟨← r.pos, ← r.stop⟩

def Json.span? (j : Json) : Option Span := do
  some ⟨← (← j.get? "start").nat?, ← (← j.get? "end").nat?⟩

/-- Whether a record covers all records inside it, along every edge, and its lists are in order. -/
structure Record.Nests (r : Record) : Prop where
  covers : Covers span? r r.nested
  children : ∀ rs, r.children = some rs → InOrder span? rs
  arguments : ∀ rs, r.arguments = some rs → InOrder span? rs
  parameters : ∀ rs, r.parameters = some rs → InOrder span? rs
  members : ∀ rs, r.members = some rs → InOrder span? rs

/-- Whether an object covers all objects inside it, and all its arrays are in order. -/
structure Json.Nests (j : Json) : Prop where
  covers : Covers span? j j.objects
  arrays : ∀ key items, (key, .arr items) ∈ j.members → InOrder span? items

namespace Tree

theorem RangesOrdered.of_mem {t u : Tree} (h : t.RangesOrdered) (hu : u ∈ t.subtrees) :
    u.RangesOrdered :=
  fun v hv => h v (subtrees_trans hu hv)

/-- A tree inside another lies in its range, and its own range is in order. -/
theorem RangesOrdered.within {t u : Tree} (h : t.RangesOrdered) (hroot : t.info.start ≤ t.info.stop)
    (hu : u ∈ t.subtrees) :
    t.info.start ≤ u.info.start ∧ u.info.start ≤ u.info.stop ∧ u.info.stop ≤ t.info.stop := by
  induction t with
  | node info children ih =>
    rcases mem_subtrees.1 hu with rfl | ⟨c, hc, hu⟩
    · exact ⟨le_rfl, hroot, le_rfl⟩
    · obtain ⟨hstart, hle, hstop⟩ := (h _ (self_mem_subtrees _)).1 c hc
      obtain ⟨hus, hule, hut⟩ := ih c hc (h.child hc) hle hu
      exact ⟨hstart.trans hus, hule, hut.trans hstop⟩

end Tree

def OffsetMap.span (offsets : OffsetMap) (info : NodeInfo) : Span :=
  ⟨offsets.offset info.start, offsets.offset info.stop⟩

section Describe

variable {α : Type} {span? : α → Option Span} {offsets : OffsetMap} {describe : Tree → α}

/-- A description with the offsets of its tree covers those of trees inside it. -/
theorem covers_of_ranges (hspan : ∀ u, span? (describe u) = some (offsets.span u.info))
    (hmono : Monotone offsets.offset) {t : Tree} (h : t.RangesOrdered) (hroot : t.info.start ≤ t.info.stop)
    {inside : List α} (hinside : ∀ b ∈ inside, ∃ u ∈ t.subtrees, b = describe u) :
    Covers span? (describe t) inside := by
  refine ⟨_, hspan t, hmono hroot, ?_⟩
  intro b hb
  obtain ⟨u, hu, rfl⟩ := hinside b hb
  obtain ⟨hstart, -, hstop⟩ := h.within hroot hu
  exact ⟨_, hspan u, hmono hstart, hmono hstop⟩

/-- Descriptions of some of the children of a tree, in their order, are in order. -/
theorem inOrder_of_ranges (hspan : ∀ u, span? (describe u) = some (offsets.span u.info))
    (hmono : Monotone offsets.offset) {t : Tree} (h : t.RangesOrdered) {ts : List Tree}
    (hts : ts.Sublist t.children) : InOrder span? (ts.map describe) := by
  have hordered := ((h t t.self_mem_subtrees).2).sublist hts
  rw [InOrder, List.pairwise_map]
  refine hordered.imp ?_
  intro a b hab s u hs hu
  obtain rfl := Option.some.inj ((hspan a).symm.trans hs)
  obtain rfl := Option.some.inj ((hspan b).symm.trans hu)
  exact hmono hab

end Describe

section Shapes

variable (g : Grammar) (source : List Char) {offsets : OffsetMap}

theorem Tree.span?_record (t : Tree) :
    (t.record g source offsets).span? = some (offsets.span t.info) := by
  obtain ⟨-, -, hpos, hstop, -⟩ := t.base_record g source offsets
  rw [Record.span?, hpos, hstop]
  rfl

theorem Native.span?_ofTree (t : Tree) :
    (ofTree g source offsets t).span? = some (offsets.span t.info) := by
  obtain ⟨-, hstart, hstop, -⟩ := get?_ofTree g source offsets t
  rw [Json.span?, hstart, hstop]
  rfl

variable (hmono : Monotone offsets.offset) {t : Tree} (h : t.RangesOrdered)

include hmono h in
theorem Tree.inOrder_listInRole? (role : Role) {rs : List Record}
    (hrs : (t.record g source offsets).listInRole? role = some rs) : InOrder Record.span? rs := by
  by_cases hne : rs = []
  · subst hne
    exact .nil
  · obtain ⟨-, holder, hholder, rfl⟩ := listInRole?_cases g source offsets hrs fun _ => hne
    obtain ⟨label, -, hc⟩ := holder?_labelled hholder
    exact inOrder_of_ranges (span?_record g source) hmono (h.child (labelled?_mem hc).1)
      List.filter_sublist

include hmono h in
theorem Tree.nests_record (hroot : t.info.start ≤ t.info.stop) :
    (t.record g source offsets).Nests where
  covers := covers_of_ranges (span?_record g source) hmono h hroot fun _ hr =>
    exists_of_mem_nested_record g source offsets hr
  children := by
    intro rs hrs
    have hchildren := t.childList_record g source offsets
    rw [Record.childList, hrs, Option.getD_some] at hchildren
    subst hchildren
    refine inOrder_of_ranges (span?_record g source) hmono h ?_
    unfold visibleChildren
    split_ifs
    · exact List.nil_sublist _
    · exact List.filter_sublist
  arguments _ hrs := inOrder_listInRole? g source hmono h .arguments hrs
  parameters _ hrs := inOrder_listInRole? g source hmono h .parameters hrs
  members _ hrs := inOrder_listInRole? g source hmono h .members hrs

theorem Native.array_mem_members {key : String} {items : List Json}
    (h : (key, .arr items) ∈ (ofTree g source offsets t).members) :
    (key, .arr items) ∈ membersOf (partsOf g source offsets t.children) := by
  rw [ofTree_eq, Json.members] at h
  rcases List.mem_append.1 h with h | h
  · simp [Json.nat] at h
  · split_ifs at h with hleaf
    · simp [sliceOf] at h
    · exact h

include hmono h in
/-- The values of the children of a tree are in order; those that are strings have no positions. -/
theorem Native.inOrder_values :
    InOrder Json.span? ((partsOf g source offsets t.children).filterMap Part.value?) := by
  rw [value?_partsOf, InOrder, List.pairwise_filterMap]
  refine (h t t.self_mem_subtrees).2.imp ?_
  intro a b hab x hx y hy s u hs hu
  have hspan {c : Tree} {v : Json} {w : Span}
      (hv : (if c.info.isPart then some (ofTree g source offsets c)
        else (label? c.info).map fun _ => sliceOf source c.info) = some v)
      (hw : v.span? = some w) : w = offsets.span c.info := by
    split_ifs at hv with hpart
    · obtain rfl := Option.some.inj hv
      exact Option.some.inj (hw.symm.trans (span?_ofTree g source c))
    · obtain ⟨_, -, rfl⟩ := Option.map_eq_some_iff.1 hv
      contradiction
  rw [hspan hx hs, hspan hy hu]
  exact hmono hab

include hmono h in
theorem Native.nests_ofTree (hroot : t.info.start ≤ t.info.stop) :
    (ofTree g source offsets t).Nests where
  covers := covers_of_ranges (span?_ofTree g source) hmono h hroot fun _ hj =>
    exists_of_mem_objects g source offsets hj
  arrays := by
    intro key items hitems
    have hmember := array_mem_members g source hitems
    exact (inOrder_values g source hmono h).sublist
      (sublist_membersOf (fun _ => partsOf_ne_arr g source offsets) hmember)

end Shapes

/-- Positions are nested and ordered in both shapes, along every edge, if the ranges of the tree are. -/
theorem positions_nest (g : Grammar) (source : List Char) (unit : OffsetUnit) (t : Tree)
    (hroot : t.info.start ≤ t.info.stop) (hranges : t.RangesOrdered)
    (hlen : unit.length source < 2 ^ 32) :
    (∀ r ∈ (t.normalize g source unit).nested, r.Nests) ∧
    ∀ j ∈ (t.native g source unit).objects, j.Nests := by
  have hmono := OffsetMap.monotone_offset hlen
  constructor
  · intro r hr
    obtain ⟨u, hu, rfl⟩ := Tree.exists_of_mem_nested_record g source _ hr
    exact u.nests_record g source hmono (hranges.of_mem hu) (hranges.within hroot hu).2.1
  · intro j hj
    obtain ⟨u, hu, rfl⟩ := Native.exists_of_mem_objects g source _ hj
    exact Native.nests_ofTree g source hmono (hranges.of_mem hu) (hranges.within hroot hu).2.1

/-- Two names under one label: the first begins inside a character, the second ends beyond the source. -/
def looseNames : Tree :=
  .node { kind := 134, kindName := "program", named := true, start := 0, stop := 12 }
    [.node { kind := 1, kindName := "identifier", field := "item", named := true
             start := 1, stop := 3 } [],
      .node { kind := 1, kindName := "identifier", field := "item", named := true
              start := 3, stop := 12 } []]

theorem looseNames_positions_nest :
    (looseNames.info.start ≤ looseNames.info.stop ∧ looseNames.RangesOrdered ∧
      OffsetUnit.utf16.length ['é', '😀', 'x'] < 2 ^ 32) ∧
    (looseNames.normalize .plain ['é', '😀', 'x'] .utf16).Nests ∧
    (looseNames.native .plain ['é', '😀', 'x'] .utf16).Nests := by
  have hroot : looseNames.info.start ≤ looseNames.info.stop := by decide
  have hranges : looseNames.RangesOrdered := by decide
  have hlen : OffsetUnit.utf16.length ['é', '😀', 'x'] < 2 ^ 32 := by decide
  obtain ⟨hrecords, hobjects⟩ :=
    positions_nest .plain ['é', '😀', 'x'] .utf16 looseNames hroot hranges hlen
  refine ⟨⟨hroot, hranges, hlen⟩, hrecords _ ?_, hobjects _ ?_⟩
  · rw [Record.nested_eq]
    exact List.mem_cons_self
  · rw [Tree.native, Native.ofTree_eq, Json.objects]
    exact List.mem_cons_self

end ScriptTree
