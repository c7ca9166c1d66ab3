import ScriptTree.Proofs.OffsetMap
import ScriptTree.Proofs.Record.OfTree
import ScriptTree.Proofs.Syntax.Native

/-! Positions index the text they are given for. In both shapes a text stands in the source from the start
of its node to its end, whatever the positions count. -/
namespace ScriptTree

/-- Whether a node covers whole characters of the source, in order. Boundaries are never beyond the
end. -/
def NodeInfo.InSource (source : List Char) (info : NodeInfo) : Prop :=
  info.start ≤ info.stop ∧ Text.IsBoundary source info.start ∧ Text.IsBoundary source info.stop

instance (source : List Char) (info : NodeInfo) : Decidable (info.InSource source) :=
  inferInstanceAs (Decidable (_ ∧ _ ∧ _))

/-- The bytes of a node are what its offsets cut out of the source. -/
theorem NodeInfo.InSource.slice {source : List Char} {info : NodeInfo} (h : info.InSource source)
    {unit : OffsetUnit} (hlen : unit.length source < UInt32.size) :
    unit.slice? source ((OffsetMap.ofText source unit).offset info.start)
      ((OffsetMap.ofText source unit).offset info.stop) =
        some (Text.slice source info.start info.stop) := by
  obtain ⟨hle, hstart, hstop⟩ := h
  obtain ⟨p, m, q, rfl, hp, hm⟩ := hstart.split hstop hle
  have hpos : (OffsetMap.ofText (p ++ m ++ q) unit).offset info.start = unit.length p := by
    rw [← hp, List.append_assoc]
    exact OffsetMap.offset_boundary (by rwa [← List.append_assoc])
  have hend : (OffsetMap.ofText (p ++ m ++ q) unit).offset info.stop = unit.length (p ++ m) := by
    rw [← hm]
    exact OffsetMap.offset_boundary hlen
  rw [hpos, hend, OffsetUnit.slice?_append, ← hp, ← hm, Text.slice_append]

/-- Whether a record with a text has positions that cut this text out of the source. -/
def Record.TextInPlace (unit : OffsetUnit) (source : List Char) (r : Record) : Prop :=
  ∀ text, r.text = some text → ∃ pos stop, r.pos = some pos ∧ r.stop = some stop ∧
    unit.slice? source pos stop = some text.toList

/-- Whether an object with a text has positions that cut this text out of the source. -/
def Json.TextInPlace (unit : OffsetUnit) (source : List Char) (j : Json) : Prop :=
  ∀ text, j.get? "text" = some text → ∃ start stop s, j.get? "start" = some (.nat start) ∧
    j.get? "end" = some (.nat stop) ∧ text = .str s ∧ unit.slice? source start stop = some s.toList

/-- Positions index the text they are given for: in both shapes, along every edge, for every unit and
however the source is encoded. Only the text of a string literal is another one. -/
theorem texts_in_place (g : Grammar) (source : List Char) (unit : OffsetUnit) (t : Tree)
    (hnames : t.NamedBy g) (hranges : ∀ u ∈ t.subtrees, u.info.InSource source)
    (hlen : unit.length source < 2 ^ 32) :
    (∀ r ∈ (t.normalize g source unit).nested,
      ¬(g.category r.kindNumber = .literal ∧ r.kind = "string") → r.TextInPlace unit source) ∧
    ∀ j ∈ (t.native g source unit).objects, j.TextInPlace unit source := by
  constructor
  · intro r hr hstring text htext
    obtain ⟨u, hu, rfl⟩ := Tree.exists_of_mem_nested_record g source _ hr
    obtain ⟨hkind, hnumber, hpos, hstop, hread⟩ :=
      Tree.base_record g source (.ofText source unit) u
    refine ⟨_, _, hpos, hstop, ?_⟩
    rw [hkind, hnumber, ← hnames u hu] at hstring
    have hslice := Tree.text?_eq_slice (hread.symm.trans htext) hstring
    rw [(hranges u hu).slice hlen, hslice, String.toList_ofList]
  · intro j hj text htext
    obtain ⟨u, hu, rfl⟩ := Native.exists_of_mem_objects g source _ hj
    obtain ⟨-, hstart, hstop, hread⟩ := Native.get?_ofTree g source (.ofText source unit) u
    refine ⟨_, _, String.ofList (Text.slice source u.info.start u.info.stop), hstart, hstop, ?_, ?_⟩
    · rw [hread] at htext
      split_ifs at htext with hleaf
      exact (Option.some.inj htext).symm
    · rw [(hranges u hu).slice hlen, String.toList_ofList]

/-- A name behind characters of two and four bytes. -/
def nameBehindWide : Tree :=
  .node { kind := 134, kindName := "program", named := true, start := 0, stop := 8 }
    [.node { kind := 1, kindName := "identifier", named := true, start := 7, stop := 8 } []]

theorem nameBehindWide_in_place :
    (nameBehindWide.NamedBy .plain ∧
      (∀ u ∈ nameBehindWide.subtrees, u.info.InSource ['é', '😀', ' ', 'x']) ∧
      OffsetUnit.utf16.length ['é', '😀', ' ', 'x'] < 2 ^ 32) ∧
    (∀ r ∈ (nameBehindWide.normalize .plain ['é', '😀', ' ', 'x'] .utf16).nested,
      ¬(Grammar.plain.category r.kindNumber = .literal ∧ r.kind = "string") →
        r.TextInPlace .utf16 ['é', '😀', ' ', 'x']) ∧
    ∀ j ∈ (nameBehindWide.native .plain ['é', '😀', ' ', 'x'] .utf16).objects,
      j.TextInPlace .utf16 ['é', '😀', ' ', 'x'] := by
  have hnames : nameBehindWide.NamedBy .plain := by decide +kernel
  have hranges : ∀ u ∈ nameBehindWide.subtrees, u.info.InSource ['é', '😀', ' ', 'x'] := by decide
  have hlen : OffsetUnit.utf16.length ['é', '😀', ' ', 'x'] < 2 ^ 32 := by decide
  exact ⟨⟨hnames, hranges, hlen⟩, texts_in_place _ _ _ _ hnames hranges hlen⟩

end ScriptTree
