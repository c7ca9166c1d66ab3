import ScriptTree.Engine
import ScriptTree.Proofs.Record.Nested
import ScriptTree.Proofs.Syntax.Subtree

/-! The record of a tree from the records of trees inside it. All that the record of a tree holds, along
every edge, are records of trees inside that tree. -/
namespace ScriptTree.Tree

section Reading

variable (g : Grammar) (source : List Char)

theorem readList_eq_map (ts : List Tree) : readList g source ts = ts.map (read g source) := by
  induction ts with
  | nil => rfl
  | cons t ts ih => rw [readList, ih, List.map_cons]

theorem read_eq (t : Tree) :
    t.read g source = .ofChildren g source t.info (t.children.map (read g source)) := by
  cases t with
  | node info children => rw [read, readList_eq_map, info_node, children_node]

@[simp] theorem info_read (t : Tree) : (t.read g source).info = t.info := by
  rw [read_eq, Reading.ofChildren]

@[simp] theorem node_read (t : Tree) : (t.read g source).node = t.toSyntax g source := rfl

theorem parts_read (t : Tree) : (t.read g source).parts = t.parts.map (toSyntax g source) := by
  rw [read_eq]
  simp [Reading.ofChildren, parts, List.filter_map, Function.comp_def]

theorem labelled?_read (t : Tree) (label : String) :
    Reading.labelled? (t.children.map (read g source)) label =
      (t.labelled? label).map (read g source) := by
  rw [Reading.labelled?, labelled?, List.find?_map, Function.comp_def]
  simp

theorem unwrap_read (t : Tree) :
    Reading.unwrap g (t.read g source) = (t.unwrapped g).toSyntax g source := by
  unfold Reading.unwrap unwrapped
  rw [info_read, parts_read]
  split_ifs with h
  · cases t.parts <;> rfl
  · rfl

theorem field?_read (t : Tree) (role : Role) :
    Reading.field? g (g.category t.info.kind) (t.children.map (read g source)) role =
      (t.inRole? g role).map (toSyntax g source) := by
  unfold Reading.field? inRole?
  cases Reading.fieldLabel? (g.category t.info.kind) role with
  | none => rfl
  | some label =>
    simp only [Option.bind_eq_bind, Option.bind_some, labelled?_read]
    cases t.labelled? label with
    | none => rfl
    | some c =>
      simp only [Option.map_some, Option.bind_some, unwrap_read, node_read]
      split_ifs <;> rfl

theorem list?_read (t : Tree) (role : Role) :
    Reading.list? (t.children.map (read g source)) role =
      (t.holder? role).map fun holder => holder.parts.map (toSyntax g source) := by
  unfold Reading.list? holder?
  cases Reading.listLabel? role with
  | none => rfl
  | some label =>
    simp only [Option.bind_eq_bind, Option.bind_some, labelled?_read]
    cases t.labelled? label with
    | none => rfl
    | some c =>
      simp only [Option.map_some, Option.bind_some, info_read, parts_read]
      split_ifs <;> rfl

/-- Look-up among the values of a function that are written out as pairs. -/
private theorem lookup_written {β : Type} (f : Role → Option β) (roles : List Role) (role : Role) :
    (roles.filterMap fun r => (f r).map (r, ·)).lookup role =
      if role ∈ roles then f role else none := by
  induction roles with
  | nil => rfl
  | cons r roles ih =>
    by_cases hr : role = r
    · subst hr
      cases hf : f role with
      | some b => simp [hf]
      | none => simp [hf, ih]
    · have hne : (role == r) = false := by simpa using hr
      cases hf : f r with
      | some b => simp [hr, hf, List.lookup_cons, hne, ih]
      | none => simp [hr, hf, ih]

theorem lookup_fields_toSyntax (t : Tree) (role : Role) :
    (t.toSyntax g source).fields.lookup role = (t.inRole? g role).map (toSyntax g source) := by
  rw [toSyntax, read_eq]
  simp only [Reading.ofChildren, lookup_written, Role.mem_all, if_true, field?_read]

theorem lookup_lists_toSyntax (t : Tree) (role : Role) :
    (t.toSyntax g source).lists.lookup role =
      (t.holder? role).map fun holder => holder.parts.map (toSyntax g source) := by
  rw [toSyntax, read_eq]
  simp only [Reading.ofChildren, lookup_written, Role.mem_all, if_true, list?_read]

theorem children_toSyntax (t : Tree) :
    (t.toSyntax g source).children = (t.visibleChildren g).map (toSyntax g source) := by
  rw [toSyntax, read_eq]
  unfold Reading.ofChildren visibleChildren
  dsimp only
  split_ifs with h
  · rfl
  · simp [List.filter_map, Function.comp_def]

theorem base_toSyntax (t : Tree) :
    (t.toSyntax g source).kind = t.info.kind ∧ (t.toSyntax g source).start = t.info.start ∧
      (t.toSyntax g source).stop = t.info.stop ∧
      (t.toSyntax g source).text = Reading.text? g source t.info t.children.isEmpty := by
  rw [toSyntax, read_eq]
  simp [Reading.ofChildren]

theorem modifier?_read (t : Tree) : Reading.modifier? g (t.read g source) = t.modifier? g := by
  have hfirst : (t.read g source).firstKind = t.children.head?.map (·.info.kind) := by
    rw [read_eq]
    simp [Reading.ofChildren, Function.comp_def]
  rw [Reading.modifier?, hfirst, info_read]
  rfl

theorem modifiers_toSyntax (t : Tree) : (t.toSyntax g source).modifiers = t.modifiers g := by
  rw [toSyntax, read_eq]
  simp [Reading.ofChildren, modifiers, List.filterMap_map, Function.comp_def, modifier?_read]

/-- All that is read of a tree, from what is read of trees inside it. -/
theorem toSyntax_eq (t : Tree) :
    t.toSyntax g source =
      { kind := t.info.kind
        start := t.info.start
        stop := t.info.stop
        text := Reading.text? g source t.info t.children.isEmpty
        fields := Role.all.filterMap fun role =>
          (t.inRole? g role).map fun u => (role, u.toSyntax g source)
        lists := Role.all.filterMap fun role =>
          (t.holder? role).map fun holder => (role, holder.parts.map (toSyntax g source))
        modifiers := t.modifiers g
        children := (t.visibleChildren g).map (toSyntax g source) } := by
  rw [← children_toSyntax, ← modifiers_toSyntax g source]
  rw [toSyntax, read_eq]
  simp [Reading.ofChildren, field?_read, list?_read, Function.comp_def]

/-- A text that is no string literal is that of the source. -/
theorem text?_eq_slice {g : Grammar} {source : List Char} {info : NodeInfo} {isLeaf : Bool}
    {text : String} (h : Reading.text? g source info isLeaf = some text)
    (hs : ¬(g.category info.kind = .literal ∧ info.kindName = "string")) :
    text = String.ofList (Text.slice source info.start info.stop) := by
  simp only [Reading.text?, if_neg hs] at h
  split_ifs at h with hleaf
  exact (Option.some.inj h).symm

end Reading

section Record

variable (g : Grammar) (source : List Char) (offsets : OffsetMap)

/-- The record of a tree with the given positions. -/
def record (t : Tree) : Record := .ofNode g.table offsets (t.toSyntax g source)

theorem normalize_eq_record (unit : OffsetUnit) (t : Tree) :
    t.normalize g source unit = t.record g source (.ofText source unit) := rfl

theorem inRole?_record (t : Tree) (role : Role) :
    (t.record g source offsets).inRole? role =
      if role ∈ (g.category t.info.kind).fieldRoles then
        (t.inRole? g role).map (record g source offsets)
      else none := by
  rw [record, Record.inRole?_ofNode, lookup_fields_toSyntax, (base_toSyntax g source t).1,
    Option.map_map]
  rfl

theorem listInRole?_record (t : Tree) (role : Role) :
    (t.record g source offsets).listInRole? role =
      if role ∈ (g.category t.info.kind).listRoles then
        if role = .arguments then
          some (((t.holder? role).map parts).getD [] |>.map (record g source offsets))
        else (t.holder? role).map fun holder => holder.parts.map (record g source offsets)
      else none := by
  rw [record, Record.listInRole?_ofNode, lookup_lists_toSyntax, (base_toSyntax g source t).1]
  congr 2
  · cases t.holder? role <;> simp [record]
  · cases t.holder? role <;> simp [record]

theorem childList_record (t : Tree) :
    (t.record g source offsets).childList =
      (t.visibleChildren g).map (record g source offsets) := by
  rw [record, Record.childList_ofNode, children_toSyntax, List.map_map]
  rfl

theorem base_record (t : Tree) :
    (t.record g source offsets).kind = g.kindName t.info.kind ∧
      (t.record g source offsets).kindNumber = t.info.kind ∧
      (t.record g source offsets).pos = some (offsets.offset t.info.start) ∧
      (t.record g source offsets).stop = some (offsets.offset t.info.stop) ∧
      (t.record g source offsets).text = Reading.text? g source t.info t.children.isEmpty := by
  obtain ⟨hkind, hstart, hstop, htext⟩ := base_toSyntax g source t
  have h := Record.base_ofNode g.table offsets (t.toSyntax g source)
  rwa [hkind, hstart, hstop, htext] at h

/-- The records right inside the record of a tree are those of the trees described inside it. -/
theorem inner_record (t : Tree) :
    (t.record g source offsets).inner = (t.described g).map (record g source offsets) := by
  have hrole (role : Role) : (t.record g source offsets).allInRole role =
      (t.describedInRole g role).map (record g source offsets) := by
    rw [Record.allInRole, inRole?_record, listInRole?_record, describedInRole, List.map_append]
    congr 1
    · split_ifs
      · cases t.inRole? g role <;> rfl
      · rfl
    · split_ifs
      · rfl
      · cases t.holder? role <;> rfl
      · rfl
  rw [Record.inner, described, childList_record, funext hrole, List.map_append, List.map_flatMap]

/-- All records inside the record of a tree are records of trees inside the tree. -/
theorem exists_of_mem_nested_record {t : Tree} {r : Record}
    (h : r ∈ (t.record g source offsets).nested) :
    ∃ u ∈ t.subtrees, r = u.record g source offsets := by
  induction t using described_induction g with
  | h t ih =>
    rw [Record.nested_eq, inner_record, List.mem_cons, List.mem_flatMap] at h
    rcases h with rfl | ⟨s, hs, h⟩
    · exact ⟨t, t.self_mem_subtrees, rfl⟩
    · obtain ⟨v, hv, rfl⟩ := List.mem_map.1 hs
      obtain ⟨u, hu, rfl⟩ := ih v hv h
      exact ⟨u, subtrees_trans (described_subset_subtrees hv) hu, rfl⟩

end Record

end ScriptTree.Tree
