import ScriptTree.Proofs.Category
import ScriptTree.Proofs.Record.OfTree

/-! Trees with other numbers for their kinds. Where the old and the new numbers are in the same classes of a
grammar, it reads and describes a tree alike: the native form stays as it is, and in the record only numbers
change, if they share their names. -/
namespace ScriptTree

/-- Whether two numbers are in the same classes of a grammar. -/
structure Grammar.Alike (g : Grammar) (i j : KindId) : Prop where
  category : g.category i = g.category j
  atomic : g.isAtomic i = g.isAtomic j
  typeWrapper : g.isTypeWrapper i = g.isTypeWrapper j
  modifier : g.isModifier i = g.isModifier j
  wrapper : g.isWrapper i = g.isWrapper j
  keywordOwner : g.isKeywordOwner i = g.isKeywordOwner j

def Modifier.renumber (f : KindId → KindId) (m : Modifier) : Modifier :=
  { m with kindNumber := f m.kindNumber }

namespace Record

mutual

/-- The record with other numbers, its own, those of its modifiers and those inside it along every edge. -/
def renumber (f : KindId → KindId) : Record → Record
  | { kind, kindNumber, pos, stop, text, name, value, expression, arguments, type, returnType,
      initializer, parameters, body, members, modifiers, children } =>
    { kind, pos, stop, text, value
      kindNumber := f kindNumber
      name := renumberName f name
      expression := renumberOption f expression
      arguments := renumberListOption f arguments
      type := renumberOption f type
      returnType := renumberOption f returnType
      initializer := renumberOption f initializer
      parameters := renumberListOption f parameters
      body := renumberOption f body
      members := renumberListOption f members
      modifiers := modifiers.map (List.map (Modifier.renumber f))
      children := renumberListOption f children }

def renumberName (f : KindId → KindId) : Option (Name Record) → Option (Name Record)
  | some (.node r) => some (.node (renumber f r))
  | some (.text s) => some (.text s)
  | none => none

def renumberOption (f : KindId → KindId) : Option Record → Option Record
  | some r => some (renumber f r)
  | none => none

def renumberListOption (f : KindId → KindId) : Option (List Record) → Option (List Record)
  | some rs => some (renumberList f rs)
  | none => none

def renumberList (f : KindId → KindId) : List Record → List Record
  | [] => []
  | r :: rs => renumber f r :: renumberList f rs

end

section Renumber

variable (f : KindId → KindId)

theorem renumberList_eq_map (rs : List Record) : renumberList f rs = rs.map (renumber f) := by
  induction rs with
  | nil => rfl
  | cons r rs ih => rw [renumberList, ih, List.map_cons]

theorem renumberOption_eq_map (r : Option Record) : renumberOption f r = r.map (renumber f) := by
  cases r <;> rfl

theorem renumberListOption_eq_map (rs : Option (List Record)) :
    renumberListOption f rs = rs.map (List.map (renumber f)) := by
  cases rs with
  | none => rfl
  | some rs => rw [renumberListOption, renumberList_eq_map, Option.map_some]

theorem record?_renumberName (name : Option (Name Record)) :
    (renumberName f name).bind Name.record? = (name.bind Name.record?).map (renumber f) := by
  rcases name with _ | _ | r <;> rfl

theorem renumberName_eq_text_iff (name : Option (Name Record)) (s : String) :
    renumberName f name = some (.text s) ↔ name = some (.text s) := by
  rcases name with _ | _ | r <;> simp [renumberName]

theorem inRole?_renumber (r : Record) (role : Role) :
    (r.renumber f).inRole? role = (r.inRole? role).map (renumber f) := by
  cases r
  cases role <;> simp [renumber, inRole?, renumberOption_eq_map, record?_renumberName]

theorem listInRole?_renumber (r : Record) (role : Role) :
    (r.renumber f).listInRole? role = (r.listInRole? role).map (List.map (renumber f)) := by
  cases r
  cases role <;> simp [renumber, listInRole?, renumberListOption_eq_map]

theorem base_renumber (r : Record) :
    (r.renumber f).kind = r.kind ∧ (r.renumber f).kindNumber = f r.kindNumber ∧
      (r.renumber f).pos = r.pos ∧ (r.renumber f).stop = r.stop ∧ (r.renumber f).text = r.text ∧
      (r.renumber f).value = r.value ∧ (r.renumber f).name = renumberName f r.name := by
  cases r
  exact ⟨rfl, rfl, rfl, rfl, rfl, rfl, rfl⟩

theorem lists_renumber (r : Record) :
    (r.renumber f).modifiers = r.modifiers.map (List.map (Modifier.renumber f)) ∧
      (r.renumber f).children = r.children.map (List.map (renumber f)) := by
  cases r
  exact ⟨rfl, renumberListOption_eq_map f _⟩

theorem map_nonempty? {α β : Type} (f : α → β) (as : List α) :
    (nonempty? as).map (List.map f) = nonempty? (as.map f) := by
  cases as <;> rfl

end Renumber

/-- What two records are to have in common, besides their roles, to be equal. -/
structure SameBase (r s : Record) : Prop where
  kind : r.kind = s.kind
  kindNumber : r.kindNumber = s.kindNumber
  pos : r.pos = s.pos
  stop : r.stop = s.stop
  text : r.text = s.text
  value : r.value = s.value
  textName : ∀ t, r.name = some (.text t) ↔ s.name = some (.text t)
  modifiers : r.modifiers = s.modifiers
  children : r.children = s.children

/-- Records that say the same of themselves and hold the same in each role are equal. -/
theorem ext_roles {r s : Record} (h : SameBase r s) (hrole : ∀ role, r.inRole? role = s.inRole? role)
    (hlist : ∀ role, r.listInRole? role = s.listInRole? role) : r = s := by
  have hname : r.name = s.name := by
    have htext := h.textName
    have hnode := hrole .name
    rcases hr : r.name with _ | _ | _ <;> rcases hs : s.name with _ | _ | _ <;>
      simp_all [inRole?, Name.record?]
  have htype := hrole .type
  have hinitializer := hrole .initializer
  have hexpression := hrole .expression
  have hreturnType := hrole .returnType
  have hbody := hrole .body
  have harguments := hlist .arguments
  have hparameters := hlist .parameters
  have hmembers := hlist .members
  obtain ⟨hkind, hnumber, hpos, hstop, htext, hvalue, -, hmodifiers, hchildren⟩ := h
  cases r
  cases s
  simp_all [inRole?, listInRole?]

end Record

namespace Tree

mutual

/-- The tree with other numbers for the kinds of its nodes. -/
def renumber (f : KindId → KindId) : Tree → Tree
  | .node info children => .node { info with kind := f info.kind } (renumberList f children)

def renumberList (f : KindId → KindId) : List Tree → List Tree
  | [] => []
  | t :: ts => t.renumber f :: renumberList f ts

end

section Readers

variable (f : KindId → KindId)

theorem renumberList_eq_map (ts : List Tree) : renumberList f ts = ts.map (renumber f) := by
  induction ts with
  | nil => rfl
  | cons t ts ih => rw [renumberList, ih, List.map_cons]

@[simp] theorem info_renumber (t : Tree) :
    (t.renumber f).info = { t.info with kind := f t.info.kind } := by
  cases t with
  | node info children => rfl

theorem children_renumber (t : Tree) : (t.renumber f).children = t.children.map (renumber f) := by
  cases t with
  | node info children => exact renumberList_eq_map f children

theorem parts_renumber (t : Tree) : (t.renumber f).parts = t.parts.map (renumber f) := by
  rw [parts, children_renumber, List.filter_map]
  simp [parts, Function.comp_def, NodeInfo.isPart]

theorem labelled?_renumber (t : Tree) (label : String) :
    (t.renumber f).labelled? label = (t.labelled? label).map (renumber f) := by
  rw [labelled?, children_renumber, List.find?_map]
  simp only [labelled?, Function.comp_def, info_renumber]

theorem holder?_renumber (t : Tree) (role : Role) :
    (t.renumber f).holder? role = (t.holder? role).map (renumber f) := by
  unfold holder?
  cases Reading.listLabel? role with
  | none => rfl
  | some label =>
    simp only [Option.bind_eq_bind, Option.bind_some, labelled?_renumber]
    cases t.labelled? label with
    | none => rfl
    | some c =>
      simp only [Option.map_some, Option.bind_some, info_renumber]
      split_ifs <;> rfl

variable {f} {g : Grammar} (h : ∀ id, g.Alike (f id) id)

include h

theorem visibleChildren_renumber (t : Tree) :
    (t.renumber f).visibleChildren g = (t.visibleChildren g).map (renumber f) := by
  unfold visibleChildren
  rw [info_renumber, (h _).atomic, children_renumber, List.filter_map]
  split_ifs with hatomic
  · rfl
  · simp [Function.comp_def, NodeInfo.isVisible]

theorem unwrapped_renumber (t : Tree) :
    (t.renumber f).unwrapped g = (t.unwrapped g).renumber f := by
  unfold unwrapped
  rw [info_renumber, (h _).typeWrapper, parts_renumber]
  split_ifs with hwrapper
  · cases t.parts <;> rfl
  · rfl

theorem inRole?_renumber (t : Tree) (role : Role) :
    (t.renumber f).inRole? g role = (t.inRole? g role).map (renumber f) := by
  unfold inRole?
  rw [info_renumber, (h _).category]
  cases Reading.fieldLabel? (g.category t.info.kind) role with
  | none => rfl
  | some label =>
    simp only [Option.bind_eq_bind, Option.bind_some, labelled?_renumber]
    cases t.labelled? label with
    | none => rfl
    | some c =>
      simp only [Option.map_some, Option.bind_some, unwrapped_renumber h]
      split_ifs <;> rfl

theorem modifier?_renumber (t : Tree) : (t.renumber f).modifier? g = (t.modifier? g).map f := by
  unfold modifier?
  rw [info_renumber, (h _).modifier, (h _).wrapper, children_renumber]
  split_ifs
  · rfl
  · rfl
  · cases t.children <;> simp
  · rfl

theorem modifiers_renumber (t : Tree) : (t.renumber f).modifiers g = (t.modifiers g).map f := by
  unfold modifiers
  rw [info_renumber, (h _).keywordOwner, children_renumber, List.filterMap_map]
  split_ifs
  · rfl
  · simp [modifier?_renumber h, List.map_filterMap]

theorem text?_renumber (source : List Char) (t : Tree) :
    Reading.text? g source (t.renumber f).info (t.renumber f).children.isEmpty =
      Reading.text? g source t.info t.children.isEmpty := by
  simp only [Reading.text?, info_renumber, (h _).category, (h _).atomic, children_renumber,
    List.isEmpty_map]

end Readers

section Describe

variable (g : Grammar) (source : List Char) (offsets : OffsetMap)

theorem name_record_eq_text_iff (t : Tree) (s : String) :
    (t.record g source offsets).name = some (.text s) ↔ g.category t.info.kind = .identifier ∧
      Reading.text? g source t.info t.children.isEmpty = some s := by
  obtain ⟨hkind, -, -, htext⟩ := base_toSyntax g source t
  rw [record, Record.name_ofNode_eq_text_iff, hkind, htext]
  rfl

theorem value_record_eq_some_iff (t : Tree) (s : String) :
    (t.record g source offsets).value = some s ↔ g.category t.info.kind = .literal ∧
      Reading.text? g source t.info t.children.isEmpty = some s := by
  obtain ⟨hkind, -, -, htext⟩ := base_toSyntax g source t
  rw [record, Record.value_ofNode_eq_some_iff, hkind, htext]
  rfl

theorem lists_record (t : Tree) :
    (t.record g source offsets).modifiers =
        Record.nonempty? ((t.modifiers g).map fun m => ⟨g.kindName m, m⟩) ∧
      (t.record g source offsets).children =
        Record.nonempty? ((t.visibleChildren g).map (record g source offsets)) := by
  have h := Record.lists_ofNode g.table offsets (t.toSyntax g source)
  rw [modifiers_toSyntax, children_toSyntax, List.map_map] at h
  exact h

variable {f : KindId → KindId} {g : Grammar} (h : ∀ id, g.Alike (f id) id)
  (hname : ∀ id, g.kindName (f id) = g.kindName id)

include h hname

/-- Besides its roles, the record of a tree changes in nothing but numbers. -/
theorem sameBase_renumber (t : Tree)
    (hchildren : ∀ c ∈ t.visibleChildren g,
      (c.renumber f).record g source offsets = (c.record g source offsets).renumber f) :
    Record.SameBase ((t.renumber f).record g source offsets) ((t.record g source offsets).renumber f) := by
  obtain ⟨hkind, hnumber, hpos, hstop, htext⟩ := (t.renumber f).base_record g source offsets
  obtain ⟨hkind', hnumber', hpos', hstop', htext'⟩ := t.base_record g source offsets
  obtain ⟨hmodifiers, hlist⟩ := (t.renumber f).lists_record g source offsets
  obtain ⟨hmodifiers', hlist'⟩ := t.lists_record g source offsets
  obtain ⟨rkind, rnumber, rpos, rstop, rtext, rvalue, rname⟩ :=
    Record.base_renumber f (t.record g source offsets)
  obtain ⟨rmodifiers, rlist⟩ := Record.lists_renumber f (t.record g source offsets)
  have hcategory : g.category (t.renumber f).info.kind = g.category t.info.kind := by
    rw [info_renumber]
    exact (h _).category
  constructor
  case kind =>
    rw [hkind, rkind, hkind', info_renumber]
    exact hname _
  case kindNumber => rw [hnumber, rnumber, hnumber', info_renumber]
  case pos => rw [hpos, rpos, hpos', info_renumber]
  case stop => rw [hstop, rstop, hstop', info_renumber]
  case text => rw [htext, rtext, htext', text?_renumber h]
  case value =>
    ext s
    rw [rvalue]
    simp only [value_record_eq_some_iff, hcategory, text?_renumber h]
  case textName =>
    intro s
    rw [rname, Record.renumberName_eq_text_iff]
    simp only [name_record_eq_text_iff, hcategory, text?_renumber h]
  case modifiers =>
    rw [hmodifiers, rmodifiers, hmodifiers', Record.map_nonempty?, modifiers_renumber h]
    simp [Function.comp_def, Modifier.renumber, hname]
  case children =>
    rw [hlist, rlist, hlist', Record.map_nonempty?, visibleChildren_renumber h, List.map_map,
      List.map_map]
    exact congrArg _ (List.map_congr_left hchildren)

/-- The record of a tree with other numbers is the record of the tree with other numbers. -/
theorem record_renumber (t : Tree) :
    (t.renumber f).record g source offsets = (t.record g source offsets).renumber f := by
  induction t using described_induction g with
  | h t ih =>
    have hchildren : ∀ c ∈ t.visibleChildren g,
        (c.renumber f).record g source offsets = (c.record g source offsets).renumber f :=
      fun c hc => ih c (List.mem_append_right _ hc)
    refine Record.ext_roles (t.sameBase_renumber source offsets h hname hchildren) ?_ ?_
    · intro role
      rw [Record.inRole?_renumber, inRole?_record, inRole?_record, info_renumber, (h _).category]
      split_ifs with hrole
      · rw [inRole?_renumber h, Option.map_map, Option.map_map]
        refine Option.map_congr fun u hu => ih u (t.describedInRole_subset_described role ?_)
        simp [describedInRole, hrole, hu]
      · rfl
    · intro role
      have hparts (hrole : role ∈ (g.category t.info.kind).listRoles) {holder : Tree}
          (hholder : t.holder? role = some holder) :
          (holder.renumber f).parts.map (record g source offsets) =
            (holder.parts.map (record g source offsets)).map (Record.renumber f) := by
        rw [parts_renumber, List.map_map, List.map_map]
        refine List.map_congr_left fun u hu => ih u (t.describedInRole_subset_described role ?_)
        simp [describedInRole, hrole, hholder, hu]
      rw [Record.listInRole?_renumber, listInRole?_record, listInRole?_record, info_renumber,
        (h _).category, holder?_renumber]
      split_ifs with hrole harguments
      · cases hholder : t.holder? role with
        | none => rfl
        | some holder => exact congrArg some (hparts hrole hholder)
      · cases hholder : t.holder? role with
        | none => rfl
        | some holder => exact congrArg some (hparts hrole hholder)
      · rfl

theorem normalize_renumber (unit : OffsetUnit) (t : Tree) :
    (t.renumber f).normalize g source unit = (t.normalize g source unit).renumber f :=
  t.record_renumber source _ h hname

end Describe

end Tree

namespace Native

variable {f : KindId → KindId} {g : Grammar} (source : List Char) (offsets : OffsetMap)

theorem partsOf_renumber {ts : List Tree}
    (h : ∀ t ∈ ts, ofTree g source offsets (t.renumber f) = ofTree g source offsets t) :
    partsOf g source offsets (Tree.renumberList f ts) = partsOf g source offsets ts := by
  induction ts with
  | nil => rfl
  | cons t ts ih =>
    obtain ⟨hfirst, hrest⟩ := List.forall_mem_cons.1 h
    rw [Tree.renumberList, partsOf, partsOf, ih hrest, hfirst, Tree.info_renumber]
    rfl

/-- The native form of a tree shows no numbers. -/
theorem ofTree_renumber (h : ∀ id, g.Alike (f id) id) (t : Tree) :
    ofTree g source offsets (t.renumber f) = ofTree g source offsets t := by
  induction t with
  | node info children ih =>
    have hnamed : (Tree.renumberList f children).any (·.info.named) = children.any (·.info.named) := by
      simp [Tree.renumberList_eq_map, Function.comp_def]
    rw [Tree.renumber, ofTree, ofTree, (h _).atomic, hnamed, partsOf_renumber source offsets ih]
    rfl

end Native

end ScriptTree
