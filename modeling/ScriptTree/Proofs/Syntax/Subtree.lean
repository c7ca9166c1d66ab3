import Mathlib.Algebra.Order.BigOperators.Group.List
import Mathlib.Algebra.Order.Ring.Nat
import ScriptTree.Proofs.Record.Nested
import ScriptTree.Syntax.Reading

/-! Trees inside trees, and which of them a grammar puts in a role, lists in a role or counts as children. -/
namespace ScriptTree.Tree

/-- Induction with the hypothesis for every child. -/
@[elab_as_elim, induction_eliminator]
theorem induction {motive : Tree → Prop}
    (node : ∀ info children, (∀ t ∈ children, motive t) → motive (.node info children)) :
    ∀ t, motive t
  | .node info children => node info children fun t _ => induction node t

@[simp] theorem info_node (info : NodeInfo) (children : List Tree) :
    (node info children).info = info := rfl

@[simp] theorem children_node (info : NodeInfo) (children : List Tree) :
    (node info children).children = children := rfl

mutual

/-- The tree and all trees inside it, each before those inside it. -/
def subtrees : Tree → List Tree
  | .node info children => .node info children :: subtreesList children

def subtreesList : List Tree → List Tree
  | [] => []
  | t :: ts => subtrees t ++ subtreesList ts

end

theorem subtreesList_eq_flatMap (ts : List Tree) : subtreesList ts = ts.flatMap subtrees := by
  induction ts with
  | nil => rfl
  | cons t ts ih => rw [subtreesList, ih, List.flatMap_cons]

theorem mem_subtrees {t u : Tree} : u ∈ t.subtrees ↔ u = t ∨ ∃ c ∈ t.children, u ∈ c.subtrees := by
  cases t with
  | node info children => simp [subtrees, subtreesList_eq_flatMap]

theorem self_mem_subtrees (t : Tree) : t ∈ t.subtrees := mem_subtrees.2 (Or.inl rfl)

theorem child_mem_subtrees {t c : Tree} (h : c ∈ t.children) : c ∈ t.subtrees :=
  mem_subtrees.2 (Or.inr ⟨c, h, c.self_mem_subtrees⟩)

theorem subtrees_trans {t u v : Tree} (hu : u ∈ t.subtrees) (hv : v ∈ u.subtrees) :
    v ∈ t.subtrees := by
  induction t with
  | node info children ih =>
    rcases mem_subtrees.1 hu with rfl | ⟨c, hc, hu⟩
    · exact hv
    · exact mem_subtrees.2 (Or.inr ⟨c, hc, ih c hc hu⟩)

/-- Induction with the hypothesis for all trees properly inside. -/
theorem subtrees_induction {motive : Tree → Prop}
    (h : ∀ t, (∀ c ∈ t.children, ∀ u ∈ c.subtrees, motive u) → motive t) (t : Tree) : motive t := by
  suffices hall : ∀ u ∈ t.subtrees, motive u from hall t t.self_mem_subtrees
  induction t with
  | node info children ih =>
    intro u hu
    rcases mem_subtrees.1 hu with rfl | ⟨c, hc, hu⟩
    · exact h _ ih
    · exact ih c hc u hu

theorem sizeList_eq_sum (ts : List Tree) : sizeList ts = (ts.map size).sum := by
  induction ts with
  | nil => rfl
  | cons t ts ih => rw [sizeList, ih, List.map_cons, List.sum_cons]

theorem size_eq (t : Tree) : t.size = 1 + (t.children.map size).sum := by
  cases t with
  | node info children => rw [size, sizeList_eq_sum, children_node]

/-- Whether every node has the name that the grammar gives to its kind. -/
def NamedBy (g : Grammar) (t : Tree) : Prop :=
  ∀ u ∈ t.subtrees, u.info.kindName = g.kindName u.info.kind

instance (g : Grammar) (t : Tree) : Decidable (t.NamedBy g) := List.decidableBAll _ _

/-- What a parser promises of its trees: names are those of the grammar, tokens have nothing below them,
and the whole is a part. -/
structure Parsed (g : Grammar) (t : Tree) : Prop where
  named : t.NamedBy g
  token : ∀ u ∈ t.subtrees, u.info.named = false → u.children = []
  root : t.info.isPart

/-- The named children without comments. -/
def parts (t : Tree) : List Tree := t.children.filter (·.info.isPart)

/-- The children that count as such. A node that is a single token has none. -/
def visibleChildren (g : Grammar) (t : Tree) : List Tree :=
  if g.isAtomic t.info.kind then [] else t.children.filter (·.info.isVisible)

def labelled? (t : Tree) (label : String) : Option Tree :=
  t.children.find? fun c => c.info.field == some label

/-- An annotation stands for its first part, if it has one. -/
def unwrapped (g : Grammar) (t : Tree) : Tree :=
  if g.isTypeWrapper t.info.kind then t.parts.head?.getD t else t

/-- The tree in a role; types are unwrapped. -/
def inRole? (g : Grammar) (t : Tree) (role : Role) : Option Tree := do
  let label ← Reading.fieldLabel? (g.category t.info.kind) role
  let c ← t.labelled? label
  some (if role = .type ∨ role = .returnType then c.unwrapped g else c)

/-- The child that holds the trees of a role. Arguments have to be held by a node of that kind. -/
def holder? (t : Tree) (role : Role) : Option Tree := do
  let label ← Reading.listLabel? role
  let holder ← t.labelled? label
  if role = .arguments ∧ holder.info.kindName ≠ "arguments" then none else some holder

/-- The kind of the modifier that a tree is or wraps for its parent. -/
def modifier? (g : Grammar) (t : Tree) : Option KindId :=
  if t.info.field.isSome then none
  else if g.isModifier t.info.kind then some t.info.kind
  else if g.isWrapper t.info.kind then t.children.head?.map (·.info.kind)
  else none

/-- The kinds of the modifiers of a tree. -/
def modifiers (g : Grammar) (t : Tree) : List KindId :=
  if g.isKeywordOwner t.info.kind then [] else t.children.filterMap (modifier? g)

theorem labelled?_mem {t c : Tree} {label : String} (h : t.labelled? label = some c) :
    c ∈ t.children ∧ c.info.field = some label := by
  have hc := List.find?_some h
  exact ⟨List.mem_of_find?_eq_some h, by simpa using hc⟩

theorem mem_parts {t c : Tree} : c ∈ t.parts ↔ c ∈ t.children ∧ c.info.isPart := by
  simp [parts]

theorem parts_subset_children (t : Tree) : t.parts ⊆ t.children := List.filter_subset_self _

theorem named_of_isPart {info : NodeInfo} (h : info.isPart) : info.named := by
  simp only [NodeInfo.isPart, Bool.and_eq_true] at h
  exact h.1

theorem isVisible_of_isPart {info : NodeInfo} (h : info.isPart) : info.isVisible := by
  simp only [NodeInfo.isPart, Bool.and_eq_true] at h
  simp [NodeInfo.isVisible, h]

/-- What is visible without being a part is a token. -/
theorem not_named_of_isVisible {info : NodeInfo} (h : info.isVisible) (hp : info.isPart = false) :
    info.named = false := by
  cases hn : info.named <;> simp_all [NodeInfo.isVisible, NodeInfo.isPart]

theorem mem_visibleChildren {g : Grammar} {t c : Tree} :
    c ∈ t.visibleChildren g ↔
      g.isAtomic t.info.kind = false ∧ c ∈ t.children ∧ c.info.isVisible := by
  unfold visibleChildren
  split_ifs with h <;> simp [h]

theorem unwrapped_cases (g : Grammar) (t : Tree) :
    t.unwrapped g = t ∨ g.isTypeWrapper t.info.kind ∧ t.unwrapped g ∈ t.parts := by
  unfold unwrapped
  split_ifs with h
  · cases hp : t.parts with
    | nil => exact Or.inl rfl
    | cons p ps => exact Or.inr ⟨h, by simp⟩
  · exact Or.inl rfl

/-- A tree in a role is the child under the label of the role, or for types a part of that child. -/
theorem inRole?_cases {g : Grammar} {t u : Tree} {role : Role} (h : t.inRole? g role = some u) :
    ∃ label c, Reading.fieldLabel? (g.category t.info.kind) role = some label ∧
      t.labelled? label = some c ∧
      (u = c ∨ (role = .type ∨ role = .returnType) ∧ g.isTypeWrapper c.info.kind ∧ u ∈ c.parts) := by
  simp only [inRole?, Option.bind_eq_bind, Option.bind_eq_some_iff, Option.some.injEq] at h
  obtain ⟨label, hlabel, c, hc, rfl⟩ := h
  refine ⟨label, c, hlabel, hc, ?_⟩
  split_ifs with hrole
  · rcases c.unwrapped_cases g with heq | ⟨hw, hp⟩
    · exact Or.inl heq
    · exact Or.inr ⟨hrole, hw, hp⟩
  · exact Or.inl rfl

theorem holder?_labelled {t holder : Tree} {role : Role} (h : t.holder? role = some holder) :
    ∃ label, Reading.listLabel? role = some label ∧ t.labelled? label = some holder := by
  simp only [holder?, Option.bind_eq_bind, Option.bind_eq_some_iff] at h
  obtain ⟨label, hlabel, c, hc, h⟩ := h
  split_ifs at h with hkind
  obtain rfl := Option.some.inj h
  exact ⟨label, hlabel, hc⟩

def describedInRole (g : Grammar) (t : Tree) (role : Role) : List Tree :=
  (if role ∈ (g.category t.info.kind).fieldRoles then (t.inRole? g role).toList else []) ++
    if role ∈ (g.category t.info.kind).listRoles then ((t.holder? role).map parts).getD [] else []

/-- The trees that are described right inside the description of a tree, along every edge. -/
def described (g : Grammar) (t : Tree) : List Tree :=
  Role.all.flatMap (t.describedInRole g) ++ t.visibleChildren g

theorem describedInRole_subset_described {g : Grammar} (t : Tree) (role : Role) :
    t.describedInRole g role ⊆ t.described g :=
  fun _ hu => List.mem_append_left _ (List.mem_flatMap.2 ⟨role, role.mem_all, hu⟩)

/-- What is described inside a tree is a child or a part of a child. -/
theorem described_cases {g : Grammar} {t u : Tree} (h : u ∈ t.described g) :
    u ∈ t.children ∨ ∃ c ∈ t.children, u ∈ c.parts := by
  simp only [described, describedInRole, List.mem_append, List.mem_flatMap] at h
  rcases h with ⟨role, -, h | h⟩ | h
  · split_ifs at h with hrole
    · obtain ⟨label, c, -, hc, rfl | ⟨-, -, hu⟩⟩ := inRole?_cases (Option.mem_toList.1 h)
      · exact Or.inl (labelled?_mem hc).1
      · exact Or.inr ⟨c, (labelled?_mem hc).1, hu⟩
    · contradiction
  · split_ifs at h with hrole
    · cases hh : t.holder? role with
      | none => simp [hh] at h
      | some holder =>
        obtain ⟨label, -, hc⟩ := holder?_labelled hh
        exact Or.inr ⟨holder, (labelled?_mem hc).1, by simpa [hh] using h⟩
    · contradiction
  · exact Or.inl (mem_visibleChildren.1 h).2.1

theorem size_lt_of_mem_children {t c : Tree} (h : c ∈ t.children) : c.size < t.size := by
  have hle := List.le_sum_of_mem (List.mem_map_of_mem (f := size) h)
  rw [t.size_eq]
  omega

theorem size_lt_of_described {g : Grammar} {t u : Tree} (h : u ∈ t.described g) :
    u.size < t.size := by
  rcases described_cases h with hu | ⟨c, hc, hu⟩
  · exact size_lt_of_mem_children hu
  · exact Nat.lt_trans (size_lt_of_mem_children (parts_subset_children c hu)) (size_lt_of_mem_children hc)

/-- Induction with the hypothesis for all that is described inside a tree. -/
theorem described_induction (g : Grammar) {motive : Tree → Prop}
    (h : ∀ t, (∀ u ∈ t.described g, motive u) → motive t) (t : Tree) : motive t :=
  h t fun u _ => described_induction g h u
termination_by t.size
decreasing_by exact size_lt_of_described ‹_›

theorem described_subset_subtrees {g : Grammar} {t u : Tree} (h : u ∈ t.described g) :
    u ∈ t.subtrees := by
  rcases described_cases h with hu | ⟨c, hc, hu⟩
  · exact child_mem_subtrees hu
  · exact subtrees_trans (child_mem_subtrees hc) (child_mem_subtrees (parts_subset_children c hu))

end ScriptTree.Tree
