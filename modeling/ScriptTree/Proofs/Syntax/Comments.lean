import ScriptTree.Proofs.Roles

/-! Trees without their comments: which children they have, in which roles, and what modifies them. -/
namespace ScriptTree.Tree

mutual

/-- The tree without the comments below its top, and without all that is inside them. -/
def withoutComments : Tree → Tree
  | .node info children => .node info (withoutCommentsList children)

def withoutCommentsList : List Tree → List Tree
  | [] => []
  | t :: ts =>
    if t.info.extra then withoutCommentsList ts else t.withoutComments :: withoutCommentsList ts

end

theorem withoutCommentsList_eq (ts : List Tree) :
    withoutCommentsList ts = (ts.filter fun c => !c.info.extra).map withoutComments := by
  induction ts with
  | nil => rfl
  | cons t ts ih =>
    rw [withoutCommentsList, ih]
    cases h : t.info.extra <;> simp [h]

@[simp] theorem info_withoutComments (t : Tree) : t.withoutComments.info = t.info := by
  cases t with
  | node info children => rfl

theorem children_withoutComments (t : Tree) :
    t.withoutComments.children = (t.children.filter fun c => !c.info.extra).map withoutComments := by
  cases t with
  | node info children => exact withoutCommentsList_eq children

/-- A choice among the children that takes no comment is the same without comments. -/
theorem filter_children_withoutComments (t : Tree) {p : NodeInfo → Bool}
    (h : ∀ c ∈ t.children, c.info.extra → p c.info = false) :
    t.withoutComments.children.filter (fun c => p c.info) =
      (t.children.filter fun c => p c.info).map withoutComments := by
  rw [children_withoutComments, List.filter_map, List.filter_filter]
  congr 1
  refine List.filter_congr fun c hc => ?_
  cases hextra : c.info.extra with
  | false => simp
  | true => simp [h c hc hextra]

theorem isPart_eq_false_of_extra {info : NodeInfo} (h : info.extra) : info.isPart = false := by
  simp [NodeInfo.isPart, h]

theorem parts_withoutComments (t : Tree) :
    t.withoutComments.parts = t.parts.map withoutComments :=
  t.filter_children_withoutComments fun _ _ => isPart_eq_false_of_extra

theorem unwrapped_withoutComments (g : Grammar) (t : Tree) :
    t.withoutComments.unwrapped g = (t.unwrapped g).withoutComments := by
  unfold unwrapped
  rw [info_withoutComments, parts_withoutComments]
  split_ifs with h
  · cases t.parts <;> rfl
  · rfl

/-- Whether comments are what a parser makes of them: named nodes under no label. -/
structure CommentsApart (t : Tree) : Prop where
  named : ∀ u ∈ t.subtrees, u.info.extra → u.info.named
  unlabelled : t.ExtrasUnlabelled

namespace CommentsApart

variable {t : Tree} (h : t.CommentsApart)

include h

theorem of_mem {u : Tree} (hu : u ∈ t.subtrees) : u.CommentsApart where
  named v hv := h.named v (subtrees_trans hu hv)
  unlabelled := h.unlabelled.of_mem hu

theorem field_eq_none {c : Tree} (hc : c ∈ t.children) (hextra : c.info.extra) :
    c.info.field = none :=
  h.unlabelled c (child_mem_subtrees hc) hextra

theorem isVisible_eq_false {c : Tree} (hc : c ∈ t.children) (hextra : c.info.extra) :
    c.info.isVisible = false := by
  simp [NodeInfo.isVisible, h.named c (child_mem_subtrees hc) hextra, hextra]

theorem visibleChildren_withoutComments (g : Grammar) :
    t.withoutComments.visibleChildren g = (t.visibleChildren g).map withoutComments := by
  unfold visibleChildren
  rw [info_withoutComments]
  split_ifs with hatomic
  · rfl
  · exact t.filter_children_withoutComments fun c => h.isVisible_eq_false

theorem labelled?_withoutComments (label : String) :
    t.withoutComments.labelled? label = (t.labelled? label).map withoutComments := by
  have hfilter := t.filter_children_withoutComments (p := fun info => info.field == some label)
    fun c hc hextra => by simp [h.field_eq_none hc hextra]
  rw [labelled?, labelled?, ← List.head?_filter, ← List.head?_filter, hfilter, List.head?_map]

theorem inRole?_withoutComments (g : Grammar) (role : Role) :
    t.withoutComments.inRole? g role = (t.inRole? g role).map withoutComments := by
  unfold inRole?
  rw [info_withoutComments]
  cases Reading.fieldLabel? (g.category t.info.kind) role with
  | none => rfl
  | some label =>
    simp only [Option.bind_eq_bind, Option.bind_some, h.labelled?_withoutComments]
    cases t.labelled? label with
    | none => rfl
    | some c =>
      simp only [Option.map_some, Option.bind_some, unwrapped_withoutComments]
      split_ifs <;> rfl

theorem holder?_withoutComments (role : Role) :
    t.withoutComments.holder? role = (t.holder? role).map withoutComments := by
  unfold holder?
  cases Reading.listLabel? role with
  | none => rfl
  | some label =>
    simp only [Option.bind_eq_bind, Option.bind_some, h.labelled?_withoutComments]
    cases t.labelled? label with
    | none => rfl
    | some c =>
      simp only [Option.map_some, Option.bind_some, info_withoutComments]
      split_ifs <;> rfl

end CommentsApart

/-- Whether each node is named exactly if its kind is, as for all nodes that a parser makes. -/
def NamedAsKinds (kinds : List Kind) (t : Tree) : Prop :=
  ∀ u ∈ t.subtrees, ∀ kind ∈ kinds[u.info.kind.toNat]?, u.info.named = kind.named

instance (kinds : List Kind) (t : Tree) : Decidable (t.NamedAsKinds kinds) := List.decidableBAll _ _

/-- Modifiers are tokens, and comments are not. -/
theorem CommentsApart.not_isModifier {kinds : List Kind} {t : Tree} (h : t.CommentsApart)
    (hkinds : t.NamedAsKinds kinds) {u : Tree} (hu : u ∈ t.subtrees) (hextra : u.info.extra) :
    (Grammar.ofKinds kinds).isModifier u.info.kind = false := by
  by_contra hmodifier
  obtain ⟨kind, hkind, htoken⟩ :=
    Grammar.not_named_of_isModifier (Bool.eq_true_of_not_eq_false hmodifier)
  have hnamed := h.named u hu hextra
  rw [hkinds u hu kind hkind, htoken] at hnamed
  contradiction

/-- Whether no comment stands where it is taken for something else: as a modifier, in front of one, or as all
that a node holds. -/
structure CommentsHarmless (g : Grammar) (t : Tree) : Prop extends t.CommentsApart where
  notWrapper : ∀ u ∈ t.subtrees, u.info.extra → g.isWrapper u.info.kind = false
  notAlone : ∀ u ∈ t.subtrees, u.children ≠ [] → ∃ c ∈ u.children, c.info.extra = false
  notFirst : ∀ u ∈ t.subtrees, g.isWrapper u.info.kind →
    ∀ c ∈ u.children.head?, c.info.extra = false

namespace CommentsHarmless

variable {g : Grammar} {t : Tree} (h : t.CommentsHarmless g)

include h

theorem of_mem {u : Tree} (hu : u ∈ t.subtrees) : u.CommentsHarmless g where
  toCommentsApart := h.toCommentsApart.of_mem hu
  notWrapper v hv := h.notWrapper v (subtrees_trans hu hv)
  notAlone v hv := h.notAlone v (subtrees_trans hu hv)
  notFirst v hv := h.notFirst v (subtrees_trans hu hv)

theorem isEmpty_withoutComments : t.withoutComments.children.isEmpty = t.children.isEmpty := by
  rw [children_withoutComments, List.isEmpty_map]
  cases hchildren : t.children with
  | nil => rfl
  | cons c cs =>
    obtain ⟨d, hd, hextra⟩ := h.notAlone t t.self_mem_subtrees (by simp [hchildren])
    have hmem : d ∈ (c :: cs).filter fun c => !c.info.extra := by
      rw [List.mem_filter, ← hchildren]
      exact ⟨hd, by simp [hextra]⟩
    simpa using List.ne_nil_of_mem hmem

/-- What a wrapper wraps is its first child, and that stays the first. -/
theorem head?_withoutComments (hwrapper : g.isWrapper t.info.kind) :
    t.withoutComments.children.head?.map (·.info.kind) =
      t.children.head?.map (·.info.kind) := by
  have hfirst := h.notFirst t t.self_mem_subtrees hwrapper
  rw [children_withoutComments]
  cases hchildren : t.children with
  | nil => rfl
  | cons c cs =>
    have hextra : c.info.extra = false := hfirst c (by simp [hchildren])
    simp [hextra]

theorem modifier?_withoutComments : t.withoutComments.modifier? g = t.modifier? g := by
  unfold modifier?
  rw [info_withoutComments]
  split_ifs with hfield hmodifier hwrapper
  · rfl
  · rfl
  · exact h.head?_withoutComments hwrapper
  · rfl

theorem modifiers_withoutComments
    (hmodifier : ∀ c ∈ t.children, c.info.extra → g.isModifier c.info.kind = false) :
    t.withoutComments.modifiers g = t.modifiers g := by
  unfold modifiers
  rw [info_withoutComments, children_withoutComments, List.filterMap_map, List.filterMap_filter]
  congr 1
  refine List.filterMap_congr fun c hc => ?_
  have hmem := child_mem_subtrees hc
  cases hextra : c.info.extra with
  | true => simp [modifier?, hmodifier c hc hextra, h.notWrapper c hmem hextra]
  | false => simpa using (h.of_mem hmem).modifier?_withoutComments

end CommentsHarmless

end ScriptTree.Tree
