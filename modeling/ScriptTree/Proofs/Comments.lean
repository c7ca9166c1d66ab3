import ScriptTree.Proofs.Lossless
import ScriptTree.Proofs.Syntax.Comments

/-! What comments change. The record of a tree is the same without them, unless they stand where they are taken
for something else. The native form is not: a node that holds nothing but comments loses its text. -/
namespace ScriptTree

namespace Tree

section Record

variable {g : Grammar} {source : List Char} {t : Tree} (h : t.CommentsApart)
  (hinside : ∀ c ∈ t.children, ∀ u ∈ c.subtrees,
    u.withoutComments.toSyntax g source = u.toSyntax g source)

include h hinside

theorem fields_withoutComments (role : Role) :
    (t.withoutComments.inRole? g role).map (fun u => (role, u.toSyntax g source)) =
      (t.inRole? g role).map fun u => (role, u.toSyntax g source) := by
  rw [h.inRole?_withoutComments, Option.map_map]
  cases hu : t.inRole? g role with
  | none => rfl
  | some u =>
    obtain ⟨label, c, -, hc, hcases⟩ := inRole?_cases hu
    have hsub : u ∈ c.subtrees := by
      rcases hcases with rfl | ⟨-, -, hpart⟩
      · exact self_mem_subtrees u
      · exact child_mem_subtrees (parts_subset_children c hpart)
    simp [hinside c (labelled?_mem hc).1 u hsub]

theorem lists_withoutComments (role : Role) :
    (t.withoutComments.holder? role).map
        (fun holder => (role, holder.parts.map (toSyntax g source))) =
      (t.holder? role).map fun holder => (role, holder.parts.map (toSyntax g source)) := by
  rw [h.holder?_withoutComments, Option.map_map]
  cases hholder : t.holder? role with
  | none => rfl
  | some holder =>
    obtain ⟨label, -, hc⟩ := holder?_labelled hholder
    have hparts : holder.parts.map (fun u => u.withoutComments.toSyntax g source) =
        holder.parts.map (toSyntax g source) :=
      List.map_congr_left fun u hu =>
        hinside holder (labelled?_mem hc).1 u (child_mem_subtrees (parts_subset_children holder hu))
    simp [parts_withoutComments, Function.comp_def, hparts]

theorem children_toSyntax_withoutComments :
    (t.withoutComments.visibleChildren g).map (toSyntax g source) =
      (t.visibleChildren g).map (toSyntax g source) := by
  rw [h.visibleChildren_withoutComments, List.map_map]
  exact List.map_congr_left fun c hc =>
    hinside c (mem_visibleChildren.1 hc).2.1 c c.self_mem_subtrees

end Record

/-- What is read of a tree is the same without its comments. -/
theorem toSyntax_withoutComments {g : Grammar} (source : List Char) {t : Tree}
    (h : t.CommentsHarmless g)
    (hmodifier : ∀ u ∈ t.subtrees, u.info.extra → g.isModifier u.info.kind = false) :
    t.withoutComments.toSyntax g source = t.toSyntax g source := by
  induction t using subtrees_induction with
  | h t ih =>
    have hinside : ∀ c ∈ t.children, ∀ u ∈ c.subtrees,
        u.withoutComments.toSyntax g source = u.toSyntax g source := by
      intro c hc u hu
      have hmem := subtrees_trans (child_mem_subtrees hc) hu
      exact ih c hc u hu (h.of_mem hmem) fun v hv => hmodifier v (subtrees_trans hmem hv)
    have hmodifiers := h.modifiers_withoutComments fun c hc => hmodifier c (child_mem_subtrees hc)
    rw [toSyntax_eq, toSyntax_eq _ _ t, info_withoutComments, h.isEmpty_withoutComments, hmodifiers,
      children_toSyntax_withoutComments h.toCommentsApart hinside]
    simp only [fields_withoutComments h.toCommentsApart hinside,
      lists_withoutComments h.toCommentsApart hinside]

/-- Comments are invisible in the record of a tree, whatever its positions count. -/
theorem normalize_withoutComments (kinds : List Kind) (source : List Char) (unit : OffsetUnit) (t : Tree)
    (hkinds : t.NamedAsKinds kinds) (h : t.CommentsHarmless (.ofKinds kinds)) :
    t.withoutComments.normalize (.ofKinds kinds) source unit =
      t.normalize (.ofKinds kinds) source unit := by
  have hmodifier : ∀ u ∈ t.subtrees, u.info.extra →
      (Grammar.ofKinds kinds).isModifier u.info.kind = false :=
    fun u hu => h.not_isModifier hkinds hu
  rw [normalize, normalize, toSyntax_withoutComments source h hmodifier]

/-- A comment. -/
def commentAt (start stop : Nat) : Tree :=
  .node { kind := 104, kindName := "comment", named := true, extra := true, start, stop } []

/-- A private method with comments behind its modifier, as its only parameter, in front of its type and in its
body. -/
def commentedMethod : Tree :=
  .node { kind := 262, kindName := "method_definition", named := true, start := 0, stop := 41 }
    [.node { kind := 295, kindName := "accessibility_modifier", named := true, start := 0, stop := 7 }
      [.node { kind := 128, kindName := "private", start := 0, stop := 7 } []],
      commentAt 8 13,
      .node { kind := 378, kindName := "property_identifier", field := "name", named := true
              start := 14, stop := 17 } [],
      .node { kind := 258, kindName := "formal_parameters", field := "parameters", named := true
              start := 17, stop := 24 }
        [.node { kind := 28, kindName := "(", start := 17, stop := 18 } [], commentAt 18 23,
          .node { kind := 30, kindName := ")", start := 23, stop := 24 } []],
      .node { kind := 303, kindName := "type_annotation", field := "return_type", named := true
              start := 24, stop := 33 }
        [.node { kind := 41, kindName := ":", start := 24, stop := 25 } [], commentAt 26 31,
          .node { kind := 383, kindName := "type_identifier", named := true, start := 32, stop := 33 } []],
      .node { kind := 187, kindName := "statement_block", field := "body", named := true
              start := 34, stop := 41 }
        [.node { kind := 10, kindName := "\x7b", start := 34, stop := 35 } [], commentAt 35 40,
          .node { kind := 12, kindName := "\x7d", start := 40, stop := 41 } []]]

def methodSource : List Char := "private /*a*/ run(/*b*/): /*c*/ T \x7b/*d*/\x7d".toList

theorem commentedMethod_withoutComments :
    (commentedMethod.NamedAsKinds Grammar.typedKinds ∧
      commentedMethod.CommentsHarmless (.ofKinds Grammar.typedKinds)) ∧
    commentedMethod.withoutComments.size + 4 = commentedMethod.size ∧
    commentedMethod.withoutComments.normalize (.ofKinds Grammar.typedKinds) methodSource .utf16 =
      commentedMethod.normalize (.ofKinds Grammar.typedKinds) methodSource .utf16 := by
  have hkinds : commentedMethod.NamedAsKinds Grammar.typedKinds := by decide +kernel
  have hcomments : commentedMethod.CommentsHarmless (.ofKinds Grammar.typedKinds) :=
    ⟨⟨by decide, by decide⟩, by decide +kernel, by decide, by decide +kernel⟩
  exact ⟨⟨hkinds, hcomments⟩, by decide, normalize_withoutComments _ _ _ _ hkinds hcomments⟩

/-- Whether a node that is no single token holds comments and, besides them, only tokens. -/
def HoldsOnlyComments (g : Grammar) (t : Tree) : Prop :=
  g.isAtomic t.info.kind = false ∧ t.parts = [] ∧ ∃ c ∈ t.children, c.info.extra

instance (g : Grammar) (t : Tree) : Decidable (t.HoldsOnlyComments g) :=
  decidable_of_iff (g.isAtomic t.info.kind = false ∧ t.parts.isEmpty ∧ ∃ c ∈ t.children, c.info.extra)
    (by rw [HoldsOnlyComments, List.isEmpty_iff])

end Tree

namespace Native

variable (g : Grammar)

mutual

/-- The tree and all trees inside it that have objects of their own in its native form. -/
def nodes : Tree → List Tree
  | .node info children =>
    .node info children :: if g.isAtomic info.kind then [] else nodesList children

def nodesList : List Tree → List Tree
  | [] => []
  | t :: ts => (if t.info.isPart then nodes t else []) ++ nodesList ts

end

theorem nodesList_eq (ts : List Tree) :
    nodesList g ts = (ts.filter (·.info.isPart)).flatMap (nodes g) := by
  induction ts with
  | nil => rfl
  | cons t ts ih =>
    rw [nodesList, ih, List.filter_cons]
    split_ifs <;> simp

/-- A tree whose form is its text has no parts, unless it is a single token. -/
theorem nativeParts_eq (t : Tree) :
    nativeParts g t = if g.isAtomic t.info.kind then [] else t.parts := by
  unfold nativeParts isLeaf
  by_cases hatomic : g.isAtomic t.info.kind
  · simp [hatomic]
  · cases hnamed : t.children.any (·.info.named) with
    | true => simp [hatomic]
    | false =>
      have hparts : t.parts = [] := by
        simp_all [Tree.parts, NodeInfo.isPart]
      simp [hatomic, hparts]

theorem nodes_eq (t : Tree) : nodes g t = t :: (nativeParts g t).flatMap (nodes g) := by
  cases t with
  | node info children =>
    rw [nodes, nodesList_eq, nativeParts_eq, Tree.info_node]
    split_ifs <;> rfl

theorem nodes_subset_subtrees {t u : Tree} (h : u ∈ nodes g t) : u ∈ t.subtrees := by
  induction t with
  | node info children ih =>
    rw [nodes_eq, List.mem_cons, List.mem_flatMap] at h
    rcases h with rfl | ⟨c, hc, hu⟩
    · exact Tree.self_mem_subtrees _
    · have hchild := Tree.parts_subset_children _ (mem_parts_of_mem_nativeParts g hc)
      exact Tree.subtrees_trans (Tree.child_mem_subtrees hchild) (ih c hchild hu)

theorem nodes_withoutComments (t : Tree) :
    nodes g t.withoutComments = (nodes g t).map Tree.withoutComments := by
  induction t with
  | node info children ih =>
    rw [nodes_eq, nodes_eq, nativeParts_eq, nativeParts_eq, Tree.info_withoutComments, List.map_cons,
      Tree.parts_withoutComments]
    congr 1
    split_ifs with hatomic
    · rfl
    · rw [List.flatMap_map, List.map_flatMap]
      exact List.flatMap_congr fun c hc => ih c (Tree.parts_subset_children _ hc)

/-- Without comments a node has its text if it has no parts. -/
theorem isLeaf_withoutComments_iff (t : Tree) :
    isLeaf g t.withoutComments = true ↔ g.isAtomic t.info.kind = true ∨ t.parts = [] := by
  have hchildren : (∀ c ∈ t.withoutComments.children, c.info.named = false) ↔ t.parts = [] := by
    rw [Tree.children_withoutComments, Tree.parts, List.filter_eq_nil_iff, List.forall_mem_map]
    simp only [List.mem_filter, Tree.info_withoutComments]
    refine forall_congr' fun c => ?_
    cases hextra : c.info.extra <;> simp [NodeInfo.isPart, hextra]
  rw [isLeaf_iff, Tree.info_withoutComments, hchildren]

theorem isLeaf_withoutComments_of_isLeaf {t : Tree} (h : isLeaf g t) : isLeaf g t.withoutComments := by
  rw [isLeaf_withoutComments_iff]
  refine ((isLeaf_iff g t).1 h).imp_right fun hnamed => ?_
  rw [Tree.parts, List.filter_eq_nil_iff]
  intro c hc
  simp [NodeInfo.isPart, hnamed c hc]

/-- The nodes that hold only comments are those that have their text only without comments. -/
theorem holdsOnlyComments_iff {t : Tree} (h : t.CommentsApart) :
    t.HoldsOnlyComments g ↔ isLeaf g t.withoutComments ∧ isLeaf g t = false := by
  rw [isLeaf_withoutComments_iff, ← Bool.not_eq_true, isLeaf_iff, Tree.HoldsOnlyComments]
  constructor
  · rintro ⟨hatomic, hparts, c, hc, hextra⟩
    refine ⟨Or.inr hparts, ?_⟩
    rintro (htrue | hnamed)
    · simp [hatomic] at htrue
    · have hcomment := h.named c (Tree.child_mem_subtrees hc) hextra
      simp [hnamed c hc] at hcomment
  · rintro ⟨hleaf, hnot⟩
    obtain ⟨hatomic, hnamed⟩ := not_or.1 hnot
    have hparts := hleaf.resolve_left hatomic
    push Not at hnamed
    obtain ⟨c, hc, hc'⟩ := hnamed
    refine ⟨Bool.eq_false_of_not_eq_true hatomic, hparts, c, hc, ?_⟩
    have hpart := List.filter_eq_nil_iff.1 hparts c hc
    simp_all [NodeInfo.isPart]

theorem isLeaf_withoutComments_eq {t : Tree} (h : t.CommentsApart) (honly : ¬t.HoldsOnlyComments g) :
    isLeaf g t.withoutComments = isLeaf g t := by
  rw [holdsOnlyComments_iff g h] at honly
  cases hleaf : isLeaf g t with
  | true => exact isLeaf_withoutComments_of_isLeaf g hleaf
  | false => exact Bool.eq_false_of_not_eq_true fun hleaf' => honly ⟨hleaf', hleaf⟩

section OfTree

variable (source : List Char) (offsets : OffsetMap)

/-- Comments decide whether a node has its text exactly if it holds nothing else. -/
theorem text_withoutComments_iff {t : Tree} (h : t.CommentsApart) :
    (ofTree g source offsets t.withoutComments).get? "text" =
      (ofTree g source offsets t).get? "text" ↔ ¬t.HoldsOnlyComments g := by
  obtain ⟨-, -, -, htext⟩ := get?_ofTree g source offsets t
  obtain ⟨-, -, -, htext'⟩ := get?_ofTree g source offsets t.withoutComments
  rw [htext, htext', Tree.info_withoutComments]
  constructor
  · intro heq honly
    obtain ⟨hleaf', hleaf⟩ := (holdsOnlyComments_iff g h).1 honly
    simp [hleaf', hleaf] at heq
  · intro honly
    rw [isLeaf_withoutComments_eq g h honly]

theorem objects_perm_nodes (t : Tree) :
    (ofTree g source offsets t).objects.Perm ((nodes g t).map (ofTree g source offsets)) := by
  induction t with
  | node info children ih =>
    refine (objects_ofTree g source offsets _).trans ?_
    rw [nodes_eq, List.map_cons, List.map_flatMap]
    apply List.Perm.cons
    apply List.Perm.flatMap_left
    intro c hc
    exact ih c (Tree.parts_subset_children _ (mem_parts_of_mem_nativeParts g hc))

/-- As many objects have a text as nodes have one. -/
theorem countP_objects (t : Tree) :
    (ofTree g source offsets t).objects.countP (fun j => (j.get? "text").isSome) =
      (nodes g t).countP (isLeaf g) := by
  rw [(objects_perm_nodes g source offsets t).countP_eq, List.countP_map]
  refine List.countP_congr fun u _ => ?_
  obtain ⟨-, -, -, htext⟩ := get?_ofTree g source offsets u
  rw [Function.comp_apply, htext]
  split_ifs with hleaf <;> simp [hleaf]

private theorem forall_of_countP_eq {α : Type} {p q : α → Bool} {as : List α}
    (himp : ∀ a ∈ as, p a → q a) (heq : as.countP p = as.countP q) : ∀ a ∈ as, q a → p a := by
  intro a ha hq
  by_contra hp
  obtain ⟨before, behind, rfl⟩ := List.append_of_mem ha
  have hbefore := List.countP_mono_left fun b hb => himp b (List.mem_append_left _ hb)
  have hbehind := List.countP_mono_left fun b hb =>
    himp b (List.mem_append_right _ (List.mem_cons_of_mem a hb))
  rw [List.countP_append, List.countP_append, List.countP_cons_of_neg hp,
    List.countP_cons_of_pos hq] at heq
  omega

/-- If the native forms are the same, no node has lost its text. -/
theorem not_holdsOnlyComments_of_eq {t : Tree} (h : t.CommentsApart)
    (heq : ofTree g source offsets t.withoutComments = ofTree g source offsets t) :
    ∀ u ∈ nodes g t, ¬u.HoldsOnlyComments g := by
  have hcount := (countP_objects g source offsets t).symm
  rw [← heq, countP_objects, nodes_withoutComments, List.countP_map] at hcount
  intro u hu honly
  have hsub := nodes_subset_subtrees g hu
  obtain ⟨hleaf, hnot⟩ := (holdsOnlyComments_iff g (h.of_mem hsub)).1 honly
  have hall := forall_of_countP_eq (fun _ _ => isLeaf_withoutComments_of_isLeaf g) hcount u hu hleaf
  rw [hnot] at hall
  contradiction

section Step

variable {t : Tree} (h : t.CommentsApart)
  (hparts : ∀ c ∈ t.parts, ofTree g source offsets c.withoutComments = ofTree g source offsets c)

include h hparts

theorem field?_withoutComments :
    (partsOf g source offsets t.withoutComments.children).filterMap Part.field? =
      (partsOf g source offsets t.children).filterMap Part.field? := by
  rw [field?_partsOf, field?_partsOf, Tree.children_withoutComments, List.filterMap_map,
    List.filterMap_filter]
  refine List.filterMap_congr fun c hc => ?_
  cases hextra : c.info.extra with
  | true =>
    have hlabel : label? c.info = none := by rw [label?, h.field_eq_none hc hextra]; rfl
    simp [hlabel]
  | false =>
    have hvalue : valueOf g source offsets c.withoutComments = valueOf g source offsets c := by
      unfold valueOf
      rw [Tree.info_withoutComments]
      split_ifs with hpart
      · exact hparts c (Tree.mem_parts.2 ⟨hc, hpart⟩)
      · rfl
    simp [hvalue]

omit h in
theorem child?_withoutComments :
    (partsOf g source offsets t.withoutComments.children).filterMap Part.child? =
      (partsOf g source offsets t.children).filterMap Part.child? := by
  rw [child?_partsOf, child?_partsOf, unlabelled, unlabelled, Tree.parts_withoutComments,
    List.filter_map, List.map_map]
  simp only [Function.comp_def, Tree.info_withoutComments]
  exact List.map_congr_left fun c hc => hparts c (List.mem_of_mem_filter hc)

end Step

/-- A node that does not hold only comments has the same native form without them, if its parts have. -/
theorem ofTree_withoutComments_step {t : Tree} (h : t.CommentsApart)
    (honly : ¬t.HoldsOnlyComments g)
    (hparts : ∀ c ∈ nativeParts g t,
      ofTree g source offsets c.withoutComments = ofTree g source offsets c) :
    ofTree g source offsets t.withoutComments = ofTree g source offsets t := by
  rw [ofTree_eq, ofTree_eq _ _ _ t, Tree.info_withoutComments, isLeaf_withoutComments_eq g h honly]
  cases hleaf : isLeaf g t with
  | true => rfl
  | false =>
    rw [nativeParts, hleaf] at hparts
    rw [membersOf_eq, membersOf_eq, field?_withoutComments g source offsets h hparts,
      child?_withoutComments g source offsets hparts]

theorem ofTree_withoutComments {t : Tree} (h : t.CommentsApart)
    (honly : ∀ u ∈ nodes g t, ¬u.HoldsOnlyComments g) :
    ofTree g source offsets t.withoutComments = ofTree g source offsets t := by
  induction t with
  | node info children ih =>
    rw [nodes_eq, List.forall_mem_cons] at honly
    refine ofTree_withoutComments_step g source offsets h honly.1 fun c hc => ?_
    have hchild := Tree.parts_subset_children _ (mem_parts_of_mem_nativeParts g hc)
    exact ih c hchild (h.of_mem (Tree.child_mem_subtrees hchild)) fun u hu =>
      honly.2 u (List.mem_flatMap.2 ⟨c, hc, hu⟩)

end OfTree

end Native

namespace Tree

/-- The native form of a tree is the same without comments exactly if no node with an object in it holds only
comments, and it is only such a node whose text depends on them. -/
theorem native_withoutComments_iff (g : Grammar) (source : List Char) (unit : OffsetUnit) (t : Tree)
    (h : t.CommentsApart) :
    (t.withoutComments.native g source unit = t.native g source unit ↔
      ∀ u ∈ Native.nodes g t, ¬u.HoldsOnlyComments g) ∧
    ∀ u ∈ t.subtrees, ((u.withoutComments.native g source unit).get? "text" =
      (u.native g source unit).get? "text" ↔ ¬u.HoldsOnlyComments g) := by
  refine ⟨⟨?_, ?_⟩, ?_⟩
  · exact Native.not_holdsOnlyComments_of_eq g source _ h
  · exact Native.ofTree_withoutComments g source _ h
  · intro u hu
    exact Native.text_withoutComments_iff g source _ (h.of_mem hu)

/-- Arguments that are a comment. -/
def emptyArguments : Tree :=
  .node { kind := 226, kindName := "arguments", field := "arguments", named := true, start := 1, stop := 10 }
    [.node { kind := 23, kindName := "(", start := 1, stop := 2 } [],
      .node { kind := 108, kindName := "comment", named := true, extra := true, start := 2, stop := 9 } [],
      .node { kind := 25, kindName := ")", start := 9, stop := 10 } []]

def emptyCall : Tree :=
  .node { kind := 134, kindName := "program", named := true, start := 0, stop := 11 }
    [.node { kind := 150, kindName := "expression_statement", named := true, start := 0, stop := 11 }
      [.node { kind := 205, kindName := "call_expression", named := true, start := 0, stop := 10 }
        [.node { kind := 1, kindName := "identifier", field := "function", named := true
                 start := 0, stop := 1 } [],
          emptyArguments],
        .node { kind := 24, kindName := ";", start := 10, stop := 11 } []]]

theorem emptyCall_native_ne :
    let source := "f(/* c */);".toList
    emptyCall.CommentsApart ∧
    emptyCall.withoutComments.native .plain source .utf16 ≠ emptyCall.native .plain source .utf16 ∧
    (emptyArguments.withoutComments.native .plain source .utf16).get? "text" ≠
      (emptyArguments.native .plain source .utf16).get? "text" := by
  intro source
  have hcomments : emptyCall.CommentsApart := ⟨by decide, by decide⟩
  obtain ⟨hsame, htext⟩ := native_withoutComments_iff .plain source .utf16 emptyCall hcomments
  refine ⟨hcomments, ?_, ?_⟩
  · rw [Ne, hsame]
    decide +kernel
  · have hmem : emptyArguments ∈ emptyCall.subtrees := by
      simp [emptyCall, subtrees, subtreesList, self_mem_subtrees]
    rw [Ne, htext emptyArguments hmem]
    decide +kernel

end Tree

end ScriptTree
