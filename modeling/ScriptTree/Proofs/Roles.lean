import ScriptTree.Proofs.Grammar
import ScriptTree.Proofs.Record.OfTree

/-! Roles and children agree: what a record has in its roles is also found along its children. -/
namespace ScriptTree

/-- Whether comments stand under no label. -/
def Tree.ExtrasUnlabelled (t : Tree) : Prop :=
  ∀ u ∈ t.subtrees, u.info.extra → u.info.field = none

instance (t : Tree) : Decidable t.ExtrasUnlabelled := List.decidableBAll _ _

/-- Whether the record of a tree has in its roles what its children have. A type may be what an annotation
among the children wraps, and a list is held by one of the children. -/
structure RolesAmongChildren (g : Grammar) (record : Tree → Record) (t : Tree) : Prop where
  one : ∀ role r, (record t).inRole? role = some r →
    r ∈ (record t).childList ∨
    (role = .type ∨ role = .returnType) ∧
      ∃ label c, Reading.fieldLabel? (g.category t.info.kind) role = some label ∧
        t.labelled? label = some c ∧ g.isTypeWrapper c.info.kind ∧ c.parts ≠ [] ∧
        record c ∈ (record t).childList ∧ r ∈ (record c).childList
  several : ∀ role rs, (record t).listInRole? role = some rs → (role = .arguments → rs ≠ []) →
    ∃ holder, t.holder? role = some holder ∧ record holder ∈ (record t).childList ∧
      (g.isAtomic holder.info.kind = false → rs.Sublist (record holder).childList)

namespace Tree

section Record

variable (g : Grammar) (source : List Char) (offsets : OffsetMap)

theorem record_mem_childList {t c : Tree} (ht : g.isAtomic t.info.kind = false)
    (hc : c ∈ t.children) (hv : c.info.isVisible) :
    c.record g source offsets ∈ (t.record g source offsets).childList := by
  rw [childList_record]
  exact List.mem_map_of_mem (mem_visibleChildren.2 ⟨ht, hc, hv⟩)

theorem parts_sublist_childList {t : Tree} (ht : g.isAtomic t.info.kind = false) :
    (t.parts.map (record g source offsets)).Sublist (t.record g source offsets).childList := by
  rw [childList_record, visibleChildren, if_neg (by simp [ht])]
  apply List.Sublist.map
  apply List.monotone_filter_right
  intro c hc
  exact isVisible_of_isPart hc

/-- A list in a role has the records of the holder's parts. Without a holder it is at most an empty list of
arguments. -/
theorem listInRole?_cases {t : Tree} {role : Role} {rs : List Record}
    (h : (t.record g source offsets).listInRole? role = some rs)
    (hne : role = .arguments → rs ≠ []) :
    role ∈ (g.category t.info.kind).listRoles ∧
      ∃ holder, t.holder? role = some holder ∧ rs = holder.parts.map (record g source offsets) := by
  rw [listInRole?_record] at h
  cases hh : t.holder? role with
  | none =>
    split_ifs at h with hrole harguments
    · simp_all
    · simp [hh] at h
  | some holder =>
    split_ifs at h with hrole harguments
    · exact ⟨hrole, holder, rfl, by simpa [hh] using h.symm⟩
    · exact ⟨hrole, holder, rfl, by simpa [hh] using h.symm⟩

end Record

theorem ExtrasUnlabelled.isVisible {t c : Tree} {label : String} (h : t.ExtrasUnlabelled)
    (hc : t.labelled? label = some c) : c.info.isVisible := by
  obtain ⟨hmem, hfield⟩ := labelled?_mem hc
  have hextra : c.info.extra = false := by
    by_contra hextra
    have := h c (child_mem_subtrees hmem) (by simpa using hextra)
    rw [hfield] at this
    contradiction
  simp [NodeInfo.isVisible, hextra, hfield]

theorem ExtrasUnlabelled.of_mem {t u : Tree} (h : t.ExtrasUnlabelled) (hu : u ∈ t.subtrees) :
    u.ExtrasUnlabelled :=
  fun v hv => h v (subtrees_trans hu hv)

variable (kinds : List Kind) (source : List Char) (offsets : OffsetMap)

theorem rolesAmongChildren {t : Tree} (h : t.ExtrasUnlabelled) :
    RolesAmongChildren (.ofKinds kinds) (record (.ofKinds kinds) source offsets) t where
  one role r hr := by
    rw [inRole?_record] at hr
    split_ifs at hr with hrole
    obtain ⟨u, hu, rfl⟩ := Option.map_eq_some_iff.1 hr
    obtain ⟨label, c, hlabel, hc, hcases⟩ := inRole?_cases hu
    have htop := Grammar.isAtomic_ofKinds kinds t.info.kind (Or.inl (List.ne_nil_of_mem hrole))
    have hchild := record_mem_childList _ source offsets htop (labelled?_mem hc).1 (h.isVisible hc)
    rcases hcases with rfl | ⟨htype, hwrapper, hpart⟩
    · exact Or.inl hchild
    · have hannotation := Grammar.isAtomic_ofKinds kinds c.info.kind (Or.inr (Or.inr hwrapper))
      obtain ⟨hmem, hp⟩ := mem_parts.1 hpart
      exact Or.inr ⟨htype, label, c, hlabel, hc, hwrapper, List.ne_nil_of_mem hpart, hchild,
        record_mem_childList _ source offsets hannotation hmem (isVisible_of_isPart hp)⟩
  several role rs hrs hne := by
    obtain ⟨hrole, holder, hholder, rfl⟩ := listInRole?_cases _ source offsets hrs hne
    obtain ⟨label, -, hc⟩ := holder?_labelled hholder
    have htop := Grammar.isAtomic_ofKinds kinds t.info.kind
      (Or.inr (Or.inl (List.ne_nil_of_mem hrole)))
    exact ⟨holder, hholder,
      record_mem_childList _ source offsets htop (labelled?_mem hc).1 (h.isVisible hc),
      parts_sublist_childList _ source offsets⟩

/-- Roles and children agree in every record that the record of a tree holds, along every edge. -/
theorem roles_among_children (unit : OffsetUnit) (t : Tree) (h : t.ExtrasUnlabelled) :
    ∀ r ∈ (t.normalize (.ofKinds kinds) source unit).nested, ∃ u ∈ t.subtrees,
      r = u.normalize (.ofKinds kinds) source unit ∧
      RolesAmongChildren (.ofKinds kinds) (normalize (.ofKinds kinds) source unit) u := by
  intro r hr
  obtain ⟨u, hu, rfl⟩ := exists_of_mem_nested_record _ source _ hr
  exact ⟨u, hu, rfl, rolesAmongChildren kinds source _ (h.of_mem hu)⟩

/-- A variable with an annotation that has a comment in it. -/
def annotatedVariable : Tree :=
  .node { kind := 186, kindName := "variable_declarator", named := true, start := 0, stop := 8 }
    [.node { kind := 1, kindName := "identifier", field := "name", named := true
             start := 0, stop := 1 } [],
      .node { kind := 303, kindName := "type_annotation", field := "type", named := true
              start := 1, stop := 8 }
        [.node { kind := 41, kindName := ":", start := 1, stop := 2 } [],
          .node { kind := 104, kindName := "comment", named := true, extra := true
                  start := 2, stop := 6 } [],
          .node { kind := 383, kindName := "type_identifier", named := true
                  start := 7, stop := 8 } []]]

theorem annotatedVariable_roles_among_children :
    annotatedVariable.ExtrasUnlabelled ∧
    ∀ r ∈ (annotatedVariable.normalize (.ofKinds Grammar.typedKinds) "x:/**/ T".toList
        .utf16).nested, ∃ u ∈ annotatedVariable.subtrees,
      r = u.normalize (.ofKinds Grammar.typedKinds) "x:/**/ T".toList .utf16 ∧
      RolesAmongChildren (.ofKinds Grammar.typedKinds)
        (normalize (.ofKinds Grammar.typedKinds) "x:/**/ T".toList .utf16) u := by
  have h : annotatedVariable.ExtrasUnlabelled := by decide
  exact ⟨h, roles_among_children _ _ _ _ h⟩

end Tree

end ScriptTree
