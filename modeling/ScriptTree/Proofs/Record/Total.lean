import Mathlib.Algebra.BigOperators.Ring.List
import ScriptTree.Proofs.Record.OfTree

/-! How many records describe a tree. A child in a role is described twice, once in the role and once among
the children, so the number doubles with each role on the way down, and it grows no faster. -/
namespace ScriptTree

/-- The number of records, along every edge. -/
def Record.total (r : Record) : Nat := r.nested.length

namespace Category

/-- The label of the child that a role of a category is about. -/
def roleLabel? (category : Category) (role : Role) : Option String :=
  if role ∈ category.fieldRoles then Reading.fieldLabel? category role
  else if role ∈ category.listRoles then Reading.listLabel? role
  else none

def roleLabels (category : Category) : List String := Role.all.filterMap category.roleLabel?

theorem nodup_roleLabels (category : Category) : category.roleLabels.Nodup := by
  cases category <;> decide

theorem disjoint_roles {category : Category} {role : Role} (h : role ∈ category.fieldRoles) :
    role ∉ category.listRoles := by
  revert h
  cases category <;> cases role <;> decide

end Category

namespace Tree

def isUnder (labels : List String) (t : Tree) : Bool := t.info.field.any labels.contains

section RoleDepth

variable (g : Grammar)

mutual

/-- The most trees in a role on one way down. -/
def roleDepth : Tree → Nat
  | .node info children => roleDepthList (g.category info.kind).roleLabels children

def roleDepthList (labels : List String) : List Tree → Nat
  | [] => 0
  | t :: ts => max (t.roleDepth + (t.isUnder labels).toNat) (roleDepthList labels ts)

end

theorem roleDepthList_le_iff {labels : List String} {ts : List Tree} {d : Nat} :
    roleDepthList g labels ts ≤ d ↔ ∀ t ∈ ts, t.roleDepth g + (t.isUnder labels).toNat ≤ d := by
  induction ts with
  | nil => simp [roleDepthList]
  | cons t ts ih => rw [roleDepthList, Nat.max_le, ih, List.forall_mem_cons]

theorem roleDepth_le_iff {t : Tree} {d : Nat} :
    t.roleDepth g ≤ d ↔ ∀ c ∈ t.children,
      c.roleDepth g + (c.isUnder (g.category t.info.kind).roleLabels).toNat ≤ d := by
  cases t with
  | node info children => rw [roleDepth, roleDepthList_le_iff, children_node, info_node]

theorem roleDepth_child {t c : Tree} (h : c ∈ t.children) :
    c.roleDepth g + (c.isUnder (g.category t.info.kind).roleLabels).toNat ≤ t.roleDepth g :=
  (roleDepth_le_iff g).1 le_rfl c h

/-- The size of a tree, doubled for each role on the way down. -/
def weight (t : Tree) : Nat := 2 ^ t.roleDepth g * t.size

theorem weight_child {t c : Tree} (h : c ∈ t.children) :
    2 ^ (c.isUnder (g.category t.info.kind).roleLabels).toNat * c.weight g ≤
      2 ^ t.roleDepth g * c.size := by
  rw [weight, ← Nat.mul_assoc, ← Nat.pow_add, Nat.add_comm]
  exact Nat.mul_le_mul_right _ (Nat.pow_le_pow_right (by decide) (roleDepth_child g h))

theorem weight_eq (t : Tree) :
    t.weight g = 2 ^ t.roleDepth g + (t.children.map fun c => 2 ^ t.roleDepth g * c.size).sum := by
  rw [weight, size_eq, Nat.mul_add, Nat.mul_one, List.sum_map_mul_left]

/-- A tree outweighs its children, those in a role counted twice. -/
theorem sum_weight_children (t : Tree) :
    (t.children.map fun c =>
      2 ^ (c.isUnder (g.category t.info.kind).roleLabels).toNat * c.weight g).sum < t.weight g := by
  have hsum := List.sum_le_sum fun c (hc : c ∈ t.children) => weight_child g hc
  have hpos : 0 < 2 ^ t.roleDepth g := Nat.two_pow_pos _
  rw [weight_eq]
  omega

theorem sum_weight_parts (t : Tree) : (t.parts.map (weight g)).sum ≤ t.weight g := by
  have hparts : (t.parts.map (weight g)).sum ≤ (t.children.map (weight g)).sum :=
    ((List.filter_sublist).map _).sum_le_sum fun _ _ => Nat.zero_le _
  have hchildren := List.sum_le_sum fun c (_ : c ∈ t.children) =>
    Nat.le_mul_of_pos_left (c.weight g)
      (Nat.two_pow_pos (c.isUnder (g.category t.info.kind).roleLabels).toNat)
  have := t.sum_weight_children g
  omega

/-- The children that labels lead to are among those under one of them. -/
theorem sum_weight_labelled (t : Tree) {labels : List String} (h : labels.Nodup) :
    (labels.map fun label => (t.labelled? label).elim 0 (weight g)).sum ≤
      (t.children.map fun c => (c.isUnder labels).toNat * c.weight g).sum := by
  induction labels with
  | nil => simp
  | cons label labels ih =>
    obtain ⟨hlabel, h⟩ := List.nodup_cons.1 h
    have hfirst : (t.labelled? label).elim 0 (weight g) ≤
        (t.children.map fun c => (c.isUnder [label]).toNat * c.weight g).sum := by
      cases hc : t.labelled? label with
      | none => exact Nat.zero_le _
      | some c =>
        obtain ⟨hmem, hfield⟩ := labelled?_mem hc
        refine le_of_eq_of_le ?_ (List.le_sum_of_mem (List.mem_map_of_mem hmem))
        simp [isUnder, hfield]
    have hsplit (c : Tree) : (c.isUnder (label :: labels)).toNat =
        (c.isUnder [label]).toNat + (c.isUnder labels).toNat := by
      unfold isUnder
      cases hfield : c.info.field with
      | none => rfl
      | some other =>
        by_cases heq : other = label
        · simp [heq, hlabel]
        · simp [heq]
    simp only [hsplit, Nat.add_mul, List.sum_map_add, List.map_cons, List.sum_cons]
    exact Nat.add_le_add hfirst (ih h)

/-- What is described in a role weighs no more than the child that the role is about. -/
theorem sum_weight_role (t : Tree) (role : Role) :
    ((t.describedInRole g role).map (weight g)).sum ≤
      (((g.category t.info.kind).roleLabel? role).bind t.labelled?).elim 0 (weight g) := by
  unfold describedInRole Category.roleLabel?
  by_cases hfield : role ∈ (g.category t.info.kind).fieldRoles
  · rw [if_pos hfield, if_pos hfield, if_neg (Category.disjoint_roles hfield), List.append_nil]
    cases hu : t.inRole? g role with
    | none => exact Nat.zero_le _
    | some u =>
      obtain ⟨label, c, hlabel, hc, hcases⟩ := inRole?_cases hu
      rw [hlabel, Option.bind_some, hc, Option.elim_some, Option.toList_some, List.map_singleton,
        List.sum_singleton]
      rcases hcases with rfl | ⟨-, -, hpart⟩
      · exact le_rfl
      · exact le_trans (List.le_sum_of_mem (List.mem_map_of_mem hpart)) (c.sum_weight_parts g)
  · rw [if_neg hfield, if_neg hfield, List.nil_append]
    split_ifs with hlist
    · cases hh : t.holder? role with
      | none => exact Nat.zero_le _
      | some holder =>
        obtain ⟨label, hlabel, hc⟩ := holder?_labelled hh
        rw [hlabel, Option.bind_some, hc]
        exact holder.sum_weight_parts g
    · exact Nat.zero_le _

/-- A tree outweighs all that is described right inside it. -/
theorem sum_weight_described (t : Tree) : ((t.described g).map (weight g)).sum < t.weight g := by
  have hroles : ((Role.all.flatMap (t.describedInRole g)).map (weight g)).sum ≤
      (t.children.map fun c =>
        (c.isUnder (g.category t.info.kind).roleLabels).toNat * c.weight g).sum := by
    apply le_trans _ (t.sum_weight_labelled g (Category.nodup_roleLabels _))
    unfold Category.roleLabels
    induction Role.all with
    | nil => simp
    | cons role roles ih =>
      have hrole := t.sum_weight_role g role
      rw [List.flatMap_cons, List.map_append, List.sum_append, List.filterMap_cons]
      cases hlabel : (g.category t.info.kind).roleLabel? role with
      | none =>
        rw [hlabel] at hrole
        exact le_trans (Nat.add_le_add hrole ih) (by simp)
      | some label =>
        rw [hlabel] at hrole
        exact Nat.add_le_add hrole ih
  have hvisible : ((t.visibleChildren g).map (weight g)).sum ≤ (t.children.map (weight g)).sum := by
    unfold visibleChildren
    split_ifs
    · exact Nat.zero_le _
    · exact ((List.filter_sublist).map _).sum_le_sum fun _ _ => Nat.zero_le _
  have htwice (c : Tree) (b : Bool) : 2 ^ b.toNat * c.weight g = b.toNat * c.weight g + c.weight g := by
    cases b <;> simp [Nat.two_mul]
  have htotal := t.sum_weight_children g
  simp only [htwice, List.sum_map_add] at htotal
  rw [described, List.map_append, List.sum_append]
  exact lt_of_le_of_lt (Nat.add_le_add hroles hvisible) htotal

end RoleDepth

section Record

variable (g : Grammar) (source : List Char) (offsets : OffsetMap)

theorem total_record (t : Tree) :
    (t.record g source offsets).total =
      1 + ((t.described g).map fun u => (u.record g source offsets).total).sum := by
  rw [Record.total, Record.nested_eq, inner_record, List.length_cons, List.length_flatMap,
    List.map_map, Nat.add_comm]
  rfl

/-- A tree is described by no more records than it has nodes, doubled for each role on the way down. -/
theorem total_record_le (t : Tree) : (t.record g source offsets).total ≤ t.weight g := by
  induction t using described_induction g with
  | h t ih =>
    have hsum := List.sum_le_sum ih
    have hlt := t.sum_weight_described g
    rw [total_record]
    omega

end Record

end Tree

end ScriptTree
