import Mathlib.Data.List.Chain
import ScriptTree.Proofs.Walk

/-! The limit on the depth of a tree bounds how deep its descriptions are nested. Each edge from one record or
object to another goes down at least one level of the tree. -/
namespace ScriptTree

/-- Whether no chain of records that starts at a record and follows its edges, whichever they are, has more
than so many. -/
def Record.NestedAtMost (levels : Nat) (r : Record) : Prop :=
  ∀ rs : List Record, (r :: rs).IsChain (fun r s => s ∈ r.inner) → (r :: rs).length ≤ levels

namespace Json

/-- The objects inside an object, at whatever depth. -/
def inside (j : Json) : List Json := objectsInMembers j.members

/-- Whether no chain of objects that starts at an object, each inside the one before, has more than so many. -/
def NestedAtMost (levels : Nat) (j : Json) : Prop :=
  ∀ js : List Json, (j :: js).IsChain (fun j i => i ∈ j.inside) → (j :: js).length ≤ levels

end Json

def Ast.NestedAtMost (levels : Nat) : Ast → Prop
  | .normalized r => r.NestedAtMost levels
  | .native j => j.NestedAtMost levels

namespace Tree

theorem height_lt_of_mem_children {t c : Tree} (h : c ∈ t.children) : c.height < t.height := by
  cases t with
  | node info children =>
    have hall : 0 + heightList children ≤ 0 + heightList children := le_rfl
    have hchild := (add_heightList_le_iff.1 hall).2 c h
    rw [height]
    omega

theorem height_le_of_mem_subtrees {t u : Tree} (h : u ∈ t.subtrees) : u.height ≤ t.height := by
  induction t with
  | node info children ih =>
    rcases mem_subtrees.1 h with rfl | ⟨c, hc, hu⟩
    · exact le_rfl
    · exact (ih c hc hu).trans (height_lt_of_mem_children hc).le

/-- What is described inside a tree is less high. -/
theorem height_lt_of_described {g : Grammar} {t u : Tree} (h : u ∈ t.described g) :
    u.height < t.height := by
  rcases described_cases h with hu | ⟨c, hc, hu⟩
  · exact height_lt_of_mem_children hu
  · have hpart := height_lt_of_mem_children (parts_subset_children c hu)
    exact hpart.trans (height_lt_of_mem_children hc)

/-- A chain of descriptions that goes down with each step is no longer than the tree is high. -/
theorem length_le_height {α : Type} (describe : Tree → α) {edge : α → α → Prop}
    (hdown : ∀ t a, edge (describe t) a → ∃ u, u.height < t.height ∧ a = describe u) {t : Tree}
    {as : List α} (h : (describe t :: as).IsChain edge) : as.length ≤ t.height := by
  induction as generalizing t with
  | nil => exact Nat.zero_le _
  | cons a as ih =>
    obtain ⟨hedge, hrest⟩ := List.isChain_cons_cons.1 h
    obtain ⟨u, hu, rfl⟩ := hdown t a hedge
    have hlen := ih hrest
    rw [List.length_cons]
    omega

section Describe

variable (g : Grammar) (source : List Char) (offsets : OffsetMap)

theorem nestedAtMost_record {t : Tree} {levels : Nat} (h : t.height < levels) :
    (t.record g source offsets).NestedAtMost levels := by
  intro rs hchain
  have hlen : rs.length ≤ t.height := by
    refine length_le_height (record g source offsets) ?_ hchain
    intro u r hr
    rw [inner_record] at hr
    obtain ⟨v, hv, rfl⟩ := List.mem_map.1 hr
    exact ⟨v, height_lt_of_described hv, rfl⟩
  rw [List.length_cons]
  omega

/-- The objects inside the native form of a tree are native forms of trees properly inside it. -/
theorem exists_of_mem_inside {t : Tree} {j : Json}
    (h : j ∈ (Native.ofTree g source offsets t).inside) :
    ∃ u, u.height < t.height ∧ j = Native.ofTree g source offsets u := by
  have hobjects := Native.objects_ofTree g source offsets t
  have hself : (Native.ofTree g source offsets t).objects =
      Native.ofTree g source offsets t :: (Native.ofTree g source offsets t).inside := by
    rw [Native.ofTree_eq, Json.objects, Json.inside, Json.members]
  rw [hself, List.perm_cons] at hobjects
  obtain ⟨c, hc, hj⟩ := List.mem_flatMap.1 (hobjects.mem_iff.1 h)
  have hchild := parts_subset_children t (Native.mem_parts_of_mem_nativeParts g hc)
  obtain ⟨u, hu, rfl⟩ := Native.exists_of_mem_objects g source offsets hj
  have hle := height_le_of_mem_subtrees hu
  have hlt := height_lt_of_mem_children hchild
  exact ⟨u, by omega, rfl⟩

theorem nestedAtMost_ofTree {t : Tree} {levels : Nat} (h : t.height < levels) :
    (Native.ofTree g source offsets t).NestedAtMost levels := by
  intro js hchain
  have hlen : js.length ≤ t.height :=
    length_le_height (Native.ofTree g source offsets)
      (fun _ _ => exists_of_mem_inside g source offsets) hchain
  rw [List.length_cons]
  omega

end Describe

/-- A tree that passes the check with a limit is described by chains of at most one more record or object than
the limit, in both shapes and whatever its positions count. So an engine never nests its results deeper. -/
theorem nesting_le_limit (source : List Char) (limit : Nat) (t : Tree)
    (h : t.check source limit = .ok t) :
    (∀ g unit, (t.normalize g source unit).NestedAtMost (limit + 1) ∧
      (t.native g source unit).NestedAtMost (limit + 1)) ∧
    ∀ dialect parser text request ast,
      (Engine.ofTrees dialect parser).parse text request = .ok ast →
        ast.NestedAtMost (Engine.maxDepth + 1) := by
  have hheight {source : List Char} {limit : Nat} {t : Tree} (h : t.check source limit = .ok t) :
      t.height < limit + 1 :=
    Nat.lt_succ_of_le ((t.check_eq_ok_iff_height source limit).1 h).1
  constructor
  · intro g unit
    exact ⟨nestedAtMost_record g source _ (hheight h), nestedAtMost_ofTree g source _ (hheight h)⟩
  · intro dialect parser text request ast hparse
    obtain ⟨u, -, hcheck, rfl⟩ := Engine.exists_of_parse_ofTrees hparse
    unfold describe
    cases request.shape with
    | native => exact nestedAtMost_ofTree _ _ _ (hheight hcheck)
    | normalized => exact nestedAtMost_record _ _ _ (hheight hcheck)

theorem negation_nesting_le_limit :
    let source := "!a;".toList
    Engine.negation.check source 3 = .ok Engine.negation ∧
    Engine.negation.check source 2 ≠ .ok Engine.negation ∧
    (Engine.negation.normalize .plain source .utf16).NestedAtMost 4 ∧
    (Engine.negation.native .plain source .utf16).NestedAtMost 4 ∧
    ∃ ast, (Engine.ofTrees .plain Engine.negationParser).parse "!a;" ⟨.native, .utf16⟩ = .ok ast ∧
      ast.NestedAtMost (Engine.maxDepth + 1) := by
  intro source
  have hcheck : Engine.negation.check source 3 = .ok Engine.negation := by
    rw [check_eq_ok_iff]
    decide
  have hcheck' : Engine.negation.check source 2 ≠ .ok Engine.negation := by
    rw [Ne, check_eq_ok_iff]
    decide
  have hparse : (Engine.ofTrees .plain Engine.negationParser).parse "!a;" ⟨.native, .utf16⟩ =
      .ok (.native (Engine.negation.native .plain source .utf16)) := by
    have hpass : Engine.negation.check source Engine.maxDepth = .ok Engine.negation := by
      rw [check_eq_ok_iff]
      decide
    rw [Engine.parse_ofTrees]
    exact congrArg (Except.map _) hpass
  obtain ⟨hnested, hengine⟩ := nesting_le_limit source 3 Engine.negation hcheck
  obtain ⟨hrecord, hobject⟩ := hnested .plain .utf16
  exact ⟨hcheck, hcheck', hrecord, hobject, _, hparse, hengine _ _ _ _ _ hparse⟩

end Tree

end ScriptTree
