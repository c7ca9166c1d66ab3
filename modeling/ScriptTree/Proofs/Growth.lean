import Mathlib.Tactic.Linarith
import ScriptTree.Proofs.Record.Total
import ScriptTree.Proofs.Syntax.Check

/-! Records are not linear in the tree. Chains of property accesses show that the bound by doubling is
sharp: a bound by a constant holds exactly for the trees with few roles on each way down. -/
namespace ScriptTree

/-- The numbers of the kinds that a chain of accesses is made of. -/
structure AccessKinds where
  program : KindId
  statement : KindId
  access : KindId
  dot : KindId
  property : KindId
  template : KindId
  tick : KindId
  escape : KindId

def Dialect.accessKinds : Dialect → AccessKinds
  | .plain =>
    { program := 134, statement := 150, access := 208, dot := 47, property := 261, template := 222
      tick := 109, escape := 107 }
  | .typed =>
    { program := 166, statement := 182, access := 235, dot := 48, property := 378, template := 249
      tick := 105, escape := 103 }

theorem Dialect.category_access (dialect : Dialect) :
    dialect.grammar.category dialect.accessKinds.access = .propertyAccess ∧
      dialect.grammar.isAtomic dialect.accessKinds.access = false := by
  cases dialect <;> decide +kernel

theorem Dialect.category_around (dialect : Dialect) (kind : KindId)
    (h : kind ∈ [dialect.accessKinds.program, dialect.accessKinds.statement,
      dialect.accessKinds.template]) :
    dialect.grammar.category kind = .other ∧ dialect.grammar.isAtomic kind = false := by
  have hall : ([dialect.accessKinds.program, dialect.accessKinds.statement,
      dialect.accessKinds.template].all fun kind =>
        dialect.grammar.category kind == .other && !dialect.grammar.isAtomic kind) = true := by
    cases dialect <;> decide +kernel
  simpa using List.all_eq_true.1 hall kind h

namespace Tree

section Family

variable (g : Grammar)

def part (kind : KindId) (label : Option String) (start stop : Nat) (children : List Tree) : Tree :=
  .node { kind, kindName := g.kindName kind, field := label, named := true, start, stop } children

def token (kind : KindId) (start stop : Nat) : Tree :=
  .node { kind, kindName := g.kindName kind, start, stop } []

theorem size_part (kind : KindId) (label : Option String) (start stop : Nat) (children : List Tree) :
    (part g kind label start stop children).size = 1 + (children.map size).sum :=
  size_eq _

theorem size_token (kind : KindId) (start stop : Nat) : (token g kind start stop).size = 1 := rfl

/-- What a parser promises, for a tree that has at most so many levels and no faults. -/
structure Regular (levels : Nat) (t : Tree) : Prop where
  named : t.NamedBy g
  token : ∀ u ∈ t.subtrees, u.info.named = false → u.children = []
  rows : ∀ depth, ∀ row ∈ t.rows depth, row.depth < depth + levels ∧ row.info.isFault = false

variable {g}

theorem Regular.ofPart {kind : KindId} {label : Option String} {start stop levels : Nat}
    {children : List Tree} (h : ∀ c ∈ children, c.Regular g levels) :
    (part g kind label start stop children).Regular g (levels + 1) where
  named u hu := by
    rcases mem_subtrees.1 hu with rfl | ⟨c, hc, hu⟩
    · rfl
    · exact (h c hc).named u hu
  token u hu hn := by
    rcases mem_subtrees.1 hu with rfl | ⟨c, hc, hu⟩
    · contradiction
    · exact (h c hc).token u hu hn
  rows depth row hrow := by
    rw [rows_eq, List.mem_cons, List.mem_flatMap] at hrow
    rcases hrow with rfl | ⟨c, hc, hrow⟩
    · exact ⟨by dsimp only; omega, rfl⟩
    · obtain ⟨hdepth, hfault⟩ := (h c hc).rows (depth + 1) row hrow
      exact ⟨by omega, hfault⟩

theorem Regular.ofToken (kind : KindId) (start stop levels : Nat) :
    (Tree.token g kind start stop).Regular g (levels + 1) where
  named u hu := by
    obtain rfl := List.mem_singleton.1 hu
    rfl
  token u hu _ := by
    obtain rfl := List.mem_singleton.1 hu
    rfl
  rows depth row hrow := by
    obtain rfl := List.mem_singleton.1 hrow
    exact ⟨by dsimp only; omega, rfl⟩

theorem Regular.parsed {levels : Nat} {t : Tree} (h : t.Regular g levels) (hroot : t.info.isPart) :
    t.Parsed g :=
  ⟨h.named, h.token, hroot⟩

theorem Regular.check {levels limit : Nat} {t : Tree} (h : t.Regular g levels)
    (hlevels : levels ≤ limit + 1) (source : List Char) : t.check source limit = .ok t := by
  rw [check_eq_ok_iff]
  intro row hrow
  obtain ⟨hdepth, hfault⟩ := h.rows 0 row hrow
  exact ⟨by omega, hfault⟩

theorem roleDepth_leaf {t : Tree} (h : t.children = []) : t.roleDepth g = 0 := by
  apply Nat.le_zero.1
  rw [roleDepth_le_iff]
  intro c hc
  simp [h] at hc

/-- The object and the property of an access are described in their roles and among the children. -/
theorem described_access {t object dot property : Tree}
    (hcategory : g.category t.info.kind = .propertyAccess)
    (hatomic : g.isAtomic t.info.kind = false) (hchildren : t.children = [object, dot, property])
    (hobject : object.info.field = some "object") (hobject' : object.info.isVisible)
    (hdot : dot.info.field = none) (hdot' : dot.info.isVisible = false)
    (hproperty : property.info.field = some "property") (hproperty' : property.info.isVisible) :
    t.described g = [property, object, object, property] := by
  simp [described, describedInRole, Role.all, hcategory, Category.fieldRoles, Category.listRoles,
    inRole?, Reading.fieldLabel?, labelled?, visibleChildren, hatomic, hchildren, hobject, hobject',
    hdot, hdot', hproperty, hproperty']

section Record

variable (source : List Char) (offsets : OffsetMap)

theorem total_leaf {t : Tree} (h : t.children = []) : (t.record g source offsets).total = 1 := by
  have hnone : t.described g = [] := by
    apply List.eq_nil_iff_forall_not_mem.2
    intro u hu
    rcases described_cases hu with hu | ⟨c, hc, -⟩ <;> simp_all
  rw [total_record, hnone]
  rfl

/-- A tree without roles has a record of its own and those of its visible children. -/
theorem total_of_other {t : Tree} (hcategory : g.category t.info.kind = .other)
    (hatomic : g.isAtomic t.info.kind = false) :
    (t.record g source offsets).total = 1 + ((t.children.filter (·.info.isVisible)).map fun c =>
      (c.record g source offsets).total).sum := by
  have hdescribed : t.described g = t.children.filter (·.info.isVisible) := by
    simp [described, describedInRole, visibleChildren, hcategory, hatomic, Category.fieldRoles,
      Category.listRoles]
  rw [total_record, hdescribed]

theorem total_around {t c : Tree} (hcategory : g.category t.info.kind = .other)
    (hatomic : g.isAtomic t.info.kind = false) (hchildren : t.children = [c])
    (hvisible : c.info.isVisible) :
    (t.record g source offsets).total = 1 + (c.record g source offsets).total := by
  rw [total_of_other _ _ hcategory hatomic, hchildren, List.filter_cons_of_pos (by simpa using hvisible)]
  simp

end Record

end Family

variable (dialect : Dialect)

/-- A template with `m` escapes and nothing between them. -/
def template (m : Nat) (label : Option String) : Tree :=
  let g := dialect.grammar
  let kinds := dialect.accessKinds
  part g kinds.template label 0 (2 * m + 2)
    (token g kinds.tick 0 1 ::
      ((List.range m).map fun i => part g kinds.escape none (2 * i + 1) (2 * i + 3) []) ++
      [token g kinds.tick (2 * m + 1) (2 * m + 2)])

/-- A chain of `n` property accesses on a template with `m` escapes. -/
def accesses (m : Nat) : Nat → Option String → Tree
  | 0, label => template dialect m label
  | n + 1, label =>
    let g := dialect.grammar
    let kinds := dialect.accessKinds
    let stop := 2 * m + 2 + 2 * n
    part g kinds.access label 0 (stop + 2)
      [accesses m n (some "object"), token g kinds.dot stop (stop + 1),
        part g kinds.property (some "property") (stop + 1) (stop + 2) []]

/-- A script of one such chain. -/
def accessScript (m n : Nat) : Tree :=
  let stop := 2 * m + 2 + 2 * n
  part dialect.grammar dialect.accessKinds.program none 0 stop
    [part dialect.grammar dialect.accessKinds.statement none 0 stop [accesses dialect m n none]]

theorem info_accesses (m n : Nat) (label : Option String) :
    (accesses dialect m n label).info.field = label ∧
      (accesses dialect m n label).info.isPart := by
  cases n <;> exact ⟨rfl, rfl⟩

theorem regular_accesses (m n : Nat) (label : Option String) :
    (accesses dialect m n label).Regular dialect.grammar (n + 2) := by
  induction n generalizing label with
  | zero =>
    apply Regular.ofPart
    intro c hc
    simp only [List.cons_append, List.mem_cons, List.mem_append, List.mem_map, List.not_mem_nil,
      or_false] at hc
    rcases hc with rfl | ⟨i, -, rfl⟩ | rfl
    · exact .ofToken _ _ _ _
    · exact .ofPart nofun
    · exact .ofToken _ _ _ _
  | succ n ih =>
    apply Regular.ofPart
    intro c hc
    simp only [List.mem_cons, List.not_mem_nil, or_false] at hc
    rcases hc with rfl | rfl | rfl
    · exact ih _
    · exact .ofToken _ _ _ _
    · exact .ofPart nofun

theorem regular_accessScript (m n : Nat) :
    (accessScript dialect m n).Regular dialect.grammar (n + 4) := by
  apply Regular.ofPart
  intro c hc
  obtain rfl := List.mem_singleton.1 hc
  apply Regular.ofPart
  intro c hc
  obtain rfl := List.mem_singleton.1 hc
  exact regular_accesses dialect m n none

theorem size_accesses (m n : Nat) (label : Option String) :
    (accesses dialect m n label).size = 3 * n + m + 3 := by
  induction n generalizing label with
  | zero =>
    have hescapes : (((List.range m).map fun i => part dialect.grammar dialect.accessKinds.escape none
        (2 * i + 1) (2 * i + 3) []).map size).sum = m := by
      simp [Function.comp_def, size_part]
    simp only [accesses, template, size_part, size_token, List.cons_append, List.map_cons,
      List.map_append, List.map_nil, List.sum_cons, List.sum_append, List.sum_nil, hescapes]
    omega
  | succ n ih =>
    simp only [accesses, size_part, size_token, ih, List.map_cons, List.map_nil, List.sum_cons,
      List.sum_nil]
    omega

theorem size_accessScript (m n : Nat) : (accessScript dialect m n).size = 3 * n + m + 5 := by
  simp only [accessScript, size_part, size_accesses, List.map_cons, List.map_nil, List.sum_cons,
    List.sum_nil]
  omega

theorem roleDepth_accesses (m n : Nat) (label : Option String) :
    (accesses dialect m n label).roleDepth dialect.grammar ≤ n := by
  induction n generalizing label with
  | zero =>
    rw [roleDepth_le_iff]
    intro c hc
    simp only [accesses, template, part, children_node, List.cons_append, List.mem_cons,
      List.mem_append, List.mem_map, List.not_mem_nil, or_false] at hc
    rcases hc with rfl | ⟨i, -, rfl⟩ | rfl <;> exact (roleDepth_leaf rfl).le
  | succ n ih =>
    rw [roleDepth_le_iff]
    intro c hc
    apply Nat.add_le_add _ (Bool.toNat_le _)
    simp only [accesses, part, children_node, List.mem_cons, List.not_mem_nil, or_false] at hc
    rcases hc with rfl | rfl | rfl
    · exact ih _
    · exact (roleDepth_leaf rfl).le.trans (Nat.zero_le n)
    · exact (roleDepth_leaf rfl).le.trans (Nat.zero_le n)

theorem roleDepth_accessScript (m n : Nat) :
    (accessScript dialect m n).roleDepth dialect.grammar ≤ n := by
  apply (roleDepth_le_iff _).2
  intro c hc
  obtain rfl := List.mem_singleton.1 hc
  apply (roleDepth_le_iff _).2
  intro c hc
  obtain rfl := List.mem_singleton.1 hc
  rw [isUnder, (info_accesses dialect m n none).1]
  exact roleDepth_accesses dialect m n none

section Record

variable (source : List Char) (offsets : OffsetMap)

theorem total_template (m : Nat) (label : Option String) :
    ((template dialect m label).record dialect.grammar source offsets).total = m + 1 := by
  obtain ⟨hcategory, hatomic⟩ := dialect.category_around dialect.accessKinds.template (by simp)
  have hescapes : (template dialect m label).children.filter (·.info.isVisible) =
      (List.range m).map fun i =>
        part dialect.grammar dialect.accessKinds.escape none (2 * i + 1) (2 * i + 3) [] := by
    simp [template, part, token, NodeInfo.isVisible]
  have hone (i : Nat) : ((part dialect.grammar dialect.accessKinds.escape none (2 * i + 1)
      (2 * i + 3) []).record dialect.grammar source offsets).total = 1 := total_leaf _ _ rfl
  have htotal := total_of_other (t := template dialect m label) source offsets hcategory hatomic
  rw [htotal, hescapes, List.map_map, Function.comp_def, funext hone]
  simp [Nat.add_comm]

theorem total_accesses_succ (m n : Nat) (label : Option String) :
    ((accesses dialect m (n + 1) label).record dialect.grammar source offsets).total =
      2 * ((accesses dialect m n (some "object")).record dialect.grammar source offsets).total +
        3 := by
  obtain ⟨hcategory, hatomic⟩ := dialect.category_access
  obtain ⟨hfield, hpart⟩ := info_accesses dialect m n (some "object")
  have hproperty (start stop : Nat) : ((part dialect.grammar dialect.accessKinds.property
      (some "property") start stop []).record dialect.grammar source offsets).total = 1 :=
    total_leaf _ _ rfl
  have hdescribed := described_access (t := accesses dialect m (n + 1) label) hcategory hatomic rfl
    hfield (isVisible_of_isPart hpart) rfl rfl rfl rfl
  rw [total_record, hdescribed]
  simp only [List.map_cons, List.map_nil, List.sum_cons, List.sum_nil, hproperty]
  omega

theorem total_accesses (m n : Nat) (label : Option String) :
    ((accesses dialect m n label).record dialect.grammar source offsets).total + 3 =
      2 ^ n * (m + 4) := by
  induction n generalizing label with
  | zero =>
    rw [accesses, total_template]
    omega
  | succ n ih =>
    rw [total_accesses_succ, Nat.pow_succ, Nat.mul_right_comm, ← ih (some "object")]
    omega

theorem total_accessScript (m n : Nat) :
    ((accessScript dialect m n).record dialect.grammar source offsets).total + 1 =
      2 ^ n * (m + 4) := by
  obtain ⟨hprogram, hprogram'⟩ := dialect.category_around dialect.accessKinds.program (by simp)
  obtain ⟨hstatement, hstatement'⟩ :=
    dialect.category_around dialect.accessKinds.statement (by simp)
  have hvisible := isVisible_of_isPart (info_accesses dialect m n none).2
  have houter := total_around (t := accessScript dialect m n) source offsets hprogram hprogram' rfl rfl
  have hinner := total_around (t := part dialect.grammar dialect.accessKinds.statement none 0
    (2 * m + 2 + 2 * n) [accesses dialect m n none]) source offsets hstatement hstatement' rfl hvisible
  have haccesses := total_accesses dialect source offsets m n none
  omega

end Record

/-- For the trees with at most `d` roles on each way down, the records are at most a constant times the nodes
exactly if the constant makes up for a doubling at each role. -/
theorem total_le_mul_size_iff (source : List Char) (unit : OffsetUnit) (limit d K : Nat)
    (hlimit : d + 3 ≤ limit) :
    (∀ t : Tree, t.Parsed dialect.grammar → t.check source limit = .ok t →
      t.roleDepth dialect.grammar ≤ d →
        (t.normalize dialect.grammar source unit).total ≤ K * t.size) ↔ 2 ^ d ≤ K := by
  constructor
  · intro h
    by_contra hK
    -- With enough escapes the ends of the chain no longer matter.
    have hregular := regular_accessScript dialect ((3 * d + 1) * K) d
    have hle := h _ (hregular.parsed rfl) (hregular.check (by omega) source)
      (roleDepth_accessScript dialect _ d)
    have htotal := total_accessScript dialect source (.ofText source unit) ((3 * d + 1) * K) d
    rw [normalize_eq_record, size_accessScript] at hle
    have hmul := Nat.mul_le_mul_right ((3 * d + 1) * K + 4) (Nat.succ_le_of_lt (Nat.not_le.1 hK))
    rw [← htotal] at hmul
    linarith
  · intro hK t _ _ hdepth
    calc (t.normalize dialect.grammar source unit).total
      _ ≤ 2 ^ t.roleDepth dialect.grammar * t.size := total_record_le _ _ _ t
      _ ≤ K * t.size :=
        Nat.mul_le_mul_right _ (le_trans (Nat.pow_le_pow_right (by decide) hdepth) hK)

theorem total_not_linear :
    (7 + 3 ≤ Engine.maxDepth ∧
      ¬∀ t : Tree, t.Parsed .plain → t.check [] Engine.maxDepth = .ok t →
        (t.normalize .plain [] .utf16).total ≤ 100 * t.size) ∧
    ¬∃ K, ∀ limit, ∀ t : Tree, t.Parsed .plain → t.check [] limit = .ok t →
      (t.normalize .plain [] .utf16).total ≤ K * t.size := by
  refine ⟨⟨by decide, ?_⟩, ?_⟩
  · intro h
    have hiff := total_le_mul_size_iff .plain [] .utf16 Engine.maxDepth 7 100 (by decide)
    exact absurd (hiff.1 fun t hparsed hcheck _ => h t hparsed hcheck) (by decide)
  · rintro ⟨K, h⟩
    have hiff := total_le_mul_size_iff .plain [] .utf16 (K + 3) K K le_rfl
    exact absurd (hiff.1 fun t hparsed hcheck _ => h _ t hparsed hcheck)
      (Nat.not_le.2 Nat.lt_two_pow_self)

end Tree

end ScriptTree
