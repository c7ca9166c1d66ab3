import Mathlib.Data.List.Forall2
import ScriptTree.Proofs.Syntax.Comments

/-! Keywords that modify a node. Each of them is reported once: among the children if it stands under a label,
as a modifier if it does not. -/
namespace ScriptTree

namespace Tree

/-- Whether a node is a token with the name of a modifier. -/
def IsKeyword (kinds : List Kind) (t : Tree) : Prop :=
  ∃ name ∈ Grammar.modifierNames, kinds[t.info.kind.toNat]? = some ⟨some name, false⟩

/-- Whether a node is one around a modifier. -/
def IsWrapper (kinds : List Kind) (t : Tree) : Prop :=
  ∃ name ∈ Grammar.wrapperNames, kinds[t.info.kind.toNat]? = some ⟨some name, true⟩

/-- What a child under no label adds to the modifiers of its parent: a keyword its kind, a wrapper the kind of
its first child. -/
inductive Modifies (kinds : List Kind) : Tree → KindId → Prop
  | keyword {c : Tree} (hfield : c.info.field = none) (h : c.IsKeyword kinds) :
      Modifies kinds c c.info.kind
  | wrapped {c first : Tree} {rest : List Tree} (hfield : c.info.field = none) (h : c.IsWrapper kinds)
      (hfirst : c.children = first :: rest) : Modifies kinds c first.info.kind

/-- What is reported of a node, by the places of its children in the order of the source: of those that are
enumerated and of those that give modifiers. -/
structure Reported (kinds : List Kind) (source : List Char) (n : Tree) (shown modifying : List Nat) :
    Prop where
  shownInOrder : shown.Pairwise (· < ·)
  modifyingInOrder : modifying.Pairwise (· < ·)
  children : List.Forall₂ (fun i s => ∃ c, n.children[i]? = some c ∧
    c.toSyntax (.ofKinds kinds) source = s) shown (n.toSyntax (.ofKinds kinds) source).children
  modifiers : List.Forall₂ (fun i k => ∃ c, n.children[i]? = some c ∧ Modifies kinds c k) modifying
    (n.toSyntax (.ofKinds kinds) source).modifiers
  nothingLost : ∀ i c k, n.children[i]? = some c → Modifies kinds c k → i ∈ modifying
  keyword : ∀ i c, n.children[i]? = some c → c.info.named = false → c.IsKeyword kinds →
    if c.info.field.isSome then i ∈ shown ∧ i ∉ modifying else i ∉ shown ∧ i ∈ modifying
  token : ∀ i c, n.children[i]? = some c → c.info.named = false →
    (i ∈ shown ↔ c.info.field.isSome)

theorem modifies_iff {kinds : List Kind} {c : Tree} {k : KindId} :
    Modifies kinds c k ↔ c.modifier? (.ofKinds kinds) = some k := by
  unfold modifier?
  constructor
  · rintro (⟨hfield, hkeyword⟩ | ⟨hfield, hwrapper, hfirst⟩)
    · rw [hfield, if_neg (by simp), if_pos (Grammar.isModifier_ofKinds_iff.2 hkeyword)]
    · have hnot : ¬(Grammar.ofKinds kinds).isModifier c.info.kind := by
        rw [Grammar.isModifier_ofKinds_iff]
        rintro ⟨name, -, hname⟩
        obtain ⟨other, -, hother⟩ := hwrapper
        simp [hname] at hother
      rw [hfield, if_neg (by simp), if_neg hnot, if_pos (Grammar.isWrapper_ofKinds_iff.2 hwrapper), hfirst]
      rfl
  · intro h
    split_ifs at h with hfield hmodifier hwrapper
    · obtain rfl := Option.some.inj h
      exact .keyword (by simpa using hfield) (Grammar.isModifier_ofKinds_iff.1 hmodifier)
    · obtain ⟨first, hfirst, rfl⟩ := Option.map_eq_some_iff.1 h
      obtain ⟨rest, hrest⟩ := List.head?_eq_some_iff.1 hfirst
      exact .wrapped (by simpa using hfield) (Grammar.isWrapper_ofKinds_iff.1 hwrapper) hrest

/-- What a choice among a list gives, by the places of what is chosen. -/
private theorem forall₂_findIdxs {α β : Type} (f : α → Option β) (xs : List α) :
    List.Forall₂ (fun i b => ∃ a, xs[i]? = some a ∧ f a = some b)
      (xs.findIdxs fun a => (f a).isSome) (xs.filterMap f) := by
  induction xs with
  | nil => exact .nil
  | cons a xs ih =>
    have hrest : List.Forall₂ (fun i b => ∃ x, (a :: xs)[i]? = some x ∧ f x = some b)
        (xs.findIdxs (fun a => (f a).isSome) 1) (xs.filterMap f) := by
      rw [List.findIdxs_start, List.forall₂_map_left_iff]
      simpa using ih
    rw [List.findIdxs_cons]
    cases hf : f a with
    | none => simpa [hf] using hrest
    | some b => simpa [hf] using hrest

private theorem mem_findIdxs_iff {α : Type} {p : α → Bool} {xs : List α} {i : Nat} {a : α}
    (h : xs[i]? = some a) : i ∈ xs.findIdxs p ↔ p a := by
  obtain ⟨hlt, rfl⟩ := List.getElem?_eq_some_iff.1 h
  exact List.mem_findIdxs_iff_pos_getElem hlt

theorem isVisible_of_token {info : NodeInfo} (h : info.named = false) :
    info.isVisible = info.field.isSome := by
  rw [NodeInfo.isVisible, h, if_neg Bool.false_ne_true]

/-- A keyword under a label gives no modifier, and one under none does. -/
theorem IsKeyword.isSome_modifier? {kinds : List Kind} {c : Tree} (h : c.IsKeyword kinds) :
    (c.modifier? (.ofKinds kinds)).isSome = !c.info.field.isSome := by
  unfold modifier?
  rw [if_pos (Grammar.isModifier_ofKinds_iff.2 h)]
  cases c.info.field <;> rfl

theorem reported {kinds : List Kind} (source : List Char) {n : Tree}
    (hatomic : (Grammar.ofKinds kinds).isAtomic n.info.kind = false)
    (howner : (Grammar.ofKinds kinds).isKeywordOwner n.info.kind = false) :
    Reported kinds source n (n.children.findIdxs (·.info.isVisible))
      (n.children.findIdxs fun c => (c.modifier? (.ofKinds kinds)).isSome) where
  shownInOrder := List.pairwise_findIdxs
  modifyingInOrder := List.pairwise_findIdxs
  children := by
    rw [children_toSyntax, visibleChildren, hatomic, if_neg Bool.false_ne_true, List.forall₂_map_right_iff,
      ← List.filterMap_eq_filter]
    have hplaces := forall₂_findIdxs (Option.guard fun c : Tree => c.info.isVisible) n.children
    simp only [Option.isSome_guard] at hplaces
    refine hplaces.imp ?_
    rintro i s ⟨c, hc, hs⟩
    obtain ⟨rfl, -⟩ := Option.guard_eq_some_iff.1 hs
    exact ⟨c, hc, rfl⟩
  modifiers := by
    rw [modifiers_toSyntax, modifiers, howner, if_neg Bool.false_ne_true]
    refine (forall₂_findIdxs _ _).imp ?_
    rintro i k ⟨c, hc, hk⟩
    exact ⟨c, hc, modifies_iff.2 hk⟩
  nothingLost i c k hc hk := by
    rw [mem_findIdxs_iff hc, modifies_iff.1 hk]
    rfl
  keyword i c hc htoken hkeyword := by
    rw [mem_findIdxs_iff hc, mem_findIdxs_iff hc, hkeyword.isSome_modifier?, isVisible_of_token htoken]
    cases c.info.field <;> simp
  token i c hc htoken := by
    rw [mem_findIdxs_iff hc, isVisible_of_token htoken]

/-- Each keyword among the children of a node is reported at exactly one place, unless the node owns its
keywords, and then it has no modifiers. -/
theorem keyword_reported_once (kinds : List Kind) (source : List Char) (n : Tree) :
    ((Grammar.ofKinds kinds).isKeywordOwner n.info.kind →
      (n.toSyntax (.ofKinds kinds) source).modifiers = []) ∧
    ((Grammar.ofKinds kinds).isAtomic n.info.kind = false →
      (Grammar.ofKinds kinds).isKeywordOwner n.info.kind = false →
      ∃ shown modifying, Reported kinds source n shown modifying) := by
  constructor
  · intro howner
    rw [modifiers_toSyntax, modifiers, if_pos howner]
  · intro hatomic howner
    exact ⟨_, _, reported source hatomic howner⟩

/-- A field with a modifier in a wrapper, a comment and two keywords in front of its name. -/
def guardedField : Tree :=
  .node { kind := 267, kindName := "public_field_definition", named := true, start := 0, stop := 30 }
    [.node { kind := 295, kindName := "accessibility_modifier", named := true, start := 0, stop := 7 }
      [.node { kind := 128, kindName := "private", start := 0, stop := 7 } []],
      .node { kind := 104, kindName := "comment", named := true, extra := true, start := 8, stop := 12 } [],
      .node { kind := 121, kindName := "static", start := 13, stop := 19 } [],
      .node { kind := 122, kindName := "readonly", start := 20, stop := 28 } [],
      .node { kind := 378, kindName := "property_identifier", field := "name", named := true
              start := 29, stop := 30 } []]

/-- A declaration whose keyword stands under a label. -/
def constDeclaration : Tree :=
  .node { kind := 184, kindName := "lexical_declaration", named := true, start := 0, stop := 7 }
    [.node { kind := 20, kindName := "const", field := "kind", start := 0, stop := 5 } [],
      .node { kind := 186, kindName := "variable_declarator", named := true, start := 6, stop := 7 }
        [.node { kind := 1, kindName := "identifier", field := "name", named := true
                 start := 6, stop := 7 } []]]

theorem guardedField_reported_once :
    ((guardedField.toSyntax (.ofKinds Grammar.typedKinds) "private /**/ static readonly x".toList).modifiers =
        [128, 121, 122] ∧
      ∃ shown modifying, Reported Grammar.typedKinds "private /**/ static readonly x".toList guardedField
        shown modifying) ∧
    (constDeclaration.toSyntax (.ofKinds Grammar.typedKinds) "const x".toList).modifiers = [] ∧
      ∃ shown modifying, Reported Grammar.typedKinds "const x".toList constDeclaration shown modifying := by
  refine ⟨⟨?_, ?_⟩, ?_, ?_⟩
  · rw [modifiers_toSyntax]
    decide +kernel
  · exact (keyword_reported_once _ _ _).2 (by decide +kernel) (by decide +kernel)
  · rw [modifiers_toSyntax]
    decide +kernel
  · exact (keyword_reported_once _ _ _).2 (by decide +kernel) (by decide +kernel)

end Tree

end ScriptTree
