import Mathlib.Tactic.ByContra
import ScriptTree.Proofs.Record.Nested
import ScriptTree.Syntax.Reading

/-! What a grammar of kinds says of numbers: it is decided by the kind of a number. Nodes that have roles and
annotations are never single tokens, and modifiers are never named. -/
namespace ScriptTree.Grammar

theorem entry?_ofKinds (kinds : List Kind) (id : KindId) :
    Grammar.entry? (ofKinds kinds) id = kinds[id.toNat]?.map entryOf := by
  simp only [ofKinds, entry?, List.getElem?_toArray, List.getElem?_map,
    List.getElem?_take_of_lt id.toNat_lt_size]

section Classes

variable {kinds : List Kind} {id : KindId}

/-- A class of the kinds with certain names, all of them named or none, is one of the numbers of such kinds. -/
theorem any_entry?_iff {p : Entry → Bool} {q : String → Prop} {named : Bool}
    (h : ∀ kind, p (entryOf kind) ↔ ∃ name, q name ∧ kind = ⟨some name, named⟩) :
    (Grammar.entry? (ofKinds kinds) id).any p ↔
      ∃ name, q name ∧ kinds[id.toNat]? = some ⟨some name, named⟩ := by
  rw [entry?_ofKinds]
  cases kinds[id.toNat]? with
  | none => simp
  | some kind => simpa using h kind

theorem isAtomic_ofKinds_iff : (ofKinds kinds).isAtomic id ↔
    ∃ name ∈ atomicNames, kinds[id.toNat]? = some ⟨some name, true⟩ :=
  any_entry?_iff (by rintro ⟨_ | name, _ | _⟩ <;> simp [entryOf])

/-- The kind of a wrapper is one of named nodes with the name of a wrapper. -/
theorem isWrapper_ofKinds_iff : (ofKinds kinds).isWrapper id ↔
    ∃ name ∈ wrapperNames, kinds[id.toNat]? = some ⟨some name, true⟩ :=
  any_entry?_iff (by rintro ⟨_ | name, _ | _⟩ <;> simp [entryOf])

theorem isKeywordOwner_ofKinds_iff : (ofKinds kinds).isKeywordOwner id ↔
    ∃ name ∈ keywordOwnerNames, kinds[id.toNat]? = some ⟨some name, true⟩ :=
  any_entry?_iff (by rintro ⟨_ | name, _ | _⟩ <;> simp [entryOf])

theorem isTypeWrapperName_iff {name : String} :
    isTypeWrapperName name ↔ ∃ stem, name = stem ++ "_annotation" := by
  rw [isTypeWrapperName, List.isSuffixOf_iff_suffix]
  constructor
  · rintro ⟨stem, h⟩
    refine ⟨String.ofList stem, ?_⟩
    rw [← String.toList_inj, String.toList_append, String.toList_ofList, h]
  · rintro ⟨stem, rfl⟩
    rw [String.toList_append]
    exact List.suffix_append _ _

/-- The kind of an annotation is one of named nodes with the ending of annotations. -/
theorem isTypeWrapper_ofKinds_iff : (ofKinds kinds).isTypeWrapper id ↔
    ∃ stem, kinds[id.toNat]? = some ⟨some (stem ++ "_annotation"), true⟩ := by
  have hkind (kind : Kind) : (entryOf kind).typeWrapper ↔
      ∃ name, (∃ stem, name = stem ++ "_annotation") ∧ kind = ⟨some name, true⟩ := by
    obtain ⟨_ | name, _ | _⟩ := kind <;> simp [entryOf, isTypeWrapperName_iff]
  rw [isTypeWrapper, any_entry?_iff hkind]
  constructor
  · rintro ⟨_, ⟨stem, rfl⟩, h⟩
    exact ⟨stem, h⟩
  · rintro ⟨stem, h⟩
    exact ⟨_, ⟨stem, rfl⟩, h⟩

/-- The kind of a modifier is one of tokens with the name of a modifier. -/
theorem isModifier_ofKinds_iff : (ofKinds kinds).isModifier id ↔
    ∃ name ∈ modifierNames, kinds[id.toNat]? = some ⟨some name, false⟩ :=
  any_entry?_iff (by rintro ⟨_ | name, _ | _⟩ <;> simp [entryOf])

theorem category_ofKinds {name : String} (h : kinds[id.toNat]? = some ⟨some name, true⟩) :
    (ofKinds kinds).category id = categoryOf name := by
  rw [category, entry?_ofKinds, h]
  rfl

/-- A kind that is not named or has no name is in no category. -/
theorem category_ofKinds_eq_other (h : ∀ name, kinds[id.toNat]? ≠ some ⟨some name, true⟩) :
    (ofKinds kinds).category id = .other := by
  rw [category, entry?_ofKinds]
  cases hk : kinds[id.toNat]? with
  | none => rfl
  | some kind =>
    obtain ⟨_ | name, _ | _⟩ := kind
    · rfl
    · rfl
    · rfl
    · exact absurd hk (h name)

end Classes

/-- Single tokens have no roles, and they wrap no type. -/
theorem roles_of_atomic : ∀ name ∈ atomicNames, (categoryOf name).fieldRoles = [] ∧
    (categoryOf name).listRoles = [] ∧ isTypeWrapperName name = false := by
  decide +kernel

theorem not_atomic {kind : Kind} (h : (entryOf kind).category.fieldRoles ≠ [] ∨
    (entryOf kind).category.listRoles ≠ [] ∨ (entryOf kind).typeWrapper) :
    (entryOf kind).atomic = false := by
  obtain ⟨_ | name, _ | _⟩ := kind
  · rfl
  · rfl
  · rfl
  · simp only [entryOf, if_true] at h ⊢
    by_contra hatomic
    obtain ⟨hfield, hlist, hwrapper⟩ := roles_of_atomic name (by simpa using hatomic)
    simp [hfield, hlist, hwrapper] at h

/-- A kind with roles and a kind of annotations are no single tokens. -/
theorem isAtomic_ofKinds (kinds : List Kind) (id : KindId)
    (h : ((ofKinds kinds).category id).fieldRoles ≠ [] ∨
      ((ofKinds kinds).category id).listRoles ≠ [] ∨ (ofKinds kinds).isTypeWrapper id) :
    (ofKinds kinds).isAtomic id = false := by
  simp only [category, isTypeWrapper, isAtomic, entry?_ofKinds] at h ⊢
  cases hk : kinds[id.toNat]? with
  | none => rfl
  | some kind =>
    rw [hk] at h
    exact not_atomic h

/-- The kind of a modifier is one of tokens. -/
theorem not_named_of_isModifier {kinds : List Kind} {id : KindId}
    (h : (ofKinds kinds).isModifier id) : ∃ kind ∈ kinds[id.toNat]?, kind.named = false := by
  obtain ⟨name, -, hkind⟩ := isModifier_ofKinds_iff.1 h
  exact ⟨_, hkind, rfl⟩

end ScriptTree.Grammar
