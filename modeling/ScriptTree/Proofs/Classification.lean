import ScriptTree.Proofs.Grammar
import ScriptTree.Proofs.Syntax.Renumbering

/-! What a grammar says of a number is decided by the name of its kind and whether the kind is named. Numbers of
one kind are described alike, and a token is described as one, whatever its name. -/
namespace ScriptTree

namespace Grammar

/-- Whether the classes of a number are those of the name of its kind: the modifiers are tokens, all others are
named. -/
structure ClassifiedByName (kinds : List Kind) (id : KindId) : Prop where
  category : ∀ name, kinds[id.toNat]? = some ⟨some name, true⟩ →
    (ofKinds kinds).category id = categoryOf name
  other : (∀ name, kinds[id.toNat]? ≠ some ⟨some name, true⟩) → (ofKinds kinds).category id = .other
  atomic : (ofKinds kinds).isAtomic id ↔
    ∃ name ∈ atomicNames, kinds[id.toNat]? = some ⟨some name, true⟩
  wrapper : (ofKinds kinds).isWrapper id ↔
    ∃ name ∈ wrapperNames, kinds[id.toNat]? = some ⟨some name, true⟩
  keywordOwner : (ofKinds kinds).isKeywordOwner id ↔
    ∃ name ∈ keywordOwnerNames, kinds[id.toNat]? = some ⟨some name, true⟩
  typeWrapper : (ofKinds kinds).isTypeWrapper id ↔
    ∃ stem, kinds[id.toNat]? = some ⟨some (stem ++ "_annotation"), true⟩
  modifier : (ofKinds kinds).isModifier id ↔
    ∃ name ∈ modifierNames, kinds[id.toNat]? = some ⟨some name, false⟩

/-- Whether a number is in no class. -/
structure InNoClass (g : Grammar) (id : KindId) : Prop where
  category : g.category id = .other
  atomic : g.isAtomic id = false
  wrapper : g.isWrapper id = false
  keywordOwner : g.isKeywordOwner id = false
  typeWrapper : g.isTypeWrapper id = false
  modifier : g.isModifier id = false

variable (kinds : List Kind)

theorem classifiedByName (id : KindId) : ClassifiedByName kinds id where
  category _ := category_ofKinds
  other := category_ofKinds_eq_other
  atomic := isAtomic_ofKinds_iff
  wrapper := isWrapper_ofKinds_iff
  keywordOwner := isKeywordOwner_ofKinds_iff
  typeWrapper := isTypeWrapper_ofKinds_iff
  modifier := isModifier_ofKinds_iff

theorem size_entries_ofKinds : (ofKinds kinds).entries.size = min kinds.length (2 ^ 16) := by
  simp [ofKinds, Nat.min_comm]

variable {kinds}

theorem inNoClass_of_length_le {id : KindId} (h : kinds.length ≤ id.toNat) :
    (ofKinds kinds).InNoClass id := by
  have hentry : Grammar.entry? (ofKinds kinds) id = none := by
    rw [entry?_ofKinds, List.getElem?_eq_none h]
    rfl
  constructor <;> simp [category, isAtomic, isWrapper, isKeywordOwner, isTypeWrapper, isModifier, hentry]

theorem alike_of_kind {i j : KindId} (h : kinds[i.toNat]? = kinds[j.toNat]?) :
    (ofKinds kinds).Alike i j := by
  have hentry : Grammar.entry? (ofKinds kinds) i = Grammar.entry? (ofKinds kinds) j := by
    rw [entry?_ofKinds, entry?_ofKinds, h]
  constructor <;>
    simp only [category, isAtomic, isWrapper, isKeywordOwner, isTypeWrapper, isModifier, hentry]

end Grammar

namespace Tree

/-- Whether a tree is described as a token is: by its source if nothing is below it, with all that is visible
below it, and with neither a name nor a value nor anything in a role. -/
structure DescribedAsToken (g : Grammar) (source : List Char) (unit : OffsetUnit) (t : Tree) : Prop where
  category : g.category t.info.kind = .other
  atomic : g.isAtomic t.info.kind = false
  text : (t.normalize g source unit).text =
    if t.children.isEmpty then some (String.ofList (Text.slice source t.info.start t.info.stop)) else none
  name : (t.normalize g source unit).name = none
  value : (t.normalize g source unit).value = none
  roles : ∀ role, (t.normalize g source unit).inRole? role = none ∧
    (t.normalize g source unit).listInRole? role = none
  children : (t.normalize g source unit).childList =
    (t.children.filter (·.info.isVisible)).map (normalize g source unit)

theorem describedAsToken {g : Grammar} {t : Tree} (hcategory : g.category t.info.kind = .other)
    (hatomic : g.isAtomic t.info.kind = false) (source : List Char) (unit : OffsetUnit) :
    t.DescribedAsToken g source unit := by
  obtain ⟨-, hnumber, -, -, htext⟩ := t.base_record g source (.ofText source unit)
  have hschema : (t.normalize g source unit).ObeysSchema g.table := Record.obeysSchema_ofNode _ _ _
  have hother : g.table.category (t.normalize g source unit).kindNumber = .other := by
    rw [normalize_eq_record, hnumber]
    exact hcategory
  refine ⟨hcategory, hatomic, ?_, ?_, ?_, ?_, ?_⟩
  · rw [normalize_eq_record, htext]
    simp [Reading.text?, hcategory, hatomic]
  · rcases hname : (t.normalize g source unit).name with _ | s | r
    · rfl
    · have hidentifier := ((hschema.textName s).1 hname).1
      rw [hother] at hidentifier
      contradiction
    · have howner := hschema.nodeName r hname
      rw [hother] at howner
      contradiction
  · cases hvalue : (t.normalize g source unit).value with
    | none => rfl
    | some s =>
      have hliteral := ((hschema.value s).1 hvalue).1
      rw [hother] at hliteral
      contradiction
  · intro role
    rw [normalize_eq_record, inRole?_record, listInRole?_record, hcategory]
    exact ⟨rfl, rfl⟩
  · rw [normalize_eq_record, childList_record, visibleChildren, hatomic]
    rfl

end Tree

namespace Grammar

/-- A token has neither a category nor a class of named nodes. -/
theorem not_classified_of_token {kinds : List Kind} {id : KindId} {name : Option String}
    (h : kinds[id.toNat]? = some ⟨name, false⟩) :
    (ofKinds kinds).category id = .other ∧ (ofKinds kinds).isAtomic id = false := by
  have hnamed : ∀ other, kinds[id.toNat]? ≠ some ⟨some other, true⟩ := by simp [h]
  refine ⟨category_ofKinds_eq_other hnamed, ?_⟩
  rw [← Bool.not_eq_true, isAtomic_ofKinds_iff]
  rintro ⟨other, -, hother⟩
  exact hnamed other hother

/-- A grammar of any kinds, of which several may share a name, classifies each number by the name of its kind and
whether that is named. So numbers that share both are in the same classes, and trees are described alike when
such numbers are exchanged. Tokens are described as tokens, even those with the name of a literal. -/
theorem ofKinds_classifies_by_name (kinds : List Kind) :
    (ofKinds kinds).entries.size = min kinds.length (2 ^ 16) ∧
    (∀ id, ClassifiedByName kinds id) ∧
    (∀ id : KindId, kinds.length ≤ id.toNat → (ofKinds kinds).InNoClass id) ∧
    (∀ i j : KindId, kinds[i.toNat]? = kinds[j.toNat]? → (ofKinds kinds).Alike i j) ∧
    (∀ f : KindId → KindId, (∀ id, kinds[(f id).toNat]? = kinds[id.toNat]?) → ∀ source unit t,
      Tree.native (ofKinds kinds) source unit (t.renumber f) =
        Tree.native (ofKinds kinds) source unit t ∧
      ((∀ id, (ofKinds kinds).kindName (f id) = (ofKinds kinds).kindName id) →
        Tree.normalize (ofKinds kinds) source unit (t.renumber f) =
          (Tree.normalize (ofKinds kinds) source unit t).renumber f)) ∧
    ∀ t : Tree, (∃ name, kinds[t.info.kind.toNat]? = some ⟨name, false⟩) → ∀ source unit,
      t.DescribedAsToken (ofKinds kinds) source unit := by
  refine ⟨size_entries_ofKinds kinds, classifiedByName kinds, fun _ => inNoClass_of_length_le,
    fun _ _ => alike_of_kind, ?_, ?_⟩
  · intro f hf source unit t
    have halike : ∀ id, (ofKinds kinds).Alike (f id) id := fun id => alike_of_kind (hf id)
    exact ⟨Native.ofTree_renumber source _ halike t,
      fun hname => t.normalize_renumber source halike hname unit⟩
  · rintro t ⟨name, hname⟩ source unit
    obtain ⟨hcategory, hatomic⟩ := not_classified_of_token hname
    exact Tree.describedAsToken hcategory hatomic source unit

/-- An access under one of several numbers for accesses. -/
def aliasedAccess : Tree :=
  .node { kind := 323, kindName := "member_expression", named := true, start := 0, stop := 3 }
    [.node { kind := 1, kindName := "identifier", field := "object", named := true, start := 0, stop := 1 } [],
      .node { kind := 48, kindName := ".", start := 1, stop := 2 } [],
      .node { kind := 378, kindName := "property_identifier", field := "property", named := true
              start := 2, stop := 3 } []]

/-- The keyword for the type of strings. -/
def stringKeyword : Tree :=
  .node { kind := 135, kindName := "string", start := 0, stop := 6 } []

/-- Takes the number of accesses in types for that of other accesses. -/
def mergeAccesses (id : KindId) : KindId := if id = 323 then 235 else id

theorem mergeAccesses_keeps_kinds (id : KindId) :
    typedKinds[(mergeAccesses id).toNat]? = typedKinds[id.toNat]? ∧
      (ofKinds typedKinds).kindName (mergeAccesses id) = (ofKinds typedKinds).kindName id := by
  unfold mergeAccesses
  split_ifs with h
  · subst h
    exact ⟨by decide +kernel, by decide +kernel⟩
  · exact ⟨rfl, rfl⟩

theorem aliasedAccess_classified_by_name :
    (∀ id, typedKinds[(mergeAccesses id).toNat]? = typedKinds[id.toNat]?) ∧
    ((aliasedAccess.renumber mergeAccesses).info.kind = 235 ∧
      (aliasedAccess.renumber mergeAccesses).normalize (ofKinds typedKinds) "a.b".toList .utf16 =
        (aliasedAccess.normalize (ofKinds typedKinds) "a.b".toList .utf16).renumber mergeAccesses) ∧
    typedKinds[stringKeyword.info.kind.toNat]? = some ⟨some "string", false⟩ ∧
    (stringKeyword.normalize (ofKinds typedKinds) "string".toList .utf16).text = some "string" := by
  obtain ⟨-, -, -, -, halike, htoken⟩ := ofKinds_classifies_by_name typedKinds
  have hkinds : ∀ id, typedKinds[(mergeAccesses id).toNat]? = typedKinds[id.toNat]? :=
    fun id => (mergeAccesses_keeps_kinds id).1
  have hkeyword : typedKinds[stringKeyword.info.kind.toNat]? = some ⟨some "string", false⟩ := by
    decide +kernel
  refine ⟨hkinds, ⟨by decide, ?_⟩, hkeyword, ?_⟩
  · exact (halike _ hkinds _ _ _).2 fun id => (mergeAccesses_keeps_kinds id).2
  · rw [(htoken stringKeyword ⟨_, hkeyword⟩ _ _).text]
    decide

end Grammar

end ScriptTree
