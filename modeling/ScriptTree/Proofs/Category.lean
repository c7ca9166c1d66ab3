import ScriptTree.Proofs.Record.Json

/-! What a record holds is decided by the category of its kind. This is so for every record inside the record
of a node, along every edge, and whatever else the nodes have to offer. -/
namespace ScriptTree

/-- The categories whose records have parts in a role. -/
def Role.owners : Role → List Category
  | .name => [.propertyAccess, .variableDeclaration, .functionLike, .interface, .propertySignature]
  | .expression => [.propertyAccess, .call]
  | .type => [.variableDeclaration, .propertySignature]
  | .initializer => [.variableDeclaration]
  | .returnType | .body | .parameters => [.functionLike]
  | .arguments => [.call]
  | .members => [.interface]

theorem Category.mem_owners {category : Category} {role : Role}
    (h : role ∈ category.fieldRoles ++ category.listRoles) : category ∈ role.owners := by
  revert h
  cases category <;> cases role <;> decide

namespace Record

/-- Whether a record has what its category has and nothing else. Its kind is the name of its number, and so is
that of each modifier. -/
structure ObeysSchema (table : KindTable) (r : Record) : Prop where
  kind : r.kind = table.kindName r.kindNumber
  placed : r.pos.isSome ∧ r.stop.isSome
  textName : ∀ s, r.name = some (.text s) ↔
    table.category r.kindNumber = .identifier ∧ r.text = some s
  nodeName : ∀ c, r.name = some (.node c) → table.category r.kindNumber ∈
    [.propertyAccess, .variableDeclaration, .functionLike, .interface, .propertySignature]
  value : ∀ s, r.value = some s ↔ table.category r.kindNumber = .literal ∧ r.text = some s
  expression : r.expression.isSome → table.category r.kindNumber ∈ [.propertyAccess, .call]
  arguments : r.arguments.isSome ↔ table.category r.kindNumber = .call
  type : r.type.isSome → table.category r.kindNumber ∈ [.variableDeclaration, .propertySignature]
  initializer : r.initializer.isSome → table.category r.kindNumber = .variableDeclaration
  parameters : r.parameters.isSome → table.category r.kindNumber = .functionLike
  returnType : r.returnType.isSome → table.category r.kindNumber = .functionLike
  body : r.body.isSome → table.category r.kindNumber = .functionLike
  members : r.members.isSome → table.category r.kindNumber = .interface
  modifiers : r.modifiers ≠ some []
  modifierKinds : ∀ ms, r.modifiers = some ms → ∀ m ∈ ms, m.kind = table.kindName m.kindNumber
  children : r.children ≠ some []

theorem nonempty?_ne_some_nil {α : Type} (as : List α) : nonempty? as ≠ some [] := by
  cases as <;> simp [nonempty?]

theorem eq_of_nonempty? {α : Type} {as bs : List α} (h : nonempty? as = some bs) : as = bs := by
  rw [← nonempty?_getD as, h, Option.getD_some]

section OfNode

variable (table : KindTable) (offsets : OffsetMap) (n : SyntaxNode)

/-- Modifiers and children are no matter of the category. -/
theorem lists_ofNode :
    (ofNode table offsets n).modifiers =
        nonempty? (n.modifiers.map fun m => ⟨table.kindName m, m⟩) ∧
      (ofNode table offsets n).children = nonempty? (n.children.map (ofNode table offsets)) := by
  cases n with
  | mk kind start stop text fields lists modifiers children =>
    rw [← ofNodes_eq_map]
    simp only [ofNode]
    cases table.category kind <;> exact ⟨rfl, rfl⟩

theorem name_ofNode_eq_text_iff (s : String) :
    (ofNode table offsets n).name = some (.text s) ↔
      table.category n.kind = .identifier ∧ n.text = some s := by
  cases n with
  | mk kind start stop text fields lists modifiers children =>
    simp only [ofNode]
    cases table.category kind <;> simp [base]

theorem value_ofNode_eq_some_iff (s : String) :
    (ofNode table offsets n).value = some s ↔
      table.category n.kind = .literal ∧ n.text = some s := by
  cases n with
  | mk kind start stop text fields lists modifiers children =>
    simp only [ofNode]
    cases table.category kind <;> simp [base]

theorem isSome_arguments_ofNode_iff :
    (ofNode table offsets n).arguments.isSome ↔ table.category n.kind = .call := by
  have h := listInRole?_ofNode table offsets n .arguments
  rw [if_pos rfl, listInRole?] at h
  rw [h]
  cases table.category n.kind <;> simp [Category.listRoles]

variable {table offsets n}

theorem mem_owners_of_inRole? (role : Role) (h : ((ofNode table offsets n).inRole? role).isSome) :
    table.category n.kind ∈ role.owners := by
  apply Category.mem_owners
  rw [inRole?_ofNode] at h
  split_ifs at h with hrole
  · exact List.mem_append_left _ hrole
  · contradiction

theorem mem_owners_of_listInRole? (role : Role)
    (h : ((ofNode table offsets n).listInRole? role).isSome) :
    table.category n.kind ∈ role.owners := by
  apply Category.mem_owners
  rw [listInRole?_ofNode] at h
  by_cases hrole : role ∈ (table.category n.kind).listRoles
  · exact List.mem_append_right _ hrole
  · rw [if_neg hrole] at h
    contradiction

variable (table offsets n)

theorem obeysSchema_ofNode : (ofNode table offsets n).ObeysSchema table := by
  obtain ⟨hkind, hnumber, hpos, hstop, htext⟩ := base_ofNode table offsets n
  obtain ⟨hmodifiers, hchildren⟩ := lists_ofNode table offsets n
  have hone (role : Role) {c : Category} (hc : role.owners = [c])
      (h : ((ofNode table offsets n).inRole? role).isSome) : table.category n.kind = c :=
    List.mem_singleton.1 (hc ▸ mem_owners_of_inRole? role h)
  have hseveral (role : Role) {c : Category} (hc : role.owners = [c])
      (h : ((ofNode table offsets n).listInRole? role).isSome) : table.category n.kind = c :=
    List.mem_singleton.1 (hc ▸ mem_owners_of_listInRole? role h)
  constructor <;> try rw [hnumber]
  case kind => exact hkind
  case placed => exact ⟨by rw [hpos]; rfl, by rw [hstop]; rfl⟩
  case textName =>
    rw [htext]
    exact name_ofNode_eq_text_iff table offsets n
  case nodeName =>
    intro c hc
    exact mem_owners_of_inRole? .name (by rw [inRole?, hc]; rfl)
  case value =>
    rw [htext]
    exact value_ofNode_eq_some_iff table offsets n
  case expression => exact mem_owners_of_inRole? .expression
  case arguments => exact isSome_arguments_ofNode_iff table offsets n
  case type => exact mem_owners_of_inRole? .type
  case initializer => exact hone .initializer rfl
  case parameters => exact hseveral .parameters rfl
  case returnType => exact hone .returnType rfl
  case body => exact hone .body rfl
  case members => exact hseveral .members rfl
  case modifiers =>
    rw [hmodifiers]
    exact nonempty?_ne_some_nil _
  case modifierKinds =>
    intro ms hms m hm
    rw [hmodifiers] at hms
    rw [← eq_of_nonempty? hms] at hm
    obtain ⟨id, -, rfl⟩ := List.mem_map.1 hm
    rfl
  case children =>
    rw [hchildren]
    exact nonempty?_ne_some_nil _

theorem exists_of_mem_inner_ofNode {c : Record} (h : c ∈ (ofNode table offsets n).inner) :
    ∃ m, c = ofNode table offsets m := by
  have hmap {ns : List SyntaxNode} (hc : c ∈ ns.map (ofNode table offsets)) :
      ∃ m, c = ofNode table offsets m := by
    obtain ⟨m, -, rfl⟩ := List.mem_map.1 hc
    exact ⟨m, rfl⟩
  rw [inner, List.mem_append, List.mem_flatMap] at h
  rcases h with ⟨role, -, h⟩ | h
  · rw [allInRole, List.mem_append, inRole?_ofNode, listInRole?_ofNode] at h
    rcases h with h | h
    · split_ifs at h with hrole
      · cases hm : n.fields.lookup role with
        | none => simp [hm] at h
        | some m => exact ⟨m, by simpa [hm] using h⟩
      · contradiction
    · split_ifs at h with hrole harguments
      · exact hmap h
      · cases hm : n.lists.lookup role with
        | none => simp [hm] at h
        | some ns => exact hmap (show c ∈ ns.map _ by simpa [hm] using h)
      · contradiction
  · rw [childList_ofNode] at h
    exact hmap h

/-- All that the record of a node holds, along every edge, are records of nodes. -/
theorem exists_of_mem_nested_ofNode {r : Record} (h : r ∈ (ofNode table offsets n).nested) :
    ∃ m, r = ofNode table offsets m := by
  generalize hs : ofNode table offsets n = s at h
  induction s using inner_induction generalizing n with
  | h s ih =>
    subst hs
    rw [nested_eq, List.mem_cons, List.mem_flatMap] at h
    rcases h with rfl | ⟨c, hc, h⟩
    · exact ⟨n, rfl⟩
    · obtain ⟨m, hm⟩ := exists_of_mem_inner_ofNode table offsets n hc
      exact ih c hc m hm.symm h

end OfNode

/-- Every record inside the record of a node obeys the schema. -/
theorem nested_obey_schema (table : KindTable) (offsets : OffsetMap) (n : SyntaxNode) :
    ∀ r ∈ (ofNode table offsets n).nested, r.ObeysSchema table := by
  intro r hr
  obtain ⟨m, rfl⟩ := exists_of_mem_nested_ofNode table offsets n hr
  exact obeysSchema_ofNode table offsets m

/-- A name that offers a body, members and a modifier. -/
def burdenedName : SyntaxNode where
  kind := 1
  start := 0
  stop := 1
  text := some "f"
  fields := [(.body, { kind := 1, start := 0, stop := 1 })]
  lists := [(.members, [])]
  modifiers := [3]

/-- A call of that name. -/
def burdenedCall : SyntaxNode where
  kind := 2
  start := 0
  stop := 3
  fields := [(.expression, burdenedName)]

def namesAndCalls : KindTable :=
  .ofRows [(1, "identifier", .identifier), (2, "call_expression", .call), (3, "static", .other)]

theorem burdenedCall_obeys_schema :
    ofNode namesAndCalls ⟨none⟩ burdenedName ∈ (ofNode namesAndCalls ⟨none⟩ burdenedCall).nested ∧
    (ofNode namesAndCalls ⟨none⟩ burdenedName).name = some (.text "f") ∧
    (ofNode namesAndCalls ⟨none⟩ burdenedName).ObeysSchema namesAndCalls := by
  have hmem : ofNode namesAndCalls ⟨none⟩ burdenedName ∈
      (ofNode namesAndCalls ⟨none⟩ burdenedCall).nested := by
    rw [nested_eq, List.mem_cons, List.mem_flatMap]
    have hrole : (ofNode namesAndCalls ⟨none⟩ burdenedCall).inRole? .expression =
        some (ofNode namesAndCalls ⟨none⟩ burdenedName) := rfl
    refine Or.inr ⟨_, mem_inner_of_inRole? hrole, ?_⟩
    rw [nested_eq]
    exact List.mem_cons_self
  exact ⟨hmem, rfl, nested_obey_schema _ _ _ _ hmem⟩

end Record

end ScriptTree
