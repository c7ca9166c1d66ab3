import Mathlib.Data.List.Flatten
import ScriptTree.Record.Normalize

/-! Records inside records along every edge, and what the record of a syntax node holds in each role. -/
namespace ScriptTree

theorem Role.mem_all (role : Role) : role ∈ Role.all := by cases role <;> decide

namespace Category

/-- The roles in which the record of a node of a category has one part. -/
def fieldRoles : Category → List Role
  | .propertyAccess => [.expression, .name]
  | .call => [.expression]
  | .variableDeclaration => [.name, .type, .initializer]
  | .functionLike => [.name, .returnType, .body]
  | .interface => [.name]
  | .propertySignature => [.name, .type]
  | .identifier | .literal | .other => []

/-- The roles in which the record of a node of a category has several parts. -/
def listRoles : Category → List Role
  | .call => [.arguments]
  | .functionLike => [.parameters]
  | .interface => [.members]
  | _ => []

end Category

namespace Record

def Name.record? {α : Type} : Name α → Option α
  | .text _ => none
  | .node r => some r

@[simp] theorem Name.record?_node {α : Type} (r : Option α) :
    (r.map Name.node).bind Name.record? = r := by
  cases r <;> rfl

@[simp] theorem Name.record?_text {α : Type} (s : Option String) :
    (s.map Name.text).bind Name.record? = (none : Option α) := by
  cases s <;> rfl

/-- The record in a role that holds one. -/
def inRole? (r : Record) : Role → Option Record
  | .name => r.name.bind Name.record?
  | .type => r.type
  | .initializer => r.initializer
  | .expression => r.expression
  | .returnType => r.returnType
  | .body => r.body
  | .arguments | .parameters | .members => none

/-- The records in a role that holds several. -/
def listInRole? (r : Record) : Role → Option (List Record)
  | .arguments => r.arguments
  | .parameters => r.parameters
  | .members => r.members
  | _ => none

def childList (r : Record) : List Record := r.children.getD []

def allInRole (r : Record) (role : Role) : List Record :=
  (r.inRole? role).toList ++ (r.listInRole? role).getD []

/-- The records right inside a record, along every edge: those in its roles, then its children. -/
def inner (r : Record) : List Record := Role.all.flatMap r.allInRole ++ r.childList

mutual

/-- The record and all records inside it, along every edge. -/
def nested : Record → List Record
  | { kind, kindNumber, pos, stop, text, name, value, expression, arguments, type, returnType,
      initializer, parameters, body, members, modifiers, children } =>
    { kind, kindNumber, pos, stop, text, name, value, expression, arguments, type, returnType,
      initializer, parameters, body, members, modifiers, children } ::
      (nestedName name ++ nestedOption type ++ nestedOption initializer ++ nestedOption expression ++
       nestedListOption arguments ++ nestedListOption parameters ++ nestedOption returnType ++
       nestedOption body ++ nestedListOption members ++ nestedListOption children)

def nestedName : Option (Name Record) → List Record
  | some (.node r) => nested r
  | _ => []

def nestedOption : Option Record → List Record
  | some r => nested r
  | none => []

def nestedListOption : Option (List Record) → List Record
  | some rs => nestedList rs
  | none => []

def nestedList : List Record → List Record
  | [] => []
  | r :: rs => nested r ++ nestedList rs

end

theorem nestedList_eq_flatMap (rs : List Record) : nestedList rs = rs.flatMap nested := by
  induction rs with
  | nil => rfl
  | cons r rs ih => rw [nestedList, ih, List.flatMap_cons]

private theorem nestedName_eq (name : Option (Name Record)) :
    nestedName name = (name.bind Name.record?).toList.flatMap nested := by
  rcases name with _ | _ | r <;> simp [nestedName, Name.record?]

private theorem nestedOption_eq (r : Option Record) : nestedOption r = r.toList.flatMap nested := by
  cases r <;> simp [nestedOption]

private theorem nestedListOption_eq (rs : Option (List Record)) :
    nestedListOption rs = (rs.getD []).flatMap nested := by
  cases rs <;> simp [nestedListOption, nestedList_eq_flatMap]

/-- A record comes before the records inside those right inside it. -/
theorem nested_eq (r : Record) : r.nested = r :: r.inner.flatMap nested := by
  cases r
  simp [nested, nestedName_eq, nestedOption_eq, nestedListOption_eq, inner, Role.all, allInRole,
    inRole?, listInRole?, childList, List.append_assoc]

section OfNode

variable (table : KindTable) (offsets : OffsetMap)

theorem ofNodes_eq_map (ns : List SyntaxNode) :
    ofNodes table offsets ns = ns.map (ofNode table offsets) := by
  induction ns with
  | nil => rfl
  | cons n ns ih => rw [ofNodes, ih, List.map_cons]

theorem ofField_eq_lookup (role : Role) (fields : List (Role × SyntaxNode)) :
    ofField table offsets role fields = (fields.lookup role).map (ofNode table offsets) := by
  induction fields with
  | nil => rfl
  | cons field fields ih =>
    obtain ⟨r, n⟩ := field
    by_cases h : r = role
    · simp [ofField, h]
    · have hr : (role == r) = false := by simpa using Ne.symm h
      simp [ofField, h, ih, List.lookup_cons, hr]

theorem ofList_eq_lookup (role : Role) (lists : List (Role × List SyntaxNode)) :
    ofList table offsets role lists =
      (lists.lookup role).map fun ns => ns.map (ofNode table offsets) := by
  induction lists with
  | nil => rfl
  | cons list lists ih =>
    obtain ⟨r, ns⟩ := list
    by_cases h : r = role
    · simp [ofList, h, ofNodes_eq_map]
    · have hr : (role == r) = false := by simpa using Ne.symm h
      simp [ofList, h, ih, List.lookup_cons, hr]

/-- The record of a node has the part in a role if its category has that role. -/
theorem inRole?_ofNode (n : SyntaxNode) (role : Role) :
    (ofNode table offsets n).inRole? role =
      if role ∈ (table.category n.kind).fieldRoles then
        (n.fields.lookup role).map (ofNode table offsets)
      else none := by
  cases n with
  | mk kind start stop text fields lists modifiers children =>
    simp only [ofNode, ofField_eq_lookup]
    cases table.category kind <;> cases role <;>
      simp [inRole?, Category.fieldRoles, base, -Option.map_map]

/-- The record of a node has the parts in a role if its category has that role. A call always has
arguments. -/
theorem listInRole?_ofNode (n : SyntaxNode) (role : Role) :
    (ofNode table offsets n).listInRole? role =
      if role ∈ (table.category n.kind).listRoles then
        if role = .arguments then some (((n.lists.lookup role).getD []).map (ofNode table offsets))
        else (n.lists.lookup role).map fun ns => ns.map (ofNode table offsets)
      else none := by
  cases n with
  | mk kind start stop text fields lists modifiers children =>
    simp only [ofNode, ofList_eq_lookup]
    cases table.category kind <;> cases role <;>
      simp [listInRole?, Category.listRoles, base]
    cases lists.lookup .arguments <;> rfl

theorem nonempty?_getD {α : Type} (as : List α) : (nonempty? as).getD [] = as := by
  cases as <;> rfl

theorem childList_ofNode (n : SyntaxNode) :
    (ofNode table offsets n).childList = n.children.map (ofNode table offsets) := by
  cases n with
  | mk kind start stop text fields lists modifiers children =>
    rw [← ofNodes_eq_map, ← nonempty?_getD (ofNodes table offsets children)]
    simp only [ofNode]
    cases table.category kind <;> rfl

/-- The record of a node without its roles: its kind, its place and its text. -/
theorem base_ofNode (n : SyntaxNode) :
    (ofNode table offsets n).kind = table.kindName n.kind ∧
      (ofNode table offsets n).kindNumber = n.kind ∧
      (ofNode table offsets n).pos = some (offsets.offset n.start) ∧
      (ofNode table offsets n).stop = some (offsets.offset n.stop) ∧
      (ofNode table offsets n).text = n.text := by
  cases n with
  | mk kind start stop text fields lists modifiers children =>
    simp only [ofNode]
    cases table.category kind <;> exact ⟨rfl, rfl, rfl, rfl, rfl⟩

end OfNode

end Record

end ScriptTree
