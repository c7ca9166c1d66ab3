import ScriptTree.Proofs.Lossless
import ScriptTree.Proofs.Positions
import ScriptTree.Proofs.UnitOffsets
import ScriptTree.Proofs.Walk

/-! The unit that positions count decides the positions and nothing else. Without them the results are the same,
and each position is counted from the same byte. -/
namespace ScriptTree

/-- The map that takes bytes for units. -/
def OffsetMap.bytes : OffsetMap := ⟨none⟩

@[simp] theorem OffsetMap.offset_bytes (byte : Nat) : bytes.offset byte = byte := rfl

theorem OffsetMap.ofText_utf8 (source : List Char) : ofText source .utf8 = bytes :=
  if_pos (Or.inl rfl)

namespace Record

mutual

/-- The record without positions, its own and those inside it along every edge. -/
def withoutPositions : Record → Record
  | { kind, kindNumber, pos := _, stop := _, text, name, value, expression, arguments, type, returnType,
      initializer, parameters, body, members, modifiers, children } =>
    { kind, kindNumber, text, value, modifiers
      name := nameWithoutPositions name
      expression := optionWithoutPositions expression
      arguments := listOptionWithoutPositions arguments
      type := optionWithoutPositions type
      returnType := optionWithoutPositions returnType
      initializer := optionWithoutPositions initializer
      parameters := listOptionWithoutPositions parameters
      body := optionWithoutPositions body
      members := listOptionWithoutPositions members
      children := listOptionWithoutPositions children }

def nameWithoutPositions : Option (Name Record) → Option (Name Record)
  | some (.node r) => some (.node (withoutPositions r))
  | some (.text s) => some (.text s)
  | none => none

def optionWithoutPositions : Option Record → Option Record
  | some r => some (withoutPositions r)
  | none => none

def listOptionWithoutPositions : Option (List Record) → Option (List Record)
  | some rs => some (listWithoutPositions rs)
  | none => none

def listWithoutPositions : List Record → List Record
  | [] => []
  | r :: rs => withoutPositions r :: listWithoutPositions rs

end

@[simp] theorem nameWithoutPositions_node (r : Option Record) :
    nameWithoutPositions (r.map .node) = (optionWithoutPositions r).map .node := by
  cases r <;> rfl

@[simp] theorem nameWithoutPositions_text (s : Option String) :
    nameWithoutPositions (s.map .text) = s.map .text := by
  cases s <;> rfl

@[simp] theorem listOptionWithoutPositions_nonempty? (rs : List Record) :
    listOptionWithoutPositions (nonempty? rs) = nonempty? (listWithoutPositions rs) := by
  cases rs <;> rfl

@[simp] theorem listOptionWithoutPositions_some_getD (rs : Option (List Record)) :
    listOptionWithoutPositions (some (rs.getD [])) =
      some ((listOptionWithoutPositions rs).getD []) := by
  cases rs <;> rfl

section OfNode

variable (table : KindTable) (a b : OffsetMap)

mutual

/-- Which positions are given to a node decides nothing else. -/
theorem withoutPositions_ofNode : ∀ n : SyntaxNode,
    (ofNode table a n).withoutPositions = (ofNode table b n).withoutPositions
  | { kind, start, stop, text, fields, lists, modifiers, children } => by
    have hchildren := withoutPositions_ofNodes children
    have hfield := fun role => withoutPositions_ofField role fields
    have hlist := fun role => withoutPositions_ofList role lists
    simp only [ofNode]
    cases table.category kind <;>
      simp [base, withoutPositions, hchildren, hfield, hlist]

theorem withoutPositions_ofNodes : ∀ ns : List SyntaxNode,
    listWithoutPositions (ofNodes table a ns) = listWithoutPositions (ofNodes table b ns)
  | [] => rfl
  | n :: ns => by
    rw [ofNodes, ofNodes, listWithoutPositions, listWithoutPositions, withoutPositions_ofNode n,
      withoutPositions_ofNodes ns]

theorem withoutPositions_ofField (role : Role) : ∀ fields : List (Role × SyntaxNode),
    optionWithoutPositions (ofField table a role fields) =
      optionWithoutPositions (ofField table b role fields)
  | [] => rfl
  | (r, n) :: fields => by
    rw [ofField, ofField]
    split_ifs with h
    · rw [optionWithoutPositions, optionWithoutPositions, withoutPositions_ofNode n]
    · exact withoutPositions_ofField role fields

theorem withoutPositions_ofList (role : Role) : ∀ lists : List (Role × List SyntaxNode),
    listOptionWithoutPositions (ofList table a role lists) =
      listOptionWithoutPositions (ofList table b role lists)
  | [] => rfl
  | (r, ns) :: lists => by
    rw [ofList, ofList]
    split_ifs with h
    · rw [listOptionWithoutPositions, listOptionWithoutPositions, withoutPositions_ofNodes ns]
    · exact withoutPositions_ofList role lists

end

end OfNode

/-- The positions of a record and of all records inside it, along every edge. -/
def positions (r : Record) : List Nat := r.nested.flatMap fun s => s.pos.toList ++ s.stop.toList

theorem positions_eq (r : Record) :
    r.positions = r.pos.toList ++ r.stop.toList ++ r.inner.flatMap positions := by
  rw [positions, nested_eq, List.flatMap_cons, List.flatMap_assoc]
  rfl

end Record

namespace Json

mutual

/-- The value without the positions of objects in it. -/
def withoutPositions : Json → Json
  | .scalar s => .scalar s
  | .arr items => .arr (itemsWithoutPositions items)
  | .obj members => .obj (membersWithoutPositions members)

def itemsWithoutPositions : List Json → List Json
  | [] => []
  | j :: js => withoutPositions j :: itemsWithoutPositions js

def membersWithoutPositions : List (String × Json) → List (String × Json)
  | [] => []
  | (key, j) :: ms =>
    if key = "start" ∨ key = "end" then membersWithoutPositions ms
    else (key, withoutPositions j) :: membersWithoutPositions ms

end

theorem itemsWithoutPositions_eq_map (js : List Json) :
    itemsWithoutPositions js = js.map withoutPositions := by
  induction js with
  | nil => rfl
  | cons j js ih => rw [itemsWithoutPositions, ih, List.map_cons]

theorem membersWithoutPositions_append (ms ns : List (String × Json)) :
    membersWithoutPositions (ms ++ ns) = membersWithoutPositions ms ++ membersWithoutPositions ns := by
  induction ms with
  | nil => rfl
  | cons m ms ih =>
    rw [List.cons_append, membersWithoutPositions, membersWithoutPositions, ih]
    split_ifs <;> rfl

/-- Members under the same names are the same without positions if their values are. -/
theorem membersWithoutPositions_congr {keys : List String} {f f' : String → Json}
    (h : ∀ key ∈ keys, (f key).withoutPositions = (f' key).withoutPositions) :
    membersWithoutPositions (keys.map fun key => (key, f key)) =
      membersWithoutPositions (keys.map fun key => (key, f' key)) := by
  induction keys with
  | nil => rfl
  | cons key keys ih =>
    obtain ⟨hfirst, hrest⟩ := List.forall_mem_cons.1 h
    rw [List.map_cons, List.map_cons, membersWithoutPositions, membersWithoutPositions, hfirst, ih hrest]

/-- The positions of all objects in a value. -/
def positions (j : Json) : List Nat :=
  j.objects.flatMap fun o => ["start", "end"].filterMap fun key => (o.get? key).bind nat?

def positionsInMembers (ms : List (String × Json)) : List Nat := ms.flatMap fun m => m.2.positions

/-- The positions of an object come before those of the objects inside it. -/
theorem positions_obj (ms : List (String × Json)) :
    (Json.obj ms).positions =
      ["start", "end"].filterMap (fun key => ((Json.obj ms).get? key).bind nat?) ++
        positionsInMembers ms := by
  rw [positions, objects, List.flatMap_cons, objectsInMembers_eq_flatMap, List.flatMap_assoc]
  rfl

end Json

namespace Native

theorem withoutPositions_collapse (values : List Json) :
    (collapse values).withoutPositions = collapse (values.map Json.withoutPositions) := by
  match values with
  | [] => rfl
  | [value] => rfl
  | value :: other :: values =>
    simp [collapse, Json.withoutPositions, Json.itemsWithoutPositions_eq_map]

theorem withoutPositions_childrenMember (values : List Json) :
    Json.membersWithoutPositions (childrenMember values) =
      childrenMember (values.map Json.withoutPositions) := by
  cases values with
  | nil => rfl
  | cons value values =>
    simp [childrenMember, Json.membersWithoutPositions, Json.withoutPositions,
      Json.itemsWithoutPositions_eq_map]

theorem positions_collapse (values : List Json) :
    (collapse values).positions = values.flatMap Json.positions := by
  rw [Json.positions, objects_collapse, List.flatMap_assoc]
  rfl

theorem positions_childrenMember (values : List Json) :
    Json.positionsInMembers (childrenMember values) = values.flatMap Json.positions := by
  cases values with
  | nil => rfl
  | cons value values =>
    rw [Json.positionsInMembers, childrenMember, List.isEmpty_cons, if_neg Bool.false_ne_true,
      List.flatMap_singleton, Json.positions, Json.objects, Json.objectsInItems_eq_flatMap,
      List.flatMap_assoc]
    rfl

section OfTree

variable (g : Grammar) (source : List Char) (offsets : OffsetMap)

/-- The members of a native object that come behind those for its kind and place. -/
def otherMembers (t : Tree) : List (String × Json) :=
  if isLeaf g t then [("text", sliceOf source t.info)]
  else (labels t).map (fun label => (label, collapse (valuesUnder g source offsets t label))) ++
    childrenMember ((unlabelled t).map (ofTree g source offsets))

theorem ofTree_eq_append (t : Tree) :
    ofTree g source offsets t = .obj (ownMembers offsets t ++ otherMembers g source offsets t) := by
  rw [ofTree_eq, otherMembers, membersOf_partsOf]
  rfl

theorem mem_children_of_mem_unlabelled {t c : Tree} (h : c ∈ unlabelled t) : c ∈ t.children :=
  Tree.parts_subset_children t (List.mem_of_mem_filter h)

section Erasure

variable (a b : OffsetMap)

theorem withoutPositions_valuesUnder {t : Tree} (label : String)
    (h : ∀ c ∈ t.children, (ofTree g source a c).withoutPositions =
      (ofTree g source b c).withoutPositions) :
    (valuesUnder g source a t label).map Json.withoutPositions =
      (valuesUnder g source b t label).map Json.withoutPositions := by
  rw [valuesUnder, valuesUnder, List.map_map, List.map_map]
  refine List.map_congr_left fun c hc => ?_
  rw [Function.comp_apply, Function.comp_apply, valueOf, valueOf]
  split_ifs with hpart
  · exact h c (List.mem_of_mem_filter hc)
  · rfl

theorem withoutPositions_otherMembers {t : Tree}
    (h : ∀ c ∈ t.children, (ofTree g source a c).withoutPositions =
      (ofTree g source b c).withoutPositions) :
    Json.membersWithoutPositions (otherMembers g source a t) =
      Json.membersWithoutPositions (otherMembers g source b t) := by
  unfold otherMembers
  split_ifs with hleaf
  · rfl
  · rw [Json.membersWithoutPositions_append, Json.membersWithoutPositions_append]
    congr 1
    · refine Json.membersWithoutPositions_congr fun label _ => ?_
      rw [withoutPositions_collapse, withoutPositions_collapse,
        withoutPositions_valuesUnder g source a b label h]
    · rw [withoutPositions_childrenMember, withoutPositions_childrenMember, List.map_map, List.map_map]
      congr 1
      exact List.map_congr_left fun c hc => h c (mem_children_of_mem_unlabelled hc)

/-- Which positions are given to a tree decides nothing else in its native form. -/
theorem withoutPositions_ofTree (t : Tree) :
    (ofTree g source a t).withoutPositions = (ofTree g source b t).withoutPositions := by
  induction t with
  | node info children ih =>
    have hown (offsets : OffsetMap) :
        Json.membersWithoutPositions (ownMembers offsets (.node info children)) =
          [("type", .str info.kindName)] := by
      simp [ownMembers, Json.membersWithoutPositions, Json.withoutPositions]
    rw [ofTree_eq_append, ofTree_eq_append, Json.withoutPositions, Json.withoutPositions,
      Json.membersWithoutPositions_append, Json.membersWithoutPositions_append, hown, hown,
      withoutPositions_otherMembers g source a b (t := .node info children) ih]

end Erasure

theorem positions_otherMembers (t : Tree) :
    Json.positionsInMembers (otherMembers g source offsets t) =
      if isLeaf g t then []
      else (labels t).flatMap (fun label =>
          (valuesUnder g source offsets t label).flatMap Json.positions) ++
        (unlabelled t).flatMap fun c => (ofTree g source offsets c).positions := by
  unfold otherMembers
  split_ifs with hleaf
  · rfl
  · have hchildren := positions_childrenMember ((unlabelled t).map (ofTree g source offsets))
    rw [List.flatMap_map] at hchildren
    rw [← hchildren, Json.positionsInMembers, List.flatMap_append, List.flatMap_map]
    simp only [positions_collapse]
    rfl

theorem positions_ofTree_eq (t : Tree) :
    (ofTree g source offsets t).positions =
      [offsets.offset t.info.start, offsets.offset t.info.stop] ++
        Json.positionsInMembers (otherMembers g source offsets t) := by
  obtain ⟨-, hstart, hstop, -⟩ := get?_ofTree g source offsets t
  have hown : Json.positionsInMembers (ownMembers offsets t) = [] := rfl
  have hpositions := Json.positions_obj (ownMembers offsets t ++ otherMembers g source offsets t)
  rw [Json.positionsInMembers, List.flatMap_append, ← Json.positionsInMembers,
    ← Json.positionsInMembers, hown, List.nil_append, ← ofTree_eq_append] at hpositions
  rw [hpositions]
  simp only [List.filterMap_cons, List.filterMap_nil, hstart, hstop, Option.bind_some]
  rfl

theorem positions_valuesUnder {t : Tree} (label : String)
    (h : ∀ c ∈ t.children, (ofTree g source offsets c).positions =
      (ofTree g source .bytes c).positions.map offsets.offset) :
    (valuesUnder g source offsets t label).flatMap Json.positions =
      ((valuesUnder g source .bytes t label).flatMap Json.positions).map offsets.offset := by
  rw [valuesUnder, valuesUnder, List.flatMap_map, List.flatMap_map, List.map_flatMap]
  refine List.flatMap_congr fun c hc => ?_
  rw [valueOf, valueOf]
  split_ifs with hpart
  · exact h c (List.mem_of_mem_filter hc)
  · rfl

/-- The positions in the native form of a tree are the offsets of those that count bytes. -/
theorem positions_ofTree (t : Tree) :
    (ofTree g source offsets t).positions =
      (ofTree g source .bytes t).positions.map offsets.offset := by
  induction t with
  | node info children ih =>
    have hlabelled := fun label =>
      positions_valuesUnder g source offsets (t := .node info children) label ih
    have hunlabelled : (unlabelled (.node info children)).flatMap
          (fun c => (ofTree g source offsets c).positions) =
        ((unlabelled (.node info children)).flatMap
          fun c => (ofTree g source .bytes c).positions).map offsets.offset := by
      rw [List.map_flatMap]
      exact List.flatMap_congr fun c hc => ih c (mem_children_of_mem_unlabelled hc)
    rw [positions_ofTree_eq, positions_ofTree_eq, positions_otherMembers, positions_otherMembers,
      List.map_append]
    congr 1
    split_ifs with hleaf
    · rfl
    · simp only [hlabelled, hunlabelled, List.map_append, List.map_flatMap]

end OfTree

end Native

namespace Tree

variable (g : Grammar) (source : List Char) (offsets : OffsetMap)

/-- The positions in the record of a tree are the offsets of those that count bytes. -/
theorem positions_record (t : Tree) :
    (t.record g source offsets).positions =
      (t.record g source .bytes).positions.map offsets.offset := by
  induction t using described_induction g with
  | h t ih =>
    obtain ⟨-, -, hpos, hstop, -⟩ := t.base_record g source offsets
    obtain ⟨-, -, hpos', hstop', -⟩ := t.base_record g source .bytes
    rw [Record.positions_eq, Record.positions_eq, inner_record, inner_record, List.flatMap_map,
      List.flatMap_map, List.map_append, List.map_flatMap, hpos, hstop, hpos', hstop']
    congr 1
    exact List.flatMap_congr ih

end Tree

namespace Ast

def withoutPositions : Ast → Ast
  | .normalized r => .normalized r.withoutPositions
  | .native j => .native j.withoutPositions

def positions : Ast → List Nat
  | .normalized r => r.positions
  | .native j => j.positions

end Ast

/-- Whether the descriptions of a tree in all units are the same but for their positions, and the positions at
each place are counts up to the same byte, at which a node begins or ends. -/
structure SameButPositions (source : List Char) (t : Tree) (ast : OffsetUnit → Ast) : Prop where
  rest : ∀ a b, (ast a).withoutPositions = (ast b).withoutPositions
  count : ∀ a b, (ast a).positions.length = (ast b).positions.length
  bytes : ∀ byte ∈ (ast .utf8).positions, ∃ u ∈ t.subtrees, byte = u.info.start ∨ byte = u.info.stop
  units : ∀ i byte : Nat, (ast .utf8).positions[i]? = some byte → ∃ chars utf16,
    (ast .chars).positions[i]? = some chars ∧ (ast .utf16).positions[i]? = some utf16 ∧
      chars ≤ utf16 ∧ utf16 ≤ byte ∧ utf16 = chars + OffsetMap.wideBefore source byte

namespace Tree

variable (g : Grammar) (source : List Char) (shape : Shape) (t : Tree)

theorem withoutPositions_describe (a b : OffsetUnit) :
    (t.describe g source ⟨shape, a⟩).withoutPositions =
      (t.describe g source ⟨shape, b⟩).withoutPositions := by
  cases shape with
  | native => exact congrArg Ast.native (Native.withoutPositions_ofTree g source _ _ t)
  | normalized => exact congrArg Ast.normalized (Record.withoutPositions_ofNode _ _ _ _)

theorem positions_describe (unit : OffsetUnit) :
    (t.describe g source ⟨shape, unit⟩).positions =
      (t.describe g source ⟨shape, .utf8⟩).positions.map (OffsetMap.ofText source unit).offset := by
  cases shape with
  | native => exact Native.positions_ofTree g source _ t
  | normalized => exact t.positions_record g source _

/-- Counted in bytes, each position is where a node of the tree begins or ends. -/
theorem exists_of_mem_positions {byte : Nat}
    (h : byte ∈ (t.describe g source ⟨shape, .utf8⟩).positions) :
    ∃ u ∈ t.subtrees, byte = u.info.start ∨ byte = u.info.stop := by
  cases shape with
  | native =>
    obtain ⟨j, hj, hbyte⟩ := List.mem_flatMap.1 h
    obtain ⟨u, hu, rfl⟩ := Native.exists_of_mem_objects g source _ hj
    obtain ⟨-, hstart, hstop, -⟩ := Native.get?_ofTree g source .bytes u
    refine ⟨u, hu, ?_⟩
    rw [OffsetMap.ofText_utf8] at hbyte
    have hnat (n : Nat) : (Json.nat n).nat? = some n := rfl
    simpa [hstart, hstop, hnat] using hbyte
  | normalized =>
    obtain ⟨r, hr, hbyte⟩ := List.mem_flatMap.1 h
    obtain ⟨u, hu, rfl⟩ := exists_of_mem_nested_record g source _ hr
    obtain ⟨-, -, hpos, hstop, -⟩ := u.base_record g source .bytes
    refine ⟨u, hu, ?_⟩
    rw [OffsetMap.ofText_utf8, hpos, hstop] at hbyte
    simpa using hbyte

theorem sameButPositions (hlen : OffsetUnit.utf16.length source < UInt32.size) :
    SameButPositions source t fun unit => t.describe g source ⟨shape, unit⟩ where
  rest := t.withoutPositions_describe g source shape
  count a b := by
    rw [t.positions_describe g source shape a, t.positions_describe g source shape b, List.length_map,
      List.length_map]
  bytes _ := t.exists_of_mem_positions g source shape
  units i byte hbyte := by
    obtain ⟨hle, hle', hadd⟩ := OffsetMap.offset_units hlen byte
    refine ⟨_, _, ?_, ?_, hle, hle', hadd⟩
    · rw [positions_describe, List.getElem?_map, hbyte, Option.map_some]
    · rw [positions_describe, List.getElem?_map, hbyte, Option.map_some]

end Tree

namespace Engine

/-- The unit changes positions and nothing else: an engine refuses a source in all units for the same reason,
or describes its tree alike in all of them. -/
theorem unit_changes_positions_only (dialect : Dialect) (parser : TreeParser)
    (source : String) (shape : Shape) (hlen : OffsetUnit.utf16.length source.toList < 2 ^ 32) :
    (∃ failure, ∀ unit, (ofTrees dialect parser).parse source ⟨shape, unit⟩ = .error failure) ∨
    ∃ t ast, parser.tree? source = .ok (some t) ∧
      (∀ unit, (ofTrees dialect parser).parse source ⟨shape, unit⟩ = .ok (ast unit)) ∧
      SameButPositions source.toList t ast := by
  simp only [parse_ofTrees]
  rcases ht : parser.tree? source with message | _ | t
  · exact Or.inl ⟨_, fun _ => rfl⟩
  · exact Or.inl ⟨_, fun _ => rfl⟩
  · dsimp only
    cases hcheck : t.check source.toList maxDepth with
    | error failure => exact Or.inl ⟨failure, fun _ => rfl⟩
    | ok u =>
      obtain rfl := Tree.eq_of_check _ _ hcheck
      exact Or.inr ⟨u, _, rfl, fun _ => rfl, u.sameButPositions _ _ _ hlen⟩

/-- A parser that has the name behind wide characters for every source. -/
def nameBehindWideParser : TreeParser := ⟨.plain, fun _ => .ok nameBehindWide⟩

theorem nameBehindWide_unit_changes_positions_only :
    let source := "é😀 x"
    OffsetUnit.utf16.length source.toList < 2 ^ 32 ∧
    ∃ ast, (∀ unit, (ofTrees .plain nameBehindWideParser).parse source ⟨.normalized, unit⟩ =
        .ok (ast unit)) ∧
      SameButPositions source.toList nameBehindWide ast ∧
      (ast .utf8).positions = [0, 8, 7, 8] ∧ (ast .utf16).positions = [0, 5, 4, 5] ∧
      (ast .chars).positions = [0, 4, 3, 4] := by
  intro source
  have hlen : OffsetUnit.utf16.length source.toList < 2 ^ 32 := by decide
  have hcheck : nameBehindWide.check source.toList maxDepth = .ok nameBehindWide := by
    rw [Tree.check_eq_ok_iff]
    decide
  have hparse (unit : OffsetUnit) :
      (ofTrees .plain nameBehindWideParser).parse source ⟨.normalized, unit⟩ =
        .ok (nameBehindWide.describe .plain source.toList ⟨.normalized, unit⟩) := by
    rw [parse_ofTrees]
    exact congrArg (Except.map _) hcheck
  refine ⟨hlen, ?_⟩
  rcases unit_changes_positions_only .plain nameBehindWideParser source .normalized hlen with
    ⟨failure, hfailure⟩ | ⟨_, ast, ⟨⟩, hast, hsame⟩
  · have herror := (hparse .utf8).symm.trans (hfailure .utf8)
    contradiction
  · have hdescribe (unit : OffsetUnit) :
        ast unit = nameBehindWide.describe .plain source.toList ⟨.normalized, unit⟩ :=
      Except.ok.inj ((hast unit).symm.trans (hparse unit))
    refine ⟨ast, hast, hsame, ?_⟩
    rw [hdescribe, hdescribe, hdescribe]
    decide +kernel

end Engine

end ScriptTree
