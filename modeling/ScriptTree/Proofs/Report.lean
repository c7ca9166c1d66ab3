import ScriptTree.Pipeline
import ScriptTree.Proofs.Record.Json
import ScriptTree.Proofs.Settings.Words
import ScriptTree.Proofs.Syntax.Native

/-! The values that reports are written as. What is to stand in them is said here for itself: the names of the
members, their order and what is under each, down to the records inside records. No object among them has a name
twice. -/
namespace ScriptTree

namespace Json

/-- Whether no object in a value has two members of one name. -/
def DistinctKeys (j : Json) : Prop := ∀ o ∈ j.objects, (o.members.map (·.1)).Nodup

@[simp] theorem distinctKeys_scalar (s : Scalar) : DistinctKeys (.scalar s) := by
  simp [DistinctKeys, objects]

theorem distinctKeys_arr_iff {items : List Json} :
    DistinctKeys (.arr items) ↔ ∀ item ∈ items, item.DistinctKeys := by
  simp only [DistinctKeys, objects, objectsInItems_eq_flatMap, List.mem_flatMap]
  constructor
  · exact fun h item hitem o ho => h o ⟨item, hitem, ho⟩
  · rintro h o ⟨item, hitem, ho⟩
    exact h item hitem o ho

theorem distinctKeys_obj_iff {ms : List (String × Json)} :
    DistinctKeys (.obj ms) ↔ (ms.map (·.1)).Nodup ∧ ∀ m ∈ ms, m.2.DistinctKeys := by
  simp only [DistinctKeys, objects, objectsInMembers_eq_flatMap, List.mem_cons, List.mem_flatMap]
  constructor
  · exact fun h => ⟨h _ (Or.inl rfl), fun m hm o ho => h o (Or.inr ⟨m, hm, ho⟩)⟩
  · rintro ⟨hown, hinner⟩ o (rfl | ⟨m, hm, ho⟩)
    · exact hown
    · exact hinner m hm o ho

end Json

namespace Record

theorem keys_sublist (keys : List Key) (f : Key → Option Json) :
    ((keys.flatMap fun key => member key (f key)).map (·.1)).Sublist (keys.map Key.label) := by
  induction keys with
  | nil => exact .refl _
  | cons key keys ih =>
    rw [List.flatMap_cons, List.map_append, List.map_cons]
    cases f key with
    | none => exact .cons _ ih
    | some j => exact .cons_cons _ ih

theorem distinctKeys_modifier (m : Modifier) : m.toJson.DistinctKeys := by
  simp [Modifier.toJson, Json.distinctKeys_obj_iff, Json.nat]

theorem distinctKeys_map {α : Type} {write : α → Json} {o : Option α} {j : Json}
    (h : ∀ a ∈ o, (write a).DistinctKeys) (hj : o.map write = some j) : j.DistinctKeys := by
  obtain ⟨a, ha, rfl⟩ := Option.map_eq_some_iff.1 hj
  exact h a ha

section Members

variable {r : Record} (hinner : ∀ c ∈ r.inner, c.toJson.DistinctKeys) {j : Json}
include hinner

theorem distinctKeys_name (hj : r.name.map Name.toJson = some j) : j.DistinctKeys := by
  apply distinctKeys_map _ hj
  intro name hname
  cases name with
  | text s => exact Json.distinctKeys_scalar _
  | node c =>
    have hc : r.inRole? .name = some c := by
      rw [inRole?, Option.mem_def.1 hname]
      rfl
    exact hinner c (mem_inner_of_inRole? hc)

theorem distinctKeys_inRole? (role : Role) (hj : (r.inRole? role).map toJson = some j) :
    j.DistinctKeys :=
  distinctKeys_map (fun c hc => hinner c (mem_inner_of_inRole? hc)) hj

theorem distinctKeys_records {o : Option (List Record)}
    (ho : ∀ rs, o = some rs → ∀ c ∈ rs, c ∈ r.inner)
    (hj : (o.map fun rs => Json.arr (rs.map toJson)) = some j) : j.DistinctKeys := by
  apply distinctKeys_map _ hj
  intro rs hrs
  rw [Json.distinctKeys_arr_iff, List.forall_mem_map]
  exact fun c hc => hinner c (ho rs hrs c hc)

theorem distinctKeys_memberJson? {key : Key} (hj : r.memberJson? key = some j) :
    j.DistinctKeys := by
  have hscalar {α : Type} {o : Option α} {write : α → Json.Scalar}
      (hj : o.map (fun a => Json.scalar (write a)) = some j) : j.DistinctKeys :=
    distinctKeys_map (fun a _ => Json.distinctKeys_scalar (write a)) hj
  have hlist (role : Role) := distinctKeys_records hinner (j := j) (o := r.listInRole? role)
    fun rs hrs c hc => mem_inner_of_listInRole? hrs hc
  cases key with
  | kind | kindNumber =>
    cases hj
    exact Json.distinctKeys_scalar _
  | pos | stop | text | value => exact hscalar hj
  | name => exact distinctKeys_name hinner hj
  | expression => exact distinctKeys_inRole? hinner .expression hj
  | type => exact distinctKeys_inRole? hinner .type hj
  | returnType => exact distinctKeys_inRole? hinner .returnType hj
  | initializer => exact distinctKeys_inRole? hinner .initializer hj
  | body => exact distinctKeys_inRole? hinner .body hj
  | arguments => exact hlist .arguments hj
  | parameters => exact hlist .parameters hj
  | members => exact hlist .members hj
  | modifiers =>
    apply distinctKeys_map _ hj
    intro ms hms
    rw [Json.distinctKeys_arr_iff, List.forall_mem_map]
    exact fun m _ => distinctKeys_modifier m
  | children =>
    exact distinctKeys_records hinner (fun rs hrs c hc => mem_inner_of_children hrs hc) hj

end Members

theorem distinctKeys_toJson (r : Record) : r.toJson.DistinctKeys := by
  induction r using inner_induction with
  | h r ih =>
    rw [toJson_eq, Json.distinctKeys_obj_iff]
    refine ⟨Key.nodup_labels.sublist (keys_sublist Key.all r.memberJson?), ?_⟩
    intro m hm
    obtain ⟨key, -, hkey⟩ := List.mem_flatMap.1 hm
    cases hj : r.memberJson? key with
    | none =>
      rw [hj] at hkey
      contradiction
    | some j =>
      rw [hj] at hkey
      rw [List.mem_singleton.1 hkey]
      exact distinctKeys_memberJson? ih hj

end Record

namespace Native

variable (g : Grammar) (source : List Char) (offsets : OffsetMap)

theorem distinctKeys_ofTree (t : Tree) : (ofTree g source offsets t).DistinctKeys := by
  intro o ho
  obtain ⟨u, -, rfl⟩ := exists_of_mem_objects g source offsets ho
  exact nodup_keys_ofTree g source offsets u

end Native

namespace Record

/-- The members of an object, out of some that may be absent. -/
def present (ms : List (String × Option Json)) : List (String × Json) :=
  ms.filterMap fun m => m.2.map fun j => (m.1, j)

/-- The members of a record, given the values for the records inside it. -/
def shownMembers (r : Record) (shown : Record → Json) : List (String × Option Json) :=
  let one (c : Option Record) : Option Json := c.map shown
  let several (cs : Option (List Record)) : Option Json := cs.map fun cs => .arr (cs.map shown)
  [("kind", some (.str r.kind)),
   ("kindNumber", some (.int r.kindNumber.toNat)),
   ("pos", r.pos.map fun n : Nat => .int n),
   ("end", r.stop.map fun n : Nat => .int n),
   ("text", r.text.map .str),
   ("name", r.name.map fun
      | .text s => .str s
      | .node c => shown c),
   ("value", r.value.map .str),
   ("expression", one r.expression),
   ("arguments", several r.arguments),
   ("type", one r.type),
   ("returnType", one r.returnType),
   ("initializer", one r.initializer),
   ("parameters", several r.parameters),
   ("body", one r.body),
   ("members", several r.members),
   ("modifiers", r.modifiers.map fun ms => .arr (ms.map fun m =>
      .obj [("kind", .str m.kind), ("kindNumber", .int m.kindNumber.toNat)])),
   ("children", several r.children)]

/-- Whether a value stands for a record: it is an object with the members that the record has, and the records
inside it are there in the same way. -/
inductive Shown : Record → Json → Prop
  | obj {r : Record} {shown : Record → Json} (h : ∀ c ∈ r.inner, Shown c (shown c)) :
      Shown r (.obj (present (r.shownMembers shown)))

section Congr

variable {r : Record} {f g : Record → Json} (h : ∀ c ∈ r.inner, f c = g c)
include h

theorem map_inRole?_congr (role : Role) : (r.inRole? role).map f = (r.inRole? role).map g :=
  Option.map_congr fun _ hc => h _ (mem_inner_of_inRole? hc)

theorem map_records_congr {o : Option (List Record)} (ho : ∀ rs, o = some rs → ∀ c ∈ rs, c ∈ r.inner) :
    (o.map fun rs => Json.arr (rs.map f)) = o.map fun rs => Json.arr (rs.map g) := by
  apply Option.map_congr
  intro rs hrs
  rw [List.map_congr_left fun c hc => h c (ho rs hrs c hc)]

theorem map_name_congr :
    (r.name.map fun | .text s => Json.str s | .node c => f c) =
      r.name.map fun | .text s => Json.str s | .node c => g c := by
  have hnode := map_inRole?_congr h .name
  rcases hname : r.name with _ | _ | c
  · rfl
  · rfl
  · simpa [inRole?, hname, Name.record?] using hnode

/-- What is written of a record depends on nothing but the records right inside it. -/
theorem shownMembers_congr : r.shownMembers f = r.shownMembers g := by
  have hlist (role : Role) := map_records_congr h (o := r.listInRole? role) fun rs hrs c hc =>
    mem_inner_of_listInRole? hrs hc
  have hexpression : r.expression.map f = r.expression.map g := map_inRole?_congr h .expression
  have htype : r.type.map f = r.type.map g := map_inRole?_congr h .type
  have hreturn : r.returnType.map f = r.returnType.map g := map_inRole?_congr h .returnType
  have hinitializer : r.initializer.map f = r.initializer.map g := map_inRole?_congr h .initializer
  have hbody : r.body.map f = r.body.map g := map_inRole?_congr h .body
  have harguments := hlist .arguments
  have hparameters := hlist .parameters
  have hmembers := hlist .members
  have hchildren := map_records_congr h fun rs (hrs : r.children = some rs) c hc => mem_inner_of_children hrs hc
  simp only [listInRole?] at harguments hparameters hmembers
  simp only [shownMembers, map_name_congr h, hexpression, htype, hreturn, hinitializer, hbody, harguments,
    hparameters, hmembers, hchildren]

end Congr

theorem toJson_eq_obj_present (r : Record) : r.toJson = .obj (present (r.shownMembers toJson)) := by
  have hmembers (keys : List Key) (f : Key → Option Json) :
      (keys.flatMap fun key => member key (f key)) = present (keys.map fun key => (key.label, f key)) := by
    induction keys with
    | nil => rfl
    | cons key keys ih =>
      rw [List.flatMap_cons, ih]
      cases hf : f key <;> simp [present, member, hf]
  rw [toJson_eq, hmembers]
  have hname : (r.name.map fun | .text s => Json.str s | .node c => c.toJson) = r.name.map Name.toJson := by
    rcases r.name with _ | _ | c <;> rfl
  rw [shownMembers, hname]
  rfl

/-- A record is written as the one value that stands for it. -/
theorem shown_iff {r : Record} {j : Json} : r.Shown j ↔ j = r.toJson := by
  constructor
  · intro h
    induction h with
    | obj h ih => rw [toJson_eq_obj_present, shownMembers_congr ih]
  · rintro rfl
    induction r using inner_induction with
    | h r ih =>
      rw [toJson_eq_obj_present]
      exact .obj ih

end Record

/-- Whether a value stands for a report. -/
inductive Report.Shown : Report → Json → Prop
  | failed (message : String) : Shown (.failed message) (.obj [("error", .str message)])
  | normalized (dialect : Dialect) {r : Record} {j : Json} (h : r.Shown j) :
      Shown (.parsed dialect (.normalized r))
        (.obj [("parser", .str (Setting.dialect.word (.fixed dialect))), ("ast", j)])
  | native (dialect : Dialect) (j : Json) :
      Shown (.parsed dialect (.native j))
        (.obj [("parser", .str (Setting.dialect.word (.fixed dialect))), ("ast", j)])

theorem Report.shown_iff {r : Report} {j : Json} : r.Shown j ↔ j = r.toJson := by
  have hname (dialect : Dialect) : Setting.dialect.word (.fixed dialect) = dialect.name := by
    cases dialect <;> rfl
  constructor
  · intro h
    cases h with
    | failed message => rfl
    | normalized dialect h => rw [Report.toJson, Ast.toJson, Record.shown_iff.1 h, hname]
    | native dialect j => rw [Report.toJson, Ast.toJson, hname]
  · rintro rfl
    rcases r with ⟨dialect, r | j⟩ | message
    · rw [Report.toJson, Ast.toJson, ← hname]
      exact .normalized dialect (Record.shown_iff.2 rfl)
    · rw [Report.toJson, Ast.toJson, ← hname]
      exact .native dialect j
    · exact .failed message

/-- The reports that there can be: an error, a record, or the native form of a tree. -/
inductive Report.Possible : Report → Prop
  | failed (message : String) : Possible (.failed message)
  | normalized (dialect : Dialect) (r : Record) : Possible (.parsed dialect (.normalized r))
  | native (dialect : Dialect) (g : Grammar) (source : List Char) (offsets : OffsetMap) (t : Tree) :
      Possible (.parsed dialect (.native (Native.ofTree g source offsets t)))

theorem Report.Possible.distinctKeys {r : Report} (h : r.Possible) : r.toJson.DistinctKeys := by
  have hparsed (dialect : Dialect) (ast : Ast) (hast : ast.toJson.DistinctKeys) :
      (Report.parsed dialect ast).toJson.DistinctKeys := by
    rw [Report.toJson, Json.distinctKeys_obj_iff]
    simp [hast]
  cases h with
  | failed message => simp [Report.toJson, Json.distinctKeys_obj_iff]
  | normalized dialect r => exact hparsed dialect _ r.distinctKeys_toJson
  | native dialect g source offsets t =>
    exact hparsed dialect _ (Native.distinctKeys_ofTree g source offsets t)

end ScriptTree
