import Mathlib.Data.List.Nodup
import ScriptTree.Proofs.Json.Members
import ScriptTree.Proofs.Record.Nested
import ScriptTree.Record.Json

/-! Reading back what was written. A record is read from its members by name, and reading what is written for
a record gives the record. -/
namespace ScriptTree

theorem uint16?_nat (n : UInt16) : (Json.nat n.toNat).uint16? = some n := by
  simp [Json.uint16?, Json.natBelow?, Json.nat, Json.nat?, n.toNat_lt]

theorem natBelow?_nat {n bound : Nat} (h : n < bound) : (Json.nat n).natBelow? bound = some n := by
  simp [Json.natBelow?, Json.nat, Json.nat?, h]

theorem Modifier.ofJson?_toJson (m : Modifier) : Modifier.ofJson? m.toJson = some m := by
  simp [Modifier.toJson, Modifier.ofJson?, Json.get?, Json.members, uint16?_nat, Json.str?]

namespace Record

namespace Key

theorem mem_all (key : Key) : key ∈ all := by cases key <;> decide

theorem nodup_all : all.Nodup := by decide

theorem nodup_labels : (all.map label).Nodup := by decide

theorem label_inj {key key' : Key} : key.label = key'.label ↔ key = key' :=
  ⟨List.inj_on_of_nodup_map nodup_labels (mem_all key) (mem_all key'), congrArg label⟩

end Key

theorem get?_members (f : Key → Option Json) (key : Key) :
    (Json.obj (Key.all.flatMap fun k => member k (f k))).get? key.label = f key := by
  suffices h : ∀ keys : List Key, keys.Nodup →
      (Json.obj (keys.flatMap fun k => member k (f k))).get? key.label =
        if key ∈ keys then f key else none by
    rw [h Key.all Key.nodup_all, if_pos key.mem_all]
  -- The keys are different, so what the later ones add is never found under an earlier one.
  intro keys hkeys
  induction keys with
  | nil => rfl
  | cons k keys ih =>
    obtain ⟨hk, hkeys⟩ := List.nodup_cons.1 hkeys
    have hfirst : (Json.obj (member k (f k))).get? key.label = if k = key then f key else none := by
      by_cases h : k = key
      · subst h
        cases hf : f k <;> simp [member, Json.get?, Json.members]
      · have hlabel : k.label ≠ key.label := fun heq => h (Key.label_inj.1 heq)
        cases f k <;> simp [member, Json.get?, Json.members, hlabel, h]
    rw [List.flatMap_cons, Json.get?_append_eq_or, hfirst, ih hkeys]
    by_cases h : k = key
    · subst h
      simp [hk]
    · simp [h, Ne.symm h]

section Decode

theorem decodeItems_eq_map (js : List Json) : decodeItems js = js.map decode := by
  induction js with
  | nil => rfl
  | cons j js ih => rw [decodeItems, ih, List.map_cons]

theorem decodeMembers_eq_map (ms : List (String × Json)) :
    decodeMembers ms = ms.map fun m => (m.1, decode m.2) := by
  induction ms with
  | nil => rfl
  | cons m ms ih => rw [decodeMembers, ih, List.map_cons]

@[simp] theorem json_decode (j : Json) : (decode j).json = j := by
  cases j <;> rw [decode]

/-- An object is read member by member, each found by its name. -/
theorem record_decode_obj (ms : List (String × Json)) :
    (decode (.obj ms)).record = ofSlots? fun key => ((Json.obj ms).get? key.label).map decode := by
  simp only [decode, ofMembers?, decodeMembers_eq_map]
  congr 1
  funext key
  rw [← List.map_reverse, List.find?_map, Json.get?, Json.members, Option.map_map, Option.map_map]
  rfl

theorem find?_zip {α : Type} {keys : List Key} {key : Key} (h : key ∈ keys) (items : List α) :
    ((keys.zip items).find? (·.1 == key)).map (·.2) = items[keys.idxOf key]? := by
  induction keys generalizing items with
  | nil => contradiction
  | cons k keys ih =>
    cases items with
    | nil => rfl
    | cons item items =>
      by_cases hk : k = key
      · subst hk
        simp
      · have hmem : key ∈ keys := (List.mem_cons.1 h).resolve_left (Ne.symm hk)
        simpa [List.idxOf_cons, hk] using ih hmem items

/-- An array is read item by item, in the order of the keys. -/
theorem record_decode_arr (js : List Json) :
    (decode (.arr js)).record =
      if js.length ≤ Key.all.length then
        ofSlots? fun key => (js[Key.all.idxOf key]?).map decode
      else none := by
  simp only [decode, ofItems?, decodeItems_eq_map, List.length_map, find?_zip (Key.mem_all _),
    List.getElem?_map]

theorem records_decode_arr (js : List Json) :
    (decode (.arr js)).records = js.mapM fun j => (decode j).record := by
  rw [decode, decodeItems_eq_map, List.mapM_map]
  rfl

end Decode

private theorem sizeOf_lt_of_mem_option {o : Option Record} {c : Record} (h : c ∈ o.toList) :
    sizeOf c < sizeOf o := by
  obtain rfl := Option.mem_toList.1 h
  simp

private theorem sizeOf_lt_of_mem_list {o : Option (List Record)} {c : Record} (h : c ∈ o.getD []) :
    sizeOf c < sizeOf o := by
  cases o with
  | none => contradiction
  | some rs =>
    have hlt := List.sizeOf_lt_of_mem h
    simp only [Option.getD_some, Option.some.sizeOf_spec] at hlt ⊢
    omega

private theorem sizeOf_lt_of_mem_name {o : Option (Name Record)} {c : Record}
    (h : c ∈ (o.bind Name.record?).toList) : sizeOf c < sizeOf o := by
  rcases o with _ | _ | r
  · contradiction
  · contradiction
  · obtain rfl := List.mem_singleton.1 h
    simp only [Option.some.sizeOf_spec, Name.node.sizeOf_spec]
    omega

theorem sizeOf_lt_of_mem_inner {r c : Record} (h : c ∈ r.inner) : sizeOf c < sizeOf r := by
  cases r
  simp only [inner, Role.all, allInRole, inRole?, listInRole?, childList, List.flatMap_cons,
    List.flatMap_nil, List.mem_append, List.append_nil, Option.toList_none, Option.getD_none,
    List.nil_append] at h
  simp only [mk.sizeOf_spec]
  rcases h with (h | h | h | h | h | h | h | h | h) | h
  · have := sizeOf_lt_of_mem_name h; omega
  · have := sizeOf_lt_of_mem_option h; omega
  · have := sizeOf_lt_of_mem_option h; omega
  · have := sizeOf_lt_of_mem_option h; omega
  · have := sizeOf_lt_of_mem_list h; omega
  · have := sizeOf_lt_of_mem_list h; omega
  · have := sizeOf_lt_of_mem_option h; omega
  · have := sizeOf_lt_of_mem_option h; omega
  · have := sizeOf_lt_of_mem_list h; omega
  · have := sizeOf_lt_of_mem_list h; omega

/-- Induction with the hypothesis for every record right inside. -/
@[elab_as_elim]
theorem inner_induction {motive : Record → Prop}
    (h : ∀ r, (∀ c ∈ r.inner, motive c) → motive r) (r : Record) : motive r :=
  h r fun c _ => inner_induction h c
termination_by sizeOf r
decreasing_by exact sizeOf_lt_of_mem_inner ‹_›

/-- Whether all positions in a record, along every edge, are numbers of sixty-four bits. -/
def Fits (r : Record) : Prop :=
  ∀ x ∈ r.nested, (∀ pos ∈ x.pos, pos < UInt64.size) ∧ ∀ stop ∈ x.stop, stop < UInt64.size

instance (r : Record) : Decidable r.Fits := List.decidableBAll _ _

theorem Fits.inner {r c : Record} (h : r.Fits) (hc : c ∈ r.inner) : c.Fits := by
  intro x hx
  apply h x
  rw [nested_eq]
  exact List.mem_cons_of_mem _ (List.mem_flatMap.2 ⟨c, hc, hx⟩)

def Name.toJson : Name Record → Json
  | .text s => .str s
  | .node r => r.toJson

/-- What is written under a key, if anything. -/
def memberJson? (r : Record) : Key → Option Json
  | .kind => some (.str r.kind)
  | .kindNumber => some (.nat r.kindNumber.toNat)
  | .pos => r.pos.map .nat
  | .stop => r.stop.map .nat
  | .text => r.text.map .str
  | .name => r.name.map Name.toJson
  | .value => r.value.map .str
  | .expression => r.expression.map toJson
  | .arguments => r.arguments.map fun rs => .arr (rs.map toJson)
  | .type => r.type.map toJson
  | .returnType => r.returnType.map toJson
  | .initializer => r.initializer.map toJson
  | .parameters => r.parameters.map fun rs => .arr (rs.map toJson)
  | .body => r.body.map toJson
  | .members => r.members.map fun rs => .arr (rs.map toJson)
  | .modifiers => r.modifiers.map fun ms => .arr (ms.map Modifier.toJson)
  | .children => r.children.map fun rs => .arr (rs.map toJson)

theorem listToJson_eq_map (rs : List Record) : listToJson rs = rs.map toJson := by
  induction rs with
  | nil => rfl
  | cons r rs ih => rw [listToJson, ih, List.map_cons]

private theorem nameToJson_eq (name : Option (Name Record)) :
    nameToJson name = name.map Name.toJson := by
  rcases name with _ | _ | r <;> rfl

private theorem optionToJson_eq (r : Option Record) : optionToJson r = r.map toJson := by
  cases r <;> rfl

private theorem listOptionToJson_eq (rs : Option (List Record)) :
    listOptionToJson rs = rs.map fun rs => .arr (rs.map toJson) := by
  cases rs <;> simp [listOptionToJson, listToJson_eq_map]

theorem toJson_eq (r : Record) :
    r.toJson = .obj (Key.all.flatMap fun key => member key (r.memberJson? key)) := by
  cases r
  simp only [toJson, nameToJson_eq, optionToJson_eq, listOptionToJson_eq, Key.all, memberJson?,
    List.flatMap_cons, List.flatMap_nil, List.append_nil, List.append_assoc]

theorem toJson_not_scalar (r : Record) (s : Json.Scalar) : r.toJson ≠ .scalar s := by
  rw [toJson_eq]
  nofun

theorem record_decode_toJson (r : Record) :
    (decode r.toJson).record = ofSlots? fun key => (r.memberJson? key).map decode := by
  rw [toJson_eq, record_decode_obj]
  simp only [get?_members]

theorem optional_of_ne_null {α : Type} {f : Decoded → Option α} {d : Decoded} (h : d.json ≠ .null) :
    optional f (some d) = (f d).map some := by
  unfold optional
  split
  · contradiction
  · next heq =>
    obtain rfl := Option.some.inj heq
    contradiction
  · next heq =>
    obtain rfl := Option.some.inj heq
    rfl

theorem optional_map {α : Type} {f : Decoded → Option α} {write : α → Json} {o : Option α}
    (h : ∀ a ∈ o, write a ≠ .null ∧ f (decode (write a)) = some a) :
    optional f ((o.map write).map decode) = some o := by
  cases o with
  | none => rfl
  | some a =>
    obtain ⟨hnull, hread⟩ := h a rfl
    rw [Option.map_some, Option.map_some, optional_of_ne_null (by rwa [json_decode]), hread,
      Option.map_some]

theorem mem_inner_of_inRole? {r c : Record} {role : Role} (h : r.inRole? role = some c) :
    c ∈ r.inner := by
  exact List.mem_append_left _ (List.mem_flatMap.2 ⟨role, role.mem_all, by simp [allInRole, h]⟩)

theorem mem_inner_of_listInRole? {r c : Record} {role : Role} {rs : List Record}
    (h : r.listInRole? role = some rs) (hc : c ∈ rs) : c ∈ r.inner := by
  exact List.mem_append_left _ (List.mem_flatMap.2 ⟨role, role.mem_all, by simp [allInRole, h, hc]⟩)

theorem mem_inner_of_children {r c : Record} {rs : List Record} (h : r.children = some rs)
    (hc : c ∈ rs) : c ∈ r.inner :=
  List.mem_append_right _ (by simpa [childList, h] using hc)

theorem mapM_map_eq_some {α β : Type} {f : β → Option α} {write : α → β} {as : List α}
    (h : ∀ a ∈ as, f (write a) = some a) : (as.map write).mapM f = some as := by
  induction as with
  | nil => rfl
  | cons a as ih =>
    rw [List.forall_mem_cons] at h
    simp [h.1, ih h.2]

theorem nameOf?_of_not_scalar {d : Decoded} (h : ∀ s, d.json ≠ .scalar s) :
    nameOf? d = d.record.map .node := by
  unfold nameOf?
  split
  · next heq => exact absurd heq (h _)
  · rfl

/-- Whether each member of a record is read from the value in its place. -/
structure ReadFrom (slot : Key → Option Decoded) (r : Record) : Prop where
  kind : (slot .kind).bind (·.json.str?) = some r.kind
  kindNumber : (slot .kindNumber).bind (·.json.uint16?) = some r.kindNumber
  pos : optional (·.json.natBelow? UInt64.size) (slot .pos) = some r.pos
  stop : optional (·.json.natBelow? UInt64.size) (slot .stop) = some r.stop
  text : optional (·.json.str?) (slot .text) = some r.text
  name : optional nameOf? (slot .name) = some r.name
  value : optional (·.json.str?) (slot .value) = some r.value
  expression : optional (·.record) (slot .expression) = some r.expression
  arguments : optional (·.records) (slot .arguments) = some r.arguments
  type : optional (·.record) (slot .type) = some r.type
  returnType : optional (·.record) (slot .returnType) = some r.returnType
  initializer : optional (·.record) (slot .initializer) = some r.initializer
  parameters : optional (·.records) (slot .parameters) = some r.parameters
  body : optional (·.record) (slot .body) = some r.body
  members : optional (·.records) (slot .members) = some r.members
  modifiers : optional modifiersOf? (slot .modifiers) = some r.modifiers
  children : optional (·.records) (slot .children) = some r.children

theorem ofSlots?_eq_some_iff {slot : Key → Option Decoded} {r : Record} :
    ofSlots? slot = some r ↔ ReadFrom slot r := by
  constructor
  · intro h
    unfold ofSlots? at h
    obtain ⟨_, hkind, h⟩ := Option.bind_eq_some_iff.1 h
    obtain ⟨_, hkindNumber, h⟩ := Option.bind_eq_some_iff.1 h
    obtain ⟨_, hpos, h⟩ := Option.bind_eq_some_iff.1 h
    obtain ⟨_, hstop, h⟩ := Option.bind_eq_some_iff.1 h
    obtain ⟨_, htext, h⟩ := Option.bind_eq_some_iff.1 h
    obtain ⟨_, hname, h⟩ := Option.bind_eq_some_iff.1 h
    obtain ⟨_, hvalue, h⟩ := Option.bind_eq_some_iff.1 h
    obtain ⟨_, hexpression, h⟩ := Option.bind_eq_some_iff.1 h
    obtain ⟨_, harguments, h⟩ := Option.bind_eq_some_iff.1 h
    obtain ⟨_, htype, h⟩ := Option.bind_eq_some_iff.1 h
    obtain ⟨_, hreturnType, h⟩ := Option.bind_eq_some_iff.1 h
    obtain ⟨_, hinitializer, h⟩ := Option.bind_eq_some_iff.1 h
    obtain ⟨_, hparameters, h⟩ := Option.bind_eq_some_iff.1 h
    obtain ⟨_, hbody, h⟩ := Option.bind_eq_some_iff.1 h
    obtain ⟨_, hmembers, h⟩ := Option.bind_eq_some_iff.1 h
    obtain ⟨_, hmodifiers, h⟩ := Option.bind_eq_some_iff.1 h
    obtain ⟨_, hchildren, h⟩ := Option.bind_eq_some_iff.1 h
    obtain rfl := Option.some.inj h
    exact ⟨hkind, hkindNumber, hpos, hstop, htext, hname, hvalue, hexpression, harguments, htype,
      hreturnType, hinitializer, hparameters, hbody, hmembers, hmodifiers, hchildren⟩
  · intro h
    simp only [ofSlots?, h.kind, h.kindNumber, h.pos, h.stop, h.text, h.name, h.value, h.expression,
      h.arguments, h.type, h.returnType, h.initializer, h.parameters, h.body, h.members, h.modifiers,
      h.children]
    cases r
    rfl

section ReadBack

theorem optional_str (o : Option String) :
    optional (·.json.str?) ((o.map Json.str).map decode) = some o :=
  optional_map fun s _ => ⟨by simp, rfl⟩

theorem optional_nat {o : Option Nat} (ho : ∀ n ∈ o, n < UInt64.size) :
    optional (·.json.natBelow? UInt64.size) ((o.map Json.nat).map decode) = some o := by
  apply optional_map
  intro n hn
  rw [json_decode]
  exact ⟨by simp [Json.nat], natBelow?_nat (ho n hn)⟩

theorem optional_modifiers (o : Option (List Modifier)) :
    optional modifiersOf? ((o.map fun ms => .arr (ms.map Modifier.toJson)).map decode) = some o := by
  apply optional_map
  intro ms _
  refine ⟨by simp, ?_⟩
  rw [modifiersOf?, json_decode, Json.arr?, Option.bind_some]
  exact mapM_map_eq_some fun m _ => m.ofJson?_toJson

variable {r : Record} (hinner : ∀ c ∈ r.inner, (decode c.toJson).record = some c)
include hinner

theorem optional_inRole? (role : Role) :
    optional (·.record) (((r.inRole? role).map toJson).map decode) = some (r.inRole? role) :=
  optional_map fun c hc => ⟨c.toJson_not_scalar _, hinner c (mem_inner_of_inRole? hc)⟩

theorem optional_records {o : Option (List Record)} (ho : ∀ rs, o = some rs → ∀ c ∈ rs, c ∈ r.inner) :
    optional (·.records) ((o.map fun rs => .arr (rs.map toJson)).map decode) = some o := by
  apply optional_map
  intro rs hrs
  refine ⟨by simp, ?_⟩
  rw [records_decode_arr]
  exact mapM_map_eq_some fun c hc => hinner c (ho rs hrs c hc)

theorem optional_listInRole? (role : Role) :
    optional (·.records) (((r.listInRole? role).map fun rs => .arr (rs.map toJson)).map decode) =
      some (r.listInRole? role) :=
  optional_records hinner fun _ hrs _ hc => mem_inner_of_listInRole? hrs hc

theorem optional_name : optional nameOf? ((r.name.map Name.toJson).map decode) = some r.name := by
  apply optional_map
  intro name hname
  cases name with
  | text s => exact ⟨by simp [Name.toJson], rfl⟩
  | node c =>
    have hc : r.inRole? .name = some c := by
      rw [inRole?, Option.mem_def.1 hname]
      rfl
    refine ⟨c.toJson_not_scalar _, ?_⟩
    rw [Name.toJson, nameOf?_of_not_scalar (by simpa using c.toJson_not_scalar),
      hinner c (mem_inner_of_inRole? hc), Option.map_some]

theorem readFrom_memberJson? (hpos : ∀ pos ∈ r.pos, pos < UInt64.size)
    (hstop : ∀ stop ∈ r.stop, stop < UInt64.size) :
    ReadFrom (fun key => (r.memberJson? key).map decode) r where
  kind := rfl
  kindNumber := uint16?_nat r.kindNumber
  pos := optional_nat hpos
  stop := optional_nat hstop
  text := optional_str r.text
  name := optional_name hinner
  value := optional_str r.value
  expression := optional_inRole? hinner .expression
  arguments := optional_listInRole? hinner .arguments
  type := optional_inRole? hinner .type
  returnType := optional_inRole? hinner .returnType
  initializer := optional_inRole? hinner .initializer
  parameters := optional_listInRole? hinner .parameters
  body := optional_inRole? hinner .body
  members := optional_listInRole? hinner .members
  modifiers := optional_modifiers r.modifiers
  children := optional_records hinner fun _ hrs _ hc => mem_inner_of_children hrs hc

end ReadBack

/-- What is written for a record is read back as the record. -/
theorem ofJson?_toJson {r : Record} (hfits : r.Fits) : ofJson? r.toJson = some r := by
  rw [ofJson?]
  induction r using inner_induction with
  | h r ih =>
    obtain ⟨hpos, hstop⟩ := hfits r (by rw [nested_eq]; exact List.mem_cons_self)
    rw [record_decode_toJson, ofSlots?_eq_some_iff]
    exact readFrom_memberJson? (fun c hc => ih c hc (hfits.inner hc)) hpos hstop

end Record

end ScriptTree
