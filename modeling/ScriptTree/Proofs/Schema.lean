import Mathlib.Logic.Relation
import ScriptTree.Proofs.Record.Json

/-! The schema of records is written strictly and read loosely. What is written for a record is read back, and
changes of a value that say nothing new leave the record that it is read as. -/
namespace ScriptTree

namespace Record

/-- What a value in the schema is read as. -/
inductive Reads where
  | scalar
  | record
  | records
  | modifier
  | modifiers
  deriving DecidableEq

/-- What the elements of an array are read as. -/
def Reads.element? : Reads → Option Reads
  | .records => some .record
  | .modifiers => some .modifier
  | _ => none

/-- What the value under a key is read as. A name that is no text is a record. -/
def Key.reads : Key → Reads
  | .name | .expression | .type | .returnType | .initializer | .body => .record
  | .arguments | .parameters | .members | .children => .records
  | .modifiers => .modifiers
  | .kind | .kindNumber | .pos | .stop | .text | .value => .scalar

def Key.optional : List Key := Key.all.filter fun key => key ≠ .kind ∧ key ≠ .kindNumber

/-- One change of a value, at any depth, that says nothing new to its reader. -/
inductive Edit : Reads → Json → Json → Prop
  | record {ms ms' : List (String × Json)}
      (h : Json.MembersEdit (Key.all.map Key.label) (Key.optional.map Key.label) ms ms') :
      Edit .record (.obj ms) (.obj ms')
  | modifier {ms ms' : List (String × Json)}
      (h : Json.MembersEdit ["kind", "kindNumber"] [] ms ms') :
      Edit .modifier (.obj ms) (.obj ms')
  | member {ms ns : List (String × Json)} {key : Key} {j j' : Json} (h : Edit key.reads j j') :
      Edit .record (.obj (ms ++ (key.label, j) :: ns)) (.obj (ms ++ (key.label, j') :: ns))
  | item {js ks : List Json} {key : Key} {j j' : Json} (hkey : Key.all[js.length]? = some key)
      (h : Edit key.reads j j') : Edit .record (.arr (js ++ j :: ks)) (.arr (js ++ j' :: ks))
  | element {a b : Reads} {js ks : List Json} {j j' : Json} (ha : a.element? = some b)
      (h : Edit b j j') : Edit a (.arr (js ++ j :: ks)) (.arr (js ++ j' :: ks))

/-- Whether what a value is read as is also read from another value. -/
def SameReading : Reads → Json → Json → Prop
  | .scalar, _, _ => False
  | .record, j, j' => ∀ r, (decode j).record = some r → (decode j').record = some r
  | .records, j, j' => ∀ rs, (decode j).records = some rs → (decode j').records = some rs
  | .modifier, j, j' => ∀ m, Modifier.ofJson? j = some m → Modifier.ofJson? j' = some m
  | .modifiers, j, j' => ∀ ms, modifiersOf? (decode j) = some ms → modifiersOf? (decode j') = some ms

theorem Edit.not_scalar {a : Reads} {j j' : Json} (h : Edit a j j') :
    (∀ s, j ≠ .scalar s) ∧ ∀ s, j' ≠ .scalar s := by
  cases h <;> exact ⟨nofun, nofun⟩

/-- What may happen to the value in the place of a key. -/
inductive SlotEdit (key : Key) : Option Decoded → Option Decoded → Prop
  | same (o : Option Decoded) : SlotEdit key o o
  | null (h : key ∈ Key.optional) : SlotEdit key none (some (decode .null))
  | value {j j' : Json} (h : Edit key.reads j j') (hread : SameReading key.reads j j') :
      SlotEdit key (some (decode j)) (some (decode j'))

theorem SlotEdit.of_required {key : Key} {o o' : Option Decoded} (h : SlotEdit key o o')
    (hkey : key = .kind ∨ key = .kindNumber) : o' = o := by
  cases h with
  | same => rfl
  | null h => simp_all [Key.optional]
  | value h hread => rcases hkey with rfl | rfl <;> contradiction

theorem SlotEdit.optional {key : Key} {o o' : Option Decoded} (h : SlotEdit key o o') {α : Type}
    {f : Decoded → Option α}
    (hf : ∀ j j', Edit key.reads j j' → SameReading key.reads j j' →
      ∀ a, f (decode j) = some a → f (decode j') = some a)
    {a : Option α} (ha : optional f o = some a) : optional f o' = some a := by
  cases h with
  | same => exact ha
  | null => exact ha
  | @value j j' h hread =>
    obtain ⟨hj, hj'⟩ := h.not_scalar
    rw [optional_of_ne_null (by simpa using hj _)] at ha
    rw [optional_of_ne_null (by simpa using hj' _)]
    obtain ⟨b, hb, rfl⟩ := Option.map_eq_some_iff.1 ha
    rw [hf j j' h hread b hb, Option.map_some]

theorem ReadFrom.edit {slot slot' : Key → Option Decoded} {r : Record} (h : ReadFrom slot r)
    (hslot : ∀ key, SlotEdit key (slot key) (slot' key)) : ReadFrom slot' r where
  kind := by rw [(hslot .kind).of_required (Or.inl rfl)]; exact h.kind
  kindNumber := by rw [(hslot .kindNumber).of_required (Or.inr rfl)]; exact h.kindNumber
  pos := (hslot .pos).optional (fun _ _ _ hread => hread.elim) h.pos
  stop := (hslot .stop).optional (fun _ _ _ hread => hread.elim) h.stop
  text := (hslot .text).optional (fun _ _ _ hread => hread.elim) h.text
  name := by
    -- A name that is changed is a record and no text, before and after.
    refine (hslot .name).optional ?_ h.name
    intro j j' hedit hread name hname
    obtain ⟨hj, hj'⟩ := hedit.not_scalar
    rw [nameOf?_of_not_scalar (by simpa using hj)] at hname
    rw [nameOf?_of_not_scalar (by simpa using hj')]
    obtain ⟨c, hc, rfl⟩ := Option.map_eq_some_iff.1 hname
    rw [hread c hc, Option.map_some]
  value := (hslot .value).optional (fun _ _ _ hread => hread.elim) h.value
  expression := (hslot .expression).optional (fun _ _ _ hread => hread) h.expression
  arguments := (hslot .arguments).optional (fun _ _ _ hread => hread) h.arguments
  type := (hslot .type).optional (fun _ _ _ hread => hread) h.type
  returnType := (hslot .returnType).optional (fun _ _ _ hread => hread) h.returnType
  initializer := (hslot .initializer).optional (fun _ _ _ hread => hread) h.initializer
  parameters := (hslot .parameters).optional (fun _ _ _ hread => hread) h.parameters
  body := (hslot .body).optional (fun _ _ _ hread => hread) h.body
  members := (hslot .members).optional (fun _ _ _ hread => hread) h.members
  modifiers := (hslot .modifiers).optional (fun _ _ _ hread => hread) h.modifiers
  children := (hslot .children).optional (fun _ _ _ hread => hread) h.children

theorem SlotEdit.of_members {ms ms' : List (String × Json)}
    (h : Json.MembersEdit (Key.all.map Key.label) (Key.optional.map Key.label) ms ms') (key : Key) :
    SlotEdit key (((Json.obj ms).get? key.label).map decode)
      (((Json.obj ms').get? key.label).map decode) := by
  rcases h.get? (List.mem_map_of_mem key.mem_all) with heq | ⟨hoptional, hnone, hnull⟩
  · rw [heq]
    exact .same _
  · obtain ⟨k, hk, hlabel⟩ := List.mem_map.1 hoptional
    rw [hnone, hnull]
    exact .null (Key.label_inj.1 hlabel ▸ hk)

theorem SlotEdit.of_member {ms ns : List (String × Json)} {k : Key} {j j' : Json}
    (h : Edit k.reads j j') (hread : SameReading k.reads j j') (key : Key) :
    SlotEdit key (((Json.obj (ms ++ (k.label, j) :: ns)).get? key.label).map decode)
      (((Json.obj (ms ++ (k.label, j') :: ns)).get? key.label).map decode) := by
  rcases Json.get?_replace ms ns k.label key.label j j' with heq | ⟨hlabel, hj, hj'⟩
  · rw [heq]
    exact .same _
  · obtain rfl := Key.label_inj.1 hlabel
    rw [hj, hj']
    exact .value h hread

theorem SlotEdit.of_item {js ks : List Json} {k : Key} {j j' : Json}
    (hk : Key.all[js.length]? = some k) (h : Edit k.reads j j') (hread : SameReading k.reads j j')
    (key : Key) :
    SlotEdit key (((js ++ j :: ks)[Key.all.idxOf key]?).map decode)
      (((js ++ j' :: ks)[Key.all.idxOf key]?).map decode) := by
  by_cases hindex : Key.all.idxOf key = js.length
  · have hkey : some key = some k := by
      rw [← hk, ← hindex, List.getElem?_idxOf key.mem_all]
    obtain rfl := Option.some.inj hkey
    simp only [hindex, List.getElem?_append_right (Nat.le_refl _), Nat.sub_self,
      List.getElem?_cons_zero]
    exact .value h hread
  · have hset : js ++ j' :: ks = (js ++ j :: ks).set js.length j' := by simp
    rw [hset, List.getElem?_set_ne (Ne.symm hindex)]
    exact .same _

theorem mapM_replace {α β : Type} {f : α → Option β} {x x' : α} {as bs : List α}
    (h : ∀ y, f x = some y → f x' = some y) {ys : List β} (hys : (as ++ x :: bs).mapM f = some ys) :
    (as ++ x' :: bs).mapM f = some ys := by
  simp only [List.mapM_append, List.mapM_cons, Option.bind_eq_bind, Option.bind_eq_some_iff] at hys ⊢
  obtain ⟨zs, hzs, ws, ⟨y, hy, hws⟩, hys⟩ := hys
  exact ⟨zs, hzs, ws, ⟨y, h y hy, hws⟩, hys⟩

/-- A change keeps what the value is read as. -/
theorem Edit.sameReading {a : Reads} {j j' : Json} (h : Edit a j j') : SameReading a j j' := by
  induction h with
  | @record ms ms' h =>
    intro r hr
    rw [record_decode_obj, ofSlots?_eq_some_iff] at hr ⊢
    exact hr.edit (SlotEdit.of_members h)
  | @modifier ms ms' h =>
    intro m hm
    have hkeep (key : String) (hkey : key ∈ ["kind", "kindNumber"]) :
        (Json.obj ms').get? key = (Json.obj ms).get? key :=
      (h.get? hkey).resolve_right fun hnull => absurd hnull.1 List.not_mem_nil
    simpa only [Modifier.ofJson?, hkeep "kind" (by simp), hkeep "kindNumber" (by simp)] using hm
  | @member ms ns key j j' h ih =>
    intro r hr
    rw [record_decode_obj, ofSlots?_eq_some_iff] at hr ⊢
    exact hr.edit (SlotEdit.of_member h ih)
  | @item js ks key j j' hkey h ih =>
    intro r hr
    have hlength : (js ++ j' :: ks).length = (js ++ j :: ks).length := by simp
    rw [record_decode_arr] at hr ⊢
    split_ifs at hr with hle
    rw [if_pos (hlength ▸ hle)]
    rw [ofSlots?_eq_some_iff] at hr ⊢
    exact hr.edit (SlotEdit.of_item hkey h ih)
  | @element a b js ks j j' ha h ih =>
    cases a with
    | records =>
      obtain rfl := Option.some.inj ha
      intro rs hrs
      rw [records_decode_arr] at hrs ⊢
      exact mapM_replace (f := fun j => (decode j).record) ih hrs
    | modifiers =>
      obtain rfl := Option.some.inj ha
      intro ms hms
      rw [modifiersOf?, json_decode, Json.arr?, Option.bind_some] at hms ⊢
      exact mapM_replace ih hms
    | _ => contradiction

theorem ofJson?_of_edits {j j' : Json} {r : Record} (h : Relation.ReflTransGen (Edit .record) j j')
    (hr : ofJson? j = some r) : ofJson? j' = some r := by
  induction h with
  | refl => exact hr
  | tail _ hedit ih => exact hedit.sameReading r ih

theorem labels_toJson (r : Record) :
    (r.toJson.members.map (·.1)).Sublist (Key.all.map Key.label) := by
  rw [toJson_eq, Json.members]
  induction Key.all with
  | nil => simp
  | cons key keys ih =>
    rw [List.flatMap_cons, List.map_append, List.map_cons, ← List.singleton_append]
    refine List.Sublist.append ?_ ih
    cases r.memberJson? key <;> simp [member]

/-- What is written for a record is read back as that record, and it is written in the order of the keys.
A value that is read as a record is still read as that record, and so written alike, after any changes that
say nothing new, at any depth. -/
theorem json_round_trip :
    (∀ r : Record, r.Fits → ofJson? r.toJson = some r) ∧
    (∀ r : Record, (r.toJson.members.map (·.1)).Sublist (Key.all.map Key.label)) ∧
    ∀ (j j' : Json) (r : Record), ofJson? j = some r → Relation.ReflTransGen (Edit .record) j j' →
      ofJson? j' = some r ∧ (ofJson? j').map toJson = some r.toJson := by
  refine ⟨fun r hr => ofJson?_toJson hr, labels_toJson, ?_⟩
  intro j j' r hr hedits
  have hr' := ofJson?_of_edits hedits hr
  exact ⟨hr', by rw [hr', Option.map_some]⟩

/-- A static method with a name of its own. -/
def staticMethod : Record where
  kind := "method_definition"
  kindNumber := 7
  pos := some 12
  name := some (.node { kind := "property_identifier", kindNumber := 3, name := some (.text "f") })
  modifiers := some [⟨"static", 5⟩]

/-- The members of a method with those of its name and of its modifier. -/
def methodMembers (name modifier : List (String × Json)) : List (String × Json) :=
  [("kind", .str "method_definition"), ("kindNumber", .nat 7), ("pos", .nat 12), ("name", .obj name),
   ("modifiers", .arr [.obj modifier])]

/-- The method written backwards, with an unknown member of its modifier and null for the text that its name
does not have. -/
def restatedMethod : Json :=
  .obj (methodMembers
    [("kind", .str "property_identifier"), ("text", .null), ("kindNumber", .nat 3), ("name", .str "f")]
    [("kind", .str "static"), ("kindNumber", .nat 5), ("line", .nat 1)]).reverse

theorem staticMethod_round_trip :
    staticMethod.Fits ∧ ofJson? staticMethod.toJson = some staticMethod ∧
    Relation.ReflTransGen (Edit .record) staticMethod.toJson restatedMethod ∧
    ofJson? restatedMethod = some staticMethod ∧
    (ofJson? restatedMethod).map toJson = some staticMethod.toJson := by
  have hfits : staticMethod.Fits := by decide
  have hwritten := json_round_trip.1 staticMethod hfits
  have hnull (modifier : List (String × Json)) : Edit .record
      (.obj (methodMembers [("kind", .str "property_identifier"), ("kindNumber", .nat 3),
        ("name", .str "f")] modifier))
      (.obj (methodMembers [("kind", .str "property_identifier"), ("text", .null),
        ("kindNumber", .nat 3), ("name", .str "f")] modifier)) :=
    @Edit.member [_, _, _] [_] .name _ _
      (.record (@Json.MembersEdit.null _ _ [_] [_, _] "text" (by decide) (by decide)))
  have hunknown (name : List (String × Json)) : Edit .record
      (.obj (methodMembers name [("kind", .str "static"), ("kindNumber", .nat 5)]))
      (.obj (methodMembers name [("kind", .str "static"), ("kindNumber", .nat 5),
        ("line", .nat 1)])) :=
    @Edit.member [_, _, _, _] [] .modifiers _ _
      (@Edit.element .modifiers .modifier [] [] _ _ rfl
        (.modifier (@Json.MembersEdit.unknown _ _ [_, _] [] "line" _ (by decide))))
  have hedits : Relation.ReflTransGen (Edit .record) staticMethod.toJson restatedMethod :=
    .tail (.tail (.single (hnull _)) (hunknown _))
      (.record (.of_perm (List.reverse_perm _) (by decide)))
  exact ⟨hfits, hwritten, hedits, json_round_trip.2.2 _ _ _ hwritten hedits⟩

end Record

end ScriptTree
