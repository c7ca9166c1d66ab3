import Mathlib.Data.List.Perm.Basic
import ScriptTree.Engine
import ScriptTree.Proofs.Json.Members
import ScriptTree.Proofs.Syntax.Subtree

/-! The objects in the native form of a tree: one for the tree and one for each tree inside it that is
reached through parts. -/
namespace ScriptTree

namespace Json

mutual

/-- All objects in a value, each before those inside it. -/
def objects : Json → List Json
  | .scalar _ => []
  | .arr items => objectsInItems items
  | .obj members => .obj members :: objectsInMembers members

def objectsInItems : List Json → List Json
  | [] => []
  | j :: js => objects j ++ objectsInItems js

def objectsInMembers : List (String × Json) → List Json
  | [] => []
  | (_, j) :: ms => objects j ++ objectsInMembers ms

end

theorem objectsInItems_eq_flatMap (js : List Json) : objectsInItems js = js.flatMap objects := by
  induction js with
  | nil => rfl
  | cons j js ih => rw [objectsInItems, ih, List.flatMap_cons]

theorem objectsInMembers_eq_flatMap (ms : List (String × Json)) :
    objectsInMembers ms = ms.flatMap fun m => m.2.objects := by
  induction ms with
  | nil => rfl
  | cons m ms ih => rw [objectsInMembers, ih, List.flatMap_cons]

end Json

namespace Native

open scoped List

/-- The values of all groups together. -/
def grouped (groups : List (String × List Json)) : List Json := groups.flatMap (·.2)

theorem grouped_insert (label : String) (value : Json) (groups : List (String × List Json)) :
    (grouped (insert label value groups)).Perm (grouped groups ++ [value]) := by
  induction groups with
  | nil => exact .refl _
  | cons entry groups ih =>
    obtain ⟨l, values⟩ := entry
    by_cases h : l = label
    · simp only [insert, h, if_true, grouped, List.flatMap_cons, List.append_assoc]
      exact .append_left _ List.perm_append_comm
    · simp only [insert, h, if_false, grouped, List.flatMap_cons, List.append_assoc]
      exact .append_left _ ih

theorem group_eq (fields : List (String × Json)) :
    group fields = fields.foldl (fun groups m => insert m.1 m.2 groups) [] := rfl

/-- Grouping by label loses no value and makes up none. -/
theorem grouped_group (fields : List (String × Json)) :
    (grouped (group fields)).Perm (fields.map (·.2)) := by
  -- The fold adds one value after the other behind the groups it already has.
  suffices h : ∀ groups, (grouped (fields.foldl (fun groups m => insert m.1 m.2 groups) groups)).Perm
      (grouped groups ++ fields.map (·.2)) from h []
  induction fields with
  | nil => intro groups; simp
  | cons field fields ih =>
    intro groups
    refine (ih _).trans ?_
    rw [List.map_cons, List.append_cons]
    exact .append_right _ (grouped_insert field.1 field.2 groups)

theorem objects_collapse (values : List Json) :
    (collapse values).objects = values.flatMap Json.objects := by
  unfold collapse
  split
  · simp
  · exact Json.objectsInItems_eq_flatMap _

theorem key_insert {label : String} {value : Json} {groups : List (String × List Json)}
    {entry : String × List Json} (h : entry ∈ insert label value groups) :
    entry.1 = label ∨ entry.1 ∈ groups.map (·.1) := by
  induction groups with
  | nil => exact Or.inl (by simp_all [insert])
  | cons first groups ih =>
    obtain ⟨l, values⟩ := first
    unfold insert at h
    split_ifs at h with hl
    · rcases List.mem_cons.1 h with rfl | h
      · exact Or.inl hl
      · exact Or.inr (List.mem_cons_of_mem _ (List.mem_map_of_mem h))
    · rcases List.mem_cons.1 h with rfl | h
      · exact Or.inr List.mem_cons_self
      · exact (ih h).imp_right (List.mem_cons_of_mem _)

theorem key_group {fields : List (String × Json)} {entry : String × List Json}
    (h : entry ∈ group fields) : entry.1 ∈ fields.map (·.1) := by
  suffices hfold : ∀ groups, entry ∈ fields.foldl (fun groups m => insert m.1 m.2 groups) groups →
      entry.1 ∈ groups.map (·.1) ∨ entry.1 ∈ fields.map (·.1) by
    rw [group_eq] at h
    simpa using hfold [] h
  clear h
  induction fields with
  | nil => exact fun groups h => Or.inl (List.mem_map_of_mem h)
  | cons field fields ih =>
    intro groups h
    rcases ih _ h with hg | hf
    · obtain ⟨e, he, hkey⟩ := List.mem_map.1 hg
      rcases key_insert he with hl | hl
      · exact Or.inr (by simp [← hkey, hl])
      · exact Or.inl (hkey ▸ hl)
    · exact Or.inr (List.mem_cons_of_mem _ hf)

theorem values_insert {label : String} {value : Json} {groups : List (String × List Json)}
    {entry : String × List Json} (h : entry ∈ insert label value groups) :
    entry ∈ groups ∨ ∃ values, entry = (label, values ++ [value]) ∧
      (values = [] ∨ (label, values) ∈ groups) := by
  induction groups with
  | nil => exact Or.inr ⟨[], by simpa [insert] using h, Or.inl rfl⟩
  | cons first groups ih =>
    obtain ⟨l, values⟩ := first
    unfold insert at h
    split_ifs at h with hl
    · subst hl
      rcases List.mem_cons.1 h with rfl | h
      · exact Or.inr ⟨values, rfl, Or.inr List.mem_cons_self⟩
      · exact Or.inl (List.mem_cons_of_mem _ h)
    · rcases List.mem_cons.1 h with rfl | h
      · exact Or.inl List.mem_cons_self
      · refine (ih h).imp (List.mem_cons_of_mem _) ?_
        rintro ⟨vs, heq, hvs⟩
        exact ⟨vs, heq, hvs.imp_right (List.mem_cons_of_mem _)⟩

/-- The values of a label stand in the order in which they came. -/
theorem sublist_group {fields : List (String × Json)} {entry : String × List Json}
    (h : entry ∈ group fields) : entry.2.Sublist (fields.map (·.2)) := by
  suffices hfold : ∀ (done : List Json) groups, (∀ e ∈ groups, e.2.Sublist done) →
      entry ∈ fields.foldl (fun groups m => insert m.1 m.2 groups) groups →
      entry.2.Sublist (done ++ fields.map (·.2)) by
    rw [group_eq] at h
    exact hfold [] [] (by simp) h
  clear h
  induction fields with
  | nil => exact fun done groups hgroups h => by simpa using hgroups entry h
  | cons field fields ih =>
    intro done groups hgroups h
    rw [List.map_cons, List.append_cons]
    refine ih (done ++ [field.2]) _ ?_ h
    intro e he
    rcases values_insert he with he | ⟨values, rfl, rfl | hvalues⟩
    · exact (hgroups e he).trans (List.sublist_append_left done _)
    · exact List.sublist_append_right done _
    · exact (hgroups _ hvalues).append (List.Sublist.refl _)

theorem keys_insert (label : String) (value : Json) (groups : List (String × List Json)) :
    (insert label value groups).map (·.1) =
      if label ∈ groups.map (·.1) then groups.map (·.1) else groups.map (·.1) ++ [label] := by
  induction groups with
  | nil => rfl
  | cons entry groups ih =>
    obtain ⟨l, values⟩ := entry
    by_cases h : l = label
    · simp [insert, h]
    · simp only [insert, h, if_false, List.map_cons, ih, List.mem_cons, Ne.symm h, false_or]
      split_ifs <;> rfl

theorem nodup_keys_group (fields : List (String × Json)) : ((group fields).map (·.1)).Nodup := by
  suffices h : ∀ groups : List (String × List Json), (groups.map (·.1)).Nodup →
      ((fields.foldl (fun groups m => insert m.1 m.2 groups) groups).map (·.1)).Nodup from
    h [] List.nodup_nil
  induction fields with
  | nil => exact fun groups h => h
  | cons field fields ih =>
    intro groups h
    apply ih
    rw [keys_insert]
    split_ifs with hmem
    · exact h
    · exact List.nodup_append.2 ⟨h, List.nodup_singleton _, by rintro a ha b hb rfl; simp_all⟩

def Part.value? : Part → Option Json
  | .field _ value => some value
  | .child value => some value
  | .skip => none

/-- The member that holds the unlabelled children, if there are any. -/
def childrenMember (values : List Json) : List (String × Json) :=
  if values.isEmpty then [] else [("children", .arr values)]

theorem membersOf_eq (parts : List Part) :
    membersOf parts = (group (parts.filterMap Part.field?)).map (fun e => (e.1, collapse e.2)) ++
      childrenMember (parts.filterMap Part.child?) := by
  unfold membersOf
  cases parts.filterMap Part.child? <;> rfl

/-- The values under labels and the unlabelled ones are together the values of all parts. -/
theorem perm_values (parts : List Part) :
    (((parts.filterMap Part.field?).map (·.2)) ++ parts.filterMap Part.child?).Perm
      (parts.filterMap Part.value?) := by
  induction parts with
  | nil => exact .refl _
  | cons part parts ih =>
    cases part with
    | field label value => exact .cons _ ih
    | child value => exact List.perm_middle.trans (.cons _ ih)
    | skip => exact ih

/-- The members of a node have the objects of its parts. -/
theorem objects_membersOf (parts : List Part) :
    (Json.objectsInMembers (membersOf parts)).Perm
      ((parts.filterMap Part.value?).flatMap Json.objects) := by
  have hfields (groups : List (String × List Json)) :
      Json.objectsInMembers (groups.map fun e => (e.1, collapse e.2)) =
        (grouped groups).flatMap Json.objects := by
    simp [Json.objectsInMembers_eq_flatMap, grouped, objects_collapse, List.flatMap_map,
      List.flatMap_assoc]
  have hchildren (values : List Json) :
      Json.objectsInMembers (childrenMember values) = values.flatMap Json.objects := by
    cases values <;>
      simp [childrenMember, Json.objectsInMembers, Json.objects, Json.objectsInItems_eq_flatMap]
  calc Json.objectsInMembers (membersOf parts)
      = (grouped (group (parts.filterMap Part.field?))).flatMap Json.objects ++
          (parts.filterMap Part.child?).flatMap Json.objects := by
        rw [membersOf_eq, Json.objectsInMembers_eq_flatMap, List.flatMap_append,
          ← Json.objectsInMembers_eq_flatMap, ← Json.objectsInMembers_eq_flatMap, hfields, hchildren]
    _ = (grouped (group (parts.filterMap Part.field?)) ++ parts.filterMap Part.child?).flatMap
          Json.objects := by rw [List.flatMap_append]
    _ ~ (((parts.filterMap Part.field?).map (·.2)) ++ parts.filterMap Part.child?).flatMap
          Json.objects := .flatMap_right _ (.append_right _ (grouped_group _))
    _ ~ (parts.filterMap Part.value?).flatMap Json.objects := .flatMap_right _ (perm_values parts)

private theorem filterMap_sublist {α β : Type} {f f' : α → Option β}
    (h : ∀ a b, f a = some b → f' a = some b) (as : List α) :
    (as.filterMap f).Sublist (as.filterMap f') := by
  induction as with
  | nil => exact .slnil
  | cons a as ih =>
    cases hf : f a with
    | none =>
      rw [List.filterMap_cons_none hf]
      exact ih.trans ((List.sublist_cons_self a as).filterMap f')
    | some b =>
      rw [List.filterMap_cons_some hf, List.filterMap_cons_some (h a b hf)]
      exact ih.cons_cons b

/-- An array among the members of a node has values of its parts in their order, if no part is itself an
array. -/
theorem sublist_membersOf {parts : List Part} {key : String} {items : List Json}
    (hparts : ∀ v ∈ parts.filterMap Part.value?, ∀ vs, v ≠ .arr vs)
    (h : (key, .arr items) ∈ membersOf parts) : items.Sublist (parts.filterMap Part.value?) := by
  have hfields : ((parts.filterMap Part.field?).map (·.2)).Sublist (parts.filterMap Part.value?) := by
    rw [List.map_filterMap]
    refine filterMap_sublist ?_ parts
    rintro (_ | _ | _) v hv
    · exact hv
    · contradiction
    · contradiction
  have hchildren : (parts.filterMap Part.child?).Sublist (parts.filterMap Part.value?) := by
    refine filterMap_sublist ?_ parts
    rintro (_ | _ | _) v hv
    · contradiction
    · exact hv
    · contradiction
  rw [membersOf_eq] at h
  rcases List.mem_append.1 h with h | h
  · obtain ⟨⟨label, values⟩, hentry, heq⟩ := List.mem_map.1 h
    have hvalues := (sublist_group hentry).trans hfields
    have hcollapse : collapse values = .arr items := (Prod.mk.inj heq).2
    unfold collapse at hcollapse
    split at hcollapse
    · next v => exact absurd hcollapse (hparts v (hvalues.subset List.mem_cons_self) items)
    · exact (Json.arr.inj hcollapse) ▸ hvalues
  · unfold childrenMember at h
    split_ifs at h
    · contradiction
    · have heq := (Prod.mk.inj (List.mem_singleton.1 h)).2
      exact (Json.arr.inj heq) ▸ hchildren

section OfTree

variable (g : Grammar) (source : List Char) (offsets : OffsetMap)

/-- Whether the native form of a tree is its text alone. -/
def isLeaf (t : Tree) : Bool := g.isAtomic t.info.kind || !(t.children.any (·.info.named))

theorem ofTree_eq (t : Tree) :
    ofTree g source offsets t =
      .obj ([("type", .str t.info.kindName), ("start", .nat (offsets.offset t.info.start)),
        ("end", .nat (offsets.offset t.info.stop))] ++
        if isLeaf g t then [("text", sliceOf source t.info)]
        else membersOf (partsOf g source offsets t.children)) := by
  cases t with
  | node info children => rw [ofTree, isLeaf]; rfl

/-- No label hides a member that every object may have. -/
theorem label_not_reserved {ts : List Tree} {label : String} {value : Json}
    (h : (label, value) ∈ (partsOf g source offsets ts).filterMap Part.field?) :
    label ∉ reserved := by
  induction ts with
  | nil => contradiction
  | cons t ts ih =>
    rw [partsOf, List.filterMap_cons] at h
    have hlabel (l : String) (hl : label? t.info = some l) : l ∉ reserved := by
      have hl := Option.filter_eq_some_iff.1 hl
      simpa using hl.2
    cases hp : t.info.isPart <;> cases hl : label? t.info with
    | none => exact ih (by simpa [hp, hl, Part.field?] using h)
    | some l =>
      simp only [hp, hl, Part.field?, List.mem_cons, Prod.mk.injEq] at h
      rcases h with ⟨rfl, -⟩ | h
      · exact hlabel _ hl
      · exact ih h

theorem key_membersOf {ts : List Tree} {m : String × Json}
    (h : m ∈ membersOf (partsOf g source offsets ts)) : m.1 ∉ reserved ∨ m.1 = "children" := by
  rw [membersOf_eq] at h
  rcases List.mem_append.1 h with h | h
  · obtain ⟨entry, hentry, rfl⟩ := List.mem_map.1 h
    obtain ⟨field, hfield, hkey⟩ := List.mem_map.1 (key_group hentry)
    exact Or.inl (hkey ▸ label_not_reserved g source offsets hfield)
  · unfold childrenMember at h
    split_ifs at h
    · contradiction
    · exact Or.inr (by rw [List.mem_singleton.1 h])

/-- Every native object has its own kind and place, and no other member under these names. -/
theorem get?_ofTree (t : Tree) :
    (ofTree g source offsets t).get? "type" = some (.str t.info.kindName) ∧
      (ofTree g source offsets t).get? "start" = some (.nat (offsets.offset t.info.start)) ∧
      (ofTree g source offsets t).get? "end" = some (.nat (offsets.offset t.info.stop)) ∧
      (ofTree g source offsets t).get? "text" =
        if isLeaf g t then some (sliceOf source t.info) else none := by
  rw [ofTree_eq]
  split_ifs with hleaf
  · exact ⟨rfl, rfl, rfl, rfl⟩
  · have hkeys (key : String) (hr : key ∈ reserved) (hc : key ≠ "children") :
        ∀ m ∈ membersOf (partsOf g source offsets t.children), m.1 ≠ key := by
      rintro m hm rfl
      exact (key_membersOf g source offsets hm).elim (· hr) hc
    refine ⟨?_, ?_, ?_, ?_⟩
    all_goals
      rw [Json.get?_append (hkeys _ (by decide) (by decide))]
      rfl

theorem nodup_keys_membersOf (ts : List Tree) :
    ((membersOf (partsOf g source offsets ts)).map (·.1)).Nodup := by
  rw [membersOf_eq, List.map_append, List.map_map]
  have hlabels := nodup_keys_group ((partsOf g source offsets ts).filterMap Part.field?)
  have hchildren : ((childrenMember ((partsOf g source offsets ts).filterMap Part.child?)).map
      (·.1)).Sublist ["children"] := by
    unfold childrenMember
    split_ifs
    · exact List.nil_sublist _
    · exact .refl _
  refine List.nodup_append.2 ⟨hlabels, (List.nodup_singleton _).sublist hchildren, ?_⟩
  -- No label is the name for the unlabelled children.
  rintro label hlabel key hkey rfl
  obtain ⟨entry, hentry, rfl⟩ := List.mem_map.1 hlabel
  obtain ⟨field, hfield, hfirst⟩ := List.mem_map.1 (key_group hentry)
  have hreserved := label_not_reserved g source offsets hfield
  have hname := List.mem_singleton.1 (hchildren.subset hkey)
  have hchild : entry.1 = "children" := hname
  rw [hfirst, hchild] at hreserved
  exact hreserved (by decide)

theorem nodup_keys_ofTree (t : Tree) : ((ofTree g source offsets t).members.map (·.1)).Nodup := by
  rw [ofTree_eq, Json.members, List.map_append]
  split_ifs with hleaf
  · simp
  · refine List.nodup_append.2 ⟨by simp, nodup_keys_membersOf g source offsets t.children, ?_⟩
    rintro key hkey other hother rfl
    obtain ⟨m, hm, rfl⟩ := List.mem_map.1 hother
    have hown : m.1 ∈ reserved ∧ m.1 ≠ "children" := by
      have hall : ∀ key ∈ ["type", "start", "end"], key ∈ reserved ∧ key ≠ "children" := by decide
      exact hall _ hkey
    exact (key_membersOf g source offsets hm).elim (· hown.1) hown.2

/-- What the parts of a node have: the native form of a named child, the source of a labelled one that is
not. -/
theorem value?_partsOf (ts : List Tree) :
    (partsOf g source offsets ts).filterMap Part.value? = ts.filterMap fun t =>
      if t.info.isPart then some (ofTree g source offsets t)
      else (label? t.info).map fun _ => sliceOf source t.info := by
  induction ts with
  | nil => rfl
  | cons t ts ih =>
    rw [partsOf, List.filterMap_cons, List.filterMap_cons, ih]
    cases hp : t.info.isPart <;> cases hl : label? t.info <;> simp [Part.value?]

theorem partsOf_ne_arr {ts : List Tree} {v : Json}
    (h : v ∈ (partsOf g source offsets ts).filterMap Part.value?) (items : List Json) : v ≠ .arr items := by
  rw [value?_partsOf, List.mem_filterMap] at h
  obtain ⟨t, -, ht⟩ := h
  split_ifs at ht
  · obtain rfl := Option.some.inj ht
    rw [ofTree_eq]
    nofun
  · obtain ⟨_, -, rfl⟩ := Option.map_eq_some_iff.1 ht
    nofun

theorem objects_partsOf (ts : List Tree) :
    ((partsOf g source offsets ts).filterMap Part.value?).flatMap Json.objects =
      (ts.filter (·.info.isPart)).flatMap fun t => (ofTree g source offsets t).objects := by
  induction ts with
  | nil => rfl
  | cons t ts ih =>
    rw [partsOf]
    cases hp : t.info.isPart <;> cases hl : label? t.info <;>
      simp [hp, List.filterMap_cons, Part.value?, ih, sliceOf, Json.objects]

/-- The trees right below a tree that have objects of their own in its native form. -/
def nativeParts (t : Tree) : List Tree := if isLeaf g t then [] else t.parts

theorem mem_parts_of_mem_nativeParts {t c : Tree} (h : c ∈ nativeParts g t) : c ∈ t.parts := by
  unfold nativeParts at h
  split_ifs at h
  · contradiction
  · exact h

/-- The objects of a tree: its own, and those of its parts. -/
theorem objects_ofTree (t : Tree) :
    (ofTree g source offsets t).objects.Perm
      (ofTree g source offsets t ::
        (nativeParts g t).flatMap fun c => (ofTree g source offsets c).objects) := by
  have hobjects : (ofTree g source offsets t).objects = ofTree g source offsets t ::
      Json.objectsInMembers (if isLeaf g t then [("text", sliceOf source t.info)]
        else membersOf (partsOf g source offsets t.children)) := by
    rw [ofTree_eq]
    simp [Json.objects, Json.objectsInMembers, Json.nat]
  rw [hobjects]
  apply List.Perm.cons
  unfold nativeParts
  split_ifs with h
  · simp [Json.objectsInMembers, Json.objects, sliceOf]
  · refine (objects_membersOf _).trans ?_
    rw [objects_partsOf]
    exact .refl _

/-- All objects in the native form of a tree are native forms of trees inside it. -/
theorem exists_of_mem_objects {t : Tree} {j : Json} (h : j ∈ (ofTree g source offsets t).objects) :
    ∃ u ∈ t.subtrees, j = ofTree g source offsets u := by
  induction t with
  | node info children ih =>
    have hmem := (objects_ofTree g source offsets (.node info children)).mem_iff.1 h
    rw [List.mem_cons, List.mem_flatMap] at hmem
    rcases hmem with rfl | ⟨c, hc, hj⟩
    · exact ⟨_, Tree.self_mem_subtrees _, rfl⟩
    · have hchild : c ∈ children :=
        Tree.parts_subset_children _ (mem_parts_of_mem_nativeParts g hc)
      obtain ⟨u, hu, rfl⟩ := ih c hchild hj
      exact ⟨u, Tree.subtrees_trans (Tree.child_mem_subtrees hchild) hu, rfl⟩

end OfTree

end Native

end ScriptTree
