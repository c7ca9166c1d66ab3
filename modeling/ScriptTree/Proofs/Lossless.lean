import Mathlib.Data.List.Induction
import ScriptTree.Proofs.Syntax.Native

/-! The native form of a tree loses nothing, says nothing twice and overwrites nothing: each child that it keeps
stands in one place, under its label or among the unlabelled ones, in the order of the source. -/
namespace ScriptTree

namespace Json

theorem get?_of_mem {ms : List (String × Json)} {key : String} {j : Json} (hnodup : (ms.map (·.1)).Nodup)
    (h : (key, j) ∈ ms) : (Json.obj ms).get? key = some j := by
  obtain ⟨before, behind, rfl⟩ := List.append_of_mem h
  have hbehind : key ∉ behind.map (·.1) := by
    rw [List.map_append, List.map_cons] at hnodup
    exact (List.nodup_cons.1 (List.nodup_append.1 hnodup).2.1).1
  rw [get?_append_eq_or, get?_cons, get?_eq_none hbehind]
  simp

/-- The values that a member holds: the items of an array, or the one value. -/
def contents : Json → List Json
  | .arr items => items
  | j => [j]

end Json

namespace Native

section Group

/-- The values under a label, in their order. -/
def valuesAt (fields : List (String × Json)) (label : String) : List Json :=
  (fields.filter (·.1 = label)).map (·.2)

theorem group_append (fields : List (String × Json)) (label : String) (value : Json) :
    group (fields ++ [(label, value)]) = insert label value (group fields) := by
  simp [group_eq]

theorem valuesAt_append (fields : List (String × Json)) (label l : String) (value : Json) :
    valuesAt (fields ++ [(label, value)]) l =
      if l = label then valuesAt fields l ++ [value] else valuesAt fields l := by
  by_cases h : l = label
  · simp [valuesAt, h]
  · simp [valuesAt, h, Ne.symm h]

theorem insert_of_not_mem {label : String} {value : Json} {groups : List (String × List Json)}
    (h : label ∉ groups.map (·.1)) : insert label value groups = groups ++ [(label, [value])] := by
  induction groups with
  | nil => rfl
  | cons entry groups ih =>
    rw [List.map_cons, List.mem_cons, not_or] at h
    rw [insert, if_neg (Ne.symm h.1), ih h.2, List.cons_append]

theorem insert_of_mem {label : String} {value : Json} {groups : List (String × List Json)}
    (hnodup : (groups.map (·.1)).Nodup) (h : label ∈ groups.map (·.1)) :
    insert label value groups =
      groups.map fun e => if e.1 = label then (e.1, e.2 ++ [value]) else e := by
  induction groups with
  | nil => contradiction
  | cons entry groups ih =>
    rw [List.map_cons, List.nodup_cons] at hnodup
    obtain ⟨l, values⟩ := entry
    by_cases hl : l = label
    · have hrest : groups.map (fun e => if e.1 = label then (e.1, e.2 ++ [value]) else e) = groups := by
        conv_rhs => rw [← List.map_id groups]
        refine List.map_congr_left fun e he => if_neg fun hkey => hnodup.1 ?_
        exact List.mem_map.2 ⟨e, he, hkey.trans hl.symm⟩
      rw [insert, if_pos hl, List.map_cons, if_pos hl, hrest]
    · have hmem : label ∈ groups.map (·.1) := (List.mem_cons.1 h).resolve_left (Ne.symm hl)
      rw [insert, if_neg hl, List.map_cons, if_neg hl, ih hnodup.2 hmem]

private theorem eraseDups_append_singleton (labels : List String) (label : String) :
    (labels ++ [label]).eraseDups =
      if label ∈ labels then labels.eraseDups else labels.eraseDups ++ [label] := by
  rw [List.eraseDups_append]
  by_cases h : label ∈ labels <;> simp [List.removeAll, List.eraseDups_cons, h]

/-- Grouping in closed form: the labels by their first values, each with all its values in their order. -/
theorem group_eq_map (fields : List (String × Json)) :
    group fields = (fields.map (·.1)).eraseDups.map fun label => (label, valuesAt fields label) := by
  -- The invariant of the loop over the fields: it holds of what has been seen so far.
  induction fields using List.reverseRecOn with
  | nil => rfl
  | append_singleton fields field ih =>
    obtain ⟨label, value⟩ := field
    have hkeys : (group fields).map (·.1) = (fields.map (·.1)).eraseDups := by
      rw [ih, List.map_map]
      exact List.map_id _
    rw [group_append, List.map_append, List.map_cons, List.map_nil, eraseDups_append_singleton]
    split_ifs with hmem
    · have hlabel : label ∈ (group fields).map (·.1) := hkeys ▸ List.mem_eraseDups.2 hmem
      rw [insert_of_mem (nodup_keys_group fields) hlabel, ih, List.map_map]
      refine List.map_congr_left fun l _ => ?_
      by_cases hl : l = label <;> simp [valuesAt_append, hl]
    · have hlabel : label ∉ (group fields).map (·.1) := by
        rw [hkeys, List.mem_eraseDups]
        exact hmem
      have hfirst : valuesAt fields label = [] := by
        rw [valuesAt, List.map_eq_nil_iff, List.filter_eq_nil_iff]
        exact fun m hm heq => hmem (List.mem_map.2 ⟨m, hm, of_decide_eq_true heq⟩)
      rw [insert_of_not_mem hlabel, ih, List.map_append]
      congr 1
      · refine List.map_congr_left fun l hl => ?_
        have hne : l ≠ label := fun heq => hmem (heq ▸ List.mem_eraseDups.1 hl)
        rw [valuesAt_append, if_neg hne]
      · simp [valuesAt_append, hfirst]

end Group

theorem collapse_of_two_le {values : List Json} (h : 2 ≤ values.length) :
    collapse values = .arr values := by
  unfold collapse
  split
  · simp at h
  · rfl

theorem contents_collapse {values : List Json} (h : ∀ v ∈ values, ∀ items, v ≠ .arr items) :
    (collapse values).contents = values := by
  unfold collapse
  split
  · next value =>
    cases value with
    | arr items => exact absurd rfl (h _ List.mem_cons_self items)
    | scalar _ => rfl
    | obj _ => rfl
  · rfl

/-- The members of a node hold the values of its parts, if none of these is itself an array. -/
theorem contents_membersOf {parts : List Part}
    (h : ∀ v ∈ parts.filterMap Part.value?, ∀ items, v ≠ .arr items) :
    ((membersOf parts).flatMap fun m => m.2.contents).Perm (parts.filterMap Part.value?) := by
  have hfields : ((group (parts.filterMap Part.field?)).flatMap fun e => (collapse e.2).contents) =
      grouped (group (parts.filterMap Part.field?)) := by
    rw [grouped, List.flatMap_def, List.flatMap_def]
    refine congrArg _ (List.map_congr_left fun e he => contents_collapse fun v hv => h v ?_)
    have hfield : v ∈ (parts.filterMap Part.field?).map (·.2) := (sublist_group he).subset hv
    exact (perm_values parts).subset (List.mem_append_left _ hfield)
  have hchildren (values : List Json) :
      (childrenMember values).flatMap (fun m => m.2.contents) = values := by
    cases values <;> simp [childrenMember, Json.contents]
  rw [membersOf_eq, List.flatMap_append, List.flatMap_map, hfields, hchildren]
  exact (List.Perm.append_right _ (grouped_group _)).trans (perm_values parts)

/-- A child has a label of its own, or its label, if it has one, is reserved. -/
theorem label?_cases (info : NodeInfo) :
    (∃ label, label? info = some label ∧ info.field = some label ∧ label ∉ reserved) ∨
      label? info = none ∧ info.field.all (· ∈ reserved) = true := by
  unfold label?
  cases info.field with
  | none => exact Or.inr ⟨rfl, rfl⟩
  | some label =>
    by_cases h : label ∈ reserved
    · exact Or.inr ⟨by simp [h], by simp [h]⟩
    · exact Or.inl ⟨label, by simp [h], rfl, h⟩

section OfTree

variable (g : Grammar) (source : List Char) (offsets : OffsetMap)

/-- What a child is in the object of its parent: a named one its native form, any other its source. -/
def valueOf (c : Tree) : Json :=
  if c.info.isPart then ofTree g source offsets c else sliceOf source c.info

/-- The labels under which a tree has children, without the reserved ones, by their first children. -/
def labels (t : Tree) : List String :=
  ((t.children.filterMap (·.info.field)).filter (· ∉ reserved)).eraseDups

/-- The values of the children under a label. -/
def valuesUnder (t : Tree) (label : String) : List Json :=
  (t.children.filter (·.info.field = some label)).map (valueOf g source offsets)

/-- The parts of a tree under no label, or under a reserved one. -/
def unlabelled (t : Tree) : List Tree :=
  t.parts.filter fun c => c.info.field.all (· ∈ reserved)

/-- Whether a child has a place in the object of its parent. -/
def isKept (c : Tree) : Bool := c.info.isPart || c.info.field.any (· ∉ reserved)

theorem field?_partsOf (ts : List Tree) :
    (partsOf g source offsets ts).filterMap Part.field? = ts.filterMap fun c =>
      (label? c.info).map fun label => (label, valueOf g source offsets c) := by
  induction ts with
  | nil => rfl
  | cons c ts ih =>
    rw [partsOf, List.filterMap_cons, List.filterMap_cons, ih]
    cases hp : c.info.isPart <;> cases hl : label? c.info <;> simp [Part.field?, valueOf, hp]

theorem child?_partsOf (t : Tree) :
    (partsOf g source offsets t.children).filterMap Part.child? =
      (unlabelled t).map (ofTree g source offsets) := by
  rw [unlabelled, Tree.parts]
  induction t.children with
  | nil => rfl
  | cons c ts ih =>
    rw [partsOf, List.filterMap_cons, ih]
    rcases label?_cases c.info with ⟨label, hlabel, hfield, hr⟩ | ⟨hlabel, hall⟩
    · cases hp : c.info.isPart <;> simp [Part.child?, hp, hlabel, hfield, hr]
    · cases hp : c.info.isPart <;> simp [Part.child?, hp, hlabel, hall]

theorem keys_partsOf (t : Tree) :
    (((partsOf g source offsets t.children).filterMap Part.field?).map (·.1)).eraseDups = labels t := by
  rw [field?_partsOf, labels, List.map_filterMap, List.filter_filterMap]
  congr 1
  refine List.filterMap_congr fun c _ => ?_
  rcases label?_cases c.info with ⟨label, hlabel, hfield, hr⟩ | ⟨hlabel, hall⟩
  · simp [hlabel, hfield, hr, Option.filter_some]
  · cases hfield : c.info.field <;> simp_all [Option.filter_some]

theorem valuesAt_partsOf (t : Tree) {label : String} (h : label ∉ reserved) :
    valuesAt ((partsOf g source offsets t.children).filterMap Part.field?) label =
      valuesUnder g source offsets t label := by
  rw [field?_partsOf, valuesAt, valuesUnder]
  induction t.children with
  | nil => rfl
  | cons c ts ih =>
    rw [List.filterMap_cons]
    rcases label?_cases c.info with ⟨l, hlabel, hfield, hr⟩ | ⟨hlabel, hall⟩
    · by_cases hl : l = label <;> simp [hlabel, hfield, hl, ih]
    · have hne : c.info.field ≠ some label := by
        intro hfield
        simp [hfield, h] at hall
      simp [hlabel, hne, ih]

theorem not_reserved_of_mem_labels {t : Tree} {label : String} (h : label ∈ labels t) :
    label ∉ reserved := by
  rw [labels, List.mem_eraseDups, List.mem_filter] at h
  simpa using h.2

/-- The members of a node in closed form. -/
theorem membersOf_partsOf (t : Tree) :
    membersOf (partsOf g source offsets t.children) =
      (labels t).map (fun label => (label, collapse (valuesUnder g source offsets t label))) ++
        childrenMember ((unlabelled t).map (ofTree g source offsets)) := by
  rw [membersOf_eq, group_eq_map, child?_partsOf, keys_partsOf, List.map_map]
  congr 1
  refine List.map_congr_left fun label hlabel => ?_
  rw [Function.comp_apply, valuesAt_partsOf g source offsets t (not_reserved_of_mem_labels hlabel)]

/-- What is kept of the children of a tree, in the order of the source. -/
theorem values_partsOf (ts : List Tree) :
    (partsOf g source offsets ts).filterMap Part.value? =
      (ts.filter isKept).map (valueOf g source offsets) := by
  rw [value?_partsOf]
  induction ts with
  | nil => rfl
  | cons c ts ih =>
    rw [List.filterMap_cons, ih]
    rcases label?_cases c.info with ⟨label, hlabel, hfield, hr⟩ | ⟨hlabel, hall⟩
    · have hkept : isKept c = true := by simp [isKept, hfield, hr]
      cases hp : c.info.isPart <;> simp [valueOf, hp, hlabel, hkept]
    · have hkept : isKept c = c.info.isPart := by
        cases hfield : c.info.field <;> simp_all [isKept]
      cases hp : c.info.isPart <;> simp [valueOf, hp, hlabel, hkept]

section InPlace

/-- Adds a value to the members of an object in place. Under a label that is there already it joins the values
there, which makes an array of a single one; under a new one it stands behind all members. -/
def put (label : String) (value : Json) : List (String × Json) → List (String × Json)
  | [] => [(label, value)]
  | (l, old) :: ms =>
    if l = label then (l, .arr (old.contents ++ [value])) :: ms else (l, old) :: put label value ms

/-- One step of a walk over the children of a node, with the members and the unlabelled values so far. -/
def walk (sofar : List (String × Json) × List Json) (c : Tree) : List (String × Json) × List Json :=
  match label? c.info, c.info.isPart with
  | some label, _ => (put label (valueOf g source offsets c) sofar.1, sofar.2)
  | none, true => (sofar.1, sofar.2 ++ [ofTree g source offsets c])
  | none, false => sofar

theorem put_append {label : String} {before : List (String × Json)} (h : label ∉ before.map (·.1))
    (value : Json) (ms : List (String × Json)) :
    put label value (before ++ ms) = before ++ put label value ms := by
  induction before with
  | nil => rfl
  | cons m before ih =>
    rw [List.map_cons, List.mem_cons, not_or] at h
    rw [List.cons_append, put, if_neg (Ne.symm h.1), ih h.2, List.cons_append]

/-- Putting a value in place does what grouping does, if every label has values and none is an array. -/
theorem put_collapse {groups : List (String × List Json)}
    (h : ∀ e ∈ groups, e.2 ≠ [] ∧ ∀ v ∈ e.2, ∀ items, v ≠ .arr items) (label : String) (value : Json) :
    put label value (groups.map fun e => (e.1, collapse e.2)) =
      (insert label value groups).map fun e => (e.1, collapse e.2) := by
  induction groups with
  | nil => rfl
  | cons entry groups ih =>
    obtain ⟨⟨hne, harr⟩, hrest⟩ := List.forall_mem_cons.1 h
    by_cases hl : entry.1 = label
    · have hlen : 2 ≤ (entry.2 ++ [value]).length := by
        have hpos := List.length_pos_iff.2 hne
        rw [List.length_append, List.length_singleton]
        omega
      rw [List.map_cons, put, if_pos hl, insert, if_pos hl, List.map_cons, contents_collapse harr,
        collapse_of_two_le hlen]
    · rw [List.map_cons, put, if_neg hl, insert, if_neg hl, List.map_cons, ih hrest]

/-- Every label has values, and no value is itself an array. -/
theorem values_group_partsOf {ts : List Tree} {e : String × List Json}
    (h : e ∈ group ((partsOf g source offsets ts).filterMap Part.field?)) :
    e.2 ≠ [] ∧ ∀ v ∈ e.2, ∀ items, v ≠ .arr items := by
  constructor
  · rw [group_eq_map] at h
    obtain ⟨label, hlabel, rfl⟩ := List.mem_map.1 h
    obtain ⟨field, hfield, rfl⟩ := List.mem_map.1 (List.mem_eraseDups.1 hlabel)
    exact List.ne_nil_of_mem (List.mem_map.2 ⟨field, by simpa using hfield, rfl⟩)
  · intro v hv
    have hfield := (sublist_group h).subset hv
    exact partsOf_ne_arr g source offsets ((perm_values _).subset (List.mem_append_left _ hfield))

theorem partsOf_append (ts us : List Tree) :
    partsOf g source offsets (ts ++ us) = partsOf g source offsets ts ++ partsOf g source offsets us := by
  induction ts with
  | nil => rfl
  | cons t ts ih => rw [List.cons_append, partsOf, partsOf, ih, List.cons_append]

/-- The invariant of the walk: behind the members it starts with stand the grouped values of the children so far. -/
theorem foldl_walk {start : List (String × Json)} (hstart : ∀ m ∈ start, m.1 ∈ reserved) (ts : List Tree) :
    ts.foldl (walk g source offsets) (start, []) =
      (start ++ (group ((partsOf g source offsets ts).filterMap Part.field?)).map
          (fun e => (e.1, collapse e.2)),
        (partsOf g source offsets ts).filterMap Part.child?) := by
  induction ts using List.reverseRecOn with
  | nil => simp [partsOf, group]
  | append_singleton ts c ih =>
    rw [List.foldl_append, ih, partsOf_append, List.filterMap_append, List.filterMap_append]
    rcases label?_cases c.info with ⟨label, hlabel, -, hr⟩ | ⟨hlabel, -⟩
    · have hnew : label ∉ start.map (·.1) := by
        intro hmem
        obtain ⟨m, hm, rfl⟩ := List.mem_map.1 hmem
        exact hr (hstart m hm)
      have hpart : partsOf g source offsets [c] = [.field label (valueOf g source offsets c)] := by
        cases hp : c.info.isPart <;> simp [partsOf, valueOf, hlabel, hp]
      simp only [List.foldl_cons, List.foldl_nil, walk, hlabel, hpart, List.filterMap_cons,
        List.filterMap_nil, Part.field?, Part.child?, List.append_nil, put_append hnew,
        put_collapse fun _ => values_group_partsOf g source offsets, group_append]
    · cases hp : c.info.isPart <;>
        simp [walk, partsOf, hlabel, hp, List.filterMap_cons, Part.field?, Part.child?]

end InPlace

/-- The members that say what a node is and where. -/
def ownMembers (t : Tree) : List (String × Json) :=
  [("type", .str t.info.kindName), ("start", .nat (offsets.offset t.info.start)),
   ("end", .nat (offsets.offset t.info.stop))]

/-- Whether an object describes a node by all of its children that are kept. -/
structure Lossless (t : Tree) (j : Json) : Prop where
  /-- Behind the members of every object come the labels, and then the unlabelled children if there are any. -/
  keys : j.members.map (·.1) =
    ["type", "start", "end"] ++ labels t ++ if (unlabelled t).isEmpty then [] else ["children"]
  /-- A label with one child has its value. -/
  single : ∀ label, label ∉ reserved → ∀ value, valuesUnder g source offsets t label = [value] →
    j.get? label = some value
  /-- A label with several children has their values in an array. -/
  several : ∀ label, label ∉ reserved → 2 ≤ (valuesUnder g source offsets t label).length →
    j.get? label = some (.arr (valuesUnder g source offsets t label))
  children : unlabelled t ≠ [] →
    j.get? "children" = some (.arr ((unlabelled t).map (ofTree g source offsets)))
  /-- Every child that is kept stands in one place, and nothing else stands anywhere. -/
  once : ((j.members.drop 3).flatMap fun m => m.2.contents).Perm
    ((t.children.filter isKept).map (valueOf g source offsets))
  /-- The object is made in one walk over the children. -/
  walked : j = .obj
    ((t.children.foldl (walk g source offsets) (ownMembers offsets t, [])).1 ++
      childrenMember (t.children.foldl (walk g source offsets) (ownMembers offsets t, [])).2)

theorem isLeaf_iff (t : Tree) :
    isLeaf g t = true ↔ g.isAtomic t.info.kind = true ∨ ∀ c ∈ t.children, c.info.named = false := by
  simp [isLeaf]

theorem ofTree_of_not_leaf {t : Tree} (h : isLeaf g t = false) :
    ofTree g source offsets t = .obj
      (ownMembers offsets t ++ ((labels t).map (fun label =>
        (label, collapse (valuesUnder g source offsets t label))) ++
          childrenMember ((unlabelled t).map (ofTree g source offsets)))) := by
  rw [ofTree_eq, h, ← membersOf_partsOf]
  rfl

theorem get?_of_mem_members {t : Tree} {key : String} {j : Json}
    (h : (key, j) ∈ (ofTree g source offsets t).members) :
    (ofTree g source offsets t).get? key = some j := by
  have hnodup := nodup_keys_ofTree g source offsets t
  rw [ofTree_eq] at h hnodup ⊢
  exact Json.get?_of_mem hnodup h

theorem get?_label {t : Tree} (h : isLeaf g t = false) {label : String} (hlabel : label ∉ reserved)
    (hne : valuesUnder g source offsets t label ≠ []) :
    (ofTree g source offsets t).get? label =
      some (collapse (valuesUnder g source offsets t label)) := by
  have hmem : label ∈ labels t := by
    obtain ⟨v, hv⟩ := List.exists_mem_of_ne_nil _ hne
    obtain ⟨c, hc, -⟩ := List.mem_map.1 hv
    obtain ⟨hchild, hfield⟩ := List.mem_filter.1 hc
    rw [labels, List.mem_eraseDups, List.mem_filter, List.mem_filterMap]
    exact ⟨⟨c, hchild, of_decide_eq_true hfield⟩, by simpa using hlabel⟩
  apply get?_of_mem_members
  rw [ofTree_of_not_leaf g source offsets h, Json.members]
  exact List.mem_append_right _ (List.mem_append_left _ (List.mem_map.2 ⟨label, hmem, rfl⟩))

theorem get?_children {t : Tree} (h : isLeaf g t = false) (hne : unlabelled t ≠ []) :
    (ofTree g source offsets t).get? "children" =
      some (.arr ((unlabelled t).map (ofTree g source offsets))) := by
  apply get?_of_mem_members
  rw [ofTree_of_not_leaf g source offsets h, Json.members]
  refine List.mem_append_right _ (List.mem_append_right _ ?_)
  simp [childrenMember, hne]

theorem keys_childrenMember (values : List Json) :
    (childrenMember values).map (·.1) = if values.isEmpty then [] else ["children"] := by
  unfold childrenMember
  split_ifs <;> rfl

theorem lossless_ofTree {t : Tree} (h : isLeaf g t = false) :
    Lossless g source offsets t (ofTree g source offsets t) where
  keys := by
    rw [ofTree_of_not_leaf g source offsets h, Json.members, List.map_append, List.map_append,
      keys_childrenMember, List.isEmpty_map, List.map_map, List.append_assoc]
    congr 2
    exact List.map_id _
  single := by
    intro label hlabel value hvalue
    rw [get?_label g source offsets h hlabel (by simp [hvalue]), hvalue]
    rfl
  several := by
    intro label hlabel hlen
    have hne : valuesUnder g source offsets t label ≠ [] := by
      intro hnil
      simp [hnil] at hlen
    rw [get?_label g source offsets h hlabel hne, collapse_of_two_le hlen]
  children := get?_children g source offsets h
  once := by
    have hvalues : ∀ v ∈ (partsOf g source offsets t.children).filterMap Part.value?,
        ∀ items, v ≠ .arr items := fun _ => partsOf_ne_arr g source offsets
    have hperm := contents_membersOf hvalues
    rw [values_partsOf, membersOf_partsOf] at hperm
    rw [ofTree_of_not_leaf g source offsets h]
    exact hperm
  walked := by
    have hown : ∀ m ∈ ownMembers offsets t, m.1 ∈ reserved := by
      simp [ownMembers, reserved]
    rw [foldl_walk g source offsets hown, List.append_assoc, ← membersOf_eq, membersOf_partsOf]
    exact ofTree_of_not_leaf g source offsets h

/-- The native form of a tree loses no child, says none twice and overwrites nothing. A node that is a single
token or has no named child has its text; any other has its children, each in one place. -/
theorem ofTree_keeps_children (t : Tree) :
    (g.isAtomic t.info.kind = true ∨ (∀ c ∈ t.children, c.info.named = false) →
      ofTree g source offsets t = .obj (ownMembers offsets t ++ [("text", sliceOf source t.info)])) ∧
    (¬(g.isAtomic t.info.kind = true ∨ ∀ c ∈ t.children, c.info.named = false) →
      Lossless g source offsets t (ofTree g source offsets t)) ∧
    ((ofTree g source offsets t).members.map (·.1)).Nodup ∧
    (ofTree g source offsets t).get? "type" = some (.str t.info.kindName) ∧
    (ofTree g source offsets t).get? "start" = some (.nat (offsets.offset t.info.start)) ∧
    (ofTree g source offsets t).get? "end" = some (.nat (offsets.offset t.info.stop)) := by
  obtain ⟨htype, hstart, hstop, -⟩ := get?_ofTree g source offsets t
  rw [← isLeaf_iff]
  refine ⟨?_, ?_, nodup_keys_ofTree g source offsets t, htype, hstart, hstop⟩
  · intro hleaf
    rw [ofTree_eq, if_pos hleaf]
    rfl
  · intro hleaf
    exact lossless_ofTree g source offsets (Bool.eq_false_of_not_eq_true hleaf)

end OfTree

def nameAt (field : Option String) (start stop : Nat) : Tree :=
  .node { kind := 1, kindName := "identifier", field, named := true, start, stop } []

/-- A script whose names stand twice under one label, once under a reserved one and once under none, with tokens
and a comment between them. -/
def crowded : Tree :=
  .node { kind := 134, kindName := "program", named := true, start := 0, stop := 11 }
    [nameAt "item" 0 1,
     .node { kind := 85, kindName := "+", field := "operator", start := 1, stop := 2 } [],
     nameAt "item" 2 3,
     .node { kind := 108, kindName := "comment", named := true, extra := true, start := 3, stop := 7 } [],
     nameAt "text" 7 8,
     .node { kind := 8, kindName := ",", start := 8, stop := 9 } [],
     nameAt none 9 11]

theorem crowded_keeps_children :
    let source := "a+b/**/c,de".toList
    let offsets : OffsetMap := .ofText source .utf16
    let native := ofTree .plain source offsets
    (∀ c ∈ (nameAt "item" 0 1).children, c.info.named = false) ∧
    native (nameAt "item" 0 1) = .obj
      [("type", .str "identifier"), ("start", .nat 0), ("end", .nat 1), ("text", .str "a")] ∧
    ¬(Grammar.plain.isAtomic crowded.info.kind = true ∨ ∀ c ∈ crowded.children, c.info.named = false) ∧
    (native crowded).members.map (·.1) = ["type", "start", "end", "item", "operator", "children"] ∧
    (native crowded).get? "item" =
      some (.arr [native (nameAt "item" 0 1), native (nameAt "item" 2 3)]) ∧
    (native crowded).get? "operator" = some (.str "+") ∧
    (native crowded).get? "children" =
      some (.arr [native (nameAt "text" 7 8), native (nameAt none 9 11)]) := by
  intro source offsets native
  have hleaf : ∀ c ∈ (nameAt "item" 0 1).children, c.info.named = false := by decide
  have hbranch : ¬(Grammar.plain.isAtomic crowded.info.kind = true ∨
      ∀ c ∈ crowded.children, c.info.named = false) := by decide +kernel
  have htext := (ofTree_keeps_children .plain source offsets (nameAt "item" 0 1)).1 (Or.inr hleaf)
  have hlossless := (ofTree_keeps_children .plain source offsets crowded).2.1 hbranch
  refine ⟨hleaf, htext, hbranch, hlossless.keys.trans (by decide), ?_, ?_, ?_⟩
  · exact hlossless.several "item" (by decide) (by decide)
  · exact hlossless.single "operator" (by decide) _ rfl
  · exact hlossless.children (by decide)

end Native

end ScriptTree
