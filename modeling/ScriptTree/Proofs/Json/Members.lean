import Mathlib.Data.List.Nodup
import Mathlib.Data.List.Perm.Basic
import ScriptTree.Json.Basic

/-! The members of an object, seen through their names. A name stands for its last member, so changes that keep
the last member of each known name are not seen. -/
namespace ScriptTree.Json

theorem get?_eq_getLast? (ms : List (String × Json)) (key : String) :
    (Json.obj ms).get? key = ((ms.filter (·.1 == key)).getLast?).map (·.2) := by
  rw [get?, members, ← List.head?_filter, List.filter_reverse, List.head?_reverse]

theorem get?_append_eq_or (ms ns : List (String × Json)) (key : String) :
    (Json.obj (ms ++ ns)).get? key = ((Json.obj ns).get? key).or ((Json.obj ms).get? key) := by
  simp only [get?, members, List.reverse_append, List.find?_append, Option.map_or]

theorem get?_eq_none {ms : List (String × Json)} {key : String} (h : key ∉ ms.map (·.1)) :
    (Json.obj ms).get? key = none := by
  simp only [get?, members, Option.map_eq_none_iff, List.find?_eq_none, List.mem_reverse, beq_iff_eq]
  rintro m hm rfl
  exact h (List.mem_map_of_mem hm)

theorem get?_append {ms ns : List (String × Json)} {key : String} (h : ∀ n ∈ ns, n.1 ≠ key) :
    (Json.obj (ms ++ ns)).get? key = (Json.obj ms).get? key := by
  have hnone : key ∉ ns.map (·.1) := by
    intro hmem
    obtain ⟨n, hn, rfl⟩ := List.mem_map.1 hmem
    exact h n hn rfl
  rw [get?_append_eq_or, get?_eq_none hnone, Option.none_or]

theorem get?_cons (m : String × Json) (ms : List (String × Json)) (key : String) :
    (Json.obj (m :: ms)).get? key =
      ((Json.obj ms).get? key).or (if m.1 = key then some m.2 else none) := by
  rw [← List.singleton_append, get?_append_eq_or]
  by_cases h : m.1 = key <;> simp [get?, members, h]

theorem get?_insert_of_ne {ms ns : List (String × Json)} {name key : String} {j : Json}
    (h : name ≠ key) : (Json.obj (ms ++ (name, j) :: ns)).get? key = (Json.obj (ms ++ ns)).get? key := by
  rw [get?_append_eq_or, get?_append_eq_or, get?_cons, if_neg h, Option.or_none]

theorem get?_replace (ms ns : List (String × Json)) (name key : String) (j j' : Json) :
    (Json.obj (ms ++ (name, j') :: ns)).get? key = (Json.obj (ms ++ (name, j) :: ns)).get? key ∨
      name = key ∧ (Json.obj (ms ++ (name, j) :: ns)).get? key = some j ∧
        (Json.obj (ms ++ (name, j') :: ns)).get? key = some j' := by
  by_cases h : name = key
  · simp only [get?_append_eq_or, get?_cons, if_pos h]
    -- The member counts unless another one of its name stands behind it.
    cases (Json.obj ns).get? key with
    | none => exact Or.inr ⟨h, rfl, rfl⟩
    | some k => exact Or.inl rfl
  · exact Or.inl (by rw [get?_insert_of_ne h, get?_insert_of_ne h])

/-- Changes of the members of an object that say nothing new to a reader who knows the given names, some
of them optional: another order, but among members of one name; an unknown member, new or with another value;
null for an optional member that is absent. -/
inductive MembersEdit (known optional : List String) :
    List (String × Json) → List (String × Json) → Prop
  | reorder {ms ms' : List (String × Json)}
      (h : ∀ key, ms'.filter (·.1 == key) = ms.filter (·.1 == key)) :
      MembersEdit known optional ms ms'
  | unknown {ms ns : List (String × Json)} {key : String} {j : Json} (h : key ∉ known) :
      MembersEdit known optional (ms ++ ns) (ms ++ (key, j) :: ns)
  | ignored {ms ns : List (String × Json)} {key : String} {j j' : Json} (h : key ∉ known) :
      MembersEdit known optional (ms ++ (key, j) :: ns) (ms ++ (key, j') :: ns)
  | null {ms ns : List (String × Json)} {key : String} (h : key ∈ optional)
      (habsent : key ∉ (ms ++ ns).map (·.1)) :
      MembersEdit known optional (ms ++ ns) (ms ++ (key, .null) :: ns)

theorem MembersEdit.of_perm {known optional : List String} {ms ms' : List (String × Json)}
    (h : ms'.Perm ms) (hnames : (ms.map (·.1)).Nodup) : MembersEdit known optional ms ms' := by
  refine .reorder fun key => ?_
  have hfilter := h.filter (·.1 == key)
  rcases hms : ms.filter (·.1 == key) with _ | ⟨m, _ | ⟨n, rest⟩⟩ <;> rw [hms] at hfilter
  · exact hfilter.eq_nil.trans hms.symm
  · exact (List.perm_singleton.1 hfilter).trans hms.symm
  · -- Two members that both have the name would make it stand twice.
    have hsub := (List.filter_sublist (p := fun x : String × Json => x.1 == key) (l := ms)).map (·.1)
    have hall : ∀ x ∈ ms.filter (·.1 == key), x.1 = key := by simp
    rw [hms] at hsub hall
    have hnodup := hsub.nodup hnames
    simp [hall m (by simp), hall n (by simp)] at hnodup

/-- What stands under a known name stays, or is null instead of absent. -/
theorem MembersEdit.get? {known optional : List String} {ms ms' : List (String × Json)}
    (h : MembersEdit known optional ms ms') {key : String} (hkey : key ∈ known) :
    (Json.obj ms').get? key = (Json.obj ms).get? key ∨
      key ∈ optional ∧ (Json.obj ms).get? key = none ∧ (Json.obj ms').get? key = some .null := by
  cases h with
  | reorder h => exact Or.inl (by rw [get?_eq_getLast?, get?_eq_getLast?, h])
  | unknown h => exact Or.inl (get?_insert_of_ne fun heq => h (heq ▸ hkey))
  | @ignored ms ns name j j' h =>
    have hne : name ≠ key := fun heq => h (heq ▸ hkey)
    exact Or.inl (by rw [get?_insert_of_ne hne, get?_insert_of_ne hne])
  | @null ms ns name h habsent =>
    by_cases heq : name = key
    · subst heq
      have hns : name ∉ ns.map (·.1) := fun hmem => habsent (by simp_all)
      refine Or.inr ⟨h, get?_eq_none habsent, ?_⟩
      rw [get?_append_eq_or, get?_cons, get?_eq_none hns, if_pos rfl]
      rfl
    · exact Or.inl (get?_insert_of_ne heq)

end ScriptTree.Json
