import ScriptTree.Proofs.Record.OfTree
import ScriptTree.Proofs.Syntax.Check
import ScriptTree.Proofs.Syntax.Native

/-! Both shapes describe the same tree. The records along the children are those of the visible nodes, each
at its place, and the native objects are those of the named ones among them. -/
namespace ScriptTree

namespace Record

/-- The record that a path of places among the children leads to. -/
def at? (r : Record) : List Nat → Option Record
  | [] => some r
  | i :: path => r.childList[i]?.bind fun c => c.at? path

theorem countList_eq_sum (rs : List Record) : countList rs = (rs.map count).sum := by
  induction rs with
  | nil => rfl
  | cons r rs ih => rw [countList, ih, List.map_cons, List.sum_cons]

theorem count_eq (r : Record) : r.count = 1 + (r.childList.map count).sum := by
  rcases r with ⟨_, _, _, _, _, _, _, _, _, _, _, _, _, _, _, _, _ | rs⟩
  · rfl
  · rw [count, countList_eq_sum]
    rfl

end Record

namespace Tree

variable (g : Grammar)

/-- The visible node that a path of places among the visible children leads to. -/
def visibleAt? (t : Tree) : List Nat → Option Tree
  | [] => some t
  | i :: path => (t.visibleChildren g)[i]?.bind fun c => c.visibleAt? path

mutual

/-- The tree and the visible nodes inside it, each before those inside it. -/
def visibleNodes : Tree → List Tree
  | .node info children =>
    .node info children :: if g.isAtomic info.kind then [] else visibleNodesList children

def visibleNodesList : List Tree → List Tree
  | [] => []
  | t :: ts => (if t.info.isVisible then visibleNodes t else []) ++ visibleNodesList ts

end

theorem visibleNodesList_eq (ts : List Tree) :
    visibleNodesList g ts = (ts.filter (·.info.isVisible)).flatMap (visibleNodes g) := by
  induction ts with
  | nil => rfl
  | cons t ts ih =>
    rw [visibleNodesList, ih, List.filter_cons]
    split_ifs <;> simp

theorem visibleNodes_eq (t : Tree) :
    t.visibleNodes g = t :: (t.visibleChildren g).flatMap (visibleNodes g) := by
  cases t with
  | node info children =>
    by_cases h : g.isAtomic info.kind <;> simp [visibleNodes, visibleChildren, visibleNodesList_eq, h]

/-- Paths lead to the visible nodes and nowhere else. -/
theorem mem_visibleNodes_iff {t u : Tree} :
    u ∈ t.visibleNodes g ↔ ∃ path, t.visibleAt? g path = some u := by
  induction t with
  | node info children ih =>
    have hchild {c : Tree} (hc : c ∈ (node info children).visibleChildren g) :
        c ∈ children := (mem_visibleChildren.1 hc).2.1
    rw [visibleNodes_eq, List.mem_cons, List.mem_flatMap]
    constructor
    · rintro (rfl | ⟨c, hc, hu⟩)
      · exact ⟨[], rfl⟩
      · obtain ⟨path, hpath⟩ := (ih c (hchild hc)).1 hu
        obtain ⟨i, hi⟩ := List.mem_iff_getElem?.1 hc
        exact ⟨i :: path, by rw [visibleAt?, hi, Option.bind_some, hpath]⟩
    · rintro ⟨path, hpath⟩
      cases path with
      | nil => exact Or.inl (Option.some.inj hpath).symm
      | cons i path =>
        obtain ⟨c, hi, hu⟩ := Option.bind_eq_some_iff.1 hpath
        have hc := List.mem_of_getElem? hi
        exact Or.inr ⟨c, hc, (ih c (hchild hc)).2 ⟨path, hu⟩⟩

theorem visibleNodes_subset_subtrees {t u : Tree} (h : u ∈ t.visibleNodes g) : u ∈ t.subtrees := by
  induction t with
  | node info children ih =>
    rw [visibleNodes_eq, List.mem_cons, List.mem_flatMap] at h
    rcases h with rfl | ⟨c, hc, hu⟩
    · exact self_mem_subtrees _
    · have hchild := (mem_visibleChildren.1 hc).2.1
      exact subtrees_trans (child_mem_subtrees hchild) (ih c hchild hu)

section Records

variable (source : List Char) (offsets : OffsetMap)

theorem at?_record (t : Tree) (path : List Nat) :
    (t.record g source offsets).at? path =
      (t.visibleAt? g path).map (record g source offsets) := by
  induction path generalizing t with
  | nil => rfl
  | cons i path ih =>
    rw [Record.at?, visibleAt?, childList_record, List.getElem?_map, Option.bind_map,
      Option.map_bind]
    exact congrArg _ (funext fun c => ih c)

theorem count_record (t : Tree) :
    (t.record g source offsets).count = (t.visibleNodes g).length := by
  induction t with
  | node info children ih =>
    rw [Record.count_eq, childList_record, visibleNodes_eq, List.length_cons, List.length_flatMap,
      List.map_map, Nat.add_comm]
    congr 2
    apply List.map_congr_left
    intro c hc
    exact ih c (mem_visibleChildren.1 hc).2.1

/-- The named visible nodes right below a tree with what is named inside them: those of its parts. -/
theorem filter_visibleNodes (t : Tree)
    (htoken : ∀ c ∈ t.children, c.info.named = false → c.children = []) :
    ((t.visibleChildren g).flatMap (visibleNodes g)).filter (·.info.named) =
      (Native.nativeParts g t).flatMap fun c => (c.visibleNodes g).filter (·.info.named) := by
  have htok (c : Tree) (hc : c ∈ t.children) (hn : c.info.named = false) :
      (c.visibleNodes g).filter (·.info.named) = [] := by
    simp [visibleNodes_eq, visibleChildren, htoken c hc hn, hn]
  have hparts (cs : List Tree) (hcs : cs ⊆ t.children) :
      ((cs.filter (·.info.isVisible)).flatMap (visibleNodes g)).filter (·.info.named) =
        (cs.filter (·.info.isPart)).flatMap fun c => (c.visibleNodes g).filter (·.info.named) := by
    induction cs with
    | nil => rfl
    | cons c cs ih =>
      obtain ⟨hc, hcs⟩ := List.cons_subset.1 hcs
      cases hp : c.info.isPart with
      | true => simp [hp, isVisible_of_isPart hp, ih hcs]
      | false =>
        cases hv : c.info.isVisible with
        | true => simp [hp, hv, htok c hc (not_named_of_isVisible hv hp), ih hcs]
        | false => simp [hp, hv, ih hcs]
  unfold visibleChildren Native.nativeParts Native.isLeaf
  by_cases ha : g.isAtomic t.info.kind
  · simp [ha]
  · rw [if_neg ha, hparts t.children (List.Subset.refl _)]
    split_ifs with hleaf
    · have hnone : t.children.filter (·.info.isPart) = [] := by
        simp_all [NodeInfo.isPart]
      rw [hnone, List.flatMap_nil]
    · rfl

theorem objects_perm_visibleNodes {t : Tree} (hnamed : t.info.named)
    (htoken : ∀ u ∈ t.subtrees, u.info.named = false → u.children = []) :
    (Native.ofTree g source offsets t).objects.Perm
      (((t.visibleNodes g).filter (·.info.named)).map (Native.ofTree g source offsets)) := by
  induction t with
  | node info children ih =>
    refine (Native.objects_ofTree g source offsets _).trans ?_
    rw [visibleNodes_eq, List.filter_cons_of_pos (by simpa using hnamed), List.map_cons,
      filter_visibleNodes g _ fun c hc => htoken c (child_mem_subtrees hc), List.map_flatMap]
    apply List.Perm.cons
    apply List.Perm.flatMap_left
    intro c hc
    obtain ⟨hc, hp⟩ := mem_parts.1 (Native.mem_parts_of_mem_nativeParts g hc)
    exact ih c hc (named_of_isPart hp) fun u hu =>
      htoken u (subtrees_trans (child_mem_subtrees hc) hu)

end Records

end Tree

/-- Whether an object and a record describe one node: kind and place are the same, and so is the text
where both have one, except that the record of a string has the text that the literal denotes. -/
structure DescribeSame (g : Grammar) (j : Json) (r : Record) : Prop where
  kind : j.get? "type" = some (.str r.kind)
  start : ∃ pos, r.pos = some pos ∧ j.get? "start" = some (.nat pos)
  stop : ∃ stop, r.stop = some stop ∧ j.get? "end" = some (.nat stop)
  text : ∀ raw text, j.get? "text" = some raw → r.text = some text → ∃ s, raw = .str s ∧
    text = if g.category r.kindNumber = .literal ∧ r.kind = "string" then
      String.ofList (StringLiteral.value s.toList) else s

theorem Tree.describeSame (g : Grammar) (source : List Char) (offsets : OffsetMap) (t : Tree)
    (hname : t.info.kindName = g.kindName t.info.kind) :
    DescribeSame g (Native.ofTree g source offsets t) (t.record g source offsets) := by
  obtain ⟨htype, hstart, hend, htext⟩ := Native.get?_ofTree g source offsets t
  obtain ⟨hkind, hnumber, hpos, hstop, hread⟩ := t.base_record g source offsets
  refine ⟨by rw [htype, hkind, hname], ⟨_, hpos, hstart⟩, ⟨_, hstop, hend⟩, ?_⟩
  intro raw text hraw hrec
  rw [htext] at hraw
  split_ifs at hraw with hleaf
  refine ⟨_, (Option.some.inj hraw).symm, ?_⟩
  rw [hread] at hrec
  rw [hnumber, hkind, ← hname, String.toList_ofList]
  split_ifs with hstring
  · simp only [Reading.text?, if_pos hstring] at hrec
    exact (Option.some.inj hrec).symm
  · exact Tree.text?_eq_slice hrec hstring

/-- Whether an object and a record describe the visible nodes of one tree: the records along the children
are those of the visible nodes, each at its place, the objects those of the named ones, and what the two
say of a node is the same. -/
structure SameNodes (g : Grammar) (t : Tree) (native : Tree → Json) (record : Tree → Record)
    (j : Json) (r : Record) : Prop where
  place : ∀ path, r.at? path = (t.visibleAt? g path).map record
  nodes : ∀ u, u ∈ t.visibleNodes g ↔ ∃ path, t.visibleAt? g path = some u
  count : r.count = (t.visibleNodes g).length
  objects : j.objects.Perm (((t.visibleNodes g).filter (·.info.named)).map native)
  same : ∀ u ∈ t.visibleNodes g, u.info.named → DescribeSame g (native u) (record u)

theorem Tree.sameNodes (g : Grammar) (source : List Char) (unit : OffsetUnit) {t : Tree}
    (h : t.Parsed g) :
    SameNodes g t (native g source unit) (normalize g source unit) (t.native g source unit)
      (t.normalize g source unit) where
  place := t.at?_record g source _
  nodes _ := mem_visibleNodes_iff g
  count := t.count_record g source _
  objects := objects_perm_visibleNodes g source _ (named_of_isPart h.root) h.token
  same u hu _ := u.describeSame g source _ (h.named u (visibleNodes_subset_subtrees g hu))

namespace Engine

/-- An engine describes what passes the check, and the request does not matter to the check. -/
theorem parse_ofTrees (dialect : Dialect) (parser : TreeParser) (source : String) (request : Request) :
    (ofTrees dialect parser).parse source request =
      match parser.tree? source with
      | .error message => .error (.engine message)
      | .ok none => .error (.engine "failed to parse")
      | .ok (some t) => (t.check source.toList maxDepth).map
          (·.describe parser.grammar source.toList request) := by
  simp only [ofTrees]
  rcases parser.tree? source with message | _ | t
  · rfl
  · rfl
  · cases t.check source.toList maxDepth <;> rfl

/-- Both shapes are refused for the same reason, or both describe the same nodes of the parser's tree. -/
theorem shapes_agree (dialect : Dialect) (parser : TreeParser) (source : String) (unit : OffsetUnit)
    (hparser : ∀ t, parser.tree? source = .ok (some t) → t.Parsed parser.grammar) :
    (∃ failure,
      (ofTrees dialect parser).parse source ⟨.native, unit⟩ = .error failure ∧
      (ofTrees dialect parser).parse source ⟨.normalized, unit⟩ = .error failure ∧
      ∀ t, parser.tree? source = .ok (some t) → t.check source.toList maxDepth = .error failure) ∨
    ∃ t j r, parser.tree? source = .ok (some t) ∧
      (ofTrees dialect parser).parse source ⟨.native, unit⟩ = .ok (.native j) ∧
      (ofTrees dialect parser).parse source ⟨.normalized, unit⟩ = .ok (.normalized r) ∧
      SameNodes parser.grammar t (Tree.native parser.grammar source.toList unit)
        (Tree.normalize parser.grammar source.toList unit) j r := by
  simp only [parse_ofTrees]
  rcases ht : parser.tree? source with message | _ | t
  · exact Or.inl ⟨_, rfl, rfl, nofun⟩
  · exact Or.inl ⟨_, rfl, rfl, nofun⟩
  · simp only
    cases hc : t.check source.toList maxDepth with
    | error failure =>
      refine Or.inl ⟨failure, rfl, rfl, ?_⟩
      rintro u ⟨⟩
      exact hc
    | ok u =>
      obtain rfl := Tree.eq_of_check _ _ hc
      exact Or.inr ⟨u, _, _, rfl, rfl, rfl, Tree.sameNodes _ _ _ (hparser u ht)⟩

/-- A negation, whose operator is a token under a label. -/
def negation : Tree :=
  .node { kind := 134, kindName := "program", named := true, start := 0, stop := 3 }
    [.node { kind := 150, kindName := "expression_statement", named := true, start := 0, stop := 3 }
      [.node { kind := 218, kindName := "unary_expression", named := true, start := 0, stop := 2 }
        [.node { kind := 98, kindName := "!", field := "operator", start := 0, stop := 1 } [],
          .node { kind := 1, kindName := "identifier", field := "argument", named := true
                  start := 1, stop := 2 } []],
        .node { kind := 24, kindName := ";", start := 2, stop := 3 } []]]

/-- A parser that has this tree for every source. -/
def negationParser : TreeParser := ⟨.plain, fun _ => .ok negation⟩

theorem shapes_agree_negation :
    negation.Parsed .plain ∧
    ∃ j r, (ofTrees .plain negationParser).parse "!a;" ⟨.native, .utf16⟩ = .ok (.native j) ∧
      (ofTrees .plain negationParser).parse "!a;" ⟨.normalized, .utf16⟩ = .ok (.normalized r) ∧
      SameNodes .plain negation (Tree.native .plain "!a;".toList .utf16)
        (Tree.normalize .plain "!a;".toList .utf16) j r := by
  have hparsed : negation.Parsed .plain := ⟨by decide +kernel, by decide, by decide⟩
  have hcheck : negation.check "!a;".toList maxDepth = .ok negation := by
    rw [Tree.check_eq_ok_iff]
    decide
  refine ⟨hparsed, ?_⟩
  rcases shapes_agree .plain negationParser "!a;" .utf16 (by rintro _ ⟨⟩; exact hparsed)
    with ⟨failure, -, -, h⟩ | ⟨_, j, r, ⟨⟩, hj, hr, hsame⟩
  · rw [h _ rfl] at hcheck
    contradiction
  · exact ⟨j, r, hj, hr, hsame⟩

end Engine

end ScriptTree
