import Quarry.Expr.Eval
import Quarry.Proofs.Select.Selecting

/-!
A path leads to the same nodes whether a selector looks for it in one pass over the text or an
expression follows it, as a field, through the document that was read.
-/

namespace Quarry

open Json Text

/-! ### One step -/

namespace Node

variable {n m : Node} {s : Segment} {path : Path}

theorem flatMap_behind_index {β : Type} (f : Node → List β) (items : List Node) (i j : Nat) :
    ((behind false i (items.map fun n => ("", n))).flatMap fun e =>
      if Segment.leads (.index j) e.1 then f e.2 else []) =
        if i ≤ j then items[j - i]?.toList.flatMap f else [] := by
  induction items generalizing i with
  | nil => simp [behind]
  | cons item items ih =>
    rw [List.map_cons, behind, List.flatMap_cons, ih]
    have hleads : Segment.leads (.index j) (.index i) = decide (j = i) := by
      simp [Segment.leads, Bool.beq_eq_decide_eq]
    rcases Nat.lt_trichotomy i j with h | rfl | h
    · have hsub : j - i = j - (i + 1) + 1 := by omega
      have hle : i + 1 ≤ j := h
      have hne : ¬j = i := by omega
      simp [hleads, hsub, hle, hne, Nat.le_of_lt h]
    · simp [hleads]
    · have hle : ¬i ≤ j := by omega
      have hle' : ¬i + 1 ≤ j := by omega
      have hne : ¬j = i := by omega
      simp [hleads, hle, hle', hne]

theorem flatMap_behind_key {β : Type} (f : Node → List β) {members : List (String × Node)}
    (h : (names members).Nodup) (i : Nat) (k : String) :
    ((behind true i members).flatMap fun e =>
      if Segment.leads (.key k) e.1 then f e.2 else []) = (find? k members).toList.flatMap f := by
  induction members generalizing i with
  | nil => rfl
  | cons member members ih =>
    rw [names_cons, List.nodup_cons] at h
    rw [behind, List.flatMap_cons, ih h.2, find?_cons]
    have hleads : Segment.leads (.key k) (.key member.1) = decide (k = member.1) := by
      simp [Segment.leads, Bool.beq_eq_decide_eq]
    by_cases hk : member.1 = k
    · subst hk
      simp [hleads, find?_eq_none.2 h.1]
    · have hk' : ¬k = member.1 := Ne.symm hk
      simp [hleads, hk, hk']

theorem keys_behind {i : Nat} {ns : List (String × Node)} {e : Segment × Node}
    (h : e ∈ behind true i ns) : ∃ k, e.1 = .key k := by
  induction ns generalizing i with
  | nil => simp [behind] at h
  | cons n ns ih =>
    rcases List.mem_cons.1 h with rfl | h
    · exact ⟨n.1, rfl⟩
    · exact ih h

theorem indices_behind {i : Nat} {ns : List (String × Node)} {e : Segment × Node}
    (h : e ∈ behind false i ns) : ∃ j, e.1 = .index j := by
  induction ns generalizing i with
  | nil => simp [behind] at h
  | cons n ns ih =>
    rcases List.mem_cons.1 h with rfl | h
    · exact ⟨i, rfl⟩
    · exact ih h

theorem map_snd_behind (o : Bool) (i : Nat) (ns : List (String × Node)) :
    (behind o i ns).map Prod.snd = ns.map Prod.snd := by
  induction ns generalizing i with
  | nil => rfl
  | cons n ns ih => rw [behind, List.map_cons, List.map_cons, ih]

/-- The values that one step leads to, in order. -/
def under (s : Segment) (n : Node) : List Node :=
  match s with
  | .wildcard => n.elements?.getD []
  | s => (n.step? s).toList

theorem Distinct.under (h : n.Distinct) (hm : m ∈ n.under s) : m.Distinct := by
  cases h with
  | atom mark a =>
    have hnone : (Node.atom mark a).under s = [] := by cases s <;> rfl
    simp [hnone] at hm
  | array all =>
    cases s with
    | key k => exact absurd hm List.not_mem_nil
    | index i => exact all m (List.mem_of_getElem? (Option.mem_toList.1 hm))
    | wildcard => exact all m hm
  | object nodup all =>
    cases s with
    | key k => exact all _ (List.mem_reverse.1 (mem_of_find? (Option.mem_toList.1 hm)))
    | index i => exact absurd hm List.not_mem_nil
    | wildcard => exact absurd hm List.not_mem_nil

/-- A path meets what the rest of it meets below the values that its first step leads to. -/
theorem Distinct.matched_cons (h : n.Distinct) (s : Segment) (path : Path) :
    n.matched (s :: path) = (n.under s).flatMap (matched path) := by
  rw [matched]
  cases n with
  | atom mark a => cases s <;> rfl
  | array mark items =>
    cases s with
    | key k =>
      -- Elements stand behind indices, which a name does not lead to.
      refine List.flatMap_eq_nil_iff.2 ?_
      intro e he
      obtain ⟨j, hj⟩ := indices_behind he
      simp [hj, Segment.leads]
    | index j => exact flatMap_behind_index (matched path) items 0 j
    | wildcard =>
      have hall : ∀ e ∈ (Node.array mark items).entries,
          (if Segment.leads .wildcard e.1 then matched path e.2 else []) = matched path e.2 := by
        intro e he
        obtain ⟨j, hj⟩ := indices_behind he
        simp [hj, Segment.leads]
      have hitems : (Node.array mark items).entries.map Prod.snd = items := by
        rw [entries, map_snd_behind, List.map_map]
        exact List.map_id items
      rw [List.flatMap_congr hall]
      show _ = items.flatMap (matched path)
      rw [← hitems, List.flatMap_map, hitems]
  | object mark members =>
    cases s with
    | key k =>
      have hfind : (Node.object mark members).under (.key k) = (find? k members).toList :=
        congrArg Option.toList h.member?
      cases h with
      | object nodup all =>
        rw [hfind]
        exact flatMap_behind_key (matched path) nodup 0 k
    | index j =>
      refine List.flatMap_eq_nil_iff.2 ?_
      intro e he
      obtain ⟨k, hk⟩ := keys_behind he
      simp [hk, Segment.leads]
    | wildcard =>
      refine List.flatMap_eq_nil_iff.2 ?_
      intro e he
      obtain ⟨k, hk⟩ := keys_behind he
      simp [hk, Segment.leads]

end Node

/-! ### All steps -/

namespace Expr

variable {n : Node} {path : Path}

theorem filterMap_bind (f : Node → Option Node) (nodes : List (Option Node)) :
    (nodes.map fun n => n.bind f).filterMap id =
      (nodes.filterMap id).flatMap fun n => (f n).toList := by
  induction nodes with
  | nil => rfl
  | cons n nodes ih =>
    rw [List.map_cons]
    cases n with
    | none => exact ih
    | some n =>
      have hnodes : (some n :: nodes).filterMap id = n :: nodes.filterMap id := rfl
      rw [hnodes, List.flatMap_cons, ← ih, Option.bind_some]
      cases f n <;> rfl

/-- One step from all nodes at once, the gaps left out, leads below each of them in turn. -/
theorem exists_resolveSteps (s : Segment) (path : Path) (nodes : List (Option Node)) :
    ∃ next, resolveSteps (s :: path) nodes = resolveSteps path next ∧
      next.filterMap id = (nodes.filterMap id).flatMap (Node.under s) := by
  cases s with
  | key k => exact ⟨_, rfl, filterMap_bind _ nodes⟩
  | index i => exact ⟨_, rfl, filterMap_bind _ nodes⟩
  | wildcard =>
    refine ⟨_, rfl, ?_⟩
    induction nodes with
    | nil => rfl
    | cons n nodes ih =>
      rw [List.flatMap_cons, List.filterMap_append, ih]
      cases n with
      | none => rfl
      | some n => simp [Node.under, List.filterMap_map]

/-- Whether all nodes are followed together, or what is below each of them in turn, the same nodes
are met in the same order. -/
theorem resolveSteps_eq_matched {nodes : List (Option Node)}
    (h : ∀ n ∈ nodes.filterMap id, n.Distinct) (path : Path) :
    (resolveSteps path nodes).filterMap id = (nodes.filterMap id).flatMap (Node.matched path) := by
  induction path generalizing nodes with
  | nil => exact (List.flatMap_singleton' _).symm
  | cons s path ih =>
    obtain ⟨next, hresolve, hnext⟩ := exists_resolveSteps s path nodes
    -- The induction asks for distinct names in all nodes that come next.
    have hdistinct : ∀ m ∈ next.filterMap id, m.Distinct := by
      intro m hm
      rw [hnext] at hm
      obtain ⟨n, hn, hm⟩ := List.mem_flatMap.1 hm
      exact (h n hn).under hm
    rw [hresolve, ih hdistinct, hnext, List.flatMap_assoc]
    apply List.flatMap_congr
    intro n hn
    exact ((h n hn).matched_cons s path).symm

/-- Without wildcards a path meets one node at most. -/
theorem matched_eq_follow (h : n.Distinct) (hw : Path.hasWildcard path = false) :
    n.matched path = (follow n path).toList := by
  induction path generalizing n with
  | nil => rfl
  | cons s path ih =>
    rw [Path.hasWildcard, List.contains_cons, Bool.or_eq_false_iff] at hw
    have hunder : n.under s = (n.step? s).toList := by
      cases s with
      | wildcard => simp at hw
      | key k => rfl
      | index i => rfl
    rw [h.matched_cons, hunder, follow]
    cases hs : n.step? s with
    | none => rfl
    | some m =>
      have hm : m ∈ n.under s := by simp [hunder, hs]
      rw [Option.toList_some, List.flatMap_singleton, Option.bind_some]
      exact ih (h.under hm) hw.2

end Expr

/-! ### A selector for one path -/

namespace Selector

variable {text : String} {path : Path} {input : Bytes} {d : Document} {maxDepth : Nat}

def only (text : String) (path : Path) (maxDepth : Nat) : Selector :=
  ⟨[text], (PathTree.empty.insert path 0).2, [.empty], none, maxDepth, 0, 0⟩

theorem make_only {config : Config} (h : Path.parse text = .ok path) :
    make [text] config = .ok (only text path config.maxDepth) := by
  rw [make, setPaths, addPaths, h]
  rfl

/-- A path has an index or a wildcard at one place, not both. -/
theorem not_shadowed (path : Path) : ¬path.Shadowed [path] := by
  rintro ⟨p, i, rest, hpath, other, hother, hprefix⟩
  obtain rfl := List.mem_singleton.1 hother
  rw [hpath, List.prefix_append_right_inj, List.cons_prefix_cons] at hprefix
  exact absurd hprefix.1 (by simp)

/-- A selector for one path finds what the path meets. -/
theorem select_only (text : String) (hne : path ≠ [])
    (hd : Document.read (only text path maxDepth).depthLimit input = .ok d) :
    ∃ m, ((only text path maxDepth).select input).1 = .ok () ∧
      ((only text path maxDepth).select input).2.results = [m] ∧
      m.values = ((d.root.map (Node.matched path)).getD []).map Node.scalar := by
  let s := only text path maxDepth
  have hcollected : ∀ q, s.tree.root.collected q = if q = path then [0] else [] := by
    intro q
    have hinsert := PathNode.collected_insert 0 q path 1 (.leaf 0)
    rwa [PathNode.collected_leaf, List.nil_append] at hinsert
  have hat : ∀ q, q ≠ [] → ((s.tree.root.at? q).isSome ↔ ∃ other ∈ [path], q <+: other) := by
    intro q hq
    obtain ⟨u, q, rfl⟩ := List.exists_cons_of_ne_nil hq
    have hinsert := PathNode.isSome_at?_insert 0 (u :: q) path 1 (.leaf 0)
    rw [PathNode.at?_leaf_cons] at hinsert
    exact hinsert.trans (by simp)
  have hnodup : ∀ q, (s.tree.root.collected q).Nodup := by
    intro q
    rw [hcollected]
    split <;> simp
  have haims : Walk.Aims 0 (some path) s.tree.root := by
    intro q
    rw [hcollected, Option.some.injEq]
    by_cases hq : q = path
    · simp [hq]
    · simp [hq, Ne.symm hq]
  -- A document without a value ends the walk at once; else the walk is that of a page.
  rcases Document.read_cases hd with ⟨sp, rfl⟩ | ⟨p, rfl, hp⟩
  · rw [Document.read_space] at hd
    obtain rfl := Except.ok.inj hd
    have heof : (Reader.ofBytes s.depthLimit sp.bytes).next.event = .eof := Reader.next_empty sp
    have hwalk : Walk.document s.tree.root ⟨.ofBytes s.depthLimit sp.bytes, s.cleared⟩ =
        (.ok (), ⟨(Reader.ofBytes s.depthLimit sp.bytes).next, s.cleared⟩) := by
      rw [Walk.document_eq]
      simp only [heof, ↓reduceIte]
    obtain ⟨hok, hresults⟩ := select_of_document hwalk
    exact ⟨.empty, hok, hresults, rfl⟩
  · rw [Document.read_value p hp] at hd
    obtain rfl := Except.ok.inj hd
    obtain ⟨w, hw, hgrows⟩ := Walk.document_page p hp hnodup s.cleared
    obtain ⟨hok, hresults⟩ := select_of_document hw
    obtain ⟨-, hclear⟩ := finds_found hp List.mem_cons_self hne hat
    have hlength : w.results.length = 1 := hresults ▸ length_select p.text s
    obtain ⟨m, hm⟩ := List.length_eq_one_iff.1 hlength
    have hfound := hgrows 0 (some path) haims
    rw [hm] at hfound
    refine ⟨m, hok, hresults.trans hm, ?_⟩
    rw [Option.some.inj hfound]
    exact (hclear (not_shadowed path)).1

/-- In a document without repeated names a selector for one path finds the values of the nodes that
an expression comes to when it follows the path as a field: with a wildcard all that are not
missing, in their order, and without one the only node, if no step fails. -/
theorem select_follows_field (text : String) (hne : path ≠ [])
    (hd : Document.read (only text path maxDepth).depthLimit input = .ok d)
    (hdistinct : ∀ root, d.root = some root → root.Distinct) :
    let s := only text path maxDepth
    (∀ config : Config, config.maxDepth = maxDepth → Path.parse text = .ok path →
      make [text] config = .ok s) ∧
    ∃ m, (s.select input).1 = .ok () ∧ (s.select input).2.results = [m] ∧
      (d.root = none → m.values = []) ∧
      ∀ root, d.root = some root → ∀ arg name,
        let field : Expr := .field name (some (.key arg :: path))
        (Path.hasWildcard path = true →
          let nodes := Expr.resolveSteps path [some root]
          Expr.eval [(arg, root)] field =
              .many (nodes.map fun n => (n.map Node.scalar).getD .null) ∧
            m.values = (nodes.filterMap id).map Node.scalar) ∧
        (Path.hasWildcard path = false →
          let node := Expr.follow root path
          Expr.eval [(arg, root)] field = .single ((node.map Node.scalar).getD .null) ∧
            m.values = node.toList.map Node.scalar) := by
  intro s
  obtain ⟨m, hok, hresults, hvalues⟩ := select_only text hne hd
  refine ⟨?_, m, hok, hresults, ?_, ?_⟩
  · rintro config rfl hparse
    exact make_only hparse
  · intro hroot
    rw [hvalues, hroot]
    rfl
  · intro root hroot arg name field
    have hroots := hdistinct root hroot
    have hmet : m.values = (root.matched path).map Node.scalar := by rw [hvalues, hroot]; rfl
    constructor
    · intro hw nodes
      have hnodes : nodes.filterMap id = root.matched path := by
        have hall : ∀ n ∈ [some root].filterMap id, n.Distinct := by simpa using hroots
        exact (Expr.resolveSteps_eq_matched hall path).trans (List.flatMap_singleton _ root)
      refine ⟨?_, hmet.trans (by rw [hnodes])⟩
      rw [Expr.eval, Expr.evalField_root, if_pos hw]
    · intro hw node
      refine ⟨?_, hmet.trans (by rw [Expr.matched_eq_follow hroots hw])⟩
      rw [Expr.eval, Expr.evalField_root, if_neg (by simp [hw])]

/-- Of three elements one has no such member, and another's is a container. -/
theorem select_follows_wildcard :
    let path : Path := [.key "a", .wildcard, .key "b"]
    make ["a[*].b"] {} = .ok (only "a[*].b" path 512) ∧ ∃ m root,
      ((only "a[*].b" path 512).select
        (bytes "\x7b\"a\":[\x7b\"b\":1\x7d,\x7b\x7d,\x7b\"b\":[2]\x7d]\x7d")).2.results = [m] ∧
      m.values = [.long 1, .array] ∧
      Expr.eval [("o", root)] (.field "o.a[*].b" (some (.key "o" :: path))) =
        .many [.long 1, .null, .array] := by
  intro path
  let root : Node := .object ⟨0, ⟨0, 28⟩⟩ [("a", .array ⟨1, ⟨5, 27⟩⟩
    [.object ⟨2, ⟨6, 13⟩⟩ [("b", .atom ⟨3, ⟨11, 12⟩⟩ (.long 1))], .object ⟨4, ⟨14, 16⟩⟩ [],
      .object ⟨5, ⟨17, 26⟩⟩ [("b", .array ⟨6, ⟨22, 25⟩⟩ [.atom ⟨7, ⟨23, 24⟩⟩ (.long 2)])]])]
  have hd : Document.read (only "a[*].b" path 512).depthLimit
      (bytes "\x7b\"a\":[\x7b\"b\":1\x7d,\x7b\x7d,\x7b\"b\":[2]\x7d]\x7d") =
        .ok ⟨512, some root⟩ := by
    have hlimit : (only "a[*].b" path 512).depthLimit = 512 := rfl
    rw [hlimit]
    rfl
  have hparse : Path.parse "a[*].b" = .ok path := by decide
  have hdistinct : root.Distinct := by
    refine .object (by simp) (List.forall_mem_singleton.2 (.array ?_))
    refine List.forall_mem_cons.2 ⟨.object (by simp) ?_, List.forall_mem_cons.2 ⟨?_, ?_⟩⟩
    · exact List.forall_mem_singleton.2 (.atom _ _)
    · exact .object (by simp) nofun
    · refine List.forall_mem_singleton.2 (.object (by simp) ?_)
      exact List.forall_mem_singleton.2 (.array (List.forall_mem_singleton.2 (.atom _ _)))
  have hne : path ≠ [] := by decide
  obtain ⟨hmake, m, -, hm, -, hmet⟩ := select_follows_field "a[*].b" hne hd
    (by rintro _ ⟨⟩; exact hdistinct)
  obtain ⟨heval, hvalues⟩ := (hmet root rfl "o" "o.a[*].b").1 rfl
  refine ⟨hmake {} rfl hparse, m, root, hm, ?_, ?_⟩
  · rw [hvalues]
    rfl
  · rw [heval]
    rfl

end Selector

end Quarry
