import Quarry.Proofs.Document.Pointers
import Quarry.Proofs.Patch.Disjoint
import Quarry.Proofs.Patch.Laying

/-!
A value replaced on its own. The pointer of the replacement leads to the node that gets the value.
-/

namespace Quarry

open Json Text Patch

namespace Node

/-- The parts of a node under the tokens that lead to them. -/
def children : Node → List (String × Node)
  | .atom _ _ => []
  | .array _ items => numbered 0 items
  | .object _ members => members

mutual

/-- The content of a node with another value for the node of a number. -/
def contentWith (k : Nat) (c : Content) : Node → Content
  | .atom m a => if m.id = k then c else .atom a
  | .array m items => if m.id = k then c else .array (contentsWith k c items)
  | .object m members => if m.id = k then c else .group true (membersWith k c members)

def contentsWith (k : Nat) (c : Content) : List Node → List Content
  | [] => []
  | n :: ns => n.contentWith k c :: contentsWith k c ns

def membersWith (k : Nat) (c : Content) : List (String × Node) → List (String × Content)
  | [] => []
  | (t, n) :: ms => (t, n.contentWith k c) :: membersWith k c ms

end

theorem contentsWith_eq_map (k : Nat) (c : Content) (ns : List Node) :
    contentsWith k c ns = ns.map (contentWith k c) := by
  induction ns with
  | nil => rfl
  | cons n ns ih => rw [contentsWith, ih, List.map_cons]

theorem membersWith_eq_map (k : Nat) (c : Content) (ms : List (String × Node)) :
    membersWith k c ms = ms.map fun m => (m.1, m.2.contentWith k c) := by
  induction ms with
  | nil => rfl
  | cons m ms ih => rw [membersWith, ih, List.map_cons]

variable {n m e : Node} {t : String} {p : List String} {k : Nat} {c : Content}

theorem content_eq_children (hp : n.parts ≠ []) : ∃ o,
    n.content = .group o (n.children.map fun m => (m.1, m.2.content)) ∧
      ∀ k c, n.id ≠ k →
        n.contentWith k c = .group o (n.children.map fun m => (m.1, m.2.contentWith k c)) := by
  cases n with
  | atom mark a => exact absurd rfl hp
  | array mark items =>
    refine ⟨false, ?_, ?_⟩
    · rw [content, contentItems_eq_map, Content.array, numbered_map]
      rfl
    · intro k c hk
      rw [contentWith, if_neg (show mark.id ≠ k from hk), contentsWith_eq_map, Content.array, numbered_map]
      rfl
  | object mark ms =>
    refine ⟨true, ?_, ?_⟩
    · rw [content, contentMembers_eq_map]
      rfl
    · intro k c hk
      rw [contentWith, if_neg (show mark.id ≠ k from hk), membersWith_eq_map]
      rfl

theorem contentWith_id (n : Node) (c : Content) : n.contentWith n.id c = c := by
  cases n <;> exact if_pos rfl

theorem map_snd_children (n : Node) : n.children.map Prod.snd = n.parts := by
  cases n with
  | atom mark a => rfl
  | array mark items => exact map_snd_numbered 0 items
  | object mark ms => rfl

theorem mem_parts_of_children (h : (t, m) ∈ n.children) : m ∈ n.parts := by
  rw [← map_snd_children]
  exact List.mem_map_of_mem (f := Prod.snd) h

theorem Distinct.nodup_children (h : n.Distinct) : (names n.children).Nodup := by
  cases h with
  | atom mark a => exact List.nodup_nil
  | array all => exact nodup_numbered 0 _
  | object nodup all => exact nodup

theorem contentWith_of_not_mem (h : k ∉ n.ids) : n.contentWith k c = n.content := by
  induction n using parts_induction with
  | make n ih =>
    rw [ids_eq, List.mem_cons, not_or, List.mem_flatMap] at h
    have hmap : ∀ m ∈ n.children, m.2.contentWith k c = m.2.content := by
      intro m hm
      have hpart := mem_parts_of_children hm
      apply ih m.2 hpart
      intro hk
      exact h.2 ⟨m.2, hpart, hk⟩
    by_cases hp : n.parts = []
    · cases n with
      | atom mark a => exact if_neg (Ne.symm h.1)
      | array mark items =>
        obtain rfl : items = [] := hp
        exact if_neg (Ne.symm h.1)
      | object mark ms =>
        obtain rfl : ms = [] := List.map_eq_nil_iff.1 hp
        exact if_neg (Ne.symm h.1)
    · obtain ⟨o, hcontent, hwith⟩ := content_eq_children hp
      rw [hcontent, hwith k c (Ne.symm h.1)]
      congr 1
      apply List.map_congr_left
      intro m hm
      rw [hmap m hm]

end Node

theorem Json.map_eq_put {α β : Type} {t : String} {a : α} {ms : List (String × α)} (f g : α → β)
    (hn : (names ms).Nodup) (h : (t, a) ∈ ms) (hg : ∀ m ∈ ms, m.1 ≠ t → g m.2 = f m.2) :
    (ms.map fun m => (m.1, g m.2)) = put t (g a) (ms.map fun m => (m.1, f m.2)) := by
  induction ms with
  | nil => simp at h
  | cons m ms ih =>
    rw [names_cons, List.nodup_cons] at hn
    rw [List.map_cons, List.map_cons, put]
    rcases List.mem_cons.1 h with rfl | h
    · rw [if_pos rfl]
      congr 1
      apply List.map_congr_left
      intro b hb
      rw [hg b (List.mem_cons_of_mem _ hb)]
      intro hbt
      have hmem := mem_names hb
      exact hn.1 (hbt ▸ hmem)
    · have hne : m.1 ≠ t := by
        intro hmt
        exact hn.1 (hmt ▸ mem_names h)
      rw [if_neg hne, hg m List.mem_cons_self hne, ih hn.2 h]
      intro b hb
      exact hg b (List.mem_cons_of_mem _ hb)

namespace Node

variable {n m e : Node} {t : String} {p : List String} {k : Nat} {c : Content}

/-- Below a child the value is put into that child alone. -/
theorem contentWith_child (hn : n.ids.Nodup) (hd : n.Distinct) (hm : (t, m) ∈ n.children)
    (hk : k ∈ m.ids) : ∃ o ms, n.content = .group o ms ∧ find? t ms = some m.content ∧
      n.contentWith k c = .group o (put t (m.contentWith k c) ms) := by
  have hpart := mem_parts_of_children hm
  obtain ⟨o, hcontent, hwith⟩ := content_eq_children (List.ne_nil_of_mem hpart)
  have hid : n.id ≠ k := by
    rintro rfl
    exact id_not_mem_part hn hpart hk
  refine ⟨o, _, hcontent, ?_, ?_⟩
  · rw [find?_map, find?_of_mem hd.nodup_children hm]
    rfl
  · rw [hwith k c hid, map_eq_put content _ hd.nodup_children hm]
    intro x hx hne
    apply contentWith_of_not_mem
    intro hkx
    rw [ids_eq, List.nodup_cons, ← map_snd_children, List.flatMap_map] at hn
    have hsymm : Std.Symm (Function.onFun List.Disjoint fun m : String × Node => m.2.ids) :=
      ⟨fun _ _ h => h.symm⟩
    have hxm : x ≠ (t, m) := by
      rintro rfl
      exact hne rfl
    exact (List.nodup_flatMap.1 hn.2).2.forall hx hm hxm hkx hk

theorem mem_children_of_child? (hs : Spells [t] n) (h : n.child? t = some m) :
    (t, m) ∈ n.children := by
  cases n with
  | atom mark a => simp [child?] at h
  | array mark items =>
    obtain ⟨i, hi, h⟩ := Option.bind_eq_some_iff.1 h
    rw [hs.1 rfl i hi]
    apply mem_of_find?
    have hfind := find?_numbered 0 i items
    rw [Nat.zero_add] at hfind
    exact hfind.trans h
  | object mark ms =>
    exact List.mem_reverse.1 (mem_of_find? (show find? t ms.reverse = some m from h))

theorem Distinct.part (hd : n.Distinct) (h : m ∈ n.parts) : m.Distinct := by
  cases hd with
  | atom mark a => exact absurd h List.not_mem_nil
  | array all => exact all m h
  | object nodup all =>
    obtain ⟨x, hx, rfl⟩ := List.mem_map.1 h
    exact all x hx

theorem Distinct.child?_of_mem (hd : n.Distinct) (hc : n.Countable) (h : (t, m) ∈ n.children) :
    n.child? t = some m := by
  have hfind := find?_of_mem hd.nodup_children h
  cases n with
  | atom mark a => simp [children] at h
  | array mark items =>
    obtain ⟨i, hi, rfl⟩ := mem_names_numbered (mem_names h)
    rw [children, find?_numbered] at hfind
    rw [Nat.zero_add, Node.child?, Numeral.index?_toString]
    cases hc with
    | array short all =>
      rw [if_pos (by omega)]
      exact hfind
  | object mark ms => exact hd.member?.trans hfind

end Node

/-! ### Replacing in a content -/

theorem Content.nesting_lt_of_mem {o : Bool} {ms : List (String × Content)} {t : String}
    {c : Content} (h : (t, c) ∈ ms) : c.nesting < (Content.group o ms).nesting := by
  rw [nesting, Nat.lt_succ_iff]
  induction ms with
  | nil => simp at h
  | cons m ms ih =>
    rw [nesting.nestingOf]
    rcases List.mem_cons.1 h with rfl | h
    · exact Nat.le_max_left _ _
    · exact (ih h).trans (Nat.le_max_right _ _)

theorem Json.mem_put_self {α : Type} (t : String) (a : α) (ms : List (String × α)) :
    (t, a) ∈ put t a ms := by
  apply mem_of_find?
  rw [find?_put, if_pos rfl]

namespace Patch.Change

variable {p : List String} {c d x : Content}

theorem nesting_inPlace (h : (Change.replace c).inPlace p x = some d) : c.nesting < d.nesting := by
  induction p generalizing x d with
  | nil => simp [inPlace] at h
  | cons t ts ih =>
    cases x with
    | atom b => simp [inPlace] at h
    | group o ms =>
      cases ts with
      | nil =>
        rw [inPlace_singleton] at h
        obtain ⟨ms', hms, rfl⟩ := Option.map_eq_some_iff.1 h
        obtain ⟨out, hout, rfl⟩ := Option.map_eq_some_iff.1 hms
        obtain rfl := value_of_alters hout
        exact Content.nesting_lt_of_mem (mem_put_self t c ms)
      | cons u us =>
        rw [inPlace_cons] at h
        obtain ⟨y, -, h⟩ := Option.bind_eq_some_iff.1 h
        obtain ⟨y', hy', rfl⟩ := Option.map_eq_some_iff.1 h
        exact (ih hy').trans (Content.nesting_lt_of_mem (mem_put_self t y' ms))

/-- What a replacement leaves of a member or element is nested as deep as what it puts. -/
theorem nesting_reaches {o : Bool} {old out : Option Content}
    (h : (Change.replace c).reaches o ((Change.replace c).inPlace p) p old = some out) :
    ∃ d, out = some d ∧ c.nesting ≤ d.nesting := by
  rw [reaches] at h
  split at h
  · exact ⟨c, value_of_alters h, le_rfl⟩
  · obtain ⟨x, -, h⟩ := Option.bind_eq_some_iff.1 h
    obtain ⟨d, hd, rfl⟩ := Option.map_eq_some_iff.1 h
    exact ⟨d, rfl, (nesting_inPlace hd).le⟩

end Patch.Change

namespace Node

variable {n m e : Node} {t : String} {p : List String} {k : Nat} {c : Content}

theorem inPlace_contentWith (hn : n.ids.Nodup) (hd : n.Distinct) (hp : p ≠ []) (hs : Spells p n)
    (h : n.pointer? p = some m) :
    (Change.replace c).inPlace p n.content = some (n.contentWith m.id c) := by
  induction p generalizing n with
  | nil => exact absurd rfl hp
  | cons t ts ih =>
    rw [pointer?_cons] at h
    obtain ⟨e, he, h⟩ := Option.bind_eq_some_iff.1 h
    have hmem := mem_children_of_child? ⟨hs.1, fun _ _ => trivial⟩ he
    have hbelow : m.id ∈ e.ids := ids_subset_of_pointer? h (id_mem_ids m)
    obtain ⟨o, ms, hcontent, hfind, hwith⟩ := contentWith_child (c := c) hn hd hmem hbelow
    rw [hcontent, hwith]
    cases ts with
    | nil =>
      obtain rfl := Option.some.inj h
      rw [Change.inPlace_singleton, alter, hfind, contentWith_id]
      simp [Change.alters]
    | cons u us =>
      rw [Change.inPlace_cons, hfind, Option.bind_some,
        ih (nodup_ids_part hn (mem_parts_of_child? he)) (hd.child? he) (by simp) (hs.2 e he) h]
      rfl

theorem exists_child_of_mem_ids (hk : k ∈ n.ids) (hid : n.id ≠ k) :
    ∃ s e, (s, e) ∈ n.children ∧ k ∈ e.ids := by
  rw [ids_eq, List.mem_cons] at hk
  obtain ⟨x, hx, hk⟩ := List.mem_flatMap.1 (hk.resolve_left (Ne.symm hid))
  rw [← map_snd_children] at hx
  obtain ⟨⟨s, e⟩, he, rfl⟩ := List.mem_map.1 hx
  exact ⟨s, e, he, hk⟩

theorem nesting_le_contentWith (hn : n.ids.Nodup) (hd : n.Distinct) (hk : k ∈ n.ids)
    (hne : n.id ≠ k) (c : Content) : c.nesting < (n.contentWith k c).nesting := by
  induction n using parts_induction with
  | make n ih =>
    obtain ⟨s, e, he, hk⟩ := exists_child_of_mem_ids hk hne
    have hpart := mem_parts_of_children he
    obtain ⟨o, ms, -, -, hwith⟩ := contentWith_child (c := c) hn hd he hk
    rw [hwith]
    refine lt_of_le_of_lt ?_ (Content.nesting_lt_of_mem (mem_put_self s _ ms))
    by_cases hid : e.id = k
    · subst hid
      rw [contentWith_id]
    · exact (ih e hpart (nodup_ids_part hn hpart) (hd.part hpart) hk hid).le

/-- A value nested deeper than all there was shows where it has been put. -/
theorem pointer?_of_inPlace (hn : n.ids.Nodup) (hd : n.Distinct) (hcount : n.Countable)
    (hk : k ∈ n.ids) (hdeep : n.content.nesting < c.nesting)
    (h : (Change.replace c).inPlace p n.content = some (n.contentWith k c)) :
    ∃ m, n.pointer? p = some m ∧ m.id = k := by
  induction p generalizing n with
  | nil => simp [Change.inPlace] at h
  | cons t ts ih =>
    have hid : n.id ≠ k := by
      rintro rfl
      rw [contentWith_id] at h
      exact absurd (Change.nesting_inPlace h) (Nat.lt_irrefl _)
    obtain ⟨s, e, he, hk⟩ := exists_child_of_mem_ids hk hid
    have hpart := mem_parts_of_children he
    obtain ⟨o, ms, hcontent, hfind, hwith⟩ := contentWith_child (c := c) hn hd he hk
    have hchild := hd.child?_of_mem hcount he
    have hms : (names ms).Nodup := by
      have hvalid := hd.valid.nodup
      rwa [hcontent] at hvalid
    rw [hcontent] at hdeep
    rw [hcontent, hwith, Change.inPlace] at h
    obtain ⟨ms', halter, hms'⟩ := Option.map_eq_some_iff.1 h
    obtain rfl : ms' = put s (e.contentWith k c) ms := (Content.group.inj hms').2
    have hdone := find?_alter hms halter t
    rw [if_pos rfl, find?_put] at hdone
    -- Anywhere but under the token of the child all is as it was.
    have hts : t = s := by
      by_contra hne
      rw [if_neg (Ne.symm hne)] at hdone
      obtain ⟨d, hd, hle⟩ := Change.nesting_reaches hdone
      have hlt := Content.nesting_lt_of_mem (o := o) (mem_of_find? hd)
      omega
    subst hts
    rw [if_pos rfl, Change.reaches] at hdone
    rw [pointer?_cons, hchild, Option.bind_some]
    cases ts with
    | nil =>
      refine ⟨e, rfl, ?_⟩
      by_contra hne
      have hlt := nesting_le_contentWith (nodup_ids_part hn hpart) (hd.child? hchild) hk hne c
      rw [List.isEmpty_nil, if_pos rfl] at hdone
      have hput := Change.value_of_alters hdone
      rw [Change.value?, Option.some.injEq] at hput
      rw [hput] at hlt
      exact absurd hlt (Nat.lt_irrefl _)
    | cons u us =>
      rw [List.isEmpty_cons, if_neg Bool.false_ne_true, hfind, Option.bind_some] at hdone
      obtain ⟨y, hy, hdone⟩ := Option.map_eq_some_iff.1 hdone
      obtain rfl := Option.some.inj hdone
      have hlt := Content.nesting_lt_of_mem (o := o) (mem_of_find? hfind)
      exact ih (nodup_ids_part hn hpart) (hd.child? hchild) (hcount.child? hchild) hk
        (hlt.trans hdeep) hy

end Node

/-! ### A patch of one replacement -/

namespace Patch.Patcher

open Operation

variable {p : Patcher} {input : Bytes} {op : Operation} {page : Page}

theorem edited_nil (payload : Bytes → Option Content) (c : Content) (ts : List String) (a : Change) :
    (edited payload c []).bind (a.inPlace ts) = a.inPlace ts c := by
  cases c with
  | atom b => cases ts <;> rfl
  | group o ms => rw [edited_leaf, Option.bind_some]

/-- What a patch of a single edit makes of a text, where it can be made. -/
theorem apply_alone (hop : op.Edits) (hd : page.value.nesting ≤ p.maxDepth) :
    match op.change.inPlace op.target.tokens page.value.content with
    | some c => ∃ v : Spelling, v.content = c ∧ (p.apply page.text [op]).1 = .ok v.text
    | none => ∃ e, (p.apply page.text [op]).1 = .error e := by
  have hops : ∀ o ∈ [op], o.Edits := List.forall_mem_singleton.2 hop
  have hapart : [op].Pairwise Apart := List.pairwise_singleton _ _
  obtain ⟨tree, hmerge, hg, happly⟩ := apply_tree p page.text hops hapart
  have hspelled : ∀ t ∈ ([op].map target).reverse, t.edit.Spelled := by
    intro t ht
    obtain rfl : t = op.target := by simpa using ht
    exact hop.spelled
  have hsplice := splice_page (p := p.reset) hg (by simp) rfl hd hspelled
  have hedited : edited content? page.value.content tree.root.children =
      op.change.inPlace op.target.tokens page.value.content := by
    rw [edited_apart hops hapart hmerge, ← edited_nil content?]
    congr 1
    funext c
    rw [List.foldlM_cons]
    cases op.change.inPlace op.target.tokens c <;> rfl
  rw [hedited] at hsplice
  rw [happly]
  cases hc : op.change.inPlace op.target.tokens page.value.content with
  | some c =>
    rw [hc] at hsplice
    exact hsplice
  | none =>
    rw [hc] at hsplice
    obtain ⟨e, -, he⟩ := hsplice
    exact ⟨e, he⟩

theorem apply_alone_space (hop : op.Edits) (sp : Space) :
    ∃ e, (p.apply sp.bytes [op]).1 = .error e := by
  have hops : ∀ o ∈ [op], o.Edits := List.forall_mem_singleton.2 hop
  obtain ⟨tree, -, hg, happly⟩ := apply_tree p sp.bytes hops (List.pairwise_singleton _ _)
  rw [happly]
  exact splice_space hg (by simp) rfl sp

end Patch.Patcher

/-- Arrays within one another. -/
def Json.Value.nested : Nat → Value
  | 0 => .null
  | n + 1 => .array [nested n]

theorem Content.nesting_ofJson_nested (n : Nat) : (ofJson (Value.nested n)).nesting = n := by
  induction n with
  | zero => rfl
  | succ n ih =>
    simp only [Value.nested, ofJson, ofJsonItems, Content.array, numbered, nesting,
      nesting.nestingOf, ih, Nat.max_zero]

theorem Holds.inj {bs : Bytes} {b c : Content} (hb : Holds bs b) (hc : Holds bs c) : b = c := by
  obtain ⟨n, hn, hnb⟩ := hb (max b.nesting c.nesting) (Nat.le_max_left _ _)
  obtain ⟨m, hm, hmc⟩ := hc (max b.nesting c.nesting) (Nat.le_max_right _ _)
  rw [hn] at hm
  cases hm
  rw [← hnb, hmc]

namespace Document

/-- No pointer token at an array is an index in another spelling than its own. -/
def Spells (p : List String) (d : Document) : Prop := ∀ root, d.root = some root → root.Spells p

variable {depth : Nat} {input : Bytes} {d : Document}

theorem withId?_of_pointer? {root n : Node} {p : List String} (hn : root.ids.Nodup)
    (h : root.pointer? p = some n) : root.withId? n.id = some n := by
  induction p generalizing root with
  | nil =>
    obtain rfl := Option.some.inj h
    exact Node.withId?_self _
  | cons t ts ih =>
    rw [Node.pointer?_cons] at h
    obtain ⟨e, he, h⟩ := Option.bind_eq_some_iff.1 h
    have hpart := Node.mem_parts_of_child? he
    exact Node.withId?_of_part hn hpart (ih (Node.nodup_ids_part hn hpart) h)

/-- A replacement on its own makes a change in place, or fails. -/
theorem holds_replace {patcher : Patcher} {path : String} {p : List String} {v : Value}
    {c : Content} (hread : Document.read patcher.maxDepth input = .ok d)
    (hpath : Pointer.parse? path = some p) (hp : p ≠ []) :
    (∃ out, (patcher.apply input [.replace path v]).1 = .ok out ∧ Holds out c) ↔
      ∃ root, d.root = some root ∧
        (Change.replace (.ofJson v)).inPlace p root.content = some c := by
  have hplace : (Operation.replace path v).place? = some p := by
    rw [Operation.place?, Operation.kind?, Option.bind_some]
    exact hpath
  have hop : (Operation.replace path v).Edits := Operation.edits_of_place? ⟨p, hplace, hp⟩
  have htokens : (Operation.replace path v).target.tokens = p := by
    rw [Operation.target, hplace]
    rfl
  rcases Document.read_ok hread with ⟨sp, rfl, hroot⟩ | ⟨page, root, rfl, hd, rfl, -, hcontent⟩
  · obtain ⟨e, he⟩ := Patcher.apply_alone_space (p := patcher) hop sp
    simp [he, hroot]
  · have halone := Patcher.apply_alone hop hd
    rw [htokens, ← hcontent] at halone
    constructor
    · rintro ⟨out, hout, hholds⟩
      refine ⟨root, rfl, ?_⟩
      cases hc : (Change.replace (.ofJson v)).inPlace p root.content with
      | none =>
        rw [Operation.change, hc] at halone
        obtain ⟨e, he⟩ := halone
        rw [hout] at he
        cases he
      | some c' =>
        rw [Operation.change, hc] at halone
        obtain ⟨w, hw, hout'⟩ := halone
        rw [hout] at hout'
        obtain rfl := Except.ok.inj hout'
        rw [← hw, (holds_text w).inj hholds]
    · rintro ⟨root', hroot', hc⟩
      obtain rfl := Option.some.inj hroot'
      rw [Operation.change, hc] at halone
      obtain ⟨w, rfl, hout⟩ := halone
      exact ⟨w.text, hout, holds_text w⟩

theorem countable (hd : Document.read depth input = .ok d) (hlen : input.length ≤ UInt64.size)
    {root : Node} (hroot : d.root = some root) : root.Countable := by
  rcases Document.read_ok hd with ⟨sp, -, hnone⟩ | ⟨page, m, rfl, -, rfl, hw, -⟩
  · rw [hnone] at hroot
    cases hroot
  · obtain rfl := Option.some.inj hroot
    exact hw.countable hlen

/-- Pointers that are spelled as indices are printed lead to different nodes. One is the beginning
of another just if it leads to a node around the other's, which is what overlaps. If no object
repeats a name, a pointer leads to a node just if a replacement there changes this node alone. -/
theorem pointer?_addresses (hd : Document.read depth input = .ok d)
    (hlen : input.length ≤ UInt64.size) :
    (∀ p q n m, d.pointer? p = some n → d.pointer? q = some m → d.Spells p → d.Spells q →
      (p ≠ q → n.id ≠ m.id) ∧ ((after? p q).isSome ↔ m.id ∈ n.ids) ∧
        ∀ edit, Target.overlaps q ⟨p, edit⟩ = true ↔ m.id ∈ n.ids ∨ n.id ∈ m.ids) ∧
    ((∀ root, d.root = some root → root.Distinct) →
      ∀ path p, Pointer.parse? path = some p → p ≠ [] → d.Spells p →
        ∀ patcher : Patcher, patcher.maxDepth = depth → ∀ n, d.pointer? p = some n ↔
          d.node? n.id = some n ∧ ∀ v : Value, ∃ root out, d.root = some root ∧
            (patcher.apply input [.replace path v]).1 = .ok out ∧
            Holds out (root.contentWith n.id (.ofJson v))) := by
  constructor
  · intro p q n m hp hq hps hqs
    obtain ⟨root, hroot, hp⟩ := Option.bind_eq_some_iff.1 hp
    obtain ⟨root', hroot', hq⟩ := Option.bind_eq_some_iff.1 hq
    obtain rfl := Option.some.inj (hroot.symm.trans hroot')
    have hn := nodup_ids hd hroot
    have hps := hps root hroot
    have hqs := hqs root hroot
    have hpq := Node.prefix_iff_mem_ids hn hp hq hps hqs
    have hqp := Node.prefix_iff_mem_ids hn hq hp hqs hps
    refine ⟨?_, ?_, ?_⟩
    · rw [ne_eq, ne_eq, not_imp_not]
      exact (Node.eq_iff_id_eq hn hp hq hps hqs).2
    · rw [← hpq, ← not_iff_not, ← after?_eq_none, Bool.not_eq_true, Option.isSome_eq_false_iff,
        Option.isNone_iff_eq_none]
    · intro edit
      rw [overlaps_iff, hpq, hqp]
  · rintro hdistinct path p hpath hp hps patcher rfl n
    constructor
    · intro h
      obtain ⟨root, hroot, hpn⟩ := Option.bind_eq_some_iff.1 h
      have hn := nodup_ids hd hroot
      constructor
      · rw [node?, hroot]
        exact withId?_of_pointer? hn hpn
      · intro v
        have hmade := Node.inPlace_contentWith (c := .ofJson v) hn (hdistinct root hroot) hp
          (hps root hroot) hpn
        obtain ⟨out, hout, hholds⟩ := (holds_replace hd hpath hp).2 ⟨root, hroot, hmade⟩
        exact ⟨root, out, hroot, hout, hholds⟩
    · rintro ⟨hnode, hall⟩
      obtain ⟨root, hroot, hid⟩ := Option.bind_eq_some_iff.1 hnode
      have hn := nodup_ids hd hroot
      -- A value nested deeper than the document cannot be mistaken for a part of it.
      obtain ⟨root', out, hroot', hout, hholds⟩ := hall (.nested (root.content.nesting + 1))
      obtain rfl := Option.some.inj (hroot.symm.trans hroot')
      obtain ⟨root'', hroot'', hmade⟩ := (holds_replace hd hpath hp).1 ⟨out, hout, hholds⟩
      obtain rfl := Option.some.inj (hroot.symm.trans hroot'')
      have hcount := countable hd hlen hroot
      have hdeep : root.content.nesting <
          (Content.ofJson (.nested (root.content.nesting + 1))).nesting := by
        rw [Content.nesting_ofJson_nested]
        omega
      obtain ⟨m, hm, hmn⟩ := Node.pointer?_of_inPlace hn (hdistinct root hroot) hcount
        (Node.mem_ids_of_withId? hid) hdeep hmade
      have hmid := withId?_of_pointer? hn hm
      rw [hmn, hid, Option.some.injEq] at hmid
      rw [pointer?, hroot, hmid]
      exact hm

/-- The token `01` is a name here, and the tokens behind it are indices. -/
theorem pointer?_addresses_nested :
    let input := bytes "\x7b\"01\":[1,[2]]\x7d"
    ∃ d n m, Document.read 512 input = .ok d ∧ d.pointer? ["01", "1"] = some n ∧
      d.pointer? ["01", "1", "0"] = some m ∧ n.id ≠ m.id ∧ m.id ∈ n.ids ∧
        ∀ v : Value, ∃ root out, d.root = some root ∧
          ((Patcher.make {}).apply input [.replace "/01/1" v]).1 = .ok out ∧
          Holds out (root.contentWith n.id (.ofJson v)) := by
  intro input
  let m : Node := .atom ⟨4, ⟨10, 11⟩⟩ (.long 2)
  let n : Node := .array ⟨3, ⟨9, 12⟩⟩ [m]
  let items : Node := .array ⟨1, ⟨6, 13⟩⟩ [.atom ⟨2, ⟨7, 8⟩⟩ (.long 1), n]
  let root : Node := .object ⟨0, ⟨0, 14⟩⟩ [("01", items)]
  have hd : Document.read 512 input = .ok ⟨512, some root⟩ := by
    show Document.read 512 (bytes "\x7b\"01\":[1,[2]]\x7d") = _
    rfl
  have hn : (⟨512, some root⟩ : Document).pointer? ["01", "1"] = some n := rfl
  have hm : (⟨512, some root⟩ : Document).pointer? ["01", "1", "0"] = some m := rfl
  have hindex : ∀ j < 2, ∀ i, Numeral.index? (toString j) = some i → toString j = toString i := by
    intro j hj i hi
    rw [Numeral.index?_toString, if_pos (hj.trans (by decide)), Option.some.injEq] at hi
    rw [hi]
  have hdeep : Node.Spells ["01", "1", "0"] root := by
    refine ⟨by decide, ?_⟩
    rintro _ ⟨⟩
    refine ⟨fun _ => hindex 1 (by decide), ?_⟩
    rintro _ ⟨⟩
    exact ⟨fun _ => hindex 0 (by decide), fun _ _ => trivial⟩
  have hshort : Node.Spells ["01", "1"] root := by
    refine ⟨by decide, ?_⟩
    rintro _ ⟨⟩
    exact ⟨fun _ => hindex 1 (by decide), fun _ _ => trivial⟩
  have hdistinct : root.Distinct := by
    refine .object (by simp) (List.forall_mem_singleton.2 (.array ?_))
    refine List.forall_mem_cons.2 ⟨.atom _ _, List.forall_mem_singleton.2 (.array ?_)⟩
    exact List.forall_mem_singleton.2 (.atom _ _)
  obtain ⟨hpair, halone⟩ := pointer?_addresses hd (by decide)
  obtain ⟨hne, hbelow, -⟩ := hpair _ _ n m hn hm (by rintro _ ⟨⟩; exact hshort)
    (by rintro _ ⟨⟩; exact hdeep)
  have hchanged := (halone (by rintro _ ⟨⟩; exact hdistinct) "/01/1" ["01", "1"] (by decide)
    (by decide) (by rintro _ ⟨⟩; exact hshort) (Patcher.make {}) rfl n).1 hn
  exact ⟨_, n, m, hd, hn, hm, hne (by decide), hbelow.1 rfl, hchanged.2⟩

/-- An index with a leading zero leads to the same element, and the pass does not know it. -/
theorem pointer?_leading_zero : ∃ d n, Document.read 512 (bytes "[1,2]") = .ok d ∧
    d.pointer? ["1"] = some n ∧ d.pointer? ["01"] = some n ∧
      ((Patcher.make {}).apply (bytes "[1,2]") [.replace "/01" .null]).1 =
        .error (.notFound "/01") := by
  let n : Node := .atom ⟨2, ⟨3, 4⟩⟩ (.long 2)
  let root : Node := .array ⟨0, ⟨0, 5⟩⟩ [.atom ⟨1, ⟨1, 2⟩⟩ (.long 1), n]
  have hd : Document.read 512 (bytes "[1,2]") = .ok ⟨512, some root⟩ := by rfl
  exact ⟨_, n, hd, rfl, rfl, rfl⟩

end Document

end Quarry
