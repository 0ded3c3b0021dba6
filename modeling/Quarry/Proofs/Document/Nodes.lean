import Quarry.Proofs.Document.Content

/-!
The nodes of a document as values, and what its pointers find.
-/

namespace Quarry

open Json

/-- No token that meets an array is an index in another spelling than its own. -/
def Pointer.Canonical (f : Content.View) (p : List String) : Prop :=
  ∀ q t r, p = q ++ t :: r → f q = some (.group false) → ∀ i, Numeral.index? t = some i →
    t = toString i

namespace Pointer

variable {f g : Content.View} {p q : List String} {c d : Content}

theorem Canonical.congr (h : Canonical f p) (hfg : ∀ q, q <+: p → q ≠ p → g q = f q) :
    Canonical g p := by
  rintro q t r rfl harray
  apply h q t r rfl
  rwa [← hfg q (List.prefix_append q _) (by simp)]

theorem Canonical.within (h : Canonical f (p ++ q)) (hfg : ∀ s, f (p ++ s) = g s) :
    Canonical g q := by
  rintro s t r rfl harray
  apply h (p ++ s) t r (by rw [List.append_assoc])
  rwa [hfg]

theorem Canonical.child {t : String} (h : Canonical c.view (t :: p))
    (hd : find? t c.members = some d) : Canonical d.view p := by
  apply Canonical.within (p := [t]) h
  intro s
  show c.view (t :: s) = d.view s
  rw [Content.view_cons, hd, Option.bind_some]

/-- What is found in a value is found by its own spelling. -/
theorem canonical_of_get? (hc : c.Valid) (h : (c.get? p).isSome) : Canonical c.view p := by
  rintro q t r rfl harray i hi
  obtain ⟨d, hd, hshape⟩ := Option.map_eq_some_iff.1 harray
  rw [Content.get?_append, hd, Option.bind_some, Content.get?] at h
  obtain ⟨e, he⟩ := Option.isSome_iff_exists.1 (Option.isSome_of_isSome_bind h)
  cases hc.get? hd with
  | atom a => cases hshape
  | @group o ms nodup indices all =>
    cases hshape
    have hmem : t ∈ names ms := mem_names (mem_of_find? he)
    rw [indices rfl] at hmem
    obtain ⟨j, -, rfl⟩ := mem_names_numbered hmem
    rw [Numeral.index?_toString] at hi
    split at hi
    · rw [Option.some.inj hi]
    · cases hi

end Pointer

namespace Node

mutual

/-- A node without its places. -/
def content : Node → Content
  | .atom _ a => .atom a
  | .array _ items => .array (contentItems items)
  | .object _ members => .group true (contentMembers members)

def contentItems : List Node → List Content
  | [] => []
  | n :: ns => n.content :: contentItems ns

def contentMembers : List (String × Node) → List (String × Content)
  | [] => []
  | (k, n) :: ms => (k, n.content) :: contentMembers ms

end

theorem contentItems_eq_map (ns : List Node) : contentItems ns = ns.map content := by
  induction ns with
  | nil => rfl
  | cons n ns ih => simp [contentItems, ih]

theorem contentMembers_eq_map (ms : List (String × Node)) :
    contentMembers ms = ms.map fun m => (m.1, m.2.content) := by
  induction ms with
  | nil => rfl
  | cons m ms ih => simp [contentMembers, ih]

/-- No object repeats a name. -/
inductive Distinct : Node → Prop
  | atom (m : Mark) (a : Atom) : Distinct (.atom m a)
  | array {m : Mark} {items : List Node} (all : ∀ n ∈ items, Distinct n) : Distinct (.array m items)
  | object {m : Mark} {members : List (String × Node)} (nodup : (names members).Nodup)
      (all : ∀ n ∈ members, Distinct n.2) : Distinct (.object m members)

theorem Distinct.valid {n : Node} (h : n.Distinct) : n.content.Valid := by
  induction h with
  | atom m a => exact .atom a
  | array all ih =>
    rw [content, contentItems_eq_map]
    refine Content.Valid.array fun c hc => ?_
    obtain ⟨n, hn, rfl⟩ := List.mem_map.1 hc
    exact ih n hn
  | object nodup all ih =>
    rw [content, contentMembers_eq_map]
    refine .group (by rwa [names_map]) nofun fun m hm => ?_
    obtain ⟨n, hn, rfl⟩ := List.mem_map.1 hm
    exact ih n hn

/-! ### Pointers -/

/-- The node one token leads to. -/
def child? (t : String) : Node → Option Node
  | .object m members => (Node.object m members).member? t
  | .array m items => (Numeral.index? t).bind (Node.array m items).element?
  | .atom _ _ => none

theorem pointer?_cons (t : String) (ts : List String) (n : Node) :
    n.pointer? (t :: ts) = (n.child? t).bind (pointer? · ts) := by
  cases n with
  | atom m a => rfl
  | array m items =>
    rw [pointer?, child?, Option.bind_assoc]
  | object m members => rfl

/-- What passes from a node to each of its children passes to whatever a pointer leads to. -/
theorem of_pointer? {P : Node → Prop} {n m : Node} {p : List String}
    (hchild : ∀ {n m : Node} {t : String}, P n → n.child? t = some m → P m) (h : P n)
    (hp : n.pointer? p = some m) : P m := by
  induction p generalizing n with
  | nil => exact Option.some.inj hp ▸ h
  | cons t ts ih =>
    rw [pointer?_cons] at hp
    obtain ⟨c, hc, hp⟩ := Option.bind_eq_some_iff.1 hp
    exact ih (hchild h hc) hp

theorem Distinct.child? {n m : Node} {t : String} (h : n.Distinct) (hc : n.child? t = some m) :
    m.Distinct := by
  cases h with
  | atom => simp [Node.child?] at hc
  | array all =>
    obtain ⟨i, -, hi⟩ := Option.bind_eq_some_iff.1 hc
    exact all m (List.mem_of_getElem? hi)
  | object nodup all =>
    exact all _ (List.mem_reverse.1 (mem_of_find? (show find? t _ = some m from hc)))

theorem Distinct.member? {k : String} {mark : Mark} {ms : List (String × Node)}
    (h : (Node.object mark ms).Distinct) :
    (Node.object mark ms).member? k = find? k ms := by
  cases h with
  | object nodup all => exact find?_reverse nodup k

theorem find?_content_array (m : Mark) (items : List Node) (j : Nat) :
    find? (toString j) (Node.array m items).content.members = items[j]?.map content := by
  have hj := find?_numbered 0 j (items.map content)
  rw [Nat.zero_add, List.getElem?_map] at hj
  rw [content, contentItems_eq_map]
  exact hj

theorem find?_content_object {m : Mark} {ms : List (String × Node)} (k : String) :
    find? k (Node.object m ms).content.members = (find? k ms).map content := by
  rw [content, contentMembers_eq_map]
  exact find?_map content k ms

theorem index_of_find? {m : Mark} {items : List Node} {t : String} {c : Content}
    (h : find? t (Node.array m items).content.members = some c) :
    ∃ j : Nat, t = toString j ∧ items[j]?.map content = some c := by
  have hmem : t ∈ names (numbered 0 (contentItems items)) := mem_names (mem_of_find? h)
  obtain ⟨j, -, ht⟩ := mem_names_numbered hmem
  rw [Nat.zero_add] at ht
  refine ⟨j, ht, ?_⟩
  rwa [ht, find?_content_array] at h

/-- A child that is found is the one that a canonical token names. -/
theorem Distinct.content_child? {n m : Node} {t : String} {c : Content} (h : n.Distinct)
    (hf : find? t n.content.members = some c) (hc : n.child? t = some m) : m.content = c := by
  cases n with
  | atom mark a => simp [Node.child?] at hc
  | array mark items =>
    obtain ⟨j, rfl, hj⟩ := index_of_find? hf
    obtain ⟨i, hi, hm⟩ := Option.bind_eq_some_iff.1 hc
    rw [Numeral.index?_toString] at hi
    split at hi
    · obtain rfl := Option.some.inj hi
      rw [show items[j]? = some m from hm] at hj
      exact Option.some.inj hj
    · simp at hi
  | object mark ms =>
    rw [find?_content_object] at hf
    have hm : find? t ms = some m := h.member?.symm.trans hc
    rw [hm] at hf
    exact Option.some.inj hf

/-- No array has more elements than an index can count. -/
inductive Countable : Node → Prop
  | atom (m : Mark) (a : Atom) : Countable (.atom m a)
  | array {m : Mark} {items : List Node} (short : items.length ≤ UInt64.size)
      (all : ∀ n ∈ items, Countable n) : Countable (.array m items)
  | object {m : Mark} {members : List (String × Node)} (all : ∀ n ∈ members, Countable n.2) :
      Countable (.object m members)

theorem Countable.child? {n m : Node} {t : String} (h : n.Countable) (hc : n.child? t = some m) :
    m.Countable := by
  cases h with
  | atom => simp [Node.child?] at hc
  | array short all =>
    obtain ⟨i, -, hi⟩ := Option.bind_eq_some_iff.1 hc
    exact all m (List.mem_of_getElem? hi)
  | object all =>
    exact all _ (List.mem_reverse.1 (mem_of_find? (show find? t _ = some m from hc)))

theorem exists_child? {n : Node} {t : String} {c : Content} (hd : n.Distinct) (hn : n.Countable)
    (hf : find? t n.content.members = some c) : ∃ m, n.child? t = some m := by
  cases n with
  | atom mark a => simp [content, Content.members] at hf
  | array mark items =>
    obtain ⟨j, rfl, hj⟩ := index_of_find? hf
    obtain ⟨m, hm, -⟩ := Option.map_eq_some_iff.1 hj
    obtain ⟨hlt, -⟩ := List.getElem?_eq_some_iff.1 hm
    refine ⟨m, ?_⟩
    cases hn with
    | array short all =>
      rw [Node.child?, Numeral.index?_toString, if_pos (by omega)]
      exact hm
  | object mark ms =>
    rw [find?_content_object] at hf
    obtain ⟨m, hm, -⟩ := Option.map_eq_some_iff.1 hf
    exact ⟨m, hd.member?.trans hm⟩

/-- What stands at a canonical pointer is found. -/
theorem exists_pointer? {n : Node} {p : List String} {c : Content} (hd : n.Distinct)
    (hn : n.Countable) (hg : n.content.get? p = some c) :
    ∃ m, n.pointer? p = some m ∧ m.content = c := by
  induction p generalizing n with
  | nil => exact ⟨n, rfl, Option.some.inj hg⟩
  | cons t ts ih =>
    rw [Content.get?] at hg
    obtain ⟨c', hc, hg⟩ := Option.bind_eq_some_iff.1 hg
    obtain ⟨n', hn'⟩ := exists_child? hd hn hc
    obtain rfl := hd.content_child? hc hn'
    obtain ⟨m, hm, hmc⟩ := ih (hd.child? hn') (hn.child? hn') hg
    exact ⟨m, by rw [pointer?_cons, hn']; exact hm, hmc⟩

/-- With canonical tokens nothing else is found. -/
theorem Distinct.get?_of_pointer? {n m : Node} {p : List String} (h : n.Distinct)
    (hp : Pointer.Canonical n.content.view p) (hm : n.pointer? p = some m) :
    n.content.get? p = some m.content := by
  induction p generalizing n with
  | nil =>
    obtain rfl := Option.some.inj hm
    rfl
  | cons t ts ih =>
    rw [pointer?_cons] at hm
    obtain ⟨n', hn, hm⟩ := Option.bind_eq_some_iff.1 hm
    have hfind : find? t n.content.members = some n'.content := by
      cases n with
      | atom mark a => simp [Node.child?] at hn
      | array mark items =>
        obtain ⟨i, hi, hitem⟩ := Option.bind_eq_some_iff.1 hn
        rw [hp [] t ts rfl rfl i hi, find?_content_array,
          show items[i]? = some n' from hitem]
        rfl
      | object mark ms =>
        rw [find?_content_object, show find? t ms = some n' from h.member?.symm.trans hn]
        rfl
    rw [Content.get?, hfind]
    exact ih (h.child? hn) (hp.child hfind) hm

end Node

end Quarry
