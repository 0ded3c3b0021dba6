import Quarry.Proofs.Patch.Engine

/-!
What an arena is after any number of edits, with some that did not fit in: each slot stands at one
place, and the slots with an edit are those places that were given one, each with its latest. No
place of an edit lies within another, and what does not fit in leaves no trace.
-/

namespace Quarry.Patch

open Json

namespace Node

/-! ### Nodes below a node -/

mutual

/-- What children take over from their parents. -/
theorem forall_family {P : Node → Prop} (step : ∀ n, P n → ∀ c ∈ n.children, P c.2) :
    (n : Node) → P n → ∀ m ∈ n.family, P m
  | .make _ _ cs, h => List.forall_mem_cons.2 ⟨h, forall_familyBelow step cs (step _ h)⟩

theorem forall_familyBelow {P : Node → Prop} (step : ∀ n, P n → ∀ c ∈ n.children, P c.2) :
    (cs : List (String × Node)) → (∀ c ∈ cs, P c.2) → ∀ m ∈ familyBelow cs, P m
  | [], _ => nofun
  | (_, c) :: cs, h =>
    List.forall_mem_append.2 ⟨forall_family step c (h _ List.mem_cons_self),
      forall_familyBelow step cs fun d hd => h d (List.mem_cons_of_mem _ hd)⟩

end

/-- Children have greater numbers than their parents. -/
inductive Rising : Node → Prop
  | make {id : Nat} {edit : Option Edit} {children : List (String × Node)}
      (above : ∀ c ∈ children, id < c.2.id) (below : ∀ c ∈ children, Rising c.2) :
      Rising (.make id edit children)

/-- The node that some tokens lead to. -/
def at? : List String → Node → Option Node
  | [], n => some n
  | t :: ts, n => (find? t n.children).bind (at? ts)

variable {n n' m m' c : Node} {e : Edit} {p q ts : List String} {t : String} {next next' stop : Nat}

theorem rising_leaf (id : Nat) : (leaf id).Rising := .make (by simp) (by simp)

theorem Rising.id_lt (h : n.Rising) : ∀ c ∈ n.children, n.id < c.2.id := by
  cases h with
  | make above below => exact above

theorem Rising.child (h : n.Rising) : ∀ c ∈ n.children, c.2.Rising := by
  cases h with
  | make above below => exact below

theorem Rising.put {c' : Node} (h : n.Rising) (hid : n.id < c'.id) (hc : c'.Rising) :
    (Node.make n.id none (Json.put t c' n.children)).Rising := by
  constructor
  · intro d hd
    rcases mem_put hd with rfl | hd
    · exact hid
    · exact h.id_lt d hd
  · intro d hd
    rcases mem_put hd with rfl | hd
    · exact hc
    · exact h.child d hd

theorem Rising.insert (h : n.Rising) (hn : n.Numbered next)
    (hins : n.insert e ts next = some (n', next', stop)) : n'.Rising := by
  induction ts generalizing n n' next with
  | nil =>
    obtain ⟨-, rfl⟩ := insert_nil hins
    exact .make (by simp) (by simp)
  | cons t ts ih =>
    have he : n.edit = none := (insert_cons hins).1
    have hlt : n.id < next := hn.lt (n.ids_eq ▸ List.mem_cons_self)
    cases hc : find? t n.children with
    | some c =>
      rw [insert_found he hc] at hins
      obtain ⟨⟨c', p⟩, hinsert, heq⟩ := Option.map_eq_some_iff.1 hins
      cases heq
      have hmem := mem_of_find? hc
      apply h.put
      · rw [(count_insert hinsert).1]
        exact h.id_lt _ hmem
      · exact ih (h.child _ hmem) (hn.child hmem) hinsert
    | none =>
      rw [insert_new he hc] at hins
      obtain ⟨⟨c', p⟩, hinsert, heq⟩ := Option.map_eq_some_iff.1 hins
      cases heq
      apply h.put
      · rw [(count_insert hinsert).1]
        exact hlt
      · exact ih (rising_leaf next) (numbered_leaf next) hinsert

/-! ### Places -/

theorem at?_append (p q : List String) (n : Node) : n.at? (p ++ q) = (n.at? p).bind (at? q) := by
  induction p generalizing n with
  | nil => rfl
  | cons t p ih =>
    rw [List.cons_append, at?, at?, Option.bind_assoc]
    congr 1
    funext c
    exact ih c

theorem mem_family_of_at? (h : n.at? p = some m) : m ∈ n.family := by
  induction p generalizing n with
  | nil =>
    cases h
    rw [family_eq]
    exact List.mem_cons_self
  | cons t p ih =>
    obtain ⟨c, hc, h⟩ := Option.bind_eq_some_iff.1 h
    rw [family_eq]
    exact List.mem_cons_of_mem _ ((family_sublist (mem_of_find? hc)).subset (ih h))

/-- Every node stands at some place, as no two children of a node have the same token. -/
theorem Sound.exists_at? (h : n.Sound) : ∀ m ∈ n.family, ∃ p, n.at? p = some m := by
  have hall := forall_family (P := fun m => m.Sound ∧ ∃ p, n.at? p = some m) ?_ n ⟨h, [], rfl⟩
  · exact fun m hm => (hall m hm).2
  · rintro m ⟨hm, p, hp⟩ ⟨t, c⟩ hc
    obtain ⟨hnodup, hgrown⟩ := hm.children
    refine ⟨.grown (hgrown _ hc), p ++ [t], ?_⟩
    rw [at?_append, hp, Option.bind_some, at?, find?_of_mem hnodup hc]
    rfl

/-- Different places have different numbers. -/
theorem Numbered.at?_inj (hn : n.Numbered next) (hp : n.at? p = some m) (hq : n.at? q = some m')
    (hid : m.id = m'.id) : p = q := by
  -- Below a child there is neither the number of its parent nor one of another child's.
  have hbelow : ∀ {n c m : Node} {t : String} {ts : List String}, find? t n.children = some c →
      c.at? ts = some m → m.id ∈ c.ids ∧ m.id ∈ idsBelow n.children := by
    intro n c m t ts hc hm
    have hmem : m.id ∈ c.ids := List.mem_map_of_mem (mem_family_of_at? hm)
    exact ⟨hmem, (ids_sublist (mem_of_find? hc)).subset hmem⟩
  induction p generalizing n q with
  | nil =>
    obtain rfl := Option.some.inj hp
    cases q with
    | nil => rfl
    | cons u us =>
      obtain ⟨d, hd, hm'⟩ := Option.bind_eq_some_iff.1 hq
      exact absurd hid.symm (hn.ne_root (hbelow hd hm').2)
  | cons t ts ih =>
    obtain ⟨c, hc, hm⟩ := Option.bind_eq_some_iff.1 hp
    cases q with
    | nil =>
      obtain rfl := Option.some.inj hq
      exact absurd hid (hn.ne_root (hbelow hc hm).2)
    | cons u us =>
      obtain ⟨d, hd, hm'⟩ := Option.bind_eq_some_iff.1 hq
      by_cases htu : t = u
      · subst htu
        obtain rfl := Option.some.inj (hc.symm.trans hd)
        rw [ih (hn.child (mem_of_find? hc)) hm hm']
      · have hother : (u, d) ∈ erase t n.children :=
          (List.mem_eraseP_of_neg (by simpa using Ne.symm htu)).2 (mem_of_find? hd)
        have hnot := (hn.apart hc (hbelow hc hm).1).2
        rw [hid] at hnot
        exact absurd ((ids_sublist hother).subset (hbelow hd hm').1) hnot

theorem Sound.children_eq_nil (h : n.Sound) (he : n.edit = some e) : n.children = [] := by
  cases h with
  | leaf id => rfl
  | grown h =>
    cases h with
    | edit id f => rfl
    | inner nonempty nodup all => cases he

/-- Where a pointer ends at an edit, the edit is that of the place. -/
theorem Sound.along_eq_edit (h : n.Sound) :
    n.along p = some (e, []) ↔ ∃ m, n.at? p = some m ∧ m.edit = some e := by
  induction p generalizing n with
  | nil =>
    have hat : ∀ m, n.at? [] = some m ↔ n = m := fun m => Option.some_inj
    simp only [hat, exists_eq_left']
    cases he : n.edit with
    | none => simp [along_nil he]
    | some f => simp [along_edit he]
  | cons t ts ih =>
    rw [at?]
    cases he : n.edit with
    | none =>
      rw [along_cons he]
      cases hc : find? t n.children with
      | none => simp
      | some c => exact ih (.grown (h.children.2 _ (mem_of_find? hc)))
    | some f =>
      rw [along_edit he, h.children_eq_nil he]
      simp

end Node

/-- The edit that a place was given last; the latest target stands first. -/
def latest? (p : List String) (ts : List Target) : Option Edit :=
  (ts.find? fun t => t.tokens = p).map Target.edit

theorem exists_of_latest? {p : List String} {ts : List Target} {e : Edit}
    (h : latest? p ts = some e) : ∃ t ∈ ts, t.tokens = p := by
  obtain ⟨t, ht, -⟩ := Option.map_eq_some_iff.1 h
  exact ⟨t, List.mem_of_find?_eq_some ht, by simpa using List.find?_some ht⟩

theorem foremost_eq_latest {ts : List Target} (h : Uncrossed ts) {p : List String} {e : Edit} :
    foremost ts p = some (e, []) ↔ latest? p ts = some e := by
  induction ts with
  | nil => simp [foremost, latest?]
  | cons t ts ih =>
    have htail : Uncrossed ts := fun u hu v hv =>
      h u (List.mem_cons_of_mem t hu) v (List.mem_cons_of_mem t hv)
    rw [foremost, latest?, List.find?_cons]
    by_cases htp : t.tokens = p
    · subst htp
      have hafter : after? t.tokens t.tokens = some [] :=
        after?_eq_some.2 (List.append_nil _).symm
      simp [hafter]
    · simp only [htp, decide_false]
      cases hafter : after? t.tokens p with
      | none => exact ih htail
      | some rest =>
        rw [after?_eq_some] at hafter
        constructor
        · rintro heq
          obtain ⟨-, rfl⟩ := Prod.mk.inj (Option.some.inj heq)
          exact absurd (by rw [hafter, List.append_nil]) htp
        · intro hlatest
          obtain ⟨u, hu, rfl⟩ := exists_of_latest? hlatest
          exact absurd ⟨htp, .inl ⟨rest, hafter.symm⟩⟩
            (h t List.mem_cons_self u (List.mem_cons_of_mem t hu))

namespace Arena

/-- The slot that some tokens lead to. -/
def reach (a : Arena) : List String → Nat → Option Nat
  | [], id => some id
  | t :: ts, id => (find? t (a.slot id).children).bind (a.reach ts)

/-- The way down from a slot, by first children, to one with an edit or without children. -/
inductive Leads (a : Arena) : Nat → Nat → Prop
  | here {id : Nat} (h : (a.slot id).edit ≠ none ∨ (a.slot id).children = []) : Leads a id id
  | down {id k c : Nat} {t : String} {rest : List (String × Nat)} (edit : (a.slot id).edit = none)
      (children : (a.slot id).children = (t, c) :: rest) (h : Leads a c k) : Leads a id k

variable {a : Arena} {n : Node} {p : List String}

theorem reach_eq (h : a.Shows n.family) : a.reach p n.id = (n.at? p).map Node.id := by
  induction p generalizing n with
  | nil => rfl
  | cons t ts ih =>
    rw [reach, Node.at?, h.slot, find?_slot]
    cases hc : find? t n.children with
    | none => rfl
    | some c => exact ih (shows_of_mem h (mem_of_find? hc))

theorem leads_of_grown (hgrown : n.Grown) (h : a.Shows n.family) :
    ∃ k e, a.Leads n.id k ∧ (a.slot k).edit = some e ∧ n.firstTarget = e.path := by
  induction hgrown with
  | edit id e =>
    have hslot := h.slot
    refine ⟨id, e, .here (.inl ?_), ?_, rfl⟩
    · rw [hslot]
      exact Option.some_ne_none e
    · exact congrArg Slot.edit hslot
  | @inner id cs nonempty nodup all ih =>
    obtain ⟨⟨t, c⟩, cs, rfl⟩ := List.exists_cons_of_ne_nil nonempty
    have hslot := h.slot
    obtain ⟨k, e, hleads, he, hpath⟩ :=
      ih (t, c) List.mem_cons_self (shows_of_mem h List.mem_cons_self)
    exact ⟨k, e, .down (congrArg Slot.edit hslot) (congrArg Slot.children hslot) hleads, he, hpath⟩

/-! ### One edit after the other -/

/-- Adds an edit, and notes its target if it fits in. -/
def attempt (s : List Target × Arena) (t : Target) : List Target × Arena :=
  match s.2.insert t.edit t.tokens 0 with
  | (.ok _, a) => (t :: s.1, a)
  | (.error _, a) => (s.1, a)

/-- The tree an arena stands for, and where its edits came from. -/
structure Records (ts : List Target) (a : Arena) (tree : Tree) : Prop where
  holds : a.Holds tree
  filled : ∀ k < a.length, k ∈ tree.root.ids
  rising : tree.root.Rising
  bears : Bears ts tree.root

variable {ts : List Target} {tree : Tree} {t : Target}

theorem records_empty : Records [] .empty .empty where
  holds := holds_empty
  filled k hk := by
    obtain rfl : k = 0 := by simpa [empty] using hk
    exact List.mem_singleton_self 0
  rising := Node.rising_leaf 0
  bears := bears_leaf 0

/-- An edit comes in where the tree has no other around its place or within it, and goes without a
trace where it has. -/
theorem Records.insert_cases (h : Records ts a tree) (t : Target) :
    (∃ id a' tree', a.insert t.edit t.tokens 0 = (.ok id, a') ∧
      tree.insert t.tokens t.edit = .ok (id, tree') ∧ Records (t :: ts) a' tree' ∧
      ∀ u ∈ ts, ¬ Crossing u.tokens t.tokens) ∨
    ∃ err, err = .unsupported t.edit.path t.edit.kind.name ∧
      a.insert t.edit t.tokens 0 = (.error err, a) ∧
      tree.insert t.tokens t.edit = .error err ∧ ∃ u ∈ ts, Crossing u.tokens t.tokens := by
  cases hroot : tree.root.insert t.edit t.tokens a.length with
  | none =>
    have hinsert : tree.insert t.tokens t.edit =
        .error (.unsupported t.edit.path t.edit.kind.name) := by
      simp only [Tree.insert, h.holds.size, hroot]
    exact .inr ⟨_, rfl, h.holds.insert_error hinsert, hinsert, h.bears.exists_crossing hroot⟩
  | some x =>
    obtain ⟨root, size, stop⟩ := x
    have hinsert : tree.insert t.tokens t.edit = .ok (stop, ⟨root, size⟩) := by
      simp only [Tree.insert, h.holds.size, hroot]
    obtain ⟨hanswer, hholds⟩ := h.holds.insert hinsert
    refine .inl ⟨stop, (a.insert t.edit t.tokens 0).2, _, ?_, hinsert, ⟨hholds, ?_, ?_, ?_⟩, ?_⟩
    · rw [← hanswer]
    · intro k hk
      obtain ⟨-, -, hcount⟩ := Node.count_insert hroot
      rw [← hholds.size] at hk
      apply List.count_pos_iff.1
      rw [hcount k]
      by_cases hlt : k < a.length
      · have hpos := List.count_pos_iff.2 (h.filled k hlt)
        omega
      · rw [if_pos ⟨Nat.not_lt.1 hlt, hk⟩]
        exact Nat.succ_pos _
    · exact h.rising.insert h.holds.numbered hroot
    · exact h.bears.insert hroot
    · exact h.bears.not_crossing hroot

end Arena

/-- Adds an edit if it fits in. -/
def Tree.attempt (tree : Tree) (t : Target) : Tree :=
  match tree.insert t.tokens t.edit with
  | .ok (_, tree) => tree
  | .error _ => tree

namespace Arena

variable {a : Arena} {ts : List Target} {tree : Tree}

theorem Records.attempt (h : Records ts a tree) (t : Target) :
    Records (Arena.attempt (ts, a) t).1 (Arena.attempt (ts, a) t).2 (tree.attempt t) := by
  rw [Arena.attempt, Tree.attempt]
  rcases h.insert_cases t with ⟨id, a', tree', hinsert, htree, hrecords, -⟩ |
    ⟨err, -, hinsert, htree, -⟩
  · rw [hinsert, htree]
    exact hrecords
  · rw [hinsert, htree]
    exact h

theorem Records.attempts (h : Records ts a tree) (calls : List Target) :
    Records (calls.foldl Arena.attempt (ts, a)).1 (calls.foldl Arena.attempt (ts, a)).2
      (calls.foldl Tree.attempt tree) := by
  induction calls generalizing ts a tree with
  | nil => exact h
  | cons t calls ih => exact ih (h.attempt t)

theorem attempts_ne_nil (h : ts ≠ []) (calls : List Target) :
    (calls.foldl Arena.attempt (ts, a)).1 ≠ [] := by
  induction calls generalizing ts a with
  | nil => exact h
  | cons t calls ih =>
    rw [List.foldl_cons, Arena.attempt]
    split
    · exact ih (List.cons_ne_nil _ _)
    · exact ih h

/-! ### The slots -/

/-- What the slots of an arena are, by the targets of its edits, the latest first. -/
structure Recorded (ts : List Target) (a : Arena) : Prop where
  edited : ∀ id < a.length, (a.slot id).edit ≠ none → (a.slot id).children = []
  childless : ∀ id < a.length, id ≠ 0 → (a.slot id).children = [] → (a.slot id).edit ≠ none
  rising : ∀ id < a.length, ∀ c ∈ (a.slot id).children, id < c.2 ∧ c.2 < a.length
  places : ∀ id < a.length, ∃! p, a.reach p 0 = some id
  edits : ∀ p e, (∃ id, a.reach p 0 = some id ∧ (a.slot id).edit = some e) ↔
    latest? p ts = some e
  uncrossed : Uncrossed ts
  fits : ∀ t : Target, (∃ err, (a.insert t.edit t.tokens 0).1 = .error err) ↔
    ∃ u ∈ ts, Crossing u.tokens t.tokens
  refused : ∀ (t : Target) err, (a.insert t.edit t.tokens 0).1 = .error err →
    a.insert t.edit t.tokens 0 = (.error (.unsupported t.edit.path t.edit.kind.name), a)
  first : ts ≠ [] → ∀ id < a.length,
    ∃ k e, a.Leads id k ∧ (a.slot k).edit = some e ∧ a.target id = e.path

/-- Every slot is that of a node with the properties of the tree. -/
theorem Records.exists_node (h : Records ts a tree) {id : Nat} (hid : id < a.length) :
    ∃ m ∈ tree.root.family, m.id = id ∧ m.Sound ∧ m.Rising ∧ m.Numbered a.length ∧
      a.Shows m.family := by
  obtain ⟨m, hm, rfl⟩ := List.mem_map.1 (h.filled id hid)
  have hall := Node.forall_family
    (P := fun m => m.Sound ∧ m.Rising ∧ m.Numbered a.length ∧ a.Shows m.family) ?_ tree.root
    ⟨h.bears.sound, h.rising, h.holds.numbered, h.holds.shows⟩ m hm
  · exact ⟨m, hm, rfl, hall⟩
  · rintro n ⟨hsound, hrising, hnumbered, hshows⟩ ⟨t, c⟩ hc
    exact ⟨.grown (hsound.children.2 _ hc), hrising.child _ hc, hnumbered.child hc,
      shows_of_mem hshows hc⟩

theorem Records.grown_of_ne_root (h : Records ts a tree) {m : Node} (hm : m ∈ tree.root.family)
    (hid : m.id ≠ 0) : m.Grown := by
  rw [Node.family_eq, List.mem_cons] at hm
  rcases hm with rfl | hm
  · exact absurd h.holds.root hid
  · apply Node.forall_familyBelow (P := Node.Grown) _ _ h.bears.sound.children.2 m hm
    exact fun n hn => (Node.Sound.grown hn).children.2

theorem Records.reach_eq (h : Records ts a tree) (p : List String) :
    a.reach p 0 = (tree.root.at? p).map Node.id := by
  rw [← h.holds.root]
  exact Arena.reach_eq h.holds.shows

theorem Records.slot_of_at? (h : Records ts a tree) {p : List String} {m : Node}
    (hm : tree.root.at? p = some m) : a.slot m.id = m.slot := by
  have hmem := Node.mem_family_of_at? hm
  rw [Arena.slot, h.holds.shows m hmem]
  rfl

theorem Records.recorded (h : Records ts a tree) : Recorded ts a where
  edited id hid he := by
    obtain ⟨m, -, rfl, hsound, -, -, hshows⟩ := h.exists_node hid
    rw [hshows.slot] at he ⊢
    obtain ⟨e, he⟩ := Option.ne_none_iff_exists'.1 he
    rw [Node.slot, hsound.children_eq_nil he]
    rfl
  childless id hid hroot hnil := by
    obtain ⟨m, hm, rfl, -, -, -, hshows⟩ := h.exists_node hid
    rw [hshows.slot] at hnil ⊢
    cases h.grown_of_ne_root hm hroot with
    | edit id e => exact Option.some_ne_none e
    | inner nonempty nodup all => exact absurd (List.map_eq_nil_iff.1 hnil) nonempty
  rising id hid c hc := by
    obtain ⟨m, -, rfl, -, hrising, hnumbered, hshows⟩ := h.exists_node hid
    rw [hshows.slot] at hc
    obtain ⟨⟨t, d⟩, hd, rfl⟩ := List.mem_map.1 hc
    refine ⟨hrising.id_lt _ hd, (hnumbered.child hd).lt ?_⟩
    rw [d.ids_eq]
    exact List.mem_cons_self
  places id hid := by
    obtain ⟨m, hm, rfl, -⟩ := h.exists_node hid
    obtain ⟨p, hp⟩ := h.bears.sound.exists_at? m hm
    refine ⟨p, (h.reach_eq p).trans (congrArg _ hp), ?_⟩
    · intro q hq
      rw [h.reach_eq] at hq
      obtain ⟨m', hm', hid'⟩ := Option.map_eq_some_iff.1 hq
      exact h.holds.numbered.at?_inj hm' hp hid'
  edits p e := by
    rw [← foremost_eq_latest h.bears.uncrossed, ← h.bears.along, h.bears.sound.along_eq_edit]
    constructor
    · rintro ⟨id, hid, he⟩
      rw [h.reach_eq] at hid
      obtain ⟨m, hm, rfl⟩ := Option.map_eq_some_iff.1 hid
      rw [h.slot_of_at? hm] at he
      exact ⟨m, hm, he⟩
    · rintro ⟨m, hm, he⟩
      refine ⟨m.id, ?_, ?_⟩
      · rw [h.reach_eq, hm]
        rfl
      · rw [h.slot_of_at? hm]
        exact he
  uncrossed := h.bears.uncrossed
  fits t := by
    rcases h.insert_cases t with ⟨id, a', tree', hinsert, -, -, hnone⟩ |
      ⟨err, -, hinsert, -, hcross⟩
    · rw [hinsert]
      constructor
      · rintro ⟨err, herr⟩
        cases herr
      · rintro ⟨u, hu, hcross⟩
        exact absurd hcross (hnone u hu)
    · rw [hinsert]
      exact ⟨fun _ => hcross, fun _ => ⟨err, rfl⟩⟩
  refused t err herr := by
    rcases h.insert_cases t with ⟨id, a', tree', hinsert, -⟩ | ⟨err', rfl, hinsert, -⟩
    · rw [hinsert] at herr
      cases herr
    · exact hinsert
  first hts id hid := by
    obtain ⟨m, hm, rfl, -, -, hnumbered, hshows⟩ := h.exists_node hid
    have hgrown : m.Grown := by
      apply Node.forall_family (P := Node.Grown) _ _ (h.bears.grown hts) m hm
      exact fun n hn => (Node.Sound.grown hn).children.2
    obtain ⟨k, e, hleads, he, hpath⟩ := leads_of_grown hgrown hshows
    exact ⟨k, e, hleads, he, (Splice.target_eq hshows hnumbered.nodup).trans hpath⟩

theorem Records.answer_eq (h : Records ts a tree) (t : Target) :
    (tree.insert t.tokens t.edit).map Prod.fst = (a.insert t.edit t.tokens 0).1 := by
  rcases h.insert_cases t with ⟨id, a', tree', hinsert, htree, -⟩ | ⟨err, -, hinsert, htree, -⟩
  · rw [hinsert, htree]
    rfl
  · rw [hinsert, htree]
    rfl

/-- Whatever edits were added to an empty arena, it stands for the tree with the same edits and goes
on as that does, and its slots are as the targets say of which none was refused. -/
theorem recorded_attempts (calls : List Target) :
    let s := calls.foldl attempt ([], .empty)
    let tree := calls.foldl Tree.attempt .empty
    (calls ≠ [] → s.1 ≠ []) ∧ Recorded s.1 s.2 ∧ s.2.Holds tree ∧
      ∀ t : Target, (tree.insert t.tokens t.edit).map Prod.fst =
        (s.2.insert t.edit t.tokens 0).1 := by
  intro s tree
  have hrecords : Records s.1 s.2 tree := records_empty.attempts calls
  refine ⟨?_, hrecords.recorded, hrecords.holds, hrecords.answer_eq⟩
  intro hcalls
  obtain ⟨t, calls, rfl⟩ := List.exists_cons_of_ne_nil hcalls
  rcases records_empty.insert_cases t with ⟨id, a, tree, hinsert, -⟩ | ⟨err, -, -, -, u, hu, -⟩
  · have hfirst : attempt ([], .empty) t = ([t], a) := by rw [attempt, hinsert]
    show (calls.foldl attempt (attempt ([], .empty) t)).1 ≠ []
    rw [hfirst]
    exact attempts_ne_nil (List.cons_ne_nil t []) calls
  · cases hu

end Arena

end Quarry.Patch
