import Quarry.Proofs.Patch.Tree

/-!
A tree of edits in an arena: every node stands in a slot of its own, and goes by the number of the
slot. Adding an edit there does what adding it to the tree does.
-/

namespace Quarry.Patch

open Json

namespace Node

/-! ### Numbers -/

mutual

/-- A node and all below it. -/
def family : Node → List Node
  | .make id edit children => .make id edit children :: familyBelow children

def familyBelow : List (String × Node) → List Node
  | [] => []
  | (_, c) :: cs => c.family ++ familyBelow cs

end

theorem family_eq (n : Node) : n.family = n :: familyBelow n.children := by
  cases n
  rfl

def ids (n : Node) : List Nat := n.family.map id

def idsBelow (cs : List (String × Node)) : List Nat := (familyBelow cs).map id

theorem ids_eq (n : Node) : n.ids = n.id :: idsBelow n.children := by
  rw [ids, family_eq]
  rfl

theorem idsBelow_cons (t : String) (c : Node) (cs : List (String × Node)) :
    idsBelow ((t, c) :: cs) = c.ids ++ idsBelow cs := List.map_append

theorem family_sublist {t : String} {c : Node} {cs : List (String × Node)} (hc : (t, c) ∈ cs) :
    List.Sublist c.family (familyBelow cs) := by
  induction cs with
  | nil => cases hc
  | cons d cs ih =>
    rw [familyBelow]
    rcases List.mem_cons.1 hc with rfl | hc
    · exact List.sublist_append_left _ _
    · exact (ih hc).trans (List.sublist_append_right _ _)

theorem ids_sublist {t : String} {c : Node} {cs : List (String × Node)} (hc : (t, c) ∈ cs) :
    List.Sublist c.ids (idsBelow cs) := (family_sublist hc).map id

theorem count_put_none {t : String} {cs : List (String × Node)} (k : Nat) (c : Node)
    (h : find? t cs = none) :
    (idsBelow (put t c cs)).count k = (idsBelow cs).count k + c.ids.count k := by
  induction cs with
  | nil =>
    rw [put, idsBelow_cons, List.count_append]
    exact Nat.add_comm _ _
  | cons d cs ih =>
    obtain ⟨u, d⟩ := d
    rw [find?_cons] at h
    split at h
    · cases h
    · rename_i hu
      rw [put, if_neg hu, idsBelow_cons, idsBelow_cons, List.count_append, List.count_append, ih h,
        Nat.add_assoc]

theorem count_erase {t : String} {cs : List (String × Node)} {c : Node} (k : Nat)
    (h : find? t cs = some c) :
    (idsBelow cs).count k = c.ids.count k + (idsBelow (erase t cs)).count k := by
  induction cs with
  | nil => cases h
  | cons d cs ih =>
    obtain ⟨u, d⟩ := d
    rw [find?_cons] at h
    rw [erase_cons, idsBelow_cons, List.count_append]
    split at h
    · rename_i hu
      obtain rfl : d = c := Option.some.inj h
      rw [if_pos hu]
    · rename_i hu
      rw [if_neg hu, idsBelow_cons, List.count_append, ih h]
      omega

theorem count_put_some {t : String} {cs : List (String × Node)} {c : Node} (k : Nat) (c' : Node)
    (h : find? t cs = some c) :
    (idsBelow (put t c' cs)).count k = c'.ids.count k + (idsBelow (erase t cs)).count k := by
  induction cs with
  | nil => cases h
  | cons d cs ih =>
    obtain ⟨u, d⟩ := d
    rw [find?_cons] at h
    rw [put, erase_cons]
    split at h
    · rename_i hu
      rw [if_pos hu, if_pos hu, idsBelow_cons, List.count_append]
    · rename_i hu
      rw [if_neg hu, if_neg hu, idsBelow_cons, idsBelow_cons, List.count_append, List.count_append,
        ih h]
      omega

theorem mem_put_erase {t : String} {cs : List (String × Node)} {c : Node} {d : String × Node}
    (h : d ∈ put t c cs) : d = (t, c) ∨ d ∈ erase t cs := by
  induction cs with
  | nil => exact .inl (by simpa [put] using h)
  | cons f cs ih =>
    obtain ⟨u, f⟩ := f
    rw [put] at h
    rw [erase_cons]
    split at h
    · rename_i hu
      rw [if_pos hu]
      rcases List.mem_cons.1 h with rfl | h
      · exact .inl rfl
      · exact .inr h
    · rename_i hu
      rw [if_neg hu]
      rcases List.mem_cons.1 h with rfl | h
      · exact .inr List.mem_cons_self
      · exact (ih h).imp_right (List.mem_cons_of_mem _)

/-- The numbers of a tree are different, and below the next one that is given out. -/
def Numbered (next : Nat) (n : Node) : Prop :=
  ∀ k, n.ids.count k ≤ if k < next then 1 else 0

theorem numbered_leaf (id : Nat) : (leaf id).Numbered (id + 1) := by
  intro k
  have hcount : (leaf id).ids.count k = if k = id then 1 else 0 := by
    rw [show (leaf id).ids = [id] from rfl, List.count_singleton]
    simp only [beq_iff_eq, @eq_comm _ k]
  rw [hcount]
  split <;> split <;> omega

section

variable {e : Edit} {t : String} {ts : List String} {next next' stop : Nat} {n n' c : Node}

theorem insert_found (he : n.edit = none) (hc : find? t n.children = some c) :
    insert e (t :: ts) next n =
      (insert e ts next c).map fun p => (.make n.id none (put t p.1 n.children), p.2) := by
  obtain ⟨id, edit, cs⟩ := n
  obtain rfl : edit = none := he
  have hc : find? t cs = some c := hc
  simp only [insert, takeChild_eq, hc, putChild_eq]
  rfl

theorem insert_new (he : n.edit = none) (hc : find? t n.children = none) :
    insert e (t :: ts) next n =
      (insert e ts (next + 1) (leaf next)).map fun p =>
        (.make n.id none (put t p.1 n.children), p.2) := by
  obtain ⟨id, edit, cs⟩ := n
  obtain rfl : edit = none := he
  have hc : find? t cs = none := hc
  simp only [insert, takeChild_eq, hc, putChild_eq]
  rfl

/-- Adding an edit gives out the numbers from the next one on, each once. -/
theorem count_insert (h : insert e ts next n = some (n', next', stop)) :
    n'.id = n.id ∧ next ≤ next' ∧ ∀ k, n'.ids.count k =
      n.ids.count k + if next ≤ k ∧ k < next' then 1 else 0 := by
  induction ts generalizing next n n' with
  | nil =>
    obtain ⟨hchildren, rfl⟩ := insert_nil h
    obtain ⟨id, edit, cs⟩ := n
    obtain rfl : cs = [] := hchildren
    obtain ⟨-, rfl, -⟩ : id = (make id edit []).id ∧ next = next' ∧ id = stop := by
      simpa [insert] using h
    refine ⟨rfl, le_rfl, fun k => ?_⟩
    rw [if_neg (by omega)]
    rfl
  | cons t ts ih =>
    have he : n.edit = none := (insert_cons h).1
    cases hc : find? t n.children with
    | some c =>
      rw [insert_found he hc] at h
      obtain ⟨⟨c', p⟩, hinsert, heq⟩ := Option.map_eq_some_iff.1 h
      cases heq
      obtain ⟨-, hle, hcount⟩ := ih hinsert
      refine ⟨rfl, hle, fun k => ?_⟩
      have hput := count_put_some k c' hc
      have herase := count_erase k hc
      rw [hcount] at hput
      rw [ids_eq, ids_eq, List.count_cons, List.count_cons]
      show (idsBelow (put t c' n.children)).count k + (if n.id == k then 1 else 0) = _
      omega
    | none =>
      rw [insert_new he hc] at h
      obtain ⟨⟨c', p⟩, hinsert, heq⟩ := Option.map_eq_some_iff.1 h
      cases heq
      obtain ⟨-, hle, hcount⟩ := ih hinsert
      refine ⟨rfl, by omega, fun k => ?_⟩
      have hput := count_put_none k c' hc
      have hleaf : (leaf next).ids.count k = if k = next then 1 else 0 := by
        rw [show (leaf next).ids = [next] from rfl, List.count_singleton]
        simp only [beq_iff_eq, @eq_comm _ k]
      rw [hcount, hleaf] at hput
      rw [ids_eq, ids_eq, List.count_cons, List.count_cons]
      show (idsBelow (put t c' n.children)).count k + (if n.id == k then 1 else 0) = _
      rw [hput]
      split_ifs <;> omega

theorem Numbered.insert (hn : n.Numbered next) (h : n.insert e ts next = some (n', next', stop)) :
    n'.Numbered next' := by
  obtain ⟨-, hle, hcount⟩ := count_insert h
  intro k
  have hk := hn k
  rw [hcount k]
  split_ifs at hk ⊢ <;> omega

theorem Numbered.nodup (h : n.Numbered next) : n.ids.Nodup := by
  rw [List.nodup_iff_count_le_one]
  intro k
  have hk := h k
  split at hk <;> omega

theorem Numbered.lt {k : Nat} (h : n.Numbered next) (hk : k ∈ n.ids) : k < next := by
  have hcount := h k
  have hpos := List.count_pos_iff.2 hk
  split at hcount
  · assumption
  · omega

theorem Numbered.apart {k : Nat} (h : n.Numbered next) (hc : find? t n.children = some c)
    (hk : k ∈ c.ids) : k ≠ n.id ∧ k ∉ idsBelow (erase t n.children) := by
  have hcount := h k
  have hpos := List.count_pos_iff.2 hk
  have hle : n.ids.count k ≤ 1 := by
    split at hcount <;> omega
  rw [ids_eq, List.count_cons, count_erase k hc] at hle
  constructor
  · rintro rfl
    simp only [BEq.rfl, ↓reduceIte] at hle
    omega
  · intro hk'
    have hpos' := List.count_pos_iff.2 hk'
    omega

theorem Numbered.ne_root {k : Nat} (h : n.Numbered next) (hk : k ∈ idsBelow n.children) :
    k ≠ n.id := by
  have hnodup := h.nodup
  rw [ids_eq, List.nodup_cons] at hnodup
  rintro rfl
  exact hnodup.1 hk

theorem Numbered.child (h : n.Numbered next) (hc : (t, c) ∈ n.children) : c.Numbered next := by
  intro k
  have hsub : List.Sublist c.ids n.ids := by
    rw [ids_eq n]
    exact (ids_sublist hc).trans (List.sublist_cons_self _ _)
  exact (hsub.count_le k).trans (h k)

end

end Node

/-- What an arena holds of a node. -/
structure Slot where
  edit : Option Edit
  children : List (String × Nat)

def Slot.blank : Slot := ⟨none, []⟩

def childIds (cs : List (String × Node)) : List (String × Nat) := cs.map fun c => (c.1, c.2.id)

def Node.slot (n : Node) : Slot := ⟨n.edit, childIds n.children⟩

/-- The root stands in the first slot. -/
abbrev Arena := List Slot

namespace Arena

def empty : Arena := [.blank]

/-- Drops all slots but the first, which is made blank. -/
def clear (a : Arena) : Arena := (a.take 1).map fun _ => .blank

def slot (id : Nat) (a : Arena) : Slot := (a[id]?).getD .blank

/-- The slots with one more, a child of a slot that is there. -/
def grow (t : String) (id : Nat) (a : Arena) : Arena :=
  (a ++ [Slot.blank]).modify id fun s => { s with children := s.children ++ [(t, a.length)] }

/-- Adds an edit where the tokens lead from a slot. What has been added on the way stays, also when
the edit turns out not to fit in. -/
def insert (e : Edit) : List String → Nat → Arena → Except Error Nat × Arena
  | [], id, a =>
    if (a.slot id).children.isEmpty then (.ok id, a.modify id fun s => { s with edit := some e })
    else (.error (.unsupported e.path e.kind.name), a)
  | t :: ts, id, a =>
    if (a.slot id).edit.isSome then (.error (.unsupported e.path e.kind.name), a)
    else
      match find? t (a.slot id).children with
      | some c => insert e ts c a
      | none => insert e ts a.length (a.grow t id)

/-- Every one of some nodes stands in its slot. -/
def Shows (a : Arena) (ns : List Node) : Prop := ∀ n ∈ ns, a[n.id]? = some n.slot

variable {a a' : Arena} {e : Edit} {n : Node} {ns ms : List Node}

theorem Shows.mono (h : a.Shows ns) (hms : ms ⊆ ns) : a.Shows ms := fun n hn => h n (hms hn)

theorem shows_append : a.Shows (ns ++ ms) ↔ a.Shows ns ∧ a.Shows ms := List.forall_mem_append

theorem shows_cons : a.Shows (n :: ns) ↔ a[n.id]? = some n.slot ∧ a.Shows ns := List.forall_mem_cons

/-- Slots that stay as they are show the same. -/
theorem Shows.congr (h : a.Shows ns) (hsame : ∀ k ∈ ns.map Node.id, a'[k]? = a[k]?) :
    a'.Shows ns := by
  intro n hn
  rw [hsame _ (List.mem_map_of_mem hn), h n hn]

theorem Shows.slot (h : a.Shows n.family) : a.slot n.id = n.slot := by
  rw [Node.family_eq, shows_cons] at h
  rw [Arena.slot, h.1]
  rfl

theorem shows_below {cs : List (String × Node)} :
    a.Shows (Node.familyBelow cs) ↔ ∀ c ∈ cs, a.Shows c.2.family := by
  induction cs with
  | nil => exact ⟨fun _ => nofun, fun _ => nofun⟩
  | cons c cs ih =>
    obtain ⟨t, c⟩ := c
    rw [Node.familyBelow, shows_append, ih, List.forall_mem_cons]

theorem childIds_put {t : String} {c c' : Node} {cs : List (String × Node)}
    (hc : find? t cs = some c) (hid : c'.id = c.id) : childIds (put t c' cs) = childIds cs := by
  induction cs with
  | nil => cases hc
  | cons d cs ih =>
    obtain ⟨u, d⟩ := d
    rw [find?_cons] at hc
    rw [put]
    split at hc
    · rename_i hu
      obtain rfl : d = c := Option.some.inj hc
      rw [if_pos hu, childIds, childIds, List.map_cons, List.map_cons, hid, hu]
    · rename_i hu
      rw [if_neg hu]
      exact congrArg (List.cons (u, d.id)) (ih hc)

/-- What comes of adding an edit below a node that the arena shows. -/
structure Added (a : Arena) (n : Node) (p : Except Error Nat × Arena) (n' : Node)
    (next stop : Nat) : Prop where
  answer : p.1 = .ok stop
  length : p.2.length = next
  shows : p.2.Shows n'.family
  same : ∀ k, k < a.length → k ∉ n.ids → p.2[k]? = a[k]?

theorem find?_slot (t : String) (n : Node) :
    find? t n.slot.children = (find? t n.children).map Node.id := find?_map Node.id t n.children

theorem getElem?_modify_self (id : Nat) (f : Slot → Slot) (a : Arena) :
    (a.modify id f)[id]? = (a[id]?).map f := by
  rw [List.getElem?_modify]
  simp

theorem getElem?_modify_of_ne {id k : Nat} (h : k ≠ id) (f : Slot → Slot) (a : Arena) :
    (a.modify id f)[k]? = a[k]? := by
  rw [List.getElem?_modify]
  simp [Ne.symm h]

variable {t : String} {ts : List String} {c c' n' : Node} {next stop : Nat}

theorem added_here (hshows : a.Shows n.family)
    (h : n.insert e [] a.length = some (n', next, stop)) :
    Added a n (a.insert e [] n.id) n' next stop := by
  obtain ⟨hchildren, rfl⟩ := Node.insert_nil h
  obtain ⟨rfl, rfl⟩ : a.length = next ∧ n.id = stop := by
    obtain ⟨id, edit, cs⟩ := n
    obtain rfl : cs = [] := hchildren
    simpa [Node.insert, Node.id] using h
  have hslot := hshows.slot
  have hempty : n.slot.children.isEmpty = true := by
    rw [Node.slot, hchildren]
    rfl
  rw [insert, hslot, if_pos hempty]
  refine ⟨rfl, List.length_modify _ _ _, ?_, ?_⟩
  · intro m hm
    obtain rfl : m = .make n.id (some e) [] := by simpa [Node.family, Node.familyBelow] using hm
    show (a.modify n.id _)[n.id]? = _
    rw [getElem?_modify_self, (shows_cons.1 (n.family_eq ▸ hshows)).1, Node.slot, hchildren]
    rfl
  · intro k _ hk
    apply getElem?_modify_of_ne
    rintro rfl
    exact hk (n.ids_eq ▸ List.mem_cons_self)

theorem shows_children (h : a.Shows n.family) : a.Shows (Node.familyBelow n.children) := by
  rw [Node.family_eq, shows_cons] at h
  exact h.2

theorem shows_of_mem (h : a.Shows n.family) (hc : (t, c) ∈ n.children) : a.Shows c.family :=
  (shows_children h).mono (Node.family_sublist hc).subset

theorem added_found (hshows : a.Shows n.family) (hn : n.Numbered a.length) (he : n.edit = none)
    (hc : find? t n.children = some c) (hid : c'.id = c.id)
    (h : Added a c (a.insert e ts c.id) c' next stop) :
    Added a n (a.insert e (t :: ts) n.id) (.make n.id none (put t c' n.children)) next stop := by
  have hstep : a.insert e (t :: ts) n.id = a.insert e ts c.id := by
    rw [insert, hshows.slot, find?_slot, hc, if_neg (by simp [Node.slot, he])]
    rfl
  have hmem := mem_of_find? hc
  have hids : c.ids ⊆ n.ids := by
    rw [n.ids_eq]
    exact List.subset_cons_of_subset _ (Node.ids_sublist hmem).subset
  have hroot : n.id ∈ n.ids := n.ids_eq ▸ List.mem_cons_self
  have hrest : ∀ k ∈ n.ids, k ∉ c.ids → (a.insert e ts c.id).2[k]? = a[k]? := by
    intro k hk hkc
    exact h.same k (hn.lt hk) hkc
  rw [hstep]
  refine ⟨h.answer, h.length, ?_, fun k hlt hk => h.same k hlt fun hk' => hk (hids hk')⟩
  rw [Node.family_eq, shows_cons, shows_below]
  constructor
  · show (a.insert e ts c.id).2[n.id]? = some ⟨none, childIds (put t c' n.children)⟩
    rw [hrest _ hroot fun hk => (hn.apart hc hk).1 rfl, childIds_put hc hid,
      (shows_cons.1 (n.family_eq ▸ hshows)).1, Node.slot, he]
  · intro d hd
    rcases Node.mem_put_erase hd with rfl | hd
    · exact h.shows
    · apply (shows_of_mem hshows (mem_of_mem_erase hd)).congr
      intro k hk
      have hbelow := (Node.ids_sublist (t := d.1) (c := d.2) hd).subset hk
      apply hrest
      · rw [n.ids_eq]
        exact List.mem_cons_of_mem _
          ((Node.ids_sublist (t := d.1) (c := d.2) (mem_of_mem_erase hd)).subset hk)
      · exact fun hkc => (hn.apart hc hkc).2 hbelow

theorem added_new (hshows : a.Shows n.family) (hn : n.Numbered a.length) (he : n.edit = none)
    (hc : find? t n.children = none) (hid : c'.id = a.length)
    (h : Added (a.grow t n.id) (.leaf a.length) ((a.grow t n.id).insert e ts a.length) c' next
      stop) :
    Added a n (a.insert e (t :: ts) n.id) (.make n.id none (put t c' n.children)) next stop := by
  have hstep : a.insert e (t :: ts) n.id = (a.grow t n.id).insert e ts a.length := by
    rw [insert, hshows.slot, find?_slot, hc, if_neg (by simp [Node.slot, he])]
    rfl
  have hroot : n.id ∈ n.ids := n.ids_eq ▸ List.mem_cons_self
  have hlength : (a.grow t n.id).length = a.length + 1 := by simp [grow]
  have hgrown : ∀ k < a.length,
      ((a.grow t n.id).insert e ts a.length).2[k]? = (a.grow t n.id)[k]? := by
    intro k hk
    apply h.same k (by omega)
    intro hk'
    obtain rfl := List.mem_singleton.1 hk'
    exact lt_irrefl _ hk
  have hrest : ∀ k < a.length, k ≠ n.id →
      ((a.grow t n.id).insert e ts a.length).2[k]? = a[k]? := by
    intro k hk hne
    rw [hgrown k hk, grow, getElem?_modify_of_ne hne, List.getElem?_append_left hk]
  rw [hstep]
  refine ⟨h.answer, h.length, ?_, ?_⟩
  · rw [Node.family_eq, shows_cons, shows_below]
    constructor
    · show ((a.grow t n.id).insert e ts a.length).2[n.id]? =
        some ⟨none, childIds (put t c' n.children)⟩
      have hlt := hn.lt hroot
      rw [hgrown _ hlt, grow, getElem?_modify_self, List.getElem?_append_left hlt,
        (shows_cons.1 (n.family_eq ▸ hshows)).1, put_of_not_mem c' (find?_eq_none.1 hc),
        childIds, List.map_append, List.map_singleton, hid]
      simp only [Option.map_some, Node.slot, he]
      rfl
    · intro d hd
      rcases mem_put hd with rfl | hd
      · exact h.shows
      · apply (shows_of_mem hshows hd).congr
        intro k hk
        have hbelow := (Node.ids_sublist (t := d.1) (c := d.2) hd).subset hk
        apply hrest k
        · exact hn.lt (n.ids_eq ▸ List.mem_cons_of_mem _ hbelow)
        · exact hn.ne_root hbelow
  · intro k hlt hk
    apply hrest k hlt
    rintro rfl
    exact hk hroot

theorem shows_grow (hn : n.Numbered a.length) :
    (a.grow t n.id).Shows (Node.leaf a.length).family := by
  intro m hm
  obtain rfl := List.mem_singleton.1 hm
  have hne : a.length ≠ n.id := (hn.lt (n.ids_eq ▸ List.mem_cons_self)).ne'
  show (a.grow t n.id)[a.length]? = _
  rw [grow, getElem?_modify_of_ne hne, List.getElem?_append_right le_rfl, Nat.sub_self]
  rfl

/-- What is added to a tree is added to the arena that shows it. -/
theorem insert_added (hshows : a.Shows n.family) (hn : n.Numbered a.length)
    (h : n.insert e ts a.length = some (n', next, stop)) :
    Added a n (a.insert e ts n.id) n' next stop := by
  induction ts generalizing a n n' next with
  | nil => exact added_here hshows h
  | cons t ts ih =>
    have he : n.edit = none := (Node.insert_cons h).1
    cases hc : find? t n.children with
    | some c =>
      rw [Node.insert_found he hc] at h
      obtain ⟨⟨c', p⟩, hinsert, heq⟩ := Option.map_eq_some_iff.1 h
      cases heq
      have hmem := mem_of_find? hc
      exact added_found hshows hn he hc (Node.count_insert hinsert).1
        (ih (shows_of_mem hshows hmem) (hn.child hmem) hinsert)
    | none =>
      rw [Node.insert_new he hc] at h
      obtain ⟨⟨c', p⟩, hinsert, heq⟩ := Option.map_eq_some_iff.1 h
      cases heq
      have hlength : (a.grow t n.id).length = a.length + 1 := by simp [grow]
      have hadded := ih (a := a.grow t n.id) (n := .leaf a.length) (shows_grow hn)
        (hlength ▸ Node.numbered_leaf a.length) (hlength ▸ hinsert)
      exact added_new hshows hn he hc (Node.count_insert hinsert).1 hadded

/-- What does not fit into a tree does not fit into the arena, which stays as it is: below a new
slot everything fits. -/
theorem insert_refused (hshows : a.Shows n.family) (hn : n.Numbered a.length)
    (h : n.insert e ts a.length = none) :
    a.insert e ts n.id = (.error (.unsupported e.path e.kind.name), a) := by
  induction ts generalizing a n with
  | nil =>
    obtain ⟨id, edit, cs⟩ := n
    rw [Node.insert] at h
    split at h
    · cases h
    · rename_i hcs
      have hchildren : ¬(Node.make id edit cs).slot.children.isEmpty = true := by
        rwa [Node.slot, childIds, List.isEmpty_map]
      rw [insert, hshows.slot, if_neg hchildren]
  | cons t ts ih =>
    rw [insert, hshows.slot]
    split
    · rfl
    rename_i he
    have he : n.edit = none := by simpa [Node.slot] using he
    rw [find?_slot]
    cases hc : find? t n.children with
    | some c =>
      have hmem := mem_of_find? hc
      rw [Node.insert_found he hc, Option.map_eq_none_iff] at h
      exact ih (shows_of_mem hshows hmem) (hn.child hmem) h
    | none =>
      rw [Node.insert_new he hc, Option.map_eq_none_iff] at h
      obtain ⟨q, f, hq, -⟩ := Node.exists_of_insert_none (.leaf a.length) h
      rw [Node.along_leaf] at hq
      cases hq

end Arena

end Quarry.Patch
