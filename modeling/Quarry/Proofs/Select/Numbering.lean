import Quarry.Proofs.Select.PathTree

/-!
The nodes of a tree of paths bear different numbers, so that a number stands for its node. The
visits that are noted at nodes change nothing that paths are followed by.
-/

namespace Quarry

namespace PathNode

variable {α : Type}

/-! ### Visits -/

mutual

/-- The same node with no visits noted. -/
def unvisited : PathNode α → PathNode α
  | .make id _ collectors children => .make id 0 collectors (unvisitedBelow children)

def unvisitedBelow : List (Segment × PathNode α) → List (Segment × PathNode α)
  | [] => []
  | (s, c) :: cs => (s, c.unvisited) :: unvisitedBelow cs

end

@[simp] theorem id_unvisited (n : PathNode α) : n.unvisited.id = n.id := by
  cases n
  rfl

@[simp] theorem collectors_unvisited (n : PathNode α) : n.unvisited.collectors = n.collectors := by
  cases n
  rfl

theorem unvisitedBelow_eq (cs : List (Segment × PathNode α)) :
    unvisitedBelow cs = cs.map fun c => (c.1, c.2.unvisited) := by
  induction cs with
  | nil => rfl
  | cons c cs ih => rw [unvisitedBelow, ih, List.map_cons]

theorem children_unvisited (n : PathNode α) :
    n.unvisited.children = n.children.map fun c => (c.1, c.2.unvisited) := by
  cases n
  exact unvisitedBelow_eq _

@[simp] theorem hasChildren_unvisited (n : PathNode α) :
    n.unvisited.hasChildren = n.hasChildren := by
  rw [hasChildren, hasChildren, children_unvisited, List.isEmpty_map]

theorem child?_unvisited (s : Segment) (n : PathNode α) :
    n.unvisited.child? s = (n.child? s).map unvisited := by
  rw [child?, child?, children_unvisited, List.find?_map, Option.map_map, Option.map_map]
  rfl

mutual

theorem unvisited_markVisit (k i : Nat) :
    (n : PathNode α) → (n.markVisit k i).unvisited = n.unvisited
  | .make id visited collectors children => by
    rw [markVisit, unvisited, unvisited, unvisitedBelow_markVisitBelow k i children]

theorem unvisitedBelow_markVisitBelow (k i : Nat) : (cs : List (Segment × PathNode α)) →
    unvisitedBelow (markVisitBelow k i cs) = unvisitedBelow cs
  | [] => rfl
  | (s, c) :: cs => by
    rw [markVisitBelow, unvisitedBelow, unvisitedBelow, unvisited_markVisit k i c,
      unvisitedBelow_markVisitBelow k i cs]

end

mutual

theorem withId?_unvisited (k : Nat) : (n : PathNode α) →
    n.unvisited.withId? k = (n.withId? k).map unvisited
  | .make id visited collectors children => by
    rw [unvisited, withId?, withId?, childWithId?_unvisitedBelow k children]
    split
    · rw [Option.map_some, unvisited]
    · rfl

theorem childWithId?_unvisitedBelow (k : Nat) : (cs : List (Segment × PathNode α)) →
    childWithId? k (unvisitedBelow cs) = (childWithId? k cs).map unvisited
  | [] => rfl
  | (s, c) :: cs => by
    rw [unvisitedBelow, childWithId?, childWithId?, withId?_unvisited k c,
      childWithId?_unvisitedBelow k cs, Option.map_or]

end

theorem putChild_unvisited (s : Segment) (c : PathNode α) (cs : List (Segment × PathNode α)) :
    unvisitedBelow (putChild s c cs) = putChild s c.unvisited (unvisitedBelow cs) := by
  induction cs with
  | nil => rfl
  | cons d cs ih =>
    obtain ⟨t, d⟩ := d
    rw [putChild, unvisitedBelow, putChild]
    split
    · rw [unvisitedBelow]
    · rw [unvisitedBelow, ih]

theorem insert_unvisited (a : α) (path : Path) (next : Nat) (n : PathNode α) :
    insert a path next n.unvisited =
      ((insert a path next n).1.unvisited, (insert a path next n).2) := by
  induction path generalizing next n with
  | nil =>
    cases n
    rfl
  | cons s path ih =>
    have hchild := child?_unvisited s n
    cases n with
    | make id visited collectors children =>
      rw [unvisited] at hchild ⊢
      rw [insert, insert, hchild]
      cases (make id visited collectors children).child? s with
      | none =>
        have hleaf : (insert a path (next + 1) (leaf next)).1.unvisited =
            (insert a path (next + 1) (leaf next)).1 :=
          (congrArg Prod.fst (ih (next + 1) (leaf next))).symm
        simp only [Option.map_none, unvisited, putChild_unvisited, hleaf]
      | some c =>
        simp only [Option.map_some, ih, unvisited, putChild_unvisited]

/-! ### Numbers -/

mutual

def ids : PathNode α → List Nat
  | .make id _ _ children => id :: idsBelow children

def idsBelow : List (Segment × PathNode α) → List Nat
  | [] => []
  | (_, c) :: cs => c.ids ++ idsBelow cs

end

mutual

theorem ids_unvisited : (n : PathNode α) → n.unvisited.ids = n.ids
  | .make id visited collectors children => by
    rw [unvisited, ids, ids, idsBelow_unvisitedBelow children]

theorem idsBelow_unvisitedBelow : (cs : List (Segment × PathNode α)) →
    idsBelow (unvisitedBelow cs) = idsBelow cs
  | [] => rfl
  | (s, c) :: cs => by
    rw [unvisitedBelow, idsBelow, idsBelow, ids_unvisited c, idsBelow_unvisitedBelow cs]

end

theorem withId?_self (n : PathNode α) : n.withId? n.id = some n := by
  cases n
  rw [withId?]
  exact if_pos rfl

mutual

theorem withId?_eq_none {k : Nat} : {n : PathNode α} → k ∉ n.ids → n.withId? k = none
  | .make id visited collectors children, h => by
    rw [ids, List.mem_cons, not_or] at h
    rw [withId?, if_neg (Ne.symm h.1), childWithId?_eq_none h.2]

theorem childWithId?_eq_none {k : Nat} : {cs : List (Segment × PathNode α)} → k ∉ idsBelow cs →
    childWithId? k cs = none
  | [], _ => rfl
  | (s, c) :: cs, h => by
    rw [idsBelow, List.mem_append, not_or] at h
    rw [childWithId?, withId?_eq_none h.1, childWithId?_eq_none h.2]
    rfl

end

theorem mem_ids_of_withId? {k : Nat} {m n : PathNode α} (h : n.withId? k = some m) : k ∈ n.ids := by
  by_contra hk
  rw [withId?_eq_none hk] at h
  cases h

theorem mem_idsBelow_of_childWithId? {k : Nat} {m : PathNode α}
    {cs : List (Segment × PathNode α)} (h : childWithId? k cs = some m) : k ∈ idsBelow cs := by
  by_contra hk
  rw [childWithId?_eq_none hk] at h
  cases h

theorem mem_idsBelow {k : Nat} {s : Segment} {c : PathNode α} {cs : List (Segment × PathNode α)}
    (hc : (s, c) ∈ cs) (hk : k ∈ c.ids) : k ∈ idsBelow cs := by
  induction cs with
  | nil => cases hc
  | cons d cs ih =>
    obtain ⟨t, d⟩ := d
    rw [idsBelow, List.mem_append]
    rcases List.mem_cons.1 hc with heq | hc
    · cases heq
      exact .inl hk
    · exact .inr (ih hc)

/-- Numbers that are all different lead to where they are. -/
theorem childWithId?_of_mem {k : Nat} {s : Segment} {c m : PathNode α}
    {cs : List (Segment × PathNode α)} (hcs : (idsBelow cs).Nodup) (hc : (s, c) ∈ cs)
    (hm : c.withId? k = some m) : childWithId? k cs = some m := by
  induction cs with
  | nil => cases hc
  | cons d cs ih =>
    obtain ⟨t, d⟩ := d
    rw [idsBelow, List.nodup_append] at hcs
    obtain ⟨-, hcs, hapart⟩ := hcs
    rw [childWithId?]
    rcases List.mem_cons.1 hc with heq | hc
    · cases heq
      rw [hm]
      rfl
    · have hk : k ∉ d.ids := by
        intro hk
        exact hapart _ hk _ (mem_idsBelow hc (mem_ids_of_withId? hm)) rfl
      rw [withId?_eq_none hk, ih hcs hc]
      rfl

mutual

theorem withId?_child {k : Nat} {s : Segment} {c m : PathNode α} (hc : (s, c) ∈ m.children) :
    {n : PathNode α} → n.ids.Nodup → n.withId? k = some m → n.withId? c.id = some c
  | .make id visited collectors children, hn, hm => by
    rw [ids, List.nodup_cons] at hn
    rw [withId?] at hm
    have hbelow : childWithId? c.id children = some c := by
      split at hm
      · cases hm
        exact childWithId?_of_mem hn.2 hc (withId?_self c)
      · exact childWithId?_child hc hn.2 hm
    have hid : id ≠ c.id := by
      rintro rfl
      rw [childWithId?_eq_none hn.1] at hbelow
      cases hbelow
    rw [withId?, if_neg hid, hbelow]

theorem childWithId?_child {k : Nat} {s : Segment} {c m : PathNode α} (hc : (s, c) ∈ m.children) :
    {cs : List (Segment × PathNode α)} → (idsBelow cs).Nodup → childWithId? k cs = some m →
    childWithId? c.id cs = some c
  | [], _, hm => by cases hm
  | (t, d) :: cs, hcs, hm => by
    have hall := hcs
    rw [idsBelow, List.nodup_append] at hcs
    rw [childWithId?, Option.or_eq_some_iff] at hm
    rcases hm with hm | ⟨-, hm⟩
    · exact childWithId?_of_mem hall List.mem_cons_self (withId?_child hc hcs.1 hm)
    · have hfound := childWithId?_child hc hcs.2.1 hm
      have hd : c.id ∉ d.ids := by
        intro hd
        exact hcs.2.2 _ hd _ (mem_idsBelow_of_childWithId? hfound) rfl
      rw [childWithId?, withId?_eq_none hd, hfound]
      rfl

end

theorem count_putChild_none {s : Segment} {cs : List (Segment × PathNode α)} (k : Nat)
    (c : PathNode α) (h : (cs.find? fun d => d.1 == s) = none) :
    (idsBelow (putChild s c cs)).count k = (idsBelow cs).count k + c.ids.count k := by
  induction cs with
  | nil => simp [putChild, idsBelow]
  | cons d cs ih =>
    obtain ⟨t, d⟩ := d
    rw [List.find?_cons] at h
    split at h
    · cases h
    · rename_i ht
      have hne : t ≠ s := by simpa using ht
      rw [putChild, if_neg hne, idsBelow, idsBelow, List.count_append, List.count_append, ih h,
        Nat.add_assoc]

theorem count_putChild_some {s : Segment} {cs : List (Segment × PathNode α)} {c : PathNode α}
    (k : Nat) (c' : PathNode α) (h : (cs.find? fun d => d.1 == s).map Prod.snd = some c) :
    (idsBelow (putChild s c' cs)).count k + c.ids.count k =
      (idsBelow cs).count k + c'.ids.count k := by
  induction cs with
  | nil => cases h
  | cons d cs ih =>
    obtain ⟨t, d⟩ := d
    rw [List.find?_cons] at h
    rw [putChild]
    split at h
    · rename_i ht
      obtain rfl : d = c := by simpa using h
      rw [if_pos (by simpa using ht), idsBelow, idsBelow, List.count_append, List.count_append]
      omega
    · rename_i ht
      have hne : t ≠ s := by simpa using ht
      have hrest := ih h
      rw [if_neg hne, idsBelow, idsBelow, List.count_append, List.count_append]
      omega

/-- The numbers of a tree are different, and below the next one that is given out. -/
def Numbered (next : Nat) (n : PathNode α) : Prop :=
  ∀ k, n.ids.count k ≤ if k < next then 1 else 0

theorem Numbered.nodup {next : Nat} {n : PathNode α} (h : n.Numbered next) : n.ids.Nodup := by
  rw [List.nodup_iff_count_le_one]
  intro k
  have hk := h k
  split at hk <;> omega

theorem numbered_leaf (id : Nat) : (leaf id : PathNode α).Numbered (id + 1) := by
  intro k
  simp only [leaf, ids, idsBelow, List.count_singleton, beq_iff_eq]
  split <;> split <;> omega

/-- Adding a path gives out the numbers from the next one on, each once. -/
theorem count_insert (a : α) (path : Path) (next : Nat) (n : PathNode α) :
    next ≤ (insert a path next n).2.1 ∧ ∀ k, (insert a path next n).1.ids.count k =
      n.ids.count k + if next ≤ k ∧ k < (insert a path next n).2.1 then 1 else 0 := by
  induction path generalizing next n with
  | nil =>
    cases n with
    | make id visited collectors children =>
      refine ⟨le_rfl, fun k => ?_⟩
      rw [insert, if_neg (by simp only; omega)]
      rfl
  | cons s path ih =>
    cases n with
    | make id visited collectors children =>
      rw [insert]
      cases hchild : (make id visited collectors children).child? s with
      | none =>
        have hnew := ih (next + 1) (leaf next)
        have hfind : (children.find? fun d => d.1 == s) = none := by
          simpa [child?, PathNode.children] using hchild
        have hput := fun k c => count_putChild_none k c hfind
        rcases hp : insert a path (next + 1) (leaf next) with ⟨c, next', stop⟩
        rw [hp] at hnew
        obtain ⟨hle, hcount⟩ := hnew
        simp only at hle hcount ⊢
        refine ⟨by omega, fun k => ?_⟩
        have hleaf : (leaf next : PathNode α).ids.count k = if k = next then 1 else 0 := by
          rw [leaf, ids, idsBelow, List.count_singleton]
          simp only [beq_iff_eq, @eq_comm _ k]
        rw [ids, ids, List.count_cons, List.count_cons, hput, hcount, hleaf]
        split_ifs <;> omega
      | some c =>
        have hold := ih next c
        have hput := fun k c' => count_putChild_some k c' hchild
        rcases hp : insert a path next c with ⟨c', next', stop⟩
        rw [hp] at hold
        obtain ⟨hle, hcount⟩ := hold
        simp only [hp] at hle hcount ⊢
        refine ⟨hle, fun k => ?_⟩
        have hk := hput k c'
        rw [hcount] at hk
        rw [ids, ids, List.count_cons, List.count_cons]
        have hchildren : (make id visited collectors children).children = children := rfl
        rw [hchildren] at hk
        omega

theorem Numbered.insert {next : Nat} {n : PathNode α} (h : n.Numbered next) (a : α) (path : Path) :
    (n.insert a path next).1.Numbered (n.insert a path next).2.1 := by
  obtain ⟨hle, hcount⟩ := count_insert a path next n
  intro k
  have hk := h k
  rw [hcount k]
  split_ifs at hk ⊢ <;> omega

theorem id_insert (a : α) (path : Path) (next : Nat) (n : PathNode α) :
    (insert a path next n).1.id = n.id := by
  cases path with
  | nil =>
    rw [insert_nil]
    rfl
  | cons s path =>
    rw [insert_cons]
    rfl

end PathNode

namespace PathTree

variable {α : Type}

/-- The child for a member or an element. -/
def childFor? (isObject : Bool) (key : String) (i id : Nat) (t : PathTree α) :
    Option Nat × PathTree α :=
  if isObject then (t.childForKey? id key, t) else t.childForIndex? id i

def nodeAt (id : Nat) (t : PathTree α) : PathNode α := (t.node? id).getD (.leaf id)

/-- The same tree with no visits noted. -/
def unvisited (t : PathTree α) : PathTree α := ⟨t.root.unvisited, t.size⟩

variable {t tree : PathTree α} {n : PathNode α} {id : Nat}

theorem node?_unvisited (id : Nat) (t : PathTree α) :
    t.unvisited.node? id = (t.node? id).map PathNode.unvisited :=
  PathNode.withId?_unvisited id t.root

theorem exists_of_node?_unvisited (ht : t.unvisited = tree) (hn : tree.node? id = some n) :
    ∃ m, t.node? id = some m ∧ m.unvisited = n := by
  rw [← ht, node?_unvisited, Option.map_eq_some_iff] at hn
  exact hn

theorem collectors_nodeAt (ht : t.unvisited = tree) (hn : tree.node? id = some n) :
    (t.nodeAt id).collectors = n.collectors ∧ (t.nodeAt id).hasChildren = n.hasChildren := by
  obtain ⟨m, hm, rfl⟩ := exists_of_node?_unvisited ht hn
  rw [nodeAt, hm, Option.getD_some, PathNode.collectors_unvisited, PathNode.hasChildren_unvisited]
  exact ⟨rfl, rfl⟩

/-- A child is found by the number of its node; at most a visit is noted on the way. -/
theorem childFor?_eq (ht : t.unvisited = tree) (hn : tree.node? id = some n) (o : Bool)
    (key : String) (i : Nat) :
    ∃ t', t'.unvisited = tree ∧ t.childFor? o key i id =
      ((if o then n.child? (.key key) else n.childAt? i).map PathNode.id, t') := by
  obtain ⟨m, hm, rfl⟩ := exists_of_node?_unvisited ht hn
  have hid (c : Option (PathNode α)) :
      (c.map PathNode.unvisited).map PathNode.id = c.map PathNode.id := by
    cases c with
    | none => rfl
    | some c => exact congrArg some (PathNode.id_unvisited c)
  cases o with
  | true =>
    refine ⟨t, ht, ?_⟩
    show (((t.node? id).bind (PathNode.child? (.key key))).map PathNode.id, t) =
      ((m.unvisited.child? (.key key)).map PathNode.id, t)
    rw [hm, Option.bind_some, PathNode.child?_unvisited, hid]
  | false =>
    show ∃ t', t'.unvisited = tree ∧ t.childForIndex? id i =
      ((m.unvisited.childAt? i).map PathNode.id, t')
    rw [childForIndex?, hm, Option.bind_some, Option.bind_some, PathNode.childAt?,
      PathNode.child?_unvisited, PathNode.child?_unvisited]
    cases m.child? .wildcard with
    | some c =>
      refine ⟨_, ?_, congrArg (·, _) (congrArg some (PathNode.id_unvisited c).symm)⟩
      rw [← ht, unvisited, unvisited, PathNode.unvisited_markVisit]
    | none =>
      refine ⟨t, ht, ?_⟩
      rw [Option.map_none, Option.none_or, hid]

/-- The numbers of a tree stand for its nodes, and that of the root is zero. -/
structure Numbered (t : PathTree α) : Prop where
  root : t.root.id = 0
  nodes : t.root.Numbered t.size

theorem numbered_empty : (empty : PathTree α).Numbered := ⟨rfl, PathNode.numbered_leaf 0⟩

theorem Numbered.insert (h : t.Numbered) (path : Path) (a : α) : (t.insert path a).2.Numbered :=
  ⟨(PathNode.id_insert a path t.size t.root).trans h.root, h.nodes.insert a path⟩

theorem numbered_unvisited : t.unvisited.Numbered ↔ t.Numbered := by
  constructor
  · rintro ⟨hroot, hnodes⟩
    refine ⟨(PathNode.id_unvisited t.root).symm.trans hroot, fun k => ?_⟩
    rw [← PathNode.ids_unvisited]
    exact hnodes k
  · rintro ⟨hroot, hnodes⟩
    refine ⟨(PathNode.id_unvisited t.root).trans hroot, fun k => ?_⟩
    rw [unvisited, PathNode.ids_unvisited]
    exact hnodes k

theorem insert_unvisited (path : Path) (a : α) (t : PathTree α) :
    (t.unvisited.insert path a).2 = (t.insert path a).2.unvisited := by
  rw [PathTree.insert, PathTree.insert, unvisited, PathNode.insert_unvisited]
  rfl

end PathTree

end Quarry
