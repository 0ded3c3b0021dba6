import Quarry.Proofs.Document.Reading

/-!
The nodes of a document are numbered in reading order, so a number leads to one node.
-/

namespace Quarry

open Json Text

namespace Node

theorem sizeOf_lt_of_mem_parts {n m : Node} (h : m ∈ n.parts) : sizeOf m < sizeOf n := by
  cases n with
  | atom mark a => exact absurd h List.not_mem_nil
  | array mark items =>
    have hlt := List.sizeOf_lt_of_mem (show m ∈ items from h)
    simp only [array.sizeOf_spec]
    omega
  | object mark members =>
    obtain ⟨⟨k, m⟩, hm, rfl⟩ := List.mem_map.1 h
    have hlt := List.sizeOf_lt_of_mem hm
    simp only [object.sizeOf_spec, Prod.mk.sizeOf_spec] at hlt ⊢
    omega

/-- What holds of a node if it holds of its parts holds of all nodes. -/
theorem parts_induction {P : Node → Prop} (make : ∀ n, (∀ m ∈ n.parts, P m) → P n) (n : Node) :
    P n :=
  make n fun m _ => parts_induction make m
termination_by sizeOf n
decreasing_by exact sizeOf_lt_of_mem_parts ‹_›

theorem withIdItems?_eq (k : Nat) (ns : List Node) :
    withIdItems? k ns = ns.findSome? (withId? k) := by
  induction ns with
  | nil => rfl
  | cons n ns ih =>
    rw [withIdItems?, ih, List.findSome?_cons]
    cases n.withId? k <;> rfl

theorem withIdMembers?_eq (k : Nat) (ms : List (String × Node)) :
    withIdMembers? k ms = (ms.map Prod.snd).findSome? (withId? k) := by
  induction ms with
  | nil => rfl
  | cons m ms ih =>
    rw [withIdMembers?, ih, List.map_cons, List.findSome?_cons]
    cases m.2.withId? k <;> rfl

theorem withId?_eq (k : Nat) (n : Node) :
    n.withId? k = if n.id = k then some n else n.parts.findSome? (withId? k) := by
  cases n with
  | atom mark a => rfl
  | array mark items =>
    rw [withId?, withIdItems?_eq]
    rfl
  | object mark members =>
    rw [withId?, withIdMembers?_eq]
    rfl

theorem withId?_self (n : Node) : n.withId? n.id = some n := by
  rw [withId?_eq, if_pos rfl]

/-! ### Numbers of a tree -/

mutual

/-- The numbers of a node and of all nodes below it. -/
def ids : Node → List Nat
  | .atom m _ => [m.id]
  | .array m items => m.id :: idsItems items
  | .object m members => m.id :: idsMembers members

def idsItems : List Node → List Nat
  | [] => []
  | n :: ns => n.ids ++ idsItems ns

def idsMembers : List (String × Node) → List Nat
  | [] => []
  | (_, n) :: ms => n.ids ++ idsMembers ms

end

theorem idsItems_eq (ns : List Node) : idsItems ns = ns.flatMap ids := by
  induction ns with
  | nil => rfl
  | cons n ns ih => rw [idsItems, ih, List.flatMap_cons]

theorem idsMembers_eq (ms : List (String × Node)) :
    idsMembers ms = (ms.map Prod.snd).flatMap ids := by
  induction ms with
  | nil => rfl
  | cons m ms ih => rw [idsMembers, ih, List.map_cons, List.flatMap_cons]

theorem ids_eq (n : Node) : n.ids = n.id :: n.parts.flatMap ids := by
  cases n with
  | atom mark a => rfl
  | array mark items =>
    rw [ids, idsItems_eq]
    rfl
  | object mark members =>
    rw [ids, idsMembers_eq]
    rfl

mutual

theorem length_ids : (n : Node) → n.ids.length = n.size
  | .atom m a => rfl
  | .array m items => by
    rw [ids, size, List.length_cons, length_idsItems items, Nat.add_comm]
  | .object m members => by
    rw [ids, size, List.length_cons, length_idsMembers members, Nat.add_comm]

theorem length_idsItems : (ns : List Node) → (idsItems ns).length = sizeItems ns
  | [] => rfl
  | n :: ns => by rw [idsItems, sizeItems, List.length_append, length_ids n, length_idsItems ns]

theorem length_idsMembers : (ms : List (String × Node)) → (idsMembers ms).length = sizeMembers ms
  | [] => rfl
  | (k, n) :: ms => by
    rw [idsMembers, sizeMembers, List.length_append, length_ids n, length_idsMembers ms]

end

variable {k : Nat} {n m c : Node}

/-- What passes from every node to its parts passes to the node that a number leads to. -/
theorem of_withId? {P : Node → Prop} (down : ∀ n, P n → ∀ m ∈ n.parts, P m) (hn : P n)
    (h : n.withId? k = some m) : P m := by
  induction n using parts_induction with
  | make n ih =>
    rw [withId?_eq] at h
    split at h
    · cases h
      exact hn
    · obtain ⟨c, hc, hm⟩ := List.exists_of_findSome?_eq_some h
      exact ih c hc (down n hn c hc) hm

theorem id_of_withId? (h : n.withId? k = some m) : m.id = k := by
  induction n using parts_induction with
  | make n ih =>
    rw [withId?_eq] at h
    split at h
    · rename_i hid
      cases h
      exact hid
    · obtain ⟨c, hc, hm⟩ := List.exists_of_findSome?_eq_some h
      exact ih c hc hm

theorem mem_ids_of_withId? (h : n.withId? k = some m) : k ∈ n.ids := by
  induction n using parts_induction with
  | make n ih =>
    rw [withId?_eq] at h
    rw [ids_eq, List.mem_cons]
    split at h
    · rename_i hid
      exact .inl hid.symm
    · obtain ⟨c, hc, hm⟩ := List.exists_of_findSome?_eq_some h
      exact .inr (List.mem_flatMap.2 ⟨c, hc, ih c hc hm⟩)

theorem isSome_withId? : (n.withId? k).isSome ↔ k ∈ n.ids := by
  constructor
  · intro h
    obtain ⟨m, hm⟩ := Option.isSome_iff_exists.1 h
    exact mem_ids_of_withId? hm
  · intro h
    induction n using parts_induction with
    | make n ih =>
      rw [withId?_eq]
      split
      · rfl
      · rename_i hid
        rw [ids_eq, List.mem_cons] at h
        obtain ⟨c, hc, hk⟩ := List.mem_flatMap.1 (h.resolve_left (Ne.symm hid))
        rw [List.findSome?_isSome_iff]
        exact ⟨c, hc, ih c hc hk⟩

/-- Numbers that are all different lead to where they are. -/
theorem findSome?_withId? {ns : List Node} (h : (ns.flatMap ids).Nodup) (hc : c ∈ ns)
    (hm : c.withId? k = some m) : ns.findSome? (withId? k) = some m := by
  induction ns with
  | nil => exact absurd hc List.not_mem_nil
  | cons n ns ih =>
    rw [List.flatMap_cons, List.nodup_append] at h
    obtain ⟨-, hns, hapart⟩ := h
    rw [List.findSome?_cons]
    rcases List.mem_cons.1 hc with rfl | hc
    · rw [hm]
    · cases hn : n.withId? k with
      | none => exact ih hns hc
      | some x =>
        -- The number would stand in two places.
        have hk : k ∈ ns.flatMap ids := List.mem_flatMap.2 ⟨c, hc, mem_ids_of_withId? hm⟩
        exact absurd rfl (hapart k (mem_ids_of_withId? hn) k hk)

theorem withId?_of_part (h : n.ids.Nodup) (hc : c ∈ n.parts) (hm : c.withId? k = some m) :
    n.withId? k = some m := by
  rw [ids_eq, List.nodup_cons] at h
  have hne : n.id ≠ k := by
    rintro rfl
    exact h.1 (List.mem_flatMap.2 ⟨c, hc, mem_ids_of_withId? hm⟩)
  rw [withId?_eq, if_neg hne]
  exact findSome?_withId? h.2 hc hm

/-- From a node that a number leads to, the numbers of its parts lead further. -/
theorem withId?_part (h : n.ids.Nodup) (hm : n.withId? k = some m) (hc : c ∈ m.parts) :
    n.withId? c.id = some c := by
  induction n using parts_induction with
  | make n ih =>
    rw [withId?_eq] at hm
    split at hm
    · cases hm
      exact withId?_of_part h hc (withId?_self c)
    · obtain ⟨d, hd, hm⟩ := List.exists_of_findSome?_eq_some hm
      have hids := h
      rw [ids_eq, List.nodup_cons] at hids
      have hdids : d.ids.Nodup := (List.nodup_flatMap.1 hids.2).1 d hd
      exact withId?_of_part h hd (ih d hd hdids hm)

end Node

/-! ### Numbers of a document -/

section Group

variable (isObject : Bool) (mark : Mark) (ns : List (String × Node))

theorem Node.id_group : (Node.group isObject mark ns).id = mark.id := by
  cases isObject <;> rfl

theorem Node.ids_group :
    (Node.group isObject mark ns).ids = mark.id :: ns.flatMap fun n => n.2.ids := by
  rw [Node.ids_eq, Node.parts_group, List.flatMap_map, Node.id_group]

end Group

theorem Json.Passage.ids_nodes {o s : Bool} (p : Passage o s) (start k : Nat) :
    ((p.nodes start k).flatMap fun n => n.2.ids) = List.range' k p.count := by
  induction p generalizing start k with
  | close sp => rfl
  | token l t rest ih =>
    rw [nodes, List.flatMap_cons, ih, count, List.range'_succ]
    rfl
  | nested l b inside rest ih1 ih2 =>
    rw [nodes, List.flatMap_cons, Node.ids_group, ih1, ih2, count, List.range'_succ,
      ← List.range'_append_1]
    rfl

/-- The nodes of a value are numbered in reading order, without gaps. -/
theorem Json.Spelling.ids_node (v : Spelling) (start k : Nat) :
    (v.node start k).ids = List.range' k (v.node start k).size := by
  rw [← Node.length_ids]
  cases v with
  | token t => rfl
  | nested b inside =>
    rw [node, Node.ids_group, inside.ids_nodes, List.length_cons, List.length_range',
      List.range'_succ]

theorem Json.Spelling.nodup_ids (v : Spelling) (start k : Nat) : (v.node start k).ids.Nodup := by
  rw [ids_node]
  exact List.nodup_range'

namespace Document

variable {depth id : Nat} {input : Bytes} {d : Document} {n m : Node}

/-- The parts of a node of a document have numbers that lead to them there. -/
theorem node?_part (hd : read depth input = .ok d) (hn : d.node? id = some n) (hm : m ∈ n.parts) :
    d.node? m.id = some m := by
  rcases read_cases hd with ⟨sp, rfl⟩ | ⟨p, rfl, hp⟩
  · rw [read_space] at hd
    cases hd
    cases hn
  · rw [read_value p hp] at hd
    cases hd
    exact Node.withId?_part (p.value.nodup_ids _ _) hn hm

end Document

end Quarry
