import Quarry.Patch.Target
import Quarry.Proofs.Document.Numbering

/-!
Pointers that lead to one node of a document have the same tokens, unless one of them names an
element by an index in another spelling than its own.
-/

namespace Quarry

open Json Text

namespace Node

/-- On the way every element is named by its index as it is printed. -/
def Spells : List String → Node → Prop
  | [], _ => True
  | t :: ts, n =>
    ((n.elements?).isSome → ∀ i, Numeral.index? t = some i → t = toString i) ∧
      ∀ c, n.child? t = some c → Spells ts c

variable {n m c d : Node} {t u : String} {p q : List String} {k : Nat}

theorem ids_subset_of_mem_parts (hc : c ∈ n.parts) (hk : k ∈ c.ids) : k ∈ n.ids := by
  rw [ids_eq]
  exact List.mem_cons_of_mem _ (List.mem_flatMap.2 ⟨c, hc, hk⟩)

theorem id_mem_ids (n : Node) : n.id ∈ n.ids := by
  rw [ids_eq]
  exact List.mem_cons_self

theorem nodup_ids_part (hn : n.ids.Nodup) (hc : c ∈ n.parts) : c.ids.Nodup := by
  rw [ids_eq, List.nodup_cons] at hn
  exact (List.nodup_flatMap.1 hn.2).1 c hc

theorem id_not_mem_part (hn : n.ids.Nodup) (hc : c ∈ n.parts) : n.id ∉ c.ids := by
  rw [ids_eq, List.nodup_cons] at hn
  intro hk
  apply hn.1
  exact List.mem_flatMap.2 ⟨c, hc, hk⟩

theorem pointer?_append (p q : List String) (n : Node) :
    n.pointer? (p ++ q) = (n.pointer? p).bind (pointer? · q) := by
  induction p generalizing n with
  | nil => rfl
  | cons t ts ih =>
    rw [List.cons_append, pointer?_cons, pointer?_cons, Option.bind_assoc]
    congr 1
    funext c
    exact ih c

theorem ids_subset_of_pointer? (h : n.pointer? p = some m) (hk : k ∈ m.ids) : k ∈ n.ids := by
  have hsub : ∀ k ∈ m.ids, k ∈ n.ids := by
    refine of_pointer? (P := fun x => ∀ k ∈ x.ids, k ∈ n.ids) ?_ (fun _ hk => hk) h
    intro x c t hx hc k hk
    exact hx k (ids_subset_of_mem_parts (mem_parts_of_child? hc) hk)
  exact hsub k hk

/-- A number stands below one child only, and that child has one name. -/
theorem child?_inj (hn : n.ids.Nodup) (hc : n.child? t = some c) (hd : n.child? u = some d)
    (hkc : k ∈ c.ids) (hkd : k ∈ d.ids) (ht : Spells [t] n) (hu : Spells [u] n) : t = u := by
  rw [ids_eq, List.nodup_cons] at hn
  cases n with
  | atom mark a => simp [child?] at hc
  | array mark items =>
    obtain ⟨i, hi, hc⟩ := Option.bind_eq_some_iff.1 hc
    obtain ⟨j, hj, hd⟩ := Option.bind_eq_some_iff.1 hd
    obtain ⟨hilt, hci⟩ := List.getElem?_eq_some_iff.1 (show items[i]? = some c from hc)
    obtain ⟨hjlt, hdj⟩ := List.getElem?_eq_some_iff.1 (show items[j]? = some d from hd)
    have hpair := List.pairwise_iff_getElem.1 (List.nodup_flatMap.1 hn.2).2
    have hij : i = j := by
      subst hci hdj
      by_contra hne
      rcases Nat.lt_or_gt_of_ne hne with hlt | hlt
      · exact hpair i j hilt hjlt hlt hkc hkd
      · exact hpair j i hjlt hilt hlt hkd hkc
    rw [ht.1 rfl i hi, hu.1 rfl j hj, hij]
  | object mark ms =>
    have htmem := List.mem_reverse.1 (mem_of_find? (show find? t ms.reverse = some c from hc))
    have humem := List.mem_reverse.1 (mem_of_find? (show find? u ms.reverse = some d from hd))
    have hpair := List.pairwise_map.1 (List.nodup_flatMap.1 hn.2).2
    have hsymm : Std.Symm fun a b : String × Node => (Function.onFun List.Disjoint ids) a.2 b.2 :=
      ⟨fun _ _ h => h.symm⟩
    by_contra hne
    have hpairs : (t, c) ≠ (u, d) := by
      intro h
      exact hne (Prod.mk.inj h).1
    exact hpair.forall htmem humem hpairs hkc hkd

/-- What a pointer leads to below the node of another pointer begins with that pointer. -/
theorem prefix_of_mem_ids (hn : n.ids.Nodup) (hp : n.pointer? p = some m)
    (hq : n.pointer? q = some d) (hps : Spells p n) (hqs : Spells q n) (h : d.id ∈ m.ids) :
    p <+: q := by
  induction p generalizing n q with
  | nil => exact List.nil_prefix
  | cons t ts ih =>
    rw [pointer?_cons] at hp
    obtain ⟨c, hc, hp⟩ := Option.bind_eq_some_iff.1 hp
    have hpart := mem_parts_of_child? hc
    have hbelow : d.id ∈ c.ids := ids_subset_of_pointer? hp h
    cases q with
    | nil =>
      obtain rfl := Option.some.inj hq
      exact absurd hbelow (id_not_mem_part hn hpart)
    | cons u us =>
      rw [pointer?_cons] at hq
      obtain ⟨e, he, hq⟩ := Option.bind_eq_some_iff.1 hq
      have hd : d.id ∈ e.ids := ids_subset_of_pointer? hq (id_mem_ids d)
      have htu : t = u :=
        child?_inj hn hc he hbelow hd ⟨hps.1, fun _ _ => trivial⟩ ⟨hqs.1, fun _ _ => trivial⟩
      subst htu
      obtain rfl := Option.some.inj (hc.symm.trans he)
      rw [List.prefix_cons_inj]
      exact ih (nodup_ids_part hn hpart) hp hq (hps.2 c hc) (hqs.2 c hc)

theorem prefix_iff_mem_ids (hn : n.ids.Nodup) (hp : n.pointer? p = some m)
    (hq : n.pointer? q = some d) (hps : Spells p n) (hqs : Spells q n) :
    p <+: q ↔ d.id ∈ m.ids := by
  constructor
  · rintro ⟨r, rfl⟩
    rw [pointer?_append, hp, Option.bind_some] at hq
    exact ids_subset_of_pointer? hq (id_mem_ids d)
  · exact prefix_of_mem_ids hn hp hq hps hqs

theorem eq_iff_id_eq (hn : n.ids.Nodup) (hp : n.pointer? p = some m)
    (hq : n.pointer? q = some d) (hps : Spells p n) (hqs : Spells q n) :
    p = q ↔ m.id = d.id := by
  constructor
  · rintro rfl
    rw [Option.some.inj (hp.symm.trans hq)]
  · intro hid
    have hpq := prefix_of_mem_ids hn hp hq hps hqs (hid ▸ id_mem_ids m)
    have hqp := prefix_of_mem_ids hn hq hp hqs hps (hid ▸ id_mem_ids d)
    exact hpq.eq_of_length_le hqp.length_le

end Node

theorem Document.nodup_ids {depth : Nat} {input : Bytes} {d : Document} {root : Node}
    (hd : read depth input = .ok d) (hroot : d.root = some root) : root.ids.Nodup := by
  rcases read_cases hd with ⟨sp, rfl⟩ | ⟨page, rfl, hp⟩
  · rw [read_space] at hd
    cases hd
    cases hroot
  · rw [read_value page hp] at hd
    cases hd
    obtain rfl := Option.some.inj hroot
    exact page.value.nodup_ids _ _

end Quarry
