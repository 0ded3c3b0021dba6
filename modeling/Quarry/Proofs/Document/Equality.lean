import Quarry.Proofs.Document.Nodes

/-!
Comparing values with JSON values.
-/

namespace Quarry

open Json

namespace Content

def atomEquals (c : Content) (v : Value) : Bool :=
  match c with
  | .atom a => a.toScalar.equals (Scalar.ofJson v) = .bool true
  | .group _ _ => false

mutual

/-- Numbers are equal by value, and the order of members is free. -/
def equalsJson (c : Content) : Value → Bool
  | .array vs =>
    match c with
    | .group false ms => itemsEqual ms vs
    | _ => false
  | .object expected =>
    match c with
    | .group true ms => ms.length == expected.length && membersEqual ms expected
    | _ => false
  | .null => atomEquals c .null
  | .bool b => atomEquals c (.bool b)
  | .number x => atomEquals c (.number x)
  | .string s => atomEquals c (.string s)

def itemsEqual : List (String × Content) → List Value → Bool
  | [], [] => true
  | (_, c) :: ms, v :: vs => c.equalsJson v && itemsEqual ms vs
  | _, _ => false

def membersEqual (ms : List (String × Content)) : List (String × Value) → Bool
  | [] => true
  | (k, v) :: expected =>
    (match find? k ms with
      | some c => c.equalsJson v
      | none => false) && membersEqual ms expected

end

/-- Arrays that look alike have the same elements but for the order of members. -/
theorem Alike.elements {ms ns : List (String × Content)} (hm : Valid (.group false ms))
    (hn : Valid (.group false ns)) (h : Alike (.group false ms) (.group false ns)) :
    List.Forall₂ (fun m n => Alike m.2 n.2 ∧ m.2.Valid ∧ n.2.Valid) ms ns := by
  cases hm with
  | group hmd hmi hma =>
    cases hn with
    | group hnd hni hna =>
      have hms := hmi rfl
      have hns := hni rfl
      have hlen : (ms.map Prod.snd).length = (ns.map Prod.snd).length := by
        refine length_eq_of_find? _ _ fun t => ?_
        rw [← hms, ← hns]
        have ht := h [t]
        rw [view_cons, view_cons] at ht
        simp only [members] at ht
        cases hk : Json.find? t ms <;> cases hk' : Json.find? t ns <;> simp [hk, hk', view_nil] at ht ⊢
      rw [List.length_map, List.length_map] at hlen
      refine List.forall₂_iff_get.2 ⟨hlen, fun i h1 h2 => ?_⟩
      have hi : Json.find? (toString i) ms = some (ms.get ⟨i, h1⟩).2 := by
        have hj := find?_numbered 0 i (ms.map Prod.snd)
        rw [← hms, Nat.zero_add, List.getElem?_map, List.getElem?_eq_getElem h1] at hj
        exact hj
      have hi' : Json.find? (toString i) ns = some (ns.get ⟨i, h2⟩).2 := by
        have hj := find?_numbered 0 i (ns.map Prod.snd)
        rw [← hns, Nat.zero_add, List.getElem?_map, List.getElem?_eq_getElem h2] at hj
        exact hj
      obtain ⟨d, hd, ha⟩ := h.find? (c := .group false ms) hi
      obtain rfl := Option.some.inj (hi'.symm.trans hd)
      exact ⟨ha, hma _ (List.get_mem ..), hna _ (List.get_mem ..)⟩

theorem Alike.names_perm {o : Bool} {ms ns : List (String × Content)} (hm : (names ms).Nodup)
    (hn : (names ns).Nodup) (h : Alike (.group o ms) (.group o ns)) :
    (names ms).Perm (names ns) := by
  refine (List.perm_ext_iff_of_nodup hm hn).2 fun k => ?_
  constructor
  · intro hk
    obtain ⟨c, hc⟩ := Option.isSome_iff_exists.1 (find?_isSome.2 hk)
    obtain ⟨d, hd, -⟩ := h.find? (c := .group o ms) hc
    exact mem_names (mem_of_find? hd)
  · intro hk
    obtain ⟨d, hd⟩ := Option.isSome_iff_exists.1 (find?_isSome.2 hk)
    obtain ⟨c, hc, -⟩ := h.symm.find? (c := .group o ns) hd
    exact mem_names (mem_of_find? hc)

theorem Alike.atomEquals {c d : Content} (h : Alike c d) (v : Value) :
    c.atomEquals v = d.atomEquals v := by
  have hs := h.shape_eq
  cases c with
  | atom a =>
    cases d with
    | atom b =>
      simp only [shape, Shape.atom.injEq] at hs
      rw [hs]
    | group o ns => simp [shape] at hs
  | group o ms =>
    cases d with
    | atom b => simp [shape] at hs
    | group o' ns => rfl

mutual

theorem Alike.equalsJson {c d : Content} (hc : c.Valid) (hd : d.Valid) (h : Alike c d) :
    (v : Value) → c.equalsJson v = d.equalsJson v
  | .array vs => by
    have hs := h.shape_eq
    cases c with
    | atom a =>
      cases d with
      | atom b => rfl
      | group o ns => simp [shape] at hs
    | group o ms =>
      cases d with
      | atom b => simp [shape] at hs
      | group o' ns =>
        simp only [shape, Shape.group.injEq] at hs
        subst hs
        cases o with
        | true => rfl
        | false => exact itemsEqual_of_alike (h.elements hc hd) vs
  | .object expected => by
    have hs := h.shape_eq
    cases c with
    | atom a =>
      cases d with
      | atom b => rfl
      | group o ns => simp [shape] at hs
    | group o ms =>
      cases d with
      | atom b => simp [shape] at hs
      | group o' ns =>
        simp only [shape, Shape.group.injEq] at hs
        subst hs
        cases o with
        | false => rfl
        | true =>
          have hlen : ms.length = ns.length := by
            simpa [names, members] using (h.names_perm hc.nodup hd.nodup).length_eq
          rw [Content.equalsJson, Content.equalsJson, hlen, membersEqual_of_alike hc hd h expected]
  | .null => by
    rw [Content.equalsJson, Content.equalsJson]
    exact h.atomEquals .null
  | .bool b => by
    rw [Content.equalsJson, Content.equalsJson]
    exact h.atomEquals (.bool b)
  | .number x => by
    rw [Content.equalsJson, Content.equalsJson]
    exact h.atomEquals (.number x)
  | .string s => by
    rw [Content.equalsJson, Content.equalsJson]
    exact h.atomEquals (.string s)

theorem itemsEqual_of_alike {ms ns : List (String × Content)}
    (h : List.Forall₂ (fun m n => Alike m.2 n.2 ∧ m.2.Valid ∧ n.2.Valid) ms ns) :
    (vs : List Value) → itemsEqual ms vs = itemsEqual ns vs
  | [] => by cases h <;> rfl
  | v :: vs => by
    cases h with
    | nil => rfl
    | cons head tail =>
      rw [itemsEqual, itemsEqual, head.1.equalsJson head.2.1 head.2.2 v,
        itemsEqual_of_alike tail vs]

theorem membersEqual_of_alike {ms ns : List (String × Content)} (hc : Valid (.group true ms))
    (hd : Valid (.group true ns)) (h : Alike (.group true ms) (.group true ns)) :
    (expected : List (String × Value)) → membersEqual ms expected = membersEqual ns expected
  | [] => rfl
  | (k, v) :: expected => by
    rw [membersEqual, membersEqual, membersEqual_of_alike hc hd h expected]
    cases hk : Json.find? k ms with
    | none =>
      cases hk' : Json.find? k ns with
      | none => rfl
      | some e =>
        obtain ⟨e', he, -⟩ := h.symm.find? (c := .group true ns) hk'
        simp [members, hk] at he
    | some c' =>
      obtain ⟨d', hd', ha⟩ := h.find? (c := .group true ms) hk
      rw [show Json.find? k ns = some d' from hd']
      simp only [ha.equalsJson (hc.find? (t := k) hk) (hd.find? (t := k) hd') v]

end

end Content

namespace Node

theorem distinctNames_eq_length {ms : List (String × Node)} (h : (names ms).Nodup) :
    distinctNames ms = ms.length := by
  induction ms with
  | nil => rfl
  | cons m ms ih =>
    obtain ⟨hm, hd⟩ := List.nodup_cons.1 h
    have hany : ms.any (·.1 == m.1) = false := by
      rw [List.any_eq_false]
      intro n hn heq
      rw [beq_iff_eq] at heq
      exact hm (heq ▸ mem_names hn)
    rw [distinctNames, hany, if_neg (by simp), ih hd, List.length_cons, Nat.add_comm]

theorem atomEquals_content (n : Node) (v : Value) : n.content.atomEquals v = n.atomEquals v := by
  cases n with
  | atom m a => rfl
  | array m items => rfl
  | object m members => rfl

mutual

theorem equalsJson_content : {n : Node} → n.Distinct → (v : Value) →
    n.content.equalsJson v = n.equalsJson v
  | .atom m a, h, .array vs => rfl
  | .object m ms, h, .array vs => rfl
  | .array m items, .array all, .array vs => by
    rw [content, Content.array, Content.equalsJson, equalsJson]
    exact itemsEqual_content 0 all vs
  | .atom m a, h, .object vs => rfl
  | .array m items, h, .object vs => rfl
  | .object m ms, .object nodup all, .object expected => by
    rw [content, Content.equalsJson, equalsJson, distinctNames_eq_length nodup,
      contentMembers_eq_map, List.length_map, membersEqual_content (.object nodup all) expected]
  | n, h, .null => by
    rw [Content.equalsJson, equalsJson]
    exact atomEquals_content n .null
  | n, h, .bool b => by
    rw [Content.equalsJson, equalsJson]
    exact atomEquals_content n (.bool b)
  | n, h, .number x => by
    rw [Content.equalsJson, equalsJson]
    exact atomEquals_content n (.number x)
  | n, h, .string s => by
    rw [Content.equalsJson, equalsJson]
    exact atomEquals_content n (.string s)

theorem itemsEqual_content : {items : List Node} → (i : Nat) → (∀ n ∈ items, n.Distinct) →
    (vs : List Value) →
    Content.itemsEqual (numbered i (contentItems items)) vs = itemsEqual items vs
  | [], i, h, [] => rfl
  | [], i, h, v :: vs => rfl
  | n :: ns, i, h, [] => rfl
  | n :: ns, i, h, v :: vs => by
    rw [contentItems, numbered, Content.itemsEqual, itemsEqual,
      equalsJson_content (h n List.mem_cons_self) v,
      itemsEqual_content (i + 1) (fun m hm => h m (List.mem_cons_of_mem n hm)) vs]

theorem membersEqual_content {m : Mark} {ms : List (String × Node)}
    (h : (Node.object m ms).Distinct) : (expected : List (String × Value)) →
    Content.membersEqual (ms.map fun m => (m.1, m.2.content)) expected =
      membersEqual (.object m ms) expected
  | [] => rfl
  | (k, v) :: expected => by
    rw [Content.membersEqual, membersEqual, membersEqual_content h expected, find?_map, h.member?]
    cases hk : find? k ms with
    | none => rfl
    | some n =>
      have hn : n.Distinct := by
        cases h with
        | object nodup all => exact all _ (mem_of_find? hk)
      simp only [Option.map_some, equalsJson_content hn v]

end

end Node

end Quarry
