import Quarry.Patch.Target
import Quarry.Proofs.Patch.Merged

/-!
Where the edits of a tree are, and what inserting one more does.
-/

namespace Quarry.Patch

open Json

theorem after?_eq_some {p q r : List String} : after? p q = some r ↔ q = p ++ r := by
  induction p generalizing q with
  | nil => simp [after?, eq_comm]
  | cons t p ih =>
    cases q with
    | nil => simp [after?]
    | cons u q =>
      rw [after?, List.cons_append, List.cons.injEq]
      by_cases h : t = u
      · simp [h, ih]
      · simp [h, Ne.symm h]

theorem after?_eq_none {p q : List String} : after? p q = none ↔ ¬ p <+: q := by
  rw [← not_iff_not, not_not, ← ne_eq, Option.ne_none_iff_exists']
  simp only [after?_eq_some]
  constructor
  · rintro ⟨r, rfl⟩
    exact List.prefix_append p r
  · rintro ⟨r, rfl⟩
    exact ⟨r, rfl⟩

namespace Node

/-- Every edit at a node or below it satisfies `P`. -/
inductive Every (P : Edit → Prop) : Node → Prop
  | make {id : Nat} {edit : Option Edit} {children : List (String × Node)}
      (here : ∀ e, edit = some e → P e) (below : ∀ c ∈ children, Every P c.2) :
      Every P (.make id edit children)

theorem Every.edit {P : Edit → Prop} {n : Node} {e : Edit} (h : n.Every P)
    (he : n.edit = some e) : P e := by
  cases h with
  | make here below => exact here e he

theorem Every.children {P : Edit → Prop} {n : Node} (h : n.Every P) :
    ∀ c ∈ n.children, c.2.Every P := by
  cases h with
  | make here below => exact below

theorem takeChild_eq (t : String) (cs : List (String × Node)) :
    takeChild t cs = (find? t cs).map fun c => (c, erase t cs) := by
  induction cs with
  | nil => rfl
  | cons c cs ih =>
    obtain ⟨u, d⟩ := c
    rw [takeChild, find?_cons, erase_cons]
    by_cases h : u = t
    · simp [h]
    · simp only [h, ↓reduceIte, ih, Option.map_map]
      rfl

theorem mem_of_takeChild {t : String} {cs left : List (String × Node)} {n : Node}
    (h : takeChild t cs = some (n, left)) : (t, n) ∈ cs ∧ ∀ c ∈ left, c ∈ cs := by
  rw [takeChild_eq] at h
  obtain ⟨m, hm, heq⟩ := Option.map_eq_some_iff.1 h
  simp only [Prod.mk.injEq] at heq
  obtain ⟨rfl, rfl⟩ := heq
  exact ⟨mem_of_find? hm, fun c hc => mem_of_mem_erase hc⟩

theorem putChild_eq (t : String) (c : Node) (cs : List (String × Node)) :
    putChild t c cs = put t c cs := by
  induction cs with
  | nil => rfl
  | cons d cs ih =>
    obtain ⟨u, d⟩ := d
    rw [putChild, put, ih]

/-- The edit that a pointer meets first, and what is left of the pointer there. -/
def along : List String → Node → Option (Edit × List String)
  | ts, .make _ (some e) _ => some (e, ts)
  | [], .make _ none _ => none
  | t :: ts, .make _ none cs => (find? t cs).bind (along ts)

/-- A node that edits lead to: it has one, or children, no two with the same token. -/
inductive Grown : Node → Prop
  | edit (id : Nat) (e : Edit) : Grown (.make id (some e) [])
  | inner {id : Nat} {cs : List (String × Node)} (nonempty : cs ≠ []) (nodup : (names cs).Nodup)
      (all : ∀ c ∈ cs, Grown c.2) : Grown (.make id none cs)

/-- A node as a tree may hold it: one that edits lead to, or a new one. -/
inductive Sound : Node → Prop
  | leaf (id : Nat) : Sound (.leaf id)
  | grown {n : Node} (h : n.Grown) : Sound n

theorem Sound.children {n : Node} (h : n.Sound) :
    (names n.children).Nodup ∧ ∀ c ∈ n.children, c.2.Grown := by
  cases h with
  | leaf id => simp [Node.leaf, Node.children]
  | grown h =>
    cases h with
    | edit id e => simp [Node.children]
    | inner nonempty nodup all => exact ⟨nodup, all⟩

/-- Some pointer ends at an edit. -/
theorem Grown.exists_along {n : Node} (h : n.Grown) : ∃ p e, n.along p = some (e, []) := by
  induction h with
  | edit id e => exact ⟨[], e, rfl⟩
  | @inner id cs nonempty nodup all ih =>
    obtain ⟨⟨t, c⟩, cs', rfl⟩ := List.exists_cons_of_ne_nil nonempty
    obtain ⟨p, e, h⟩ := ih _ List.mem_cons_self
    refine ⟨t :: p, e, ?_⟩
    rw [along, find?_cons, if_pos rfl]
    exact h

theorem along_edit {n : Node} {e : Edit} (h : n.edit = some e) (q : List String) :
    n.along q = some (e, q) := by
  obtain ⟨id, edit, cs⟩ := n
  obtain rfl : edit = some e := h
  cases q <;> rfl

theorem along_nil {n : Node} (h : n.edit = none) : n.along [] = none := by
  obtain ⟨id, edit, cs⟩ := n
  obtain rfl : edit = none := h
  rfl

theorem along_cons {n : Node} (h : n.edit = none) (t : String) (ts : List String) :
    n.along (t :: ts) = (find? t n.children).bind (along ts) := by
  obtain ⟨id, edit, cs⟩ := n
  obtain rfl : edit = none := h
  rfl

theorem along_leaf (id : Nat) (q : List String) : (leaf id).along q = none := by
  cases q <;> rfl

/-! ### Inserting an edit -/

variable {e : Edit} {p q : List String} {next next' stop : Nat} {n n' : Node}

/-- What inserting an edit below a node does to the child on the way. -/
theorem insert_cons {t : String} {ts : List String}
    (h : insert e (t :: ts) next n = some (n', next', stop)) :
    n.edit = none ∧ ∃ (c c' : Node) (next'' : Nat),
      (find? t n.children = some c ∨ find? t n.children = none ∧ ∃ id, c = leaf id) ∧
      insert e ts next'' c = some (c', next', stop) ∧
      n' = .make n.id none (put t c' n.children) := by
  obtain ⟨id, edit, cs⟩ := n
  rw [insert] at h
  split at h
  · cases h
  rename_i hedit
  have hnone : edit = none := by simpa using hedit
  subst hnone
  refine ⟨rfl, ?_⟩
  rw [takeChild_eq] at h
  cases hf : find? t cs with
  | some c =>
    rw [hf] at h
    obtain ⟨⟨c', m, k⟩, hc, heq⟩ := Option.map_eq_some_iff.1 h
    simp only [Prod.mk.injEq, putChild_eq] at heq
    obtain ⟨rfl, rfl, rfl⟩ := heq
    exact ⟨c, c', next, .inl hf, hc, rfl⟩
  | none =>
    rw [hf] at h
    obtain ⟨⟨c', m, k⟩, hc, heq⟩ := Option.map_eq_some_iff.1 h
    simp only [Prod.mk.injEq, putChild_eq] at heq
    obtain ⟨rfl, rfl, rfl⟩ := heq
    exact ⟨leaf next, c', next + 1, .inr ⟨hf, next, rfl⟩, hc, rfl⟩

theorem insert_nil (h : insert e [] next n = some (n', next', stop)) :
    n.children = [] ∧ n' = .make n.id (some e) [] := by
  obtain ⟨id, edit, cs⟩ := n
  rw [insert] at h
  split at h
  · rename_i hcs
    simp only [Option.some.injEq, Prod.mk.injEq] at h
    exact ⟨List.isEmpty_iff.1 hcs, h.1.symm⟩
  · cases h

theorem grown_insert (hn : n.Sound) (h : insert e p next n = some (n', next', stop)) :
    n'.Grown := by
  induction p generalizing n n' next with
  | nil =>
    obtain ⟨-, rfl⟩ := insert_nil h
    exact .edit n.id e
  | cons t ts ih =>
    obtain ⟨-, c, c', next'', hc, hins, rfl⟩ := insert_cons h
    obtain ⟨hnodup, hall⟩ := hn.children
    have hsound : c.Sound := by
      rcases hc with hc | ⟨-, id, rfl⟩
      · exact .grown (hall _ (mem_of_find? hc))
      · exact .leaf id
    have hgrown := ih hsound hins
    refine .inner ?_ (nodup_put t c' hnodup) fun d hd => ?_
    · intro hempty
      have hf := find?_put t t c' n.children
      rw [hempty, if_pos rfl] at hf
      cases hf
    · rcases mem_put hd with rfl | hd
      · exact hgrown
      · exact hall d hd

theorem every_insert {P : Edit → Prop} (he : P e) (hn : n.Every P)
    (h : insert e p next n = some (n', next', stop)) : n'.Every P := by
  induction p generalizing n n' next with
  | nil =>
    obtain ⟨-, rfl⟩ := insert_nil h
    exact .make (fun f hf => Option.some.inj hf ▸ he) (by simp)
  | cons t ts ih =>
    obtain ⟨-, c, c', next'', hc, hins, rfl⟩ := insert_cons h
    have hevery : c.Every P := by
      rcases hc with hc | ⟨-, id, rfl⟩
      · exact hn.children _ (mem_of_find? hc)
      · exact .make nofun (by simp)
    refine .make nofun fun d hd => ?_
    rcases mem_put hd with rfl | hd
    · exact ih hevery hins
    · exact hn.children d hd

/-- The new edit decides what lies at its place or below, the others the rest. -/
theorem along_insert (h : insert e p next n = some (n', next', stop)) (q : List String) :
    n'.along q =
      match after? p q with
      | some rest => some (e, rest)
      | none => n.along q := by
  induction p generalizing n n' next q with
  | nil =>
    obtain ⟨-, rfl⟩ := insert_nil h
    cases q <;> rfl
  | cons t ts ih =>
    obtain ⟨hnone, c, c', next'', hc, hins, rfl⟩ := insert_cons h
    cases q with
    | nil =>
      rw [along_nil hnone]
      rfl
    | cons u us =>
      rw [along_cons hnone, along_cons (show (make n.id none (put t c' n.children)).edit = none from rfl),
        after?, show (make n.id none (put t c' n.children)).children = put t c' n.children from rfl,
        find?_put]
      by_cases htu : t = u
      · subst htu
        rw [if_pos rfl, if_pos rfl, Option.bind_some, ih hins us]
        have hold : c.along us = (find? t n.children).bind (along us) := by
          rcases hc with hc | ⟨hc, id, rfl⟩
          · rw [hc]
            rfl
          · rw [hc, along_leaf]
            rfl
        rw [hold]
      · rw [if_neg htu, if_neg htu]

/-- What does not fit in lies within an edit or around one. -/
theorem exists_of_insert_none (hn : n.Sound) (h : insert e p next n = none) :
    ∃ q f, n.along q = some (f, []) ∧ q ≠ p ∧ (q <+: p ∨ p <+: q) := by
  induction p generalizing n next with
  | nil =>
    obtain ⟨id, edit, cs⟩ := n
    rw [insert] at h
    split at h
    · cases h
    · rename_i hcs
      cases hn with
      | leaf => simp at hcs
      | grown hn =>
        cases hn with
        | edit => simp at hcs
        | inner nonempty nodup all =>
          have hgrown : (make id none cs).Grown := .inner nonempty nodup all
          obtain ⟨q, f, hq⟩ := hgrown.exists_along
          refine ⟨q, f, hq, ?_, .inr (List.nil_prefix)⟩
          rintro rfl
          cases hq
  | cons t ts ih =>
    obtain ⟨id, edit, cs⟩ := n
    cases edit with
    | some f => exact ⟨[], f, rfl, by simp, .inl (List.nil_prefix)⟩
    | none =>
      rw [insert, takeChild_eq] at h
      have halong : ∀ q, (make id none cs).along (t :: q) = (find? t cs).bind (along q) :=
        fun q => rfl
      obtain ⟨-, hall⟩ := hn.children
      cases hf : find? t cs with
      | none =>
        rw [hf] at h
        obtain ⟨q, f, hq, -⟩ := ih (.leaf next) (Option.map_eq_none_iff.1 h)
        rw [along_leaf] at hq
        cases hq
      | some c =>
        rw [hf] at h
        obtain ⟨q, f, hq, hne, hpre⟩ :=
          ih (.grown (hall _ (mem_of_find? hf))) (Option.map_eq_none_iff.1 h)
        refine ⟨t :: q, f, ?_, by simpa using hne, by simpa using hpre⟩
        rw [halong, hf]
        exact hq

/-- What does fit in lies apart from all edits but one at the same place. -/
theorem apart_of_insert {f : Edit} (hn : n.Sound) (h : insert e p next n = some (n', next', stop))
    (hq : n.along q = some (f, [])) : q = p ∨ ¬ q <+: p ∧ ¬ p <+: q := by
  induction p generalizing n n' next q with
  | nil =>
    obtain ⟨hnil, -⟩ := insert_nil h
    obtain ⟨id, edit, cs⟩ := n
    obtain rfl : cs = [] := hnil
    cases edit with
    | none =>
      rw [show make id none [] = leaf id from rfl, along_leaf] at hq
      cases hq
    | some g =>
      rw [along_edit (show (make id (some g) []).edit = some g from rfl)] at hq
      simp only [Option.some.injEq, Prod.mk.injEq] at hq
      exact .inl hq.2
  | cons t ts ih =>
    obtain ⟨hnone, c, c', k, hc, hins, rfl⟩ := insert_cons h
    cases q with
    | nil =>
      rw [along_nil hnone] at hq
      cases hq
    | cons u us =>
      rw [along_cons hnone] at hq
      by_cases hut : u = t
      · subst hut
        obtain ⟨-, hall⟩ := hn.children
        rcases hc with hc | ⟨hc, -⟩
        · rw [hc] at hq
          simpa using ih (.grown (hall _ (mem_of_find? hc))) hins hq
        · rw [hc] at hq
          cases hq
      · right
        simp [hut, Ne.symm hut]

end Node

end Quarry.Patch
