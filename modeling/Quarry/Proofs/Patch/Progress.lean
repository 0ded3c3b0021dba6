import Quarry.Proofs.Patch.Agreement
import Quarry.Proofs.Patch.Placing

/-!
Operations that can be made one after another are not refused, unless one pass cannot make them.
-/

namespace Quarry.Patch

open Json Text Content Patcher

/-! ### Look-ups come to an end -/

namespace Resolving

variable {input text : Bytes} {depth : Nat} {n : Quarry.Node} {r r' : Resolving}
  {tokens p : List String} {path op : String} {c v : Content} {e : Error}

theorem textIn_shallow {payload : Bytes} (h : Shallow depth payload) (rest : List String) :
    textIn depth payload rest ≠ .error e := by
  obtain ⟨d, hd⟩ := h.read
  rw [textIn, hd]
  split <;> simp

theorem decided_shallow {ts : List Target}
    (hts : ∀ t ∈ ts, ∀ bs, t.edit.value? = some bs → Shallow depth bs) :
    decided depth tokens ts ≠ some (.error e) := by
  induction ts with
  | nil => simp [decided]
  | cons t ts ih =>
    rw [List.forall_mem_cons] at hts
    rw [decided]
    split
    · split
      · simp
      · rename_i hkind
        rw [ne_eq, Option.some.injEq]
        exact textIn_shallow (hts.1 _ (Edit.value?_of_ne hkind)) _
    · split
      · simp
      · exact ih hts.2

theorem current_shallow (hn : Reads input depth n) (h : r.Keeps input depth (Shallow depth))
    (tokens : List String) : ∃ cur, (r.current input depth tokens).1 = .ok cur := by
  rw [current]
  split
  · rename_i a ha
    cases a with
    | ok cur => exact ⟨cur, rfl⟩
    | error e => exact absurd ha (decided_shallow h.payload)
  · split
    · exact ⟨_, rfl⟩
    · rw [hn.read]
      exact ⟨_, rfl⟩

theorem valueAt_progress (hn : Reads input depth n) (h : Tracks input depth n c r)
    (hshallow : r.Keeps input depth (Shallow depth)) (hp : Pointer.parse? path = some p)
    (hv : c.get? p = some v) (op : String) :
    (∃ text r', r.valueAt input depth path op = (.ok text, r')) ∨
      ∃ r', r.valueAt input depth path op = (.error (.unsupported path op), r') := by
  obtain ⟨cur, hcur⟩ := current_shallow hn hshallow p
  have hshows := shows_current hn h.keeps hcur
  rw [valueAt, hp]
  simp only
  generalize r.current input depth p = answer at hcur
  obtain ⟨a, r1⟩ := answer
  obtain rfl : a = .ok cur := hcur
  cases cur with
  | raw text => exact .inl ⟨text, r1, rfl⟩
  | modified => exact .inr ⟨r1, rfl⟩
  | missing =>
    have hnone : c.view (p ++ []) = none := by
      rw [h.view]
      exact hshows []
    rw [List.append_nil, view, hv] at hnone
    cases hnone

theorem remove_progress (hn : Reads input depth n) (h : r.Keeps input depth (Shallow depth))
    (hp : Pointer.parse? path = some p) :
    ∃ r', r.remove input depth path = (.ok (), r') := by
  rw [remove, Target.make, hp]
  simp only
  split
  · exact ⟨_, rfl⟩
  · rename_i i _
    obtain ⟨cur, hcur⟩ := current_shallow hn (h.eraseIdx i) p
    generalize current input depth p { r with targets := r.targets.eraseIdx i } = answer at hcur ⊢
    obtain ⟨a, r1⟩ := answer
    obtain rfl : a = .ok cur := hcur
    cases cur <;> exact ⟨_, rfl⟩

theorem pushEdit_progress {kind : EditKind} {payload : Bytes} (r : Resolving)
    (hp : Pointer.parse? path = some p) :
    ∃ r', r.pushEdit kind path payload = (.ok (), r') := by
  rw [pushEdit, Target.make, hp]
  exact ⟨_, rfl⟩

theorem holds_shallow (h : Shallow depth text) (value : Json.Value) :
    ∃ b, holds depth text value = .ok b := by
  obtain ⟨d, hd⟩ := h.read
  rw [holds, hd]
  exact ⟨_, rfl⟩

/-- An operation that finds in the state what it reads is resolved, unless one pass cannot make
it. -/
theorem operation_progress {o : Operation} {changes : List (List String × Change)}
    (hn : Reads input depth n) (h : Tracks input depth n c r)
    (hshallow : r.Keeps input depth (Shallow depth)) (ho : o.Proper)
    (hchanges : o.changes c = some changes) :
    (∃ r', operation input depth o r = (.ok (), r')) ∨
      ∃ path name r', operation input depth o r = (.error (.unsupported path name), r') := by
  cases o with
  | replace path value =>
    obtain ⟨p, hp, -⟩ := Option.bind_eq_some_iff.1 hchanges
    exact .inl (pushEdit_progress r hp)
  | add path value =>
    obtain ⟨p, hp, -⟩ := Option.bind_eq_some_iff.1 hchanges
    exact .inl (pushEdit_progress r hp)
  | remove path =>
    obtain ⟨p, hp, -⟩ := Option.bind_eq_some_iff.1 hchanges
    exact .inl (remove_progress hn hshallow hp)
  | copy source path =>
    obtain ⟨q, hq, hchanges⟩ := Option.bind_eq_some_iff.1 hchanges
    obtain ⟨v, hv, hchanges⟩ := Option.bind_eq_some_iff.1 hchanges
    obtain ⟨p, hp, -⟩ := Option.bind_eq_some_iff.1 hchanges
    rcases valueAt_progress hn h hshallow hq hv "copy" with ⟨text, r1, hvalue⟩ | ⟨r1, hvalue⟩
    · simp only [operation, hvalue]
      exact .inl (pushEdit_progress r1 hp)
    · simp only [operation, hvalue]
      exact .inr ⟨_, _, _, rfl⟩
  | move source path =>
    obtain ⟨q, hq, hchanges⟩ := Option.bind_eq_some_iff.1 hchanges
    obtain ⟨v, hv, hchanges⟩ := Option.bind_eq_some_iff.1 hchanges
    obtain ⟨p, hp, -⟩ := Option.bind_eq_some_iff.1 hchanges
    simp only [operation]
    split
    · exact .inr ⟨_, _, _, rfl⟩
    · rcases valueAt_progress hn h hshallow hq hv "move" with ⟨text, r1, hvalue⟩ | ⟨r1, hvalue⟩
      · have h1 := keeps_valueAt hshallow source "move"
        rw [hvalue] at h1
        obtain ⟨r2, hremove⟩ := remove_progress hn h1 hq
        rw [hvalue]
        simp only [hremove]
        exact .inl (pushEdit_progress r2 hp)
      · rw [hvalue]
        exact .inr ⟨_, _, _, rfl⟩
  | test path value =>
    have hcanonical := Operation.canonical_of_changes h.valid hchanges
    obtain ⟨p, hp, hchanges⟩ := Option.bind_eq_some_iff.1 hchanges
    obtain ⟨v, hv, hchanges⟩ := Option.bind_eq_some_iff.1 hchanges
    rcases valueAt_progress hn h hshallow hp hv "test" with ⟨text, r1, hvalue⟩ | ⟨r1, hvalue⟩
    · obtain ⟨p', w, hp', hw, hasked⟩ :=
        h.found hn (hcanonical path (by simp [Operation.reads])) hvalue (.test path value)
      rw [hp] at hp'
      obtain rfl := Option.some.inj hp'
      rw [hv] at hw
      obtain rfl := Option.some.inj hw
      have htext := (hasked.inherits (inherited_shallow input depth) trivial hshallow).2
      obtain ⟨b, hholds⟩ := holds_shallow htext value
      have hequal := hasked.equalsJson hn trivial h (h.valid.get? hv) hholds
      cases b with
      | true =>
        simp only [operation, hvalue, hholds]
        exact .inl ⟨r1, rfl⟩
      | false =>
        rw [if_neg (by simp [hequal])] at hchanges
        cases hchanges
    · simp only [operation, hvalue]
      exact .inr ⟨_, _, _, rfl⟩

end Resolving

end Quarry.Patch
