import Quarry.Proofs.Patch.Merging

/-!
What a document looks like under targets that have not been made yet.
-/

namespace Quarry.Patch

open Json Content Change

/-- What is seen at a pointer under targets, of which the first is the latest. -/
noncomputable def laid (ts : List Target) (f : View) : View := fun q =>
  match foremost ts q with
  | some (e, rest) => (e.content content?).bind fun c => c.view rest
  | none => f q

section Foremost

variable {t : Target} {ts us : List Target} {p q : List String}

theorem foremost_eq_none : foremost ts q = none ↔ ∀ t ∈ ts, ¬ t.tokens <+: q := by
  induction ts with
  | nil => simp [foremost]
  | cons t ts ih =>
    rw [foremost, List.forall_mem_cons]
    cases h : after? t.tokens q with
    | none => simp [ih, after?_eq_none.1 h]
    | some rest =>
      rw [after?_eq_some] at h
      simp [h]

theorem foremost_append (ts us : List Target) (q : List String) :
    foremost (ts ++ us) q = (foremost ts q).or (foremost us q) := by
  induction ts with
  | nil => rfl
  | cons t ts ih =>
    rw [List.cons_append, foremost, foremost]
    cases after? t.tokens q with
    | none => exact ih
    | some rest => rfl

theorem exists_of_foremost {e : Edit} {rest : List String} (h : foremost ts q = some (e, rest)) :
    ∃ t ∈ ts, t.edit = e ∧ q = t.tokens ++ rest := by
  induction ts with
  | nil => cases h
  | cons t ts ih =>
    rw [foremost] at h
    split at h
    · rename_i rest' hrest
      cases h
      exact ⟨t, List.mem_cons_self, rfl, after?_eq_some.1 hrest⟩
    · obtain ⟨u, hu, he, hq⟩ := ih h
      exact ⟨u, List.mem_cons_of_mem t hu, he, hq⟩

/-- A target that is not around a place does not matter there. -/
theorem foremost_middle (ts us : List Target) (h : ¬ t.tokens <+: q) :
    foremost (ts ++ t :: us) q = foremost (ts ++ us) q := by
  rw [foremost_append, foremost_append, foremost, after?_eq_none.2 h]

theorem overlaps_iff : t.overlaps q = true ↔ t.tokens <+: q ∨ q <+: t.tokens := by
  rw [Target.overlaps, Bool.or_eq_true, List.isPrefixOf_iff_prefix, List.isPrefixOf_iff_prefix]

theorem not_overlaps (h : t.overlaps q = false) : ¬ (t.tokens <+: q ∨ q <+: t.tokens) := by
  rw [← overlaps_iff, h]
  simp

end Foremost

/-! ### Overlays -/

section Overlay

variable {p : List String} {v : Option Content} {f g : View}

theorem overlay_append (p s : List String) (v : Option Content) (f : View) :
    overlay p v f (p ++ s) = v.bind fun c => c.view s := by
  rw [overlay, after?_eq_some.2 rfl]

theorem overlay_outside {q : List String} (h : ¬ p <+: q) : overlay p v f q = f q := by
  rw [overlay, after?_eq_none.2 h]

theorem overlay_congr (h : ∀ q, ¬ p <+: q → f q = g q) : overlay p v f = overlay p v g := by
  funext q
  by_cases hq : p <+: q
  · obtain ⟨s, rfl⟩ := hq
    rw [overlay_append, overlay_append]
  · rw [overlay_outside hq, overlay_outside hq, h q hq]

theorem overlay_self (h : ∀ s, f (p ++ s) = v.bind fun c => c.view s) : overlay p v f = f := by
  funext q
  by_cases hq : p <+: q
  · obtain ⟨s, rfl⟩ := hq
    rw [overlay_append, h]
  · exact overlay_outside hq

end Overlay

/-! ### Targets under way -/

section Laid

variable {t : Target} {ts us : List Target} {f : View} {p q : List String}

theorem laid_cons (t : Target) (ts : List Target) (f : View) :
    laid (t :: ts) f = overlay t.tokens (t.edit.content content?) (laid ts f) := by
  funext q
  rw [laid, foremost, overlay]
  cases after? t.tokens q <;> rfl

theorem laid_append (ts us : List Target) (f : View) : laid (ts ++ us) f = laid ts (laid us f) := by
  induction ts with
  | nil => rfl
  | cons t ts ih => rw [List.cons_append, laid_cons, laid_cons, ih]

theorem laid_eq (h : foremost ts q = none) : laid ts f q = f q := by
  rw [laid, h]

theorem laid_middle (us vs : List Target) (f : View) (h : ¬ t.tokens <+: q) :
    laid (us ++ t :: vs) f q = laid (us ++ vs) f q := by
  rw [laid, laid, foremost_middle us vs h]

theorem overlay_laid_middle (us : List Target) (t : Target) (ts : List Target)
    (v : Option Content) (f : View) :
    overlay t.tokens v (laid (us ++ ts) f) = overlay t.tokens v (laid (us ++ t :: ts) f) := by
  apply overlay_congr
  intro q hq
  exact (laid_middle us ts f hq).symm

theorem content_remove {e : Edit} (h : e.kind = .remove) : e.content content? = none := by
  rw [Edit.content, Edit.change?, h]
  rfl

end Laid

/-- What a tree makes of a value is what the value looks like under its targets. -/
theorem Gathers.overlay_eq {ts : List Target} {n : Node} (h : Gathers ts n) (f : View) :
    n.overlay content? f = laid ts f := by
  funext q
  cases hfore : foremost ts q <;> simp only [Node.overlay, h.along, laid, hfore]

namespace Patcher

section Survivors

variable {t u : Target} {us vs ts : List Target}

theorem survivors_root (h : t.tokens = []) (ts : List Target) : survivors (t :: ts) = [] := by
  rw [survivors, List.takeWhile_cons_of_neg (by simp [h])]

theorem survivors_cons (h : t.tokens ≠ []) (ts : List Target) :
    survivors (t :: ts) = t :: survivors ts := by
  rw [survivors, List.takeWhile_cons_of_pos (by simpa using h)]
  rfl

theorem mem_of_mem_survivors (h : t ∈ survivors ts) : t ∈ ts :=
  (List.takeWhile_sublist _).subset h

/-- What the document looks like under the latest target of the whole of it and those before. -/
noncomputable def ground (ts : List Target) (f : View) : View :=
  laid (ts.dropWhile fun t => !t.tokens.isEmpty) f

theorem ground_root (h : t.tokens = []) (ts : List Target) (f : View) :
    ground (t :: ts) f = laid (t :: ts) f := by
  rw [ground, List.dropWhile_cons_of_neg (by simp [h])]

theorem ground_cons (h : t.tokens ≠ []) (ts : List Target) (f : View) :
    ground (t :: ts) f = ground ts f := by
  rw [ground, List.dropWhile_cons_of_pos (by simpa using h)]
  rfl

theorem laid_survivors (ts : List Target) (f : View) : laid (survivors ts) (ground ts f) = laid ts f := by
  rw [ground, ← laid_append, survivors, List.takeWhile_append_dropWhile]

end Survivors

/-- The targets either stand in the document or behind one that replaces it. -/
theorem base_cases (input : Text.Bytes) (ts : List Target) :
    base input ts = input ∧ (∀ f, ground ts f = f) ∨
      ∃ u ∈ ts, u.tokens = [] ∧ base input ts = u.edit.payload ∧
        ∀ f q, ground ts f q = (u.edit.content content?).bind fun c => c.view q := by
  induction ts with
  | nil => exact .inl ⟨rfl, fun f => rfl⟩
  | cons t ts ih =>
    by_cases ht : t.tokens = []
    · right
      refine ⟨t, List.mem_cons_self, ht, by simp [base, ht], fun f q => ?_⟩
      rw [ground_root ht, laid_cons, ht]
      rfl
    · have hbase : base input (t :: ts) = base input ts := by simp [base, ht]
      simp only [hbase, ground_cons ht]
      rcases ih with h | ⟨u, hu, h⟩
      · exact .inl h
      · exact .inr ⟨u, List.mem_cons_of_mem t hu, h⟩

end Patcher

namespace Resolving

/-- The target that a removal undoes, between the later and the earlier ones. -/
structure Undone (p : List String) (ts us : List Target) (t : Target) (vs : List Target) :
    Prop where
  split : ts = us ++ t :: vs
  tokens : t.tokens = p
  kind : t.edit.kind ≠ .remove
  later : ∀ u ∈ us, u.overlaps p = false

theorem exists_of_undone {p : List String} {ts : List Target} {i : Nat}
    (h : undone? p ts = some i) : ∃ us t vs, Undone p ts us t vs ∧ ts.eraseIdx i = us ++ vs := by
  obtain ⟨j, hj, h⟩ := Option.bind_eq_some_iff.1 h
  obtain ⟨t, ht, h⟩ := Option.bind_eq_some_iff.1 h
  by_cases hkind : t.tokens = p ∧ t.edit.kind ≠ .remove
  · rw [if_pos hkind] at h
    obtain rfl := Option.some.inj h
    obtain ⟨_, _, hbefore⟩ := List.findIdx?_eq_some_iff_getElem.1 hj
    obtain ⟨hlt, rfl⟩ := List.getElem?_eq_some_iff.1 ht
    refine ⟨ts.take j, ts[j], ts.drop (j + 1), ⟨?_, hkind.1, hkind.2, ?_⟩, ?_⟩
    · rw [List.getElem_cons_drop, List.take_append_drop]
    · intro u hu
      obtain ⟨k, hk, rfl⟩ := List.mem_take_iff_getElem.1 hu
      simpa using hbefore k (by omega)
    · exact List.eraseIdx_eq_take_drop_succ ts j
  · rw [if_neg hkind] at h
    cases h

/-- What a removal leaves of the targets: its own is put down, before or after an earlier one is
undone, unless nothing was there before this one. -/
inductive Removal (input : Text.Bytes) (depth : Nat) (path : String) (p : List String)
    (r : Resolving) : List Target → Prop
  | recorded (none : undone? p r.targets = none) :
      Removal input depth path p r (⟨p, .remove, path, []⟩ :: r.targets)
  | dropped {us vs : List Target} {t : Target} (undone : Undone p r.targets us t vs)
      (missing : (current input depth p ⟨r.document, us ++ vs⟩).1 = .ok .missing) :
      Removal input depth path p r (us ++ vs)
  | replaced {us vs : List Target} {t : Target} {cur : Current}
      (undone : Undone p r.targets us t vs)
      (found : (current input depth p ⟨r.document, us ++ vs⟩).1 = .ok cur) (ne : cur ≠ .missing) :
      Removal input depth path p r (⟨p, .remove, path, []⟩ :: (us ++ vs))

end Resolving

end Quarry.Patch
