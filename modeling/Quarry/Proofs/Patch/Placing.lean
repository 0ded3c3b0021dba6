import Quarry.Proofs.Patch.Laying

/-!
Targets that suited the document when they were put down suit the text they are made in, where none
of them lies within another.
-/

namespace Quarry.Patch

open Json Content Patcher

theorem EditKind.Suits.congr {f g : View} {p : List String} {k : EditKind} (h : k.Suits f p)
    (hp : f p = g p) (hparent : f p.dropLast = g p.dropLast) : k.Suits g p := by
  cases k <;> simpa only [Suits, hp, hparent] using h

/-- What puts a value suits a place that another edit suits, in a container of the same kind. -/
theorem EditKind.Suits.again {f g : View} {p : List String} {k k' : EditKind} (h : k.Suits f p)
    (hk : k ≠ .remove) (h' : k'.Suits g p) (hparent : f p.dropLast = g p.dropLast) :
    k.Suits g p := by
  cases k with
  | remove => exact absurd rfl hk
  | add => exact hparent.symm.trans h
  | replace =>
    rcases h with hobject | ⟨harray, -⟩
    · exact .inl (hparent.symm.trans hobject)
    · rw [hparent] at harray
      cases k' with
      | replace => exact h'
      | add =>
        rw [Suits, harray] at h'
        simp at h'
      | remove =>
        rw [Suits, harray] at h'
        simp at h'

/-- How a target stands to the earlier ones: it takes the place of the document, or suits what is
seen under them and takes nothing away that one of them put there, or it crosses one of them. -/
inductive Sits (f : View) (older : List Target) (t : Target) : Prop
  | root (tokens : t.tokens = []) (kind : t.edit.kind ≠ .remove)
  | suits (place : t.tokens ≠ []) (here : t.edit.kind.Suits (laid older f) t.tokens)
      (alone : t.edit.kind = .remove →
        ∀ u ∈ survivors older, u.tokens = t.tokens → u.edit.kind = .remove)
  | crossing {u : Target} (mem : u ∈ survivors older) (cross : Crossing u.tokens t.tokens)

/-- Each target stands in a relation to the earlier ones. -/
def Layered (R : List Target → Target → Prop) : List Target → Prop
  | [] => True
  | t :: ts => R ts t ∧ Layered R ts

/-- To undo a target does not matter to later ones that have nothing to do with its place. -/
theorem Layered.erase {R : List Target → Target → Prop} {us vs : List Target} {t : Target}
    (hR : ∀ u us, u.overlaps t.tokens = false → R (us ++ t :: vs) u → R (us ++ vs) u)
    (hus : ∀ u ∈ us, u.overlaps t.tokens = false) (h : Layered R (us ++ t :: vs)) :
    Layered R (us ++ vs) := by
  induction us with
  | nil => exact h.2
  | cons u us ih =>
    rw [List.forall_mem_cons] at hus
    exact ⟨hR u us hus.1 h.1, ih hus.2 h.2⟩

abbrev Placed (f : View) : List Target → Prop := Layered (Sits f)

section Erase

variable {f : View} {t u : Target} {us vs : List Target}

theorem mem_survivors_middle (ht : t.tokens ≠ []) (us vs : List Target) :
    (u ∈ survivors (us ++ vs) → u ∈ survivors (us ++ t :: vs)) ∧
      (u ∈ survivors (us ++ t :: vs) → u = t ∨ u ∈ survivors (us ++ vs)) := by
  induction us with
  | nil =>
    rw [List.nil_append, List.nil_append, survivors_cons ht]
    exact ⟨List.mem_cons_of_mem t, List.mem_cons.1⟩
  | cons w us ih =>
    rw [List.cons_append, List.cons_append]
    by_cases hw : w.tokens = []
    · rw [survivors_root hw, survivors_root hw]
      exact ⟨id, .inr⟩
    · rw [survivors_cons hw, survivors_cons hw]
      constructor
      · intro hu
        rcases List.mem_cons.1 hu with rfl | hu
        · exact List.mem_cons_self
        · exact List.mem_cons_of_mem w (ih.1 hu)
      · intro hu
        rcases List.mem_cons.1 hu with rfl | hu
        · exact .inr List.mem_cons_self
        · exact (ih.2 hu).imp_right (List.mem_cons_of_mem w)

theorem Sits.erase (ht : t.tokens ≠ []) (hu : u.overlaps t.tokens = false)
    (h : Sits f (us ++ t :: vs) u) : Sits f (us ++ vs) u := by
  have hover := not_overlaps hu
  cases h with
  | root tokens kind => exact .root tokens kind
  | suits place here alone =>
    refine .suits place (here.congr ?_ ?_) ?_
    · exact laid_middle us vs f fun hpre => hover (.inr hpre)
    · exact laid_middle us vs f fun hpre =>
        hover (.inr (hpre.trans (List.dropLast_prefix u.tokens)))
    · intro hk w hw
      exact alone hk w ((mem_survivors_middle ht us vs).1 hw)
  | @crossing w mem cross =>
    rcases (mem_survivors_middle ht us vs).2 mem with rfl | hw
    · exact absurd cross.2.symm hover
    · exact .crossing hw cross

end Erase

/-! ### Made in a text -/

theorem Uncrossed.tail {t : Target} {ts : List Target} (h : Uncrossed (t :: ts)) : Uncrossed ts :=
  fun a ha b hb => h a (List.mem_cons_of_mem t ha) b (List.mem_cons_of_mem t hb)

theorem foremost_around {ts : List Target} {p q : List String}
    (h : ∀ u ∈ ts, ¬ Crossing u.tokens p) (hq : q <+: p) (hne : q ≠ p) : foremost ts q = none := by
  rw [foremost_eq_none]
  intro u hu hpre
  refine h u hu ⟨?_, .inl (hpre.trans hq)⟩
  rintro rfl
  exact hne (hq.eq_of_length_le hpre.length_le)

theorem not_prefix_dropLast {p : List String} (h : p ≠ []) : ¬ p <+: p.dropLast := by
  intro hpre
  have hlen := hpre.length_le
  have hpos := List.length_pos_of_ne_nil h
  rw [List.length_dropLast] at hlen
  omega

theorem dropLast_ne {p : List String} (h : p ≠ []) : p.dropLast ≠ p := fun heq =>
  not_prefix_dropLast h (heq.symm ▸ List.prefix_rfl)

/-- The container of a place that no target crosses is that of the text. -/
theorem laid_dropLast {f : View} {ts : List Target} {q : List String}
    (h : ∀ u ∈ survivors ts, ¬ Crossing u.tokens q) (hq : q ≠ []) :
    laid ts f q.dropLast = ground ts f q.dropLast := by
  rw [← laid_survivors]
  exact laid_eq (foremost_around h (List.dropLast_prefix q) (dropLast_ne hq))

/-- The latest target around a place that none crosses is one of the place itself. -/
theorem exists_of_foremost_here {ts : List Target} {q rest : List String} {e : Edit}
    (h : ∀ u ∈ ts, ¬ Crossing u.tokens q) (he : foremost ts q = some (e, rest)) :
    rest = [] ∧ ∃ u ∈ ts, u.edit = e ∧ u.tokens = q := by
  obtain ⟨u, hu, hedit, htokens⟩ := exists_of_foremost he
  have hsame : u.tokens = q := by
    by_contra hne
    exact h u hu ⟨hne, .inl ⟨rest, htokens.symm⟩⟩
  exact ⟨by simpa [hsame] using htokens, u, hu, hedit, hsame⟩

/-- A target that sits well suits the text, where an earlier edit of its place does. -/
theorem Sits.suits_ground {f : View} {ts : List Target} {t : Target} (h : Sits f ts t)
    (ht : t.tokens ≠ []) (hapart : ∀ u ∈ survivors ts, ¬ Crossing u.tokens t.tokens)
    (hearlier : ∀ e, foremost (survivors ts) t.tokens = some (e, []) →
      e.kind.Suits (ground ts f) t.tokens) :
    t.edit.kind.Suits (ground ts f) t.tokens := by
  have hparent := laid_dropLast (f := f) hapart ht
  cases h with
  | root tokens kind => exact absurd tokens ht
  | crossing mem cross => exact absurd cross (hapart _ mem)
  | suits place here alone =>
    cases hbefore : foremost (survivors ts) t.tokens with
    | none =>
      refine here.congr ?_ hparent
      rw [← laid_survivors]
      exact laid_eq hbefore
    | some x =>
      obtain ⟨e, rest⟩ := x
      obtain ⟨rfl, u, hu, rfl, hsame⟩ := exists_of_foremost_here hapart hbefore
      by_cases hk : t.edit.kind = .remove
      · have hremove := alone hk u hu hsame
        have hnone : laid ts f t.tokens = none := by
          rw [← laid_survivors, laid, hbefore]
          simp only [content_remove hremove]
          rfl
        rw [hk, EditKind.Suits, hnone] at here
        simp at here
      · exact here.again hk (hearlier u.edit hbefore) hparent

theorem suits_of_placed {f : View} {ts : List Target} (h : Placed f ts)
    (hcross : Uncrossed (survivors ts)) {q : List String} {e : Edit}
    (hq : foremost (survivors ts) q = some (e, [])) : e.kind.Suits (ground ts f) q := by
  induction ts generalizing q e with
  | nil => cases hq
  | cons t ts ih =>
    by_cases ht : t.tokens = []
    · rw [survivors_root ht] at hq
      cases hq
    rw [survivors_cons ht] at hcross hq
    rw [ground_cons ht]
    have hapart : ∀ u ∈ survivors ts, ¬ Crossing u.tokens t.tokens := fun u hu =>
      hcross u (List.mem_cons_of_mem t hu) t List.mem_cons_self
    rw [foremost] at hq
    split at hq
    · rename_i rest hrest
      cases hq
      rw [after?_eq_some, List.append_nil] at hrest
      subst hrest
      exact h.1.suits_ground ht hapart fun e he => ih h.2 hcross.tail he
    · exact ih h.2 hcross.tail hq

end Quarry.Patch
