import Quarry.Proofs.Patch.Progress

/-!
The targets of operations that can be made one after another sit well on one another.
-/

namespace Quarry.Patch

open Json Text Content Patcher

/-- Whether a target puts a value in a place. -/
abbrev Target.Writes (p : List String) (t : Target) : Prop := t.tokens = p ∧ t.edit.kind ≠ .remove

namespace Operation

/-- No operation takes away what more than one before it wrote in its place. -/
def TakesOnce : (written : List (List String)) → List Operation → Prop
  | _, [] => True
  | written, op :: ops =>
    (∀ p ∈ op.takes, written.count p ≤ 1) ∧ TakesOnce (op.writes ++ written) ops

instance decidableTakesOnce :
    (written : List (List String)) → (ops : List Operation) → Decidable (TakesOnce written ops)
  | _, [] => .isTrue trivial
  | written, op :: ops =>
    haveI := decidableTakesOnce (op.writes ++ written) ops
    inferInstanceAs (Decidable ((∀ p ∈ op.takes, written.count p ≤ 1) ∧ _))

end Operation

section Sits

variable {f : View} {ts : List Target} {t : Target} {c c' : Content} {a : Change} {p : List String}

/-- A target whose change can be made in the state sits well on the targets before it. -/
theorem sits_change (hview : c.view = laid ts f) (hs : ¬ a.kind.Shifts c.view t.tokens)
    (hmake : a.make t.tokens c = some c') (hk : t.edit.kind = a.kind)
    (alone : t.edit.kind = .remove →
      ∀ u ∈ survivors ts, u.tokens = t.tokens → u.edit.kind = .remove) : Sits f ts t := by
  by_cases hp : t.tokens = []
  · refine .root hp ?_
    rw [hp, Change.make] at hmake
    rw [hk]
    cases a <;> simp_all [Change.value?, Change.kind]
  · have hsuits := Change.suits_of_make hp hs hmake
    rw [hview, ← hk] at hsuits
    exact .suits hp hsuits alone

/-- Where no target can be undone, the latest one that has to do with the place crosses it or took
the value away. -/
theorem cases_of_undone_none {u : Target} (h : Resolving.undone? p ts = none)
    (hu : u ∈ survivors ts) (hw : u.Writes p) :
    (∃ v ∈ survivors ts, Crossing v.tokens p) ∨
      ∃ e, foremost ts p = some (e, []) ∧ e.kind = .remove := by
  induction ts with
  | nil => cases hu
  | cons t ts ih =>
    by_cases ht : t.tokens = []
    · rw [survivors_root ht] at hu
      cases hu
    rw [survivors_cons ht] at hu ⊢
    by_cases hover : t.overlaps p = true
    · have hnot : ¬ t.Writes p := by
        intro hwrites
        rw [Resolving.undone?, List.findIdx?_cons, hover] at h
        simp [hwrites] at h
      by_cases hsame : t.tokens = p
      · right
        refine ⟨t.edit, ?_, by_contra fun hk => hnot ⟨hsame, hk⟩⟩
        rw [foremost, after?_eq_some.2 (by rw [List.append_nil, hsame])]
      · left
        exact ⟨t, List.mem_cons_self, hsame, overlaps_iff.1 hover⟩
    · have hu : u ∈ survivors ts := by
        rcases List.mem_cons.1 hu with rfl | hu
        · exact absurd (overlaps_iff.2 (.inl (hw.1 ▸ List.prefix_rfl))) hover
        · exact hu
      have hrest : Resolving.undone? p ts = none := by
        rw [Bool.not_eq_true] at hover
        simp only [Resolving.undone?, List.findIdx?_cons, hover] at h ⊢
        cases hi : ts.findIdx? (Target.overlaps p) with
        | none => rfl
        | some i => simpa [hi] using h
      rcases ih hrest hu with ⟨v, hv, hcross⟩ | ⟨e, he, hk⟩
      · exact .inl ⟨v, List.mem_cons_of_mem t hv, hcross⟩
      · right
        refine ⟨e, ?_, hk⟩
        have hnot : ¬ t.tokens <+: p := fun hpre => hover (overlaps_iff.2 (.inl hpre))
        rw [foremost, after?_eq_none.2 hnot]
        exact he

theorem textAt_ne_modified (bs : Bytes) (d : Document) (q : List String) :
    textAt bs d q ≠ .modified := by
  rw [textAt]
  split <;> simp

theorem crossing_of_decided {depth : Nat} (h : decided depth p ts = some (.ok .modified)) :
    ∃ u ∈ survivors ts, Crossing u.tokens p := by
  have htextIn : ∀ bs q, textIn depth bs q ≠ .ok .modified := by
    intro bs q
    rw [textIn]
    split
    · simp
    · split
      · simpa using textAt_ne_modified _ _ _
      · simp
  induction ts with
  | nil => cases h
  | cons t ts ih =>
    rw [decided] at h
    split at h
    · split at h
      · cases h
      · exact absurd (Option.some.inj h) (htextIn _ _)
    · rename_i hafter
      rw [after?_eq_none] at hafter
      have ht : t.tokens ≠ [] := by
        intro ht
        rw [ht] at hafter
        exact hafter List.nil_prefix
      rw [survivors_cons ht]
      split at h
      · rename_i hwithin
        rw [List.isPrefixOf_iff_prefix] at hwithin
        refine ⟨t, List.mem_cons_self, ?_, .inr hwithin⟩
        rintro rfl
        exact hafter List.prefix_rfl
      · obtain ⟨u, hu, hcross⟩ := ih h
        exact ⟨u, List.mem_cons_of_mem t hu, hcross⟩

end Sits

namespace Resolving

variable {input : Bytes} {depth : Nat} {n : Quarry.Node} {r r' : Resolving} {p : List String}
  {path : String} {c c' : Content}

theorem crossing_of_current (h : (r.current input depth p).1 = .ok .modified) :
    ∃ u ∈ survivors r.targets, Crossing u.tokens p := by
  rw [current] at h
  split at h
  · rename_i a ha
    rw [show a = .ok .modified from h] at ha
    exact crossing_of_decided ha
  · split at h
    · exact absurd (Except.ok.inj h) (textAt_ne_modified _ _ _)
    · split at h
      · cases h
      · exact absurd (Except.ok.inj h) (textAt_ne_modified _ _ _)

theorem sits_of_undone_none {f : View} {ts : List Target} (hp : p ≠ [])
    (hsuits : EditKind.Suits (laid ts f) p .remove) (h : undone? p ts = none) (path : String) :
    Sits f ts ⟨p, .remove, path, []⟩ := by
  by_cases hcross : ∃ v ∈ survivors ts, Crossing v.tokens p
  · obtain ⟨v, hv, hvp⟩ := hcross
    exact .crossing hv hvp
  · refine .suits hp hsuits fun _ u hu hup => ?_
    by_contra hk
    rcases cases_of_undone_none h hu ⟨hup, hk⟩ with hv | ⟨e, he, hremove⟩
    · exact hcross hv
    · have hnone : laid ts f p = none := by
        rw [laid, he]
        simp only [content_remove hremove]
        rfl
      rw [EditKind.Suits, hnone] at hsuits
      simp at hsuits

/-- A removal that undoes the only target that wrote at its place, where something was before. -/
theorem sits_of_undone {cur : Current} {us vs : List Target} {u : Target}
    (hn : Reads input depth n) (h : r.Keeps input depth Plain) (hu : Undone p r.targets us u vs)
    (hc : Pointer.Canonical (laid r.targets n.content.view) p) (hp : p ≠ [])
    (hsuits : EditKind.Suits (laid r.targets n.content.view) p .remove)
    (honce : r.targets.countP (fun t => t.Writes p) ≤ 1)
    (hcur : (current input depth p ⟨r.document, us ++ vs⟩).1 = .ok cur) (hne : cur ≠ .missing)
    (path : String) : Sits n.content.view (us ++ vs) ⟨p, .remove, path, []⟩ := by
  have hshows := shows_current hn (h.undone hu) hcur
  cases cur with
  | missing => exact absurd rfl hne
  | modified =>
    obtain ⟨w, hw, hcross⟩ := crossing_of_current hcur
    exact .crossing hw hcross
  | raw text =>
    rw [hu.split] at hc hsuits honce
    -- The target that is undone is not around any place above its own.
    have habove : ∀ q, q <+: p → q ≠ p →
        laid (us ++ vs) n.content.view q = laid (us ++ u :: vs) n.content.view q := by
      intro q hq hne
      refine (laid_middle us vs _ ?_).symm
      rw [hu.tokens]
      exact fun hpre => hne (hq.eq_of_length_le hpre.length_le)
    obtain ⟨v, -, hview⟩ := hshows (hc.congr habove)
    have hhere : laid (us ++ vs) n.content.view p = v.view [] := by
      simpa using hview []
    have hparent := habove _ (List.dropLast_prefix p) (dropLast_ne hp)
    refine .suits hp ⟨hparent.trans hsuits.1, by rw [hhere]; rfl⟩ fun _ w hw hwp => ?_
    -- Another target that wrote there would be the second one.
    by_contra hk
    have hpos : 0 < (us ++ vs).countP fun t => t.Writes p :=
      List.countP_pos_iff.2 ⟨w, mem_of_mem_survivors hw, by simpa using ⟨hwp, hk⟩⟩
    have htwo : (us ++ u :: vs).countP (fun t => t.Writes p) =
        (us ++ vs).countP (fun t => t.Writes p) + 1 := by
      rw [List.countP_append, List.countP_append,
        List.countP_cons_of_pos (by simpa using ⟨hu.tokens, hu.kind⟩)]
      omega
    omega

theorem remove_placed (hn : Reads input depth n) (h : Tracks input depth n c r)
    (hplaced : Placed n.content.view r.targets) (hp : Pointer.parse? path = some p)
    (hs : ¬ Change.remove.kind.Shifts c.view p) (hmake : Change.remove.make p c = some c')
    (honce : r.targets.countP (fun t => t.Writes p) ≤ 1)
    (hok : r.remove input depth path = (.ok (), r')) :
    Placed n.content.view r'.targets ∧
      ∀ q, r'.targets.countP (fun t => t.Writes q) ≤ r.targets.countP (fun t => t.Writes q) := by
  have hcount : ∀ (ts : List Target) (q : List String),
      (Target.mk p ⟨.remove, path, []⟩ :: ts).countP (fun t => t.Writes q) =
        ts.countP fun t => t.Writes q := by
    intro ts q
    rw [List.countP_cons_of_neg]
    simp
  have hpne : p ≠ [] := by
    rintro rfl
    cases hmake
  have hsuits : EditKind.Suits (laid r.targets n.content.view) p .remove :=
    h.view ▸ Change.suits_of_make hpne hs hmake
  have hc : Pointer.Canonical (laid r.targets n.content.view) p := by
    rw [← h.view] at hsuits ⊢
    apply Pointer.canonical_of_get? h.valid
    simpa [view] using hsuits.2
  have hle : ∀ {us vs : List Target} {u : Target}, Undone p r.targets us u vs → ∀ q,
      (us ++ vs).countP (fun t => t.Writes q) ≤ r.targets.countP fun t => t.Writes q := by
    intro us vs u hundone q
    rw [hundone.split]
    exact List.Sublist.countP_le (by simp)
  have hrest : ∀ {us vs : List Target} {u : Target}, Undone p r.targets us u vs →
      Placed n.content.view (us ++ vs) := by
    intro us vs u hundone
    rw [hundone.split] at hplaced
    have htokens : u.tokens ≠ [] := hundone.tokens ▸ hpne
    exact hplaced.erase (fun w us hw => Sits.erase htokens hw) (hundone.tokens ▸ hundone.later)
  have hremoval := removal_of_remove hp hok
  generalize r'.targets = ts at hremoval ⊢
  cases hremoval with
  | recorded hnone =>
    exact ⟨⟨sits_of_undone_none hpne hsuits hnone path, hplaced⟩, fun q => (hcount r.targets q).le⟩
  | dropped hundone _ => exact ⟨hrest hundone, hle hundone⟩
  | @replaced us vs u cur hundone hfound hne =>
    have hsits := sits_of_undone hn h.keeps hundone hc hpne hsuits honce hfound hne path
    exact ⟨⟨hsits, hrest hundone⟩, fun q => (hcount (us ++ vs) q).trans_le (hle hundone q)⟩

end Resolving

/-! ### Operations -/

/-- The texts of the targets can be read, each target sits well on the earlier ones, and no place
was written more often than in `written`. -/
structure Ready (input : Bytes) (depth : Nat) (f : View) (written : List (List String))
    (r : Resolving) : Prop where
  shallow : r.Keeps input depth (Shallow depth)
  placed : Placed f r.targets
  counted : ∀ p, r.targets.countP (fun t => t.Writes p) ≤ written.count p

section Ready

variable {input payload : Bytes} {depth : Nat} {n : Quarry.Node} {c c' : Content} {r r' : Resolving}
  {written : List (List String)} {p : List String} {path : String} {kind : EditKind}

theorem countP_push (t : Target) (ts : List Target) (hk : t.edit.kind ≠ .remove)
    (h : ∀ p, ts.countP (fun t => t.Writes p) ≤ written.count p) (p : List String) :
    (t :: ts).countP (fun t => t.Writes p) ≤ (t.tokens :: written).count p := by
  have hle := h p
  by_cases hp : t.tokens = p
  · rw [List.countP_cons_of_pos (by simpa using ⟨hp, hk⟩), hp, List.count_cons_self]
    omega
  · rw [List.countP_cons_of_neg (by simpa using fun heq => absurd heq hp),
      List.count_cons_of_ne (by simpa using hp)]
    exact hle

theorem Ready.pushEdit {a : Change} (h : Ready input depth n.content.view written r)
    (hview : c.view = laid r.targets n.content.view) (hs : ¬ a.kind.Shifts c.view p)
    (hmake : a.make p c = some c') (ha : a.kind = kind) (hk : kind ≠ .remove)
    (hp : Pointer.parse? path = some p) (hpayload : Shallow depth payload)
    (hok : r.pushEdit kind path payload = (.ok (), r')) :
    Ready input depth n.content.view (p :: written) r' := by
  have hshallow : (r.pushEdit kind path payload).2.Keeps input depth (Shallow depth) :=
    Resolving.keeps_pushEdit h.shallow hpayload
  rw [hok] at hshallow
  obtain rfl := Resolving.push_of_pushEdit hp hok
  refine ⟨hshallow, ⟨?_, h.placed⟩, ?_⟩
  · exact sits_change hview hs hmake ha.symm fun hremove => absurd hremove hk
  · exact countP_push _ _ hk h.counted

theorem Ready.asked {o : Operation} {r₁ : Resolving} {text : Bytes} {w : Content}
    (h : Ready input depth n.content.view written r) (ho : o.Holds (Shallow depth))
    (ha : Asked input depth n c r o r₁ text w) :
    Ready input depth n.content.view written r₁ ∧ Shallow depth text := by
  obtain ⟨hkeeps, htext⟩ := ha.inherits (inherited_shallow input depth) ho h.shallow
  exact ⟨⟨hkeeps, ha.targets ▸ h.placed, ha.targets ▸ h.counted⟩, htext⟩

theorem Ready.remove (hr : Ready input depth n.content.view written r) (hn : Reads input depth n)
    (h : Tracks input depth n c r) (hp : Pointer.parse? path = some p)
    (hs : ¬ EditKind.Shifts c.view p .remove) (hmake : Change.remove.make p c = some c')
    (hle : written.count p ≤ 1) (hok : r.remove input depth path = (.ok (), r')) :
    Ready input depth n.content.view written r' := by
  have hkeeps := Resolving.keeps_remove hr.shallow path
  rw [hok] at hkeeps
  obtain ⟨hplaced, hcount⟩ := Resolving.remove_placed hn h hr.placed hp hs hmake
    ((hr.counted p).trans hle) hok
  exact ⟨hkeeps, hplaced, fun q => (hcount q).trans (hr.counted q)⟩

theorem Ready.operation {o : Operation} (hn : Reads input depth n)
    (h : Tracks input depth n c r) (hr : Ready input depth n.content.view written r)
    (hshallow : o.Holds (Shallow depth))
    (hs : ∀ changes, o.changes c = some changes → Steady c changes)
    (hstep : o.step c = some c') (honce : ∀ p ∈ o.takes, written.count p ≤ 1)
    (hok : Resolving.operation input depth o r = (.ok (), r')) :
    Ready input depth n.content.view (o.writes ++ written) r' := by
  obtain ⟨changes, hchanges, hmakes, hresolved⟩ := h.resolved_of_step hn hstep hok
  have hsteady := hs changes hchanges
  cases hresolved with
  | puts asked value parsed writes pushed =>
    obtain ⟨hr1, htext⟩ := hr.asked hshallow asked
    obtain ⟨c1, hmake, hstays, -⟩ := hsteady.first hmakes
    rw [writes]
    exact hr1.pushEdit asked.tracks.view hstays hmake rfl (Change.kind_ne_remove value) parsed htext
      pushed
  | takes parsed removed =>
    obtain ⟨c1, hmake, hstays, -⟩ := hsteady.first hmakes
    exact hr.remove hn h parsed hstays hmake (honce _ (by simp [Operation.takes, parsed])) removed
  | moves asked origin _ removed parsed pushed =>
    obtain ⟨hr1, htext⟩ := hr.asked hshallow asked
    obtain ⟨c1, hmake1, hstays1, hsteady, hmakes⟩ := hsteady.first hmakes
    obtain ⟨c2, hmake2, hstays2, -⟩ := hsteady.first hmakes
    have hr2 := hr1.remove hn asked.tracks origin hstays1 hmake1
      (honce _ (by simp [Operation.takes, origin])) removed
    have hview := asked.tracks.view_remove hn origin hstays1 hmake1 removed
    have hall := hr2.pushEdit hview hstays2 hmake2 rfl (by simp [Change.kind]) parsed htext pushed
    simpa [Operation.writes, parsed] using hall
  | checks asked => exact (hr.asked hshallow asked).1

end Ready

end Quarry.Patch
