import Quarry.Proofs.Patch.Ready

/-!
Edits that cannot be made: the pass over the text finds them, where none of the operations after them
covers the failure.
-/

namespace Quarry.Patch

open Json Text Content Patcher

/-- A target that an operation may put down. -/
def Operation.Puts (o : Operation) (t : Target) : Prop :=
  if t.edit.kind = .remove then t.tokens ∈ o.takes else t.tokens ∈ o.writes

/-! ### What operations do to the targets -/

namespace Resolving

section Targets

variable {input : Bytes} {depth : Nat} {r r' : Resolving} {o : Operation} {ops : List Operation}
  {Q : List Target → Prop}

/-- What holds of the targets after each one put down and each one undone holds after the whole
operation. -/
theorem operation_targets (hput : ∀ t ts, o.Puts t → Q ts → Q (t :: ts))
    (hundo : ∀ p ∈ o.takes, ∀ ts us t vs, Undone p ts us t vs → Q ts → Q (us ++ vs))
    (h : Q r.targets) (hok : operation input depth o r = (.ok (), r')) : Q r'.targets := by
  have hremove : ∀ {r r' : Resolving} {path : String}, r.remove input depth path = (.ok (), r') →
      (∀ p, Pointer.parse? path = some p → p ∈ o.takes) → Q r.targets → Q r'.targets := by
    intro r r' path hok htakes h
    obtain ⟨p, hp, hremoval⟩ := remove_ok hok
    have htarget : o.Puts ⟨p, .remove, path, []⟩ := by simpa [Operation.Puts] using htakes p hp
    generalize r'.targets = ts at hremoval ⊢
    cases hremoval with
    | recorded _ => exact hput _ _ htarget h
    | dropped hundone _ => exact hundo p (htakes p hp) _ _ _ _ hundone h
    | replaced hundone _ _ =>
      exact hput _ _ htarget (hundo p (htakes p hp) _ _ _ _ hundone h)
  cases o with
  | replace path value =>
    obtain ⟨p, hp, rfl⟩ := pushEdit_ok hok
    exact hput _ _ (by simp [Operation.Puts, Operation.writes, hp]) h
  | add path value =>
    obtain ⟨p, hp, rfl⟩ := pushEdit_ok hok
    exact hput _ _ (by simp [Operation.Puts, Operation.writes, hp]) h
  | remove path => exact hremove hok (fun p hp => by simp [Operation.takes, hp]) h
  | copy source path =>
    obtain ⟨text, r1, hvalue, hpush⟩ := copy_ok hok
    have htargets := targets_valueAt hvalue
    obtain ⟨p, hp, rfl⟩ := pushEdit_ok hpush
    exact hput _ _ (by simp [Operation.Puts, Operation.writes, hp]) (htargets ▸ h)
  | move source path =>
    obtain ⟨-, text, r1, r2, hvalue, hok, hpush⟩ := move_ok hok
    have htargets := targets_valueAt hvalue
    have h2 := hremove hok (fun p hp => by simp [Operation.takes, hp]) (htargets ▸ h)
    obtain ⟨p, hp, rfl⟩ := pushEdit_ok hpush
    exact hput _ _ (by simp [Operation.Puts, Operation.writes, hp]) h2
  | test path value =>
    obtain ⟨text, hvalue, -⟩ := test_ok hok
    have htargets := targets_valueAt hvalue
    exact htargets ▸ h

theorem operations_targets (hput : ∀ o ∈ ops, ∀ t ts, o.Puts t → Q ts → Q (t :: ts))
    (hundo : ∀ o ∈ ops, ∀ p ∈ o.takes, ∀ ts us t vs, Undone p ts us t vs → Q ts → Q (us ++ vs))
    (h : Q r.targets) (hok : operations input depth ops r = (.ok (), r')) : Q r'.targets := by
  induction ops generalizing r with
  | nil =>
    cases hok
    exact h
  | cons o ops ih =>
    rw [List.forall_mem_cons] at hput hundo
    rw [operations] at hok
    split at hok
    · cases hok
    rename_i r1 hoperation
    exact ih hput.2 hundo.2 (operation_targets hput.1 hundo.1 h hoperation) hok

theorem operations_append {pre post : List Operation}
    (h : operations input depth (pre ++ post) r = (.ok (), r')) :
    ∃ r1, operations input depth pre r = (.ok (), r1) ∧
      operations input depth post r1 = (.ok (), r') := by
  induction pre generalizing r with
  | nil => exact ⟨r, rfl, h⟩
  | cons o pre ih =>
    rw [List.cons_append, operations] at h
    rw [operations]
    split at h
    · cases h
    · exact ih h

theorem Undone.mem {p : List String} {ts us vs : List Target} {t u : Target}
    (h : Undone p ts us t vs) (hu : u ∈ us ++ vs) : u ∈ ts := by
  rw [h.split]
  rcases List.mem_append.1 hu with hus | hvs
  · exact List.mem_append_left _ hus
  · exact List.mem_append_right us (List.mem_cons_of_mem t hvs)

theorem exists_takes (hok : operations input depth ops ⟨none, []⟩ = (.ok (), r')) :
    ∀ t ∈ r'.targets, t.edit.kind = .remove → ∃ o ∈ ops, t.tokens ∈ o.takes := by
  apply operations_targets (Q := fun ts =>
    ∀ t ∈ ts, t.edit.kind = .remove → ∃ o ∈ ops, t.tokens ∈ o.takes) _ _ _ hok
  · intro o ho t ts hputs h u hu hk
    rcases List.mem_cons.1 hu with rfl | hu
    · rw [Operation.Puts, if_pos hk] at hputs
      exact ⟨o, ho, hputs⟩
    · exact h u hu hk
  · intro o ho p hp ts us t vs hundone h u hu
    exact h u (hundone.mem hu)
  · simp

end Targets

end Resolving

/-! ### Containers that lose members -/

/-- What was taken away was a member of an object. -/
abbrev Clean (f : View) : List Target → Prop := Layered fun ts t =>
  t.edit.kind = .remove → t.tokens ≠ [] → laid ts f t.tokens.dropLast = some (.group true)

section Clean

variable {f : View} {p q : List String} {ts us vs : List Target} {t u : Target}

theorem Clean.undo (h : Clean f ts) (hu : Resolving.Undone q ts us t vs) : Clean f (us ++ vs) := by
  have hlater := hu.later
  rw [hu.split] at h
  rw [← hu.tokens] at hlater
  refine h.erase (fun w us hw hclean hk hne => ?_) hlater
  rw [← hclean hk hne]
  exact (laid_middle us vs f fun hpre =>
    not_overlaps hw (.inr (hpre.trans (List.dropLast_prefix w.tokens)))).symm

/-- It is still a member of an object, where none of the targets lies within another. -/
theorem Clean.ground (h : Clean f ts) (hq : q ≠ [])
    (hcross : ∀ u ∈ survivors ts, ¬ Crossing u.tokens q) (hu : u ∈ survivors ts)
    (htokens : u.tokens = q) (hk : u.edit.kind = .remove) :
    Patcher.ground ts f q.dropLast = some (.group true) := by
  induction ts with
  | nil => cases hu
  | cons t ts ih =>
    by_cases ht : t.tokens = []
    · rw [survivors_root ht] at hu
      cases hu
    rw [survivors_cons ht] at hu hcross
    rw [List.forall_mem_cons] at hcross
    rw [ground_cons ht]
    rcases List.mem_cons.1 hu with rfl | hu
    · have hparent := h.1 hk ht
      rwa [htokens, laid_dropLast hcross.2 hq] at hparent
    · exact ih h.2 hcross.2 hu

end Clean

/-! ### Edits that cannot be made -/

/-- A target that does not suit what is seen under the earlier ones. Later ones at its place take
away a value just if it does. -/
structure Amiss (f : View) (p : List String) (k : EditKind) (newer : List Target) (t : Target)
    (older : List Target) : Prop where
  tokens : t.tokens = p
  ne : p ≠ []
  whole : ∀ u ∈ newer, u.tokens ≠ []
  kinds : ∀ u ∈ newer ++ [t], u.tokens = p → (u.edit.kind = .remove ↔ k = .remove)
  unsuited : ¬ k.Suits (laid older f) p
  clean : Clean f older
  alone : k = .remove → ∀ u ∈ older, u.tokens = p → u.edit.kind ≠ .remove

/-- An edit that cannot be made is among the targets. -/
inductive Unfit (f : View) (p : List String) (k : EditKind) (ts : List Target) : Prop
  | root (t : Target) (mem : t ∈ ts) (tokens : t.tokens = []) (kind : t.edit.kind = .remove)
  | amiss (newer older : List Target) (t : Target) (split : ts = newer ++ t :: older)
      (here : Amiss f p k newer t older)

section Unfit

variable {f : View} {p q : List String} {k : EditKind} {ts us vs newer older : List Target}
  {t w : Target}

theorem Unfit.put (h : Unfit f p k ts) (hroot : t.tokens = [] → t.edit.kind = .remove)
    (hk : t.tokens = p → (t.edit.kind = .remove ↔ k = .remove)) : Unfit f p k (t :: ts) := by
  by_cases htokens : t.tokens = []
  · exact .root t List.mem_cons_self htokens (hroot htokens)
  cases h with
  | root u mem tokens kind => exact .root u (List.mem_cons_of_mem t mem) tokens kind
  | amiss newer older u split here =>
    refine .amiss (t :: newer) older u (by rw [split]; rfl) { here with whole := ?_, kinds := ?_ }
    · rw [List.forall_mem_cons]
      exact ⟨htokens, here.whole⟩
    · rw [List.cons_append, List.forall_mem_cons]
      exact ⟨hk, here.kinds⟩

theorem Amiss.undo_older (h : Amiss f p k newer w older) (hu : Resolving.Undone q older us t vs)
    (hw : w.overlaps q = false) : Amiss f p k newer w (us ++ vs) where
  tokens := h.tokens
  ne := h.ne
  whole := h.whole
  kinds := h.kinds
  unsuited := by
    have hpre : ¬ t.tokens <+: p := by
      rw [hu.tokens, ← h.tokens]
      exact fun hpre => not_overlaps hw (.inr hpre)
    intro hsuits
    apply h.unsuited
    rw [hu.split]
    apply hsuits.congr
    · exact (laid_middle us vs f hpre).symm
    · exact (laid_middle us vs f fun hdrop =>
        hpre (hdrop.trans (List.dropLast_prefix p))).symm
  clean := h.clean.undo hu
  alone hk u hmem := h.alone hk u (hu.mem hmem)

/-- No later operation undoes such an edit, or one around its place. -/
theorem Unfit.undo (h : Unfit f p k ts) (hu : Resolving.Undone q ts us t vs)
    (hq : k ≠ .remove → q ≠ p) : Unfit f p k (us ++ vs) := by
  cases h with
  | root w mem tokens kind =>
    rw [hu.split, List.mem_append, List.mem_cons] at mem
    refine .root w (List.mem_append.2 ?_) tokens kind
    rcases mem with hus | rfl | hvs
    · exact .inl hus
    · exact absurd kind hu.kind
    · exact .inr hvs
  | amiss newer older w split here =>
    -- The target that is undone stands before the edit or behind it.
    have hne : t ≠ w := by
      rintro rfl
      have hkind := here.kinds t (by simp) here.tokens
      by_cases hk : k = .remove
      · exact hu.kind (hkind.2 hk)
      · exact hq hk (hu.tokens.symm.trans here.tokens)
    have hsplit := hu.split
    rw [split] at hsplit
    rcases List.append_eq_append_iff.1 hsplit with ⟨as, rfl, hrest⟩ | ⟨bs, rfl, hrest⟩
    · cases as with
      | nil =>
        obtain ⟨rfl, -⟩ := List.cons.inj hrest
        exact absurd rfl hne
      | cons a as =>
        rw [List.cons_append] at hrest
        obtain ⟨rfl, rfl⟩ := List.cons.inj hrest
        have hlater := hu.later
        rw [List.forall_mem_append, List.forall_mem_cons] at hlater
        have hundone : Resolving.Undone q (as ++ t :: vs) as t vs :=
          ⟨rfl, hu.tokens, hu.kind, hlater.2.2⟩
        exact .amiss newer (as ++ vs) w (by simp) (here.undo_older hundone hlater.2.1)
    · cases bs with
      | nil =>
        obtain ⟨rfl, -⟩ := List.cons.inj hrest
        exact absurd rfl hne
      | cons b bs =>
        rw [List.cons_append] at hrest
        obtain ⟨rfl, rfl⟩ := List.cons.inj hrest
        refine .amiss (us ++ bs) older w (by simp) { here with whole := ?_, kinds := ?_ }
        · intro u hmem
          exact here.whole u (by simp at hmem ⊢; tauto)
        · intro u hmem
          exact here.kinds u (by simp at hmem ⊢; tauto)

theorem Unfit.operations {input : Bytes} {depth : Nat} {r r' : Resolving} {ops : List Operation}
    (h : Unfit f p k r.targets) (hroot : ∀ o ∈ ops, [] ∉ o.writes)
    (hremove : k = .remove → ∀ o ∈ ops, p ∉ o.writes)
    (hwrite : k ≠ .remove → ∀ o ∈ ops, p ∉ o.takes)
    (hok : Resolving.operations input depth ops r = (.ok (), r')) : Unfit f p k r'.targets := by
  apply Resolving.operations_targets _ _ h hok
  · intro o ho t ts hputs h
    rw [Operation.Puts] at hputs
    by_cases hk : t.edit.kind = .remove
    · rw [if_pos hk] at hputs
      refine h.put (fun _ => hk) fun htokens => ?_
      by_contra hne
      exact hwrite (by tauto) o ho (htokens ▸ hputs)
    · rw [if_neg hk] at hputs
      refine h.put (fun htokens => absurd (htokens ▸ hputs) (hroot o ho)) fun htokens => ?_
      by_contra hne
      exact hremove (by tauto) o ho (htokens ▸ hputs)
  · intro o ho q hq ts us t vs hundone h
    exact h.undo hundone fun hk heq => hwrite hk o ho (heq ▸ hq)

end Unfit

/-! ### Found by the pass -/

section Found

variable {f : View} {q : List String} {ts newer older : List Target} {t : Target}

theorem Patcher.survivors_append (h : ∀ u ∈ newer, u.tokens ≠ []) (ts : List Target) :
    survivors (newer ++ ts) = newer ++ survivors ts :=
  List.takeWhile_append_of_pos (by simpa using h)

theorem Patcher.ground_append (h : ∀ u ∈ newer, u.tokens ≠ []) (ts : List Target) (f : View) :
    ground (newer ++ ts) f = ground ts f := by
  rw [ground, List.dropWhile_append_of_pos (by simpa using h)]
  rfl

/-- What suits the text suits what is seen under the targets, where none of them lies within
another. -/
theorem suits_of_ground {k : EditKind} (hts : ∀ t ∈ ts, ∀ bs, t.edit.value? = some bs → Plain bs)
    (hq : q ≠ []) (hcross : ∀ u ∈ survivors ts, ¬ Crossing u.tokens q) (hclean : Clean f ts)
    (halone : k = .remove → ∀ u ∈ ts, u.tokens = q → u.edit.kind ≠ .remove)
    (h : k.Suits (ground ts f) q) : k.Suits (laid ts f) q := by
  have hparent := (laid_dropLast (f := f) hcross hq).symm
  have hhere : (∀ u ∈ survivors ts, u.tokens = q → u.edit.kind ≠ .remove) →
      (ground ts f q).isSome → (laid ts f q).isSome := by
    intro hkept hsome
    rw [← laid_survivors, laid]
    cases hfore : foremost (survivors ts) q with
    | none => exact hsome
    | some x =>
      obtain ⟨e, rest⟩ := x
      obtain ⟨rfl, u, hu, rfl, hsame⟩ := exists_of_foremost_here hcross hfore
      have hkind := hkept u hu hsame
      obtain ⟨c, hc, -⟩ :=
        (hts u (mem_of_mem_survivors hu) _ (Edit.value?_of_ne hkind)).content?
      simp [Edit.content_of_ne hkind, hc, view_nil]
  cases k with
  | add =>
    rw [EditKind.Suits, hparent] at h
    exact h
  | replace =>
    rcases h with hobject | ⟨harray, hsome⟩
    · exact .inl (hparent ▸ hobject)
    · refine .inr ⟨hparent ▸ harray, hhere (fun u hu htokens hk => ?_) hsome⟩
      -- Nothing is taken away from an array.
      rw [hclean.ground hq hcross hu htokens hk] at harray
      cases harray
  | remove =>
    rw [EditKind.Suits, hparent] at h
    exact ⟨h.1, hhere (fun u hu => halone rfl u (mem_of_mem_survivors hu)) h.2⟩

theorem Amiss.not_suits {k : EditKind} {e : Edit} (h : Amiss f q k newer t older) (hadd : k ≠ .add)
    (hts : ∀ t ∈ older, ∀ bs, t.edit.value? = some bs → Plain bs)
    (hcross : ∀ u ∈ survivors older, ¬ Crossing u.tokens q)
    (he : e.kind = .remove ↔ k = .remove) : ¬ e.kind.Suits (ground older f) q := by
  intro hsuits
  apply h.unsuited
  apply suits_of_ground hts h.ne hcross h.clean h.alone
  cases k with
  | add => exact absurd rfl hadd
  | remove => rwa [he.2 rfl] at hsuits
  | replace =>
    cases hk : e.kind with
    | add =>
      rw [hk] at hsuits
      exact .inl hsuits
    | replace => rwa [hk] at hsuits
    | remove => cases he.1 hk

/-- A pass that comes to its end has made all edits. -/
theorem not_unfit {input out source : Bytes} {depth : Nat} {n : Quarry.Node} {tree : Tree}
    {p : Patcher} {k : EditKind} (hadd : k ≠ .add) (hn : Reads input depth n) (hw : p.writer = .empty)
    (hts : ∀ t ∈ ts, ∀ bs, t.edit.value? = some bs → Plain bs)
    (hm : merge ts.reverse input .empty = .ok (source, tree))
    (hout : (p.splice source tree).1 = .ok out) : ¬ Unfit n.content.view q k ts := by
  obtain ⟨-, hg, hroots⟩ := merge_ok hm
  obtain ⟨-, hsuits⟩ := splice_ok hw hts hn hm hout
  intro h
  cases h with
  | root t mem tokens kind => exact hroots t mem tokens kind
  | amiss newer older t split here =>
    have htne : t.tokens ≠ [] := here.tokens ▸ here.ne
    have hcross := hg.uncrossed
    subst split
    rw [survivors_append here.whole, survivors_cons htne] at hsuits hcross
    rw [ground_append here.whole, ground_cons htne] at hsuits
    have hnewer : Uncrossed (newer ++ [t]) := fun a ha b hb =>
      hcross a (by simp at ha ⊢; tauto) b (by simp at hb ⊢; tauto)
    obtain ⟨e, hfore⟩ := exists_foremost hnewer (t := t) (by simp)
    obtain ⟨u, hu, htokens, rfl⟩ := mem_of_foremost hfore
    have hmade := hsuits t.tokens u.edit (by
      rw [← List.singleton_append, ← List.append_assoc, foremost_append, hfore]
      rfl)
    rw [here.tokens] at hmade htokens
    refine here.not_suits hadd ?_ ?_ (here.kinds u hu htokens) hmade
    · intro w hw
      exact hts w (List.mem_append_right newer (List.mem_cons_of_mem t hw))
    · intro w hw
      rw [← here.tokens]
      exact hcross w (List.mem_append_right newer (List.mem_cons_of_mem t hw)) t (by simp)

end Found

end Quarry.Patch
