import Quarry.Proofs.Patch.Unfit

/-!
Operations that cannot all be made one after another are refused, where no other operation covers
the failure.
-/

namespace Quarry.Patch

open Json Text Content Patcher

namespace Operation

/-- No other operation covers the failure of this one: none after it replaces the whole document,
what it puts in place is not taken away later, and what it takes away is not put in place later and
was not taken away before. -/
structure Uncovered (before : List Operation) (o : Operation) (later : List Operation) : Prop where
  whole : ∀ o' ∈ later, [] ∉ o'.writes
  written : ∀ p ∈ o.writes, ∀ o' ∈ later, p ∉ o'.takes
  removed : ∀ path p, o = .remove path → Pointer.parse? path = some p →
    (∀ o' ∈ before, p ∉ o'.takes) ∧ ∀ o' ∈ later, p ∉ o'.writes

variable {c c' : Content} {before later : List Operation}

theorem still_append (h : Still c (before ++ later)) :
    Still c before ∧ ∀ c', run c before = some c' → Still c' later := by
  induction before generalizing c with
  | nil =>
    refine ⟨trivial, fun c' hrun => ?_⟩
    obtain rfl := Option.some.inj hrun
    exact h
  | cons o before ih =>
    refine ⟨⟨h.1, fun c1 hstep => (ih (h.2 c1 hstep)).1⟩, fun c' hrun => ?_⟩
    rw [run_cons] at hrun
    obtain ⟨c1, hstep, hrun⟩ := Option.bind_eq_some_iff.1 hrun
    exact (ih (h.2 c1 hstep)).2 c' hrun

end Operation

/-! ### The operation that fails -/

namespace Change

theorem isSome_insertElement {t : String} {items : List Content} (c : Content)
    (h : (find? t (numbered 0 items)).isSome) : (insertElement t c items).isSome := by
  rw [find?_isSome] at h
  obtain ⟨j, hj, rfl⟩ := mem_names_numbered h
  rw [insertElement]
  split
  · rfl
  · rw [Option.isSome_map, List.find?_isSome]
    exact ⟨j, by simp; omega, by simp⟩

/-- What stands in a value can be changed, but for the whole of it. -/
theorem isSome_make {a : Change} {p : List String} {c : Content} (hp : p ≠ []) (hc : c.Valid)
    (h : (c.get? p).isSome) : (a.make p c).isSome := by
  induction p generalizing c with
  | nil => exact absurd rfl hp
  | cons t ts ih =>
    cases hc with
    | atom b => simp [get?, Content.members] at h
    | @group o ms nodup indices all =>
      rw [get?, show (Content.group o ms).members = ms from rfl] at h
      obtain ⟨d, hd⟩ := Option.isSome_iff_exists.1 (Option.isSome_of_isSome_bind h)
      rw [hd, Option.bind_some] at h
      cases ts with
      | cons u us =>
        obtain ⟨d', hd'⟩ := Option.isSome_iff_exists.1 (ih (by simp) (all _ (mem_of_find? hd)) h)
        simp [make, hd, hd']
      | nil =>
        rw [make, Option.isSome_map]
        cases a with
        | replace v => simp [members, hd]
        | remove => simp [members, hd]
        | add v =>
          cases o with
          | true => simp [members]
          | false =>
            have hsome : (find? t (numbered 0 (ms.map Prod.snd))).isSome := by
              rw [← indices rfl, hd]
              rfl
            simpa [members] using isSome_insertElement v hsome

/-- Where no value can be put in place, none could be replaced. -/
theorem not_suits_of_make {a : Change} {p : List String} {c : Content} (hp : p ≠ []) (hc : c.Valid)
    (ha : a.kind ≠ .remove) (h : a.make p c = none) : ¬ EditKind.replace.Suits c.view p := by
  intro hsuits
  have hnone : c.get? p = none := by
    by_contra hsome
    have hmake := isSome_make (a := a) hp hc (Option.isSome_iff_ne_none.2 hsome)
    rw [h] at hmake
    cases hmake
  have hobject : c.view p.dropLast = some (.group true) := by
    rcases hsuits with hobject | ⟨-, hsome⟩
    · exact hobject
    · simp [view, hnone] at hsome
  have hkind : a.kind.Suits c.view p := by
    cases a with
    | replace v => exact .inl hobject
    | add v => exact hobject
    | remove => exact absurd rfl ha
  obtain ⟨c', hc'⟩ := Option.isSome_iff_exists.1 ((isSome_inPlace hp).2 hkind)
  rw [make_of_inPlace hc'] at h
  cases h

end Change

section Fails

variable {input payload : Bytes} {depth : Nat} {n : Quarry.Node} {c c' : Content} {r r' : Resolving}
  {o : Operation} {f : View} {p : List String} {path : String} {kind : EditKind} {a : Change}
  {ts : List Target} {changes : List (List String × Change)}

theorem unfit_pushEdit (hc : c.Valid) (hview : c.view = laid r.targets f)
    (hclean : Clean f r.targets) (hmake : a.make p c = none) (ha : a.kind ≠ .remove)
    (hk : kind ≠ .remove) (hp : Pointer.parse? path = some p)
    (hok : r.pushEdit kind path payload = (.ok (), r')) : Unfit f p .replace r'.targets := by
  obtain rfl := Resolving.push_of_pushEdit hp hok
  have hne : p ≠ [] := by
    rintro rfl
    rw [Change.make] at hmake
    cases a with
    | replace c => cases hmake
    | add c => cases hmake
    | remove => exact ha rfl
  refine .amiss [] r.targets _ rfl ⟨rfl, hne, by simp, by simpa using hk, ?_, hclean, by simp⟩
  rw [← hview]
  exact Change.not_suits_of_make hne hc ha hmake

theorem root_of_remove (hn : Reads input depth n) (h : r.Keeps input depth Plain)
    (hp : Pointer.parse? path = some []) (hok : r.remove input depth path = (.ok (), r')) :
    ∃ t ∈ r'.targets, t.tokens = [] ∧ t.edit.kind = .remove := by
  have hremoval := Resolving.removal_of_remove hp hok
  generalize r'.targets = ts at hremoval ⊢
  cases hremoval with
  | recorded _ => exact ⟨_, List.mem_cons_self, rfl, rfl⟩
  | replaced _ _ _ => exact ⟨_, List.mem_cons_self, rfl, rfl⟩
  | @dropped us vs t hundone hmissing =>
    have hkeeps := h.undone hundone
    have hshows := Resolving.shows_current hn hkeeps hmissing
    have hnone : laid (us ++ vs) n.content.view [] = none := hshows []
    rw [laid] at hnone
    cases hfore : foremost (us ++ vs) [] with
    | none =>
      rw [hfore] at hnone
      cases hnone
    | some x =>
      obtain ⟨e, rest⟩ := x
      obtain ⟨u, hu, rfl, htokens⟩ := exists_of_foremost hfore
      obtain ⟨hroot, rfl⟩ := List.append_eq_nil_iff.1 htokens.symm
      refine ⟨u, hu, hroot, ?_⟩
      by_contra hk
      obtain ⟨v, hv, -⟩ := (hkeeps.payload u hu _ (Edit.value?_of_ne hk)).content?
      rw [hfore] at hnone
      simp [Edit.content_of_ne hk, hv, view_nil] at hnone

theorem isSome_of_undone {us vs : List Target} {t : Target}
    (hts : ∀ t ∈ ts, ∀ bs, t.edit.value? = some bs → Plain bs)
    (h : Resolving.Undone p ts us t vs) (f : View) : (laid ts f p).isSome := by
  have hnone : foremost us p = none := by
    rw [foremost_eq_none]
    intro u hu hpre
    have hover := h.later u hu
    rw [overlaps_iff.2 (.inl hpre)] at hover
    cases hover
  obtain ⟨c, hc, -⟩ := (hts t (by simp [h.split]) _ (Edit.value?_of_ne h.kind)).content?
  rw [h.split, laid, foremost_append, hnone, foremost,
    after?_eq_some.2 (by rw [List.append_nil, h.tokens])]
  simp [Edit.content_of_ne h.kind, hc, view_nil]

theorem unfit_remove (hn : Reads input depth n) (h : Tracks input depth n c r)
    (hclean : Clean n.content.view r.targets) (hmake : Change.remove.make p c = none)
    (hp : Pointer.parse? path = some p)
    (halone : ∀ t ∈ r.targets, t.tokens = p → t.edit.kind ≠ .remove)
    (hok : r.remove input depth path = (.ok (), r')) :
    Unfit n.content.view p .remove r'.targets := by
  by_cases hne : p = []
  · subst hne
    obtain ⟨t, ht, htokens, hk⟩ := root_of_remove hn h.keeps hp hok
    exact .root t ht htokens hk
  have hnone : laid r.targets n.content.view p = none := by
    rw [← h.view, view]
    cases hg : c.get? p with
    | none => rfl
    | some v =>
      have hsome := Change.isSome_make (a := .remove) hne h.valid (by rw [hg]; rfl)
      rw [hmake] at hsome
      cases hsome
  -- A target that could be undone would have put something there.
  have hundone : ∀ {us vs : List Target} {t : Target}, ¬ Resolving.Undone p r.targets us t vs := by
    intro us vs t hundone
    have hsome := isSome_of_undone h.keeps.payload hundone n.content.view
    rw [hnone] at hsome
    cases hsome
  have hremoval := Resolving.removal_of_remove hp hok
  generalize r'.targets = ts at hremoval ⊢
  cases hremoval with
  | dropped h _ => exact absurd h hundone
  | replaced h _ _ => exact absurd h hundone
  | recorded _ =>
    refine .amiss [] r.targets _ rfl ⟨rfl, hne, by simp, by simp, ?_, hclean, fun _ => halone⟩
    rintro ⟨-, hsome⟩
    rw [hnone] at hsome
    cases hsome

/-! ### Nothing is taken away from an array -/

theorem clean_remove (h : Tracks input depth n c r) (hclean : Clean n.content.view r.targets)
    (hs : ¬ EditKind.Shifts c.view p .remove) (hmake : Change.remove.make p c = some c')
    (hp : Pointer.parse? path = some p) (hok : r.remove input depth path = (.ok (), r')) :
    Clean n.content.view r'.targets := by
  have hremoval := Resolving.removal_of_remove hp hok
  have hne : p ≠ [] := by
    rintro rfl
    cases hmake
  obtain ⟨hparent, -⟩ := Change.suits_of_make hne hs hmake
  rw [h.view] at hparent
  generalize r'.targets = ts at hremoval ⊢
  cases hremoval with
  | recorded _ => exact ⟨fun _ _ => hparent, hclean⟩
  | dropped hundone _ => exact hclean.undo hundone
  | @replaced us vs t _ hundone _ _ =>
    refine ⟨fun _ _ => ?_, hclean.undo hundone⟩
    rw [← hparent, hundone.split]
    refine (laid_middle us vs _ ?_).symm
    rw [hundone.tokens]
    exact not_prefix_dropLast hne

theorem clean_pushEdit (hclean : Clean f r.targets) (hk : kind ≠ .remove)
    (hok : r.pushEdit kind path payload = (.ok (), r')) : Clean f r'.targets := by
  obtain ⟨p, -, rfl⟩ := Resolving.pushEdit_ok hok
  exact ⟨fun hremove => absurd hremove hk, hclean⟩

theorem Tracks.clean (h : Tracks input depth n c r) (hn : Reads input depth n)
    (hclean : Clean n.content.view r.targets)
    (hs : ∀ changes, o.changes c = some changes → Steady c changes) (hstep : o.step c = some c')
    (hok : Resolving.operation input depth o r = (.ok (), r')) :
    Clean n.content.view r'.targets := by
  obtain ⟨changes, hchanges, hmakes, hresolved⟩ := h.resolved_of_step hn hstep hok
  have hsteady := hs changes hchanges
  cases hresolved with
  | puts asked value _ _ pushed =>
    exact clean_pushEdit (asked.targets ▸ hclean) (Change.kind_ne_remove value) pushed
  | takes parsed removed =>
    obtain ⟨c1, hmake, hstays, -⟩ := hsteady.first hmakes
    exact clean_remove h hclean hstays hmake parsed removed
  | moves asked origin _ removed _ pushed =>
    obtain ⟨c1, hmake, hstays, -⟩ := hsteady.first hmakes
    have h2 := clean_remove asked.tracks (asked.targets ▸ hclean) hstays hmake origin removed
    exact clean_pushEdit h2 (by simp) pushed
  | checks asked => exact asked.targets ▸ hclean

theorem Tracks.cleans {ops : List Operation} (h : Tracks input depth n c r)
    (hn : Reads input depth n) (hclean : Clean n.content.view r.targets)
    (hops : ∀ op ∈ ops, op.Proper) (hs : Operation.Still c ops)
    (hrun : Operation.run c ops = some c')
    (hok : Resolving.operations input depth ops r = (.ok (), r')) :
    Clean n.content.view r'.targets := by
  have hall : Tracks input depth n c' r' ∧ Clean n.content.view r'.targets := by
    refine Operation.run_induct
      (M := fun c r => Tracks input depth n c r ∧ Clean n.content.view r.targets)
      (fun h ho hs hstep hok => ?_) ⟨h, hclean⟩ hops hs hrun hok
    exact ⟨h.1.operation hn ho hs hstep hok, h.1.clean hn h.2 hs hstep hok⟩
  exact hall.2

/-! ### The failure -/

/-- An operation whose changes cannot be made is refused, or leaves an edit that cannot be made. -/
theorem Tracks.unfit (h : Tracks input depth n c r) (hn : Reads input depth n)
    (hclean : Clean n.content.view r.targets)
    (hcanonical : ∀ s ∈ o.reads, ∀ p, Pointer.parse? s = some p → Pointer.Canonical c.view p)
    (hs : ∀ changes, o.changes c = some changes → Steady c changes) (hstep : o.step c = none)
    (halone : ∀ path p, o = .remove path → Pointer.parse? path = some p →
      ∀ t ∈ r.targets, t.tokens = p → t.edit.kind ≠ .remove)
    (hok : Resolving.operation input depth o r = (.ok (), r')) :
    (∃ p ∈ o.writes, Unfit n.content.view p .replace r'.targets) ∨
      ∃ path p, o = .remove path ∧ Pointer.parse? path = some p ∧
        Unfit n.content.view p .remove r'.targets := by
  obtain ⟨changes, hchanges, hresolved⟩ := h.resolved hn hcanonical hok
  rw [Operation.step, hchanges, Option.bind_some] at hstep
  cases hresolved with
  | puts asked value parsed writes pushed =>
    left
    rw [Operation.makeAll_singleton] at hstep
    exact ⟨_, by simp [writes], unfit_pushEdit h.valid asked.tracks.view (asked.targets ▸ hclean)
      hstep (Change.kind_ne_remove value) (Change.kind_ne_remove value) parsed pushed⟩
  | takes parsed removed =>
    right
    rw [Operation.makeAll_singleton] at hstep
    exact ⟨_, _, rfl, parsed,
      unfit_remove hn h hclean hstep parsed (halone _ _ rfl parsed) removed⟩
  | @moves source path q p r1 r2 text w asked origin stands removed parsed pushed =>
    left
    refine ⟨p, by simp [Operation.writes, parsed], ?_⟩
    -- What was found can be taken away, so it is the second change that fails.
    by_cases hroot : q = []
    · subst hroot
      obtain ⟨t, ht, htokens, hk⟩ := root_of_remove hn asked.tracks.keeps origin removed
      obtain rfl := Resolving.push_of_pushEdit parsed pushed
      exact .root t (List.mem_cons_of_mem _ ht) htokens hk
    obtain ⟨c1, hmake1⟩ := Option.isSome_iff_exists.1
      (Change.isSome_make (a := .remove) hroot h.valid (by rw [stands]; rfl))
    rw [Operation.makeAll_cons, hmake1, Option.bind_some, Operation.makeAll_singleton] at hstep
    have hstays := (hs _ hchanges c1 hmake1).1
    have hview := asked.tracks.view_remove hn origin hstays hmake1 removed
    have hvalid : c1.Valid := Change.valid_make h.valid hstays (by simp [Change.value?]) hmake1
    have h2 := clean_remove asked.tracks (asked.targets ▸ hclean) hstays hmake1 origin removed
    exact unfit_pushEdit hvalid hview h2 hstep (by simp [Change.kind]) (by simp) parsed pushed
  | checks _ => cases hstep

end Fails

namespace Patcher

variable {p : Patcher} {input : Bytes} {n : Quarry.Node} {before later : List Operation}
  {o : Operation} {c : Content}

/-- Where no element of an array is put in or taken out, a patch is refused if one of its
operations does not find what it reads, and if one cannot make its edit and no other one covers
this. -/
theorem apply_fails (hn : Reads input p.maxDepth n) (hops : ∀ op ∈ before ++ o :: later, op.Proper)
    (hs : Operation.Still n.content (before ++ o :: later))
    (hrun : Operation.run n.content before = some c) (hstep : o.step c = none)
    (hcanonical : ∀ s ∈ o.reads, ∀ p, Pointer.parse? s = some p → Pointer.Canonical c.view p)
    (huncovered : o.changes c = none ∨ o.Uncovered before later) :
    ∃ e, (p.apply input (before ++ o :: later)).1 = .error e := by
  cases happly : (p.apply input (before ++ o :: later)).1 with
  | error e => exact ⟨e, rfl⟩
  | ok out =>
    exfalso
    obtain ⟨r, source, tree, hresolve, hmerge, hout⟩ := apply_ok happly
    have hkeeps := Resolving.keeps_operations (inherited_plain hn) (fun op hop => (hops op hop).plain)
      (Resolving.keeps_start input p.maxDepth Plain)
    rw [hresolve] at hkeeps
    obtain ⟨r1, hbefore, hrest⟩ := Resolving.operations_append hresolve
    rw [Resolving.operations] at hrest
    split at hrest
    · cases hrest
    rename_i r2 hoperation
    obtain ⟨hstill, hthen⟩ := Operation.still_append hs
    rw [List.forall_mem_append, List.forall_mem_cons] at hops
    have hstart := tracks_start hn
    have htracks := hstart.operations hn hops.1 hstill hrun hbefore
    have hclean := hstart.cleans hn trivial hops.1 hstill hrun hbefore
    rcases huncovered with hnone | ⟨hwhole, hwritten, hremoved⟩
    · obtain ⟨changes, hchanges, -⟩ := htracks.changes hn hcanonical hoperation
      rw [hnone] at hchanges
      cases hchanges
    have htakes := Resolving.exists_takes hbefore
    have hunfit := htracks.unfit hn hclean hcanonical (hthen c hrun).1 hstep
      (fun path q ho hq t ht htokens hk => by
        obtain ⟨o', ho', hmem⟩ := htakes t ht hk
        exact (hremoved path q ho hq).1 o' ho' (htokens ▸ hmem)) hoperation
    rcases hunfit with ⟨q, hq, hunfit⟩ | ⟨path, q, ho, hq, hunfit⟩
    · have hend := hunfit.operations hwhole (by simp) (fun _ => hwritten q hq) hrest
      exact not_unfit (by simp) hn rfl hkeeps.payload hmerge hout hend
    · have hend := hunfit.operations hwhole (fun _ => (hremoved path q ho hq).2) (by simp) hrest
      exact not_unfit (by simp) hn rfl hkeeps.payload hmerge hout hend

theorem apply_fails_absent :
    let ops : List Operation := [.add "/a" .null, .remove "/b", .add "/c" .null]
    ∃ e, ((make {}).apply (bytes "\x7b\x7d") ops).1 = .error e := by
  intro ops
  let n : Quarry.Node := .object ⟨0, ⟨0, 2⟩⟩ []
  have hread : Document.read (make {}).maxDepth (bytes "\x7b\x7d") = .ok ⟨512, some n⟩ := by rfl
  have hn : Reads (bytes "\x7b\x7d") (make {}).maxDepth n :=
    ⟨hread, .object (by decide) (by simp), by decide⟩
  have hproper : ∀ op ∈ ops, op.Proper := by
    have hadd : ∀ path, (Operation.add path .null).Proper := by
      intro path
      constructor
      · rintro v ⟨⟩
        exact .null
      · rintro v ⟨⟩
        decide
    simp only [ops, List.mem_cons, List.not_mem_nil, or_false, forall_eq_or_imp, forall_eq]
    exact ⟨hadd "/a", Operation.proper_of_value? rfl, hadd "/c"⟩
  have hfirst : (Operation.add "/a" .null).step n.content =
      some (.group true [("a", .atom .null)]) := by rfl
  have hstep : (Operation.remove "/b").step (.group true [("a", .atom .null)]) = none := by rfl
  have hstill : Operation.Still n.content ops := by
    apply Operation.still_cons (a := .add (.atom .null)) rfl (EditKind.not_shifts rfl)
    intro c hc
    rw [hfirst] at hc
    obtain rfl := Option.some.inj hc
    apply Operation.still_cons (a := .remove) rfl (EditKind.not_shifts rfl)
    intro c hc
    rw [hstep] at hc
    cases hc
  have huncovered : (Operation.remove "/b").Uncovered [.add "/a" .null] [.add "/c" .null] := by
    refine ⟨by decide, by decide, ?_⟩
    rintro path p ⟨⟩ hp
    obtain rfl := Option.some.inj (hp.symm.trans (show _ = some ["b"] by decide))
    decide
  show ∃ e, ((make {}).apply _ ([.add "/a" .null] ++ .remove "/b" :: [.add "/c" .null])).1 = .error e
  exact apply_fails hn hproper hstill rfl hstep (by simp [Operation.reads])
    (.inr huncovered)

/-- A removal of an absent member is covered by a later edit of the same place, which takes its
place in the tree. -/
theorem apply_covers :
    let ops : List Operation := [.remove "/a", .add "/a" (.number (.int 1))]
    ∃ n, Reads (bytes "\x7b\x7d") (make {}).maxDepth n ∧
      (Operation.remove "/a").step n.content = none ∧
      ((make {}).apply (bytes "\x7b\x7d") ops).1 = .ok (bytes "\x7b\"a\":1\x7d") := by
  intro ops
  let n : Quarry.Node := .object ⟨0, ⟨0, 2⟩⟩ []
  have hread : Document.read (make {}).maxDepth (bytes "\x7b\x7d") = .ok ⟨512, some n⟩ := by rfl
  exact ⟨n, ⟨hread, .object (by decide) (by simp), by decide⟩, rfl, by decide +kernel⟩

end Patcher

end Quarry.Patch
