import Quarry.Proofs.Json.Onward

/-!
A pass over a text goes from one token to the next. It can follow the nesting of the text by
recursion, or keep the containers it is in on a stack of its own: it comes to the same in the end.
-/

namespace Quarry.Json

namespace Reader

/-- No fault has been met, and no byte is read twice. -/
def Ahead (r r' : Reader) : Prop :=
  r'.failure = none ∧ r'.cursor.rest.length ≤ r.cursor.rest.length

variable {r r' r'' : Reader}

theorem Ahead.trans (h : r.Ahead r') (h' : r'.Ahead r'') : r.Ahead r'' :=
  ⟨h'.1, h'.2.trans h.2⟩

theorem ahead_skip {span : Span} (hskip : r.skip.1 = .ok span) : r.Ahead r.skip.2 := by
  rcases r.skip_cases with ⟨e, -, hcase⟩ | ⟨hf, hcase⟩
  · rw [hcase] at hskip
    cases hskip
  · rw [hcase]
    exact ⟨hf, (further_beyond r).onto.length_le⟩

/-- Behind the first token of a text no more is left than the text. -/
theorem rest_next_first {depth : Nat} {input : Text.Bytes}
    (hl : (ofBytes depth input).next.event.isLast = false) :
    (ofBytes depth input).next.cursor.rest.length ≤ (ofBytes depth input).next.input.length := by
  have hf := (sound_next (r := ofBytes depth input) rfl).failure_eq_none hl
  have hstands : ∀ {read rest frames}, (ofBytes depth input).next.Stands depth read rest frames →
      (ofBytes depth input).next.cursor.rest.length ≤ (ofBytes depth input).next.input.length := by
    intro read rest frames hs
    rw [hs.cursor, hs.input, List.length_append]
    exact Nat.le_add_left _ _
  rcases next_first_cases hf with ⟨sp, rfl⟩ | ⟨sp, t, rest, -, hs, -⟩ | ⟨sp, k, rest, -, hs, -⟩
  · rw [next_empty sp] at hl
    cases hl
  · exact hstands hs
  · exact hstands hs

end Reader

/-! ### Machines -/

/-- Turns one after the other, until one fails or nothing is left to do. -/
structure Machine (M E : Type) where
  done : M → Bool
  fault : M → E
  turn : M → Except E Unit × M

namespace Machine

variable {M N E : Type}

def andThen (p : Except E Unit × M) (k : M → Except E Unit × M) : Except E Unit × M :=
  match p with
  | (.ok _, m) => k m
  | (.error e, m) => (.error e, m)

theorem andThen_assoc (p : Except E Unit × M) (k l : M → Except E Unit × M) :
    andThen (andThen p k) l = andThen p fun m => andThen (k m) l := by
  obtain ⟨a, m⟩ := p
  cases a <;> rfl

/-- The fuel bounds the number of turns. -/
def run (p : Machine M E) : Nat → M → Except E Unit × M
  | 0, m => if p.done m then (.ok (), m) else (.error (p.fault m), m)
  | fuel + 1, m => if p.done m then (.ok (), m) else andThen (p.turn m) (run p fuel)

/-- One machine goes with another: states that correspond stay so as long as no turn fails, and
correspond in some weaker sense then. -/
structure Follows (p : Machine M E) (q : Machine N E) (R W : M → N → Prop) : Prop where
  done {m : M} {n : N} (h : R m n) : p.done m = q.done n
  fault {m : M} {n : N} (h : R m n) : p.fault m = q.fault n
  weak {m : M} {n : N} (h : R m n) : W m n
  turn {m : M} {n : N} (h : R m n) (hd : q.done n = false) :
    (p.turn m).1 = (q.turn n).1 ∧ W (p.turn m).2 (q.turn n).2 ∧
      ((q.turn n).1 = .ok () → R (p.turn m).2 (q.turn n).2)

theorem Follows.run {p : Machine M E} {q : Machine N E} {R W : M → N → Prop} {m : M} {n : N}
    (h : p.Follows q R W) (hR : R m n) (fuel : Nat) :
    (p.run fuel m).1 = (q.run fuel n).1 ∧ W (p.run fuel m).2 (q.run fuel n).2 := by
  induction fuel generalizing m n with
  | zero =>
    rw [Machine.run, Machine.run, h.done hR]
    split
    · exact ⟨rfl, h.weak hR⟩
    · exact ⟨congrArg Except.error (h.fault hR), h.weak hR⟩
  | succ fuel ih =>
    rw [Machine.run, Machine.run, h.done hR]
    split
    · exact ⟨rfl, h.weak hR⟩
    rename_i hd
    rw [Bool.not_eq_true] at hd
    have hturn := h.turn hR hd
    generalize p.turn m = a at hturn
    generalize q.turn n = b at hturn
    obtain ⟨a, m'⟩ := a
    obtain ⟨b, n'⟩ := b
    obtain ⟨hanswer, hfailed, hgoes⟩ := hturn
    obtain rfl : a = b := hanswer
    cases a with
    | error e => exact ⟨rfl, hfailed⟩
    | ok _ => exact ih (hgoes rfl)

end Machine

/-! ### Descents -/

/-- What is done at a member or element: reading goes on in the same container, or in one that is
entered there and then in the one around it. -/
inductive Move (F E : Type) where
  | fail (e : E)
  | stay (f : F)
  | enter (inner f : F)

/-- A pass over a text, for each container it is in a frame, with all else that it needs. -/
structure Descent (F S E : Type) where
  reader : S → Reader
  next : S → S
  fault : S → E
  visit : F → S → Move F E × S
  close : F → S → Except E Unit × S

namespace Descent

variable {F S E : Type}

open Machine (andThen andThen_assoc)

/-- Nothing is read but by reading tokens and passing over values. -/
structure Orderly (d : Descent F S E) : Prop where
  next (s : S) : d.reader (d.next s) = (d.reader s).next
  visit {f : F} {s s' : S} {move : Move F E} (h : d.visit f s = (move, s'))
    (hfail : ∀ e, move ≠ .fail e) (hs : (d.reader s).failure = none) :
    (d.reader s).Ahead (d.reader s')
  close {f : F} {s s' : S} (h : d.close f s = (.ok (), s'))
    (hs : (d.reader s).failure = none) : (d.reader s).Ahead (d.reader s')

/-! ### By recursion -/

/-- What a move leads to; `k` takes a container to its end. -/
def proceed (k : F → S → Except E Unit × S) (p : Move F E × S) : Except E Unit × S :=
  match p with
  | (.fail e, s) => (.error e, s)
  | (.stay f, s) => k f s
  | (.enter inner f, s) => andThen (k inner s) (k f)

/-- The open container up to its end. The fuel bounds the number of tokens. -/
def inside (d : Descent F S E) : Nat → F → S → Except E Unit × S
  | 0, _, s => (.error (d.fault s), s)
  | fuel + 1, f, s =>
    let s := d.next s
    let event := (d.reader s).event
    if event.isLast then (.error (d.fault s), s)
    else if event.isEnd then d.close f s
    else proceed (inside d fuel) (d.visit f s)

variable {d : Descent F S E} {f : F} {s s' : S} {fuel fuel' : Nat}

/-- What is left of the text. -/
def rest (d : Descent F S E) (s : S) : Nat := (d.reader s).cursor.rest.length

theorem Orderly.ahead_next (hd : d.Orderly) (hs : (d.reader s).failure = none)
    (hl : (d.reader (d.next s)).event.isLast = false) :
    (d.reader (d.next s)).failure = none ∧ d.rest (d.next s) < d.rest s := by
  rw [rest, rest, hd.next] at *
  exact ⟨(Reader.sound_next hs).failure_eq_none hl, Reader.length_next hs hl⟩

theorem ahead_inside (hd : d.Orderly) (hs : (d.reader s).failure = none)
    (h : d.inside fuel f s = (.ok (), s')) : (d.reader s).Ahead (d.reader s') := by
  induction fuel generalizing f s s' with
  | zero => cases h
  | succ fuel ih =>
    rw [inside] at h
    split at h
    · cases h
    rename_i hl
    obtain ⟨hnext, hlt⟩ := hd.ahead_next hs (by simpa using hl)
    have hahead : (d.reader s).Ahead (d.reader (d.next s)) := ⟨hnext, hlt.le⟩
    split at h
    · exact hahead.trans (hd.close h hnext)
    · unfold proceed at h
      split at h
      · cases h
      · rename_i g t hvisit
        have hvisited := hd.visit hvisit (by simp) hnext
        exact hahead.trans (hvisited.trans (ih hvisited.1 h))
      · rename_i inner g t hvisit
        have hvisited := hd.visit hvisit (by simp) hnext
        cases hinner : d.inside fuel inner t with
        | mk a t' =>
          rw [hinner] at h
          cases a with
          | error e => cases h
          | ok _ =>
            have hentered := ih hvisited.1 hinner
            exact hahead.trans (hvisited.trans (hentered.trans (ih hentered.1 h)))

/-- Fuel that is enough is as good as more. -/
theorem inside_congr (hd : d.Orderly) (hs : (d.reader s).failure = none)
    (hf : d.rest s < fuel) (hf' : d.rest s < fuel') :
    d.inside fuel f s = d.inside fuel' f s := by
  induction fuel generalizing fuel' f s with
  | zero => omega
  | succ fuel ih =>
    obtain ⟨fuel', rfl⟩ : ∃ n, fuel' = n + 1 := ⟨fuel' - 1, by omega⟩
    rw [inside, inside]
    split
    · rfl
    rename_i hl
    obtain ⟨hnext, hlt⟩ := hd.ahead_next hs (by simpa using hl)
    split
    · rfl
    unfold proceed
    split
    · rfl
    · rename_i g t hvisit
      have hvisited := hd.visit hvisit (by simp) hnext
      have hle : d.rest t ≤ d.rest (d.next s) := hvisited.2
      exact ih hvisited.1 (by omega) (by omega)
    · rename_i inner g t hvisit
      have hvisited := hd.visit hvisit (by simp) hnext
      have hle : d.rest t ≤ d.rest (d.next s) := hvisited.2
      have hinside : d.inside fuel inner t = d.inside fuel' inner t :=
        ih hvisited.1 (by omega) (by omega)
      rw [hinside]
      cases hinner : d.inside fuel' inner t with
      | mk a t' =>
        cases a with
        | error e => rfl
        | ok _ =>
          have hentered := ahead_inside hd hvisited.1 hinner
          have hle' : d.rest t' ≤ d.rest t := hentered.2
          exact ih hentered.1 (by omega) (by omega)

/-- The open container up to its end, with fuel that is enough. -/
def through (d : Descent F S E) (f : F) (s : S) : Except E Unit × S :=
  d.inside (d.rest s + 1) f s

theorem inside_eq_through (hd : d.Orderly) (hs : (d.reader s).failure = none)
    (hf : d.rest s < fuel) : d.inside fuel f s = d.through f s :=
  inside_congr hd hs hf (Nat.lt_succ_self _)

/-! ### On a stack -/

/-- One token; the innermost container is the first. -/
def turn (d : Descent F S E) : List F × S → Except E Unit × (List F × S)
  | ([], s) => (.ok (), ([], s))
  | (f :: fs, s) =>
    let s := d.next s
    let event := (d.reader s).event
    if event.isLast then (.error (d.fault s), (f :: fs, s))
    else if event.isEnd then
      match d.close f s with
      | (a, s) => (a, (fs, s))
    else
      match d.visit f s with
      | (.fail e, s) => (.error e, (f :: fs, s))
      | (.stay f, s) => (.ok (), (f :: fs, s))
      | (.enter inner f, s) => (.ok (), (inner :: f :: fs, s))

def machine (d : Descent F S E) : Machine (List F × S) E where
  done m := m.1.isEmpty
  fault m := d.fault m.2
  turn := d.turn

/-- The containers on a stack one after the other, each by recursion. -/
def resume (d : Descent F S E) : List F → S → Except E Unit × S
  | [], s => (.ok (), s)
  | f :: fs, s => andThen (d.through f s) (resume d fs)

variable {fs fs' : List F}

theorem Orderly.ahead_turn (hd : d.Orderly) (hs : (d.reader s).failure = none)
    (h : d.turn (f :: fs, s) = (.ok (), (fs', s'))) :
    (d.reader s').failure = none ∧ d.rest s' < d.rest s := by
  rw [turn] at h
  split at h
  · cases h
  rename_i hl
  obtain ⟨hnext, hlt⟩ := hd.ahead_next hs (by simpa using hl)
  have hpassed : (d.reader (d.next s)).Ahead (d.reader s') →
      (d.reader s').failure = none ∧ d.rest s' < d.rest s := by
    intro hahead
    exact ⟨hahead.1, lt_of_le_of_lt hahead.2 hlt⟩
  apply hpassed
  split at h
  · cases hclose : d.close f (d.next s) with
    | mk a t =>
      rw [hclose] at h
      cases h
      exact hd.close hclose hnext
  · split at h
    · cases h
    · rename_i g t hvisit
      cases h
      exact hd.visit hvisit (by simp) hnext
    · rename_i inner g t hvisit
      cases h
      exact hd.visit hvisit (by simp) hnext

/-- A turn leaves the answer to come as it is. -/
theorem Orderly.resume_turn (hd : d.Orderly) (hs : (d.reader s).failure = none) :
    d.resume (f :: fs) s =
      match d.turn (f :: fs, s) with
      | (.ok _, (fs', s')) => d.resume fs' s'
      | (.error e, (_, s')) => (.error e, s') := by
  rw [resume, through, inside, turn]
  by_cases hl : (d.reader (d.next s)).event.isLast = true
  · rw [if_pos hl, if_pos hl]
    rfl
  rw [if_neg hl, if_neg hl]
  obtain ⟨hnext, hlt⟩ := hd.ahead_next hs (by simpa using hl)
  by_cases hend : (d.reader (d.next s)).event.isEnd = true
  · rw [if_pos hend, if_pos hend]
    generalize d.close f (d.next s) = p
    obtain ⟨a, t⟩ := p
    cases a <;> rfl
  rw [if_neg hend, if_neg hend]
  have hahead (move : Move F E) (t : S) (h : d.visit f (d.next s) = (move, t)) := hd.visit h
  generalize d.visit f (d.next s) = p at hahead
  obtain ⟨move, t⟩ := p
  cases move with
  | fail e => rfl
  | stay g =>
    have hvisited := hahead _ _ rfl (by simp) hnext
    have hle : d.rest t ≤ d.rest (d.next s) := hvisited.2
    show andThen (d.inside (d.rest s) g t) (d.resume fs) = andThen (d.through g t) (d.resume fs)
    rw [inside_eq_through hd hvisited.1 (by omega)]
  | enter inner g =>
    have hvisited := hahead _ _ rfl (by simp) hnext
    have hle : d.rest t ≤ d.rest (d.next s) := hvisited.2
    show andThen (andThen (d.inside (d.rest s) inner t) (d.inside (d.rest s) g)) (d.resume fs) =
      andThen (d.through inner t) (d.resume (g :: fs))
    rw [inside_eq_through hd hvisited.1 (by omega), andThen_assoc]
    cases hinner : d.through inner t with
    | mk a t' =>
      cases a with
      | error e => rfl
      | ok _ =>
        have hentered := ahead_inside hd hvisited.1 hinner
        have hle' : d.rest t' ≤ d.rest t := hentered.2
        show andThen (d.inside (d.rest s) g t') (d.resume fs) =
          andThen (d.through g t') (d.resume fs)
        rw [inside_eq_through hd hentered.1 (by omega)]

/-- The stack gives what recursion gives. -/
theorem Orderly.run_machine (hd : d.Orderly) (hs : (d.reader s).failure = none)
    (hf : d.rest s < fuel) :
    ((d.machine.run fuel (fs, s)).1, (d.machine.run fuel (fs, s)).2.2) = d.resume fs s := by
  induction fuel generalizing fs s with
  | zero => omega
  | succ fuel ih =>
    rw [Machine.run]
    cases fs with
    | nil => rfl
    | cons f fs =>
      rw [hd.resume_turn hs]
      show ((andThen (d.turn (f :: fs, s)) (d.machine.run fuel)).1,
        (andThen (d.turn (f :: fs, s)) (d.machine.run fuel)).2.2) = _
      cases hturn : d.turn (f :: fs, s) with
      | mk a m =>
        obtain ⟨fs', s'⟩ := m
        cases a with
        | error e => rfl
        | ok _ =>
          obtain ⟨hfail, hlt⟩ := hd.ahead_turn hs hturn
          exact ih hfail (by omega)

/-! ### Two descents side by side -/

variable {G T : Type}

/-- One descent does what another one does, on other frames and with other things at hand. -/
structure Mirrors (d : Descent F S E) (d' : Descent G T E)
    (R : List F × S → List G × T → Prop) (W : S → T → Prop) : Prop where
  length {fs : List F} {s : S} {gs : List G} {t : T} (h : R (fs, s) (gs, t)) :
    fs.length = gs.length
  weak {fs : List F} {s : S} {gs : List G} {t : T} (h : R (fs, s) (gs, t)) : W s t
  reader {s : S} {t : T} (h : W s t) : d.reader s = d'.reader t
  fault {s : S} {t : T} (h : W s t) : d.fault s = d'.fault t
  next {fs : List F} {s : S} {gs : List G} {t : T} (h : R (fs, s) (gs, t)) :
    R (fs, d.next s) (gs, d'.next t)
  close {f : F} {fs : List F} {s : S} {g : G} {gs : List G} {t : T}
    (h : R (f :: fs, s) (g :: gs, t)) :
    (d.close f s).1 = (d'.close g t).1 ∧ W (d.close f s).2 (d'.close g t).2 ∧
      ((d'.close g t).1 = .ok () → R (fs, (d.close f s).2) (gs, (d'.close g t).2))
  visit {f : F} {fs : List F} {s : S} {g : G} {gs : List G} {t : T}
    (h : R (f :: fs, s) (g :: gs, t)) :
    match d.visit f s, d'.visit g t with
    | (.fail e, s'), (.fail e', t') => e = e' ∧ W s' t'
    | (.stay f', s'), (.stay g', t') => R (f' :: fs, s') (g' :: gs, t')
    | (.enter i f', s'), (.enter j g', t') => R (i :: f' :: fs, s') (j :: g' :: gs, t')
    | _, _ => False

variable {d' : Descent G T E} {R : List F × S → List G × T → Prop} {W : S → T → Prop}

theorem Mirrors.turn (h : d.Mirrors d' R W) {g : G} {gs : List G} {t : T}
    (hR : R (f :: fs, s) (g :: gs, t)) :
    (d.turn (f :: fs, s)).1 = (d'.turn (g :: gs, t)).1 ∧
      W (d.turn (f :: fs, s)).2.2 (d'.turn (g :: gs, t)).2.2 ∧
      ((d'.turn (g :: gs, t)).1 = .ok () → R (d.turn (f :: fs, s)).2 (d'.turn (g :: gs, t)).2) := by
  have hnext := h.next hR
  have hweak := h.weak hnext
  rw [Descent.turn, Descent.turn, h.reader hweak, h.fault hweak]
  by_cases hl : (d'.reader (d'.next t)).event.isLast = true
  · rw [if_pos hl, if_pos hl]
    exact ⟨rfl, hweak, fun ho => by cases ho⟩
  rw [if_neg hl, if_neg hl]
  by_cases hend : (d'.reader (d'.next t)).event.isEnd = true
  · rw [if_pos hend, if_pos hend]
    exact h.close hnext
  rw [if_neg hend, if_neg hend]
  have hvisit := h.visit hnext
  generalize d.visit f (d.next s) = p at hvisit
  generalize d'.visit g (d'.next t) = q at hvisit
  obtain ⟨move, s'⟩ := p
  obtain ⟨move', t'⟩ := q
  match move, move', hvisit with
  | .fail e, .fail e', hvisit =>
    obtain ⟨rfl, hW⟩ := hvisit
    exact ⟨rfl, hW, fun ho => by cases ho⟩
  | .stay f', .stay g', hvisit => exact ⟨rfl, h.weak hvisit, fun _ => hvisit⟩
  | .enter i f', .enter j g', hvisit => exact ⟨rfl, h.weak hvisit, fun _ => hvisit⟩

theorem Mirrors.follows (h : d.Mirrors d' R W) :
    d.machine.Follows d'.machine R fun m n => W m.2 n.2 where
  done {m n} hR := by
    obtain ⟨fs, s⟩ := m
    obtain ⟨gs, t⟩ := n
    have hlength := h.length hR
    cases fs <;> cases gs <;> first | rfl | cases hlength
  fault hR := h.fault (h.weak hR)
  weak hR := h.weak hR
  turn {m n} hR hd := by
    obtain ⟨fs, s⟩ := m
    obtain ⟨gs, t⟩ := n
    have hlength := h.length hR
    match fs, gs, hd, hlength with
    | [], [], hd, _ => cases hd
    | f :: fs, g :: gs, _, _ => exact h.turn hR

/-- A container on a stack of its own comes to what the other descent makes of it by recursion. -/
theorem Mirrors.run_inside (h : d.Mirrors d' R W) (hd : d'.Orderly) {g : G} {t : T}
    (hR : R ([f], s) ([g], t)) (ht : (d'.reader t).failure = none) (hf : d'.rest t < fuel) :
    (d.machine.run fuel ([f], s)).1 = (d'.inside fuel g t).1 ∧
      W (d.machine.run fuel ([f], s)).2.2 (d'.inside fuel g t).2 := by
  have hrun : ((d'.machine.run fuel ([g], t)).1, (d'.machine.run fuel ([g], t)).2.2) =
      d'.inside fuel g t := by
    rw [hd.run_machine ht hf, resume, ← inside_eq_through hd ht hf]
    generalize d'.inside fuel g t = p
    obtain ⟨a, t'⟩ := p
    cases a <;> rfl
  rw [← hrun]
  exact h.follows.run hR fuel

end Descent

end Quarry.Json
