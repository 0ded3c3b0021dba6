import Quarry.Patch.Target
import Quarry.Proofs.Document.Content

/-!
Changes of a value at the place a pointer names, one after another.
-/

namespace Quarry

open Json Content

namespace Patch

inductive Change where
  | replace (value : Content)
  | add (value : Content)
  | remove

namespace Change

def kind : Change → EditKind
  | .replace _ => .replace
  | .add _ => .add
  | .remove => .remove

def value? : Change → Option Content
  | .replace c => some c
  | .add c => some c
  | .remove => none

/-- An element put in before the one with an index, or after all elements. -/
def insertElement (t : String) (c : Content) (items : List Content) : Option (List Content) :=
  if t = "-" then some (items ++ [c])
  else ((List.range (items.length + 1)).find? fun i => toString i == t).map fun i =>
    items.insertIdx i c

/-- The members or elements of a container after a change of one of them. To replace a member that
is not there adds it. -/
def members (t : String) (o : Bool) (ms : List (String × Content)) :
    Change → Option (List (String × Content))
  | .replace c => if o || (find? t ms).isSome then some (put t c ms) else none
  | .add c =>
    if o then some (put t c ms) else (insertElement t c (ms.map Prod.snd)).map (numbered 0)
  | .remove =>
    if (find? t ms).isSome then
      some (if o then erase t ms else numbered 0 ((erase t ms).map Prod.snd))
    else none

/-- A value after a change at a place. -/
def make (a : Change) : List String → Content → Option Content
  | [], _ => a.value?
  | _ :: _, .atom _ => none
  | [t], .group o ms => (a.members t o ms).map (.group o)
  | t :: u :: us, .group o ms => do
    let c ← find? t ms
    let c ← make a (u :: us) c
    return .group o (put t c ms)

/-! ### Changes that leave all elements where they are -/

/-- What a change makes of a member or element, if no other has to move. -/
def alters (o : Bool) (a : Change) (old : Option Content) : Option (Option Content) :=
  match a with
  | .replace c => if o || old.isSome then some (some c) else none
  | .add c => if o then some (some c) else none
  | .remove => if o && old.isSome then some none else none

/-- What a change below a member or element makes of it. -/
def reaches (o : Bool) (a : Change) (deeper : Content → Option Content) (ts : List String)
    (old : Option Content) : Option (Option Content) :=
  if ts.isEmpty then a.alters o old else old.bind fun c => (deeper c).map some

def inPlace (a : Change) : List String → Content → Option Content
  | t :: ts, .group o ms => (alter t (a.reaches o (inPlace a ts) ts) ms).map (.group o)
  | _, _ => none

end Change

/-- Whether a change at a place can be made where nothing has to move. -/
def EditKind.Suits (f : View) (p : List String) : EditKind → Prop
  | .replace => f p.dropLast = some (.group true) ∨
      f p.dropLast = some (.group false) ∧ (f p).isSome
  | .add => f p.dropLast = some (.group true)
  | .remove => f p.dropLast = some (.group true) ∧ (f p).isSome

/-- Whether a change puts elements of an array in or takes them out. -/
def EditKind.Shifts (f : View) (p : List String) (k : EditKind) : Prop :=
  k ≠ .replace ∧ p ≠ [] ∧ f p.dropLast = some (.group false)

theorem EditKind.suits_cons {k : EditKind} {c : Content} {t : String} {p : List String}
    (hp : p ≠ []) :
    k.Suits c.view (t :: p) ↔ ∃ d, find? t c.members = some d ∧ k.Suits d.view p := by
  have hcons : ∀ q, c.view (t :: q) = (find? t c.members).bind fun d => d.view q :=
    fun q => view_cons t q c
  obtain ⟨u, us, rfl⟩ := List.exists_cons_of_ne_nil hp
  cases hf : find? t c.members with
  | none => cases k <;> simp [EditKind.Suits, hcons, hf]
  | some d => cases k <;> simp [EditKind.Suits, hcons, hf]

theorem EditKind.not_suits_atom (k : EditKind) (b : Atom) (t : String) (p : List String) :
    ¬ k.Suits (Content.atom b).view (t :: p) := by
  by_cases hp : p = []
  · subst hp
    cases k <;> simp [EditKind.Suits, view_nil, shape]
  · rw [suits_cons hp]
    rintro ⟨d, hd, -⟩
    cases hd

namespace Change

variable {a : Change} {p q : List String} {c c' : Content}

theorem inPlace_singleton (a : Change) (t : String) (o : Bool) (ms : List (String × Content)) :
    a.inPlace [t] (.group o ms) = (alter t (a.alters o) ms).map (.group o) := by
  rw [inPlace]
  congr 1

theorem inPlace_cons (a : Change) (t u : String) (us : List String) (o : Bool)
    (ms : List (String × Content)) :
    a.inPlace (t :: u :: us) (.group o ms) =
      (find? t ms).bind fun c => (a.inPlace (u :: us) c).map fun c => .group o (put t c ms) := by
  rw [inPlace, alter]
  cases find? t ms with
  | none => rfl
  | some c =>
    simp only [reaches, List.isEmpty_cons, Bool.false_eq_true, ↓reduceIte, Option.bind_some]
    cases a.inPlace (u :: us) c <;> rfl

/-- Where no element moves, a change is made in place. -/
theorem make_eq_inPlace (hp : p ≠ []) (h : ¬ a.kind.Shifts c.view p) :
    a.make p c = a.inPlace p c := by
  induction p generalizing c with
  | nil => exact absurd rfl hp
  | cons t ts ih =>
    cases c with
    | atom b =>
      rw [make, inPlace]
      simp
    | group o ms =>
      cases ts with
      | nil =>
        rw [make, inPlace_singleton]
        congr 1
        rw [alter]
        have hview : (Content.group o ms).view [t].dropLast = some (.group o) := rfl
        cases a with
        | replace d =>
          simp only [members, alters]
          split <;> rfl
        | add d =>
          cases o with
          | true => rfl
          | false => exact absurd ⟨by simp [kind], hp, hview⟩ h
        | remove =>
          cases o with
          | true =>
            simp only [members, alters, Bool.true_and]
            split <;> rfl
          | false => exact absurd ⟨by simp [kind], hp, hview⟩ h
      | cons u us =>
        rw [make, inPlace_cons]
        cases hf : find? t ms with
        | none => rfl
        | some d =>
          have hd : ¬ a.kind.Shifts d.view (u :: us) := by
            rintro ⟨hk, -, hv⟩
            apply h
            refine ⟨hk, by simp, ?_⟩
            rw [List.dropLast_cons_cons, Content.view_cons,
              show find? t (Content.group o ms).members = some d from hf]
            exact hv
          simp only [Option.bind_eq_bind, Option.bind_some, ih (by simp) hd]
          cases a.inPlace (u :: us) d <;> rfl

/-- A change can be made in place just if it suits what is there. -/
theorem isSome_inPlace (hp : p ≠ []) : (a.inPlace p c).isSome ↔ a.kind.Suits c.view p := by
  induction p generalizing c with
  | nil => exact absurd rfl hp
  | cons t ts ih =>
    cases ts with
    | nil =>
      cases c with
      | atom b =>
        constructor
        · intro h
          simp [inPlace] at h
        · intro h
          exact absurd h (EditKind.not_suits_atom _ _ _ _)
      | group o ms =>
        have hsome : ((Content.group o ms).view [t]).isSome = (find? t ms).isSome :=
          (Content.isSome_find? t (.group o ms)).symm
        rw [inPlace_singleton, Option.isSome_map, isSome_alter]
        cases a <;> cases o <;> simp [kind, EditKind.Suits, alters, view_nil, shape, hsome]
    | cons u us =>
      rw [EditKind.suits_cons (by simp)]
      cases c with
      | atom b => simp [inPlace, Content.members]
      | group o ms =>
        rw [inPlace_cons, show (Content.group o ms).members = ms from rfl]
        cases find? t ms with
        | none => simp
        | some d =>
          rw [Option.bind_some, Option.isSome_map, ih (by simp)]
          simp

theorem suits_of_inPlace (h : a.inPlace p c = some c') : a.kind.Suits c.view p := by
  have hp : p ≠ [] := by
    rintro rfl
    simp [inPlace] at h
  rw [← isSome_inPlace hp, h]
  rfl

theorem make_of_inPlace (h : a.inPlace p c = some c') : a.make p c = some c' := by
  have hp : p ≠ [] := by
    rintro rfl
    simp [inPlace] at h
  have hsuits := suits_of_inPlace h
  rw [make_eq_inPlace hp, h]
  rintro ⟨hk, -, hv⟩
  cases a <;> simp [kind, EditKind.Suits, hv] at hk hsuits

/-- What is seen at a pointer after a change at a place. -/
def overlay (p : List String) (v : Option Content) (f : View) : View := fun q =>
  match after? p q with
  | some rest => v.bind fun c => c.view rest
  | none => f q

theorem value_of_alters {o : Bool} {old out : Option Content} (h : a.alters o old = some out) :
    out = a.value? := by
  cases a <;> simp only [alters] at h <;> split at h
  all_goals first | exact (Option.some.inj h).symm | cases h

theorem view_inPlace (hc : c.Valid) (h : a.inPlace p c = some c') :
    c'.view = overlay p a.value? c.view := by
  induction p generalizing c c' with
  | nil => simp [inPlace] at h
  | cons t ts ih =>
    cases c with
    | atom b => simp [inPlace] at h
    | group o ms =>
      rw [inPlace] at h
      obtain ⟨ms', hms, rfl⟩ := Option.map_eq_some_iff.1 h
      funext q
      cases q with
      | nil => rfl
      | cons u us =>
        rw [overlay, after?, Content.view_cons, Content.view_cons]
        have hfind := find?_alter hc.nodup hms u
        by_cases htu : t = u
        · subst htu
          rw [if_pos rfl, reaches] at hfind
          rw [if_pos rfl]
          show ((find? t ms').bind fun d => d.view us) = _
          cases ts with
          | nil =>
            rw [List.isEmpty_nil, if_pos rfl] at hfind
            rw [value_of_alters hfind]
            rfl
          | cons w ws =>
            rw [List.isEmpty_cons, if_neg (by simp)] at hfind
            obtain ⟨d, hd, hfind⟩ := Option.bind_eq_some_iff.1 hfind
            obtain ⟨d', hd', hfind⟩ := Option.map_eq_some_iff.1 hfind
            rw [← hfind, show find? t (Content.group o ms).members = some d from hd,
              Option.bind_some, Option.bind_some, ih (hc.find? hd) hd', overlay]
        · rw [if_neg htu] at hfind
          rw [if_neg htu]
          show ((find? u ms').bind fun d => d.view us) = (find? u ms).bind fun d => d.view us
          rw [← Option.some.inj hfind]
          rfl

theorem array_of_alters {old out : Option Content} (h : a.alters false old = some out) :
    old.isSome ∧ out ≠ none := by
  cases a with
  | replace c =>
    rw [alters] at h
    split at h
    · rename_i hold
      obtain rfl := Option.some.inj h
      simpa using hold
    · cases h
  | add c => simp [alters] at h
  | remove => simp [alters] at h

theorem valid_inPlace (hc : c.Valid) (ha : ∀ v, a.value? = some v → v.Valid)
    (h : a.inPlace p c = some c') : c'.Valid := by
  induction p generalizing c c' with
  | nil => simp [inPlace] at h
  | cons t ts ih =>
    cases c with
    | atom b => simp [inPlace] at h
    | group o ms =>
      rw [inPlace] at h
      obtain ⟨ms', hms, rfl⟩ := Option.map_eq_some_iff.1 h
      apply hc.alter hms
      · intro v hv
        rw [reaches] at hv
        split at hv
        · exact ha v (value_of_alters hv).symm
        · obtain ⟨d, hd, hv⟩ := Option.bind_eq_some_iff.1 hv
          obtain ⟨d', hd', hv⟩ := Option.map_eq_some_iff.1 hv
          obtain rfl := Option.some.inj hv
          exact ih (hc.find? hd) hd'
      · rintro rfl
        have hsome : (alter t (a.reaches false (a.inPlace ts) ts) ms).isSome := by
          rw [hms]
          rfl
        rw [isSome_alter] at hsome
        obtain ⟨out, hout⟩ := Option.isSome_iff_exists.1 hsome
        rw [← find?_isSome, hout, ne_eq, Option.some.injEq]
        rw [reaches] at hout
        split at hout
        · exact array_of_alters hout
        · obtain ⟨d, hd, hout⟩ := Option.bind_eq_some_iff.1 hout
          obtain ⟨d', -, rfl⟩ := Option.map_eq_some_iff.1 hout
          rw [hd]
          simp

end Change

end Patch

end Quarry
