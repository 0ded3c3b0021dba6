import Quarry.Document.Json
import Quarry.Proofs.Json.Members
import Quarry.Proofs.Numeral.Digits

/-!
Values without their places in a text, and what stands in them at a pointer.
-/

namespace Quarry

open Json

/-- A value; the elements of an array are named by their indices. -/
inductive Content where
  | atom (value : Atom)
  | group (isObject : Bool) (members : List (String × Content))

/-- Elements under their indices, from a first index on. -/
def numbered {α : Type} : Nat → List α → List (String × α)
  | _, [] => []
  | i, a :: as => (toString i, a) :: numbered (i + 1) as

section Numbered

variable {α β : Type}

theorem numbered_map (f : α → β) (i : Nat) (as : List α) :
    numbered i (as.map f) = (numbered i as).map fun m => (m.1, f m.2) := by
  induction as generalizing i with
  | nil => rfl
  | cons a as ih => rw [List.map_cons, numbered, numbered, ih, List.map_cons]

theorem map_snd_numbered (i : Nat) (as : List α) : (numbered i as).map Prod.snd = as := by
  induction as generalizing i with
  | nil => rfl
  | cons a as ih => rw [numbered, List.map_cons, ih]

theorem length_numbered (i : Nat) (as : List α) : (numbered i as).length = as.length := by
  rw [← List.length_map Prod.snd, map_snd_numbered]

theorem find?_numbered (i j : Nat) (as : List α) :
    find? (toString (i + j)) (numbered i as) = as[j]? := by
  induction as generalizing i j with
  | nil => rfl
  | cons a as ih =>
    rw [numbered, find?_cons]
    cases j with
    | zero => simp
    | succ j =>
      have hne : toString i ≠ toString (i + (j + 1)) := by
        rw [ne_eq, Numeral.toString_inj]
        omega
      have hij : i + (j + 1) = i + 1 + j := by omega
      rw [if_neg hne, hij, ih, List.getElem?_cons_succ]

theorem mem_names_numbered {i : Nat} {as : List α} {k : String} (h : k ∈ names (numbered i as)) :
    ∃ j, j < as.length ∧ k = toString (i + j) := by
  induction as generalizing i with
  | nil => simp [numbered] at h
  | cons a as ih =>
    rw [numbered, names_cons, List.mem_cons] at h
    rcases h with rfl | h
    · exact ⟨0, by simp, rfl⟩
    · obtain ⟨j, hj, rfl⟩ := ih h
      refine ⟨j + 1, by simpa using hj, ?_⟩
      rw [Numeral.toString_inj]
      omega

theorem nodup_numbered (i : Nat) (as : List α) : (names (numbered i as)).Nodup := by
  induction as generalizing i with
  | nil => simp [numbered]
  | cons a as ih =>
    rw [numbered, names_cons]
    refine List.nodup_cons.2 ⟨fun h => ?_, ih (i + 1)⟩
    obtain ⟨j, -, hj⟩ := mem_names_numbered h
    rw [Numeral.toString_inj] at hj
    omega

theorem put_numbered {t : String} (a : α) {i : Nat} {as : List α}
    (h : t ∈ names (numbered i as)) : ∃ bs, put t a (numbered i as) = numbered i bs := by
  induction as generalizing i with
  | nil => simp [numbered] at h
  | cons b as ih =>
    rw [numbered, put]
    by_cases ht : toString i = t
    · rw [if_pos ht, ← ht]
      exact ⟨a :: as, rfl⟩
    · rw [if_neg ht]
      rw [numbered, names_cons, List.mem_cons] at h
      obtain ⟨bs, hbs⟩ := ih (h.resolve_left (Ne.symm ht))
      rw [hbs]
      exact ⟨b :: bs, rfl⟩

end Numbered

namespace Content

@[elab_as_elim]
theorem induct {motive : Content → Prop} (atom : ∀ a, motive (.atom a))
    (group : ∀ o ms, (∀ m ∈ ms, motive m.2) → motive (.group o ms)) (c : Content) : motive c := by
  refine @Content.rec motive (fun ms => ∀ m ∈ ms, motive m.2) (fun m => motive m.2) atom group
    ?_ ?_ ?_ c
  · intro m hm
    cases hm
  · intro m ms hm hms n hn
    rcases List.mem_cons.1 hn with rfl | hn
    · exact hm
    · exact hms n hn
  · intro k c hc
    exact hc

def array (items : List Content) : Content := .group false (numbered 0 items)

/-- No object repeats a name, and the elements of arrays are numbered. -/
inductive Valid : Content → Prop
  | atom (a : Atom) : Valid (.atom a)
  | group {o : Bool} {ms : List (String × Content)} (nodup : (names ms).Nodup)
      (indices : o = false → ms = numbered 0 (ms.map Prod.snd)) (all : ∀ m ∈ ms, Valid m.2) :
      Valid (.group o ms)

theorem Valid.array {items : List Content} (h : ∀ c ∈ items, Valid c) :
    Valid (Content.array items) := by
  refine .group (nodup_numbered 0 items) (fun _ => by rw [map_snd_numbered]) fun m hm => ?_
  have hmem := List.mem_map_of_mem (f := Prod.snd) hm
  rw [map_snd_numbered] at hmem
  exact h m.2 hmem

/-- One member or element may be changed; of an array none is put in or taken out. -/
theorem Valid.alter {o : Bool} {t : String} {f : Option Content → Option (Option Content)}
    {ms ms' : List (String × Content)} (h : Valid (.group o ms)) (ha : Json.alter t f ms = some ms')
    (hv : ∀ c, f (find? t ms) = some (some c) → Valid c)
    (ho : o = false → t ∈ names ms ∧ f (find? t ms) ≠ some none) : Valid (.group o ms') := by
  cases h with
  | group nodup indices all =>
    refine .group (nodup_alter nodup ha) ?_ ?_
    · rintro rfl
      obtain ⟨ht, hf⟩ := ho rfl
      obtain ⟨out, hout, rfl⟩ := Option.map_eq_some_iff.1 ha
      cases out with
      | none => exact absurd hout hf
      | some c =>
        rw [indices rfl] at ht ⊢
        obtain ⟨bs, hbs⟩ := put_numbered c ht
        simp only [hbs, map_snd_numbered]
    · intro m hm
      rcases mem_alter ha hm with ⟨-, hm⟩ | hm
      · exact hv _ hm
      · exact all m hm

/-- How many containers are opened within one another. -/
def nesting : Content → Nat
  | .atom _ => 0
  | .group _ ms => nestingOf ms + 1
where
  nestingOf : List (String × Content) → Nat
    | [] => 0
    | (_, c) :: ms => max c.nesting (nestingOf ms)

/-! ### Pointers -/

def members : Content → List (String × Content)
  | .atom _ => []
  | .group _ ms => ms

/-- What the tokens of a pointer lead to. -/
def get? : List String → Content → Option Content
  | [], c => some c
  | t :: ts, c => (find? t c.members).bind (get? ts)

theorem get?_append (p q : List String) (c : Content) :
    c.get? (p ++ q) = (c.get? p).bind (get? q) := by
  induction p generalizing c with
  | nil => rfl
  | cons t ts ih =>
    rw [List.cons_append, get?, get?, Option.bind_assoc]
    congr 1
    funext d
    exact ih d

theorem Valid.find? {c d : Content} {t : String} (h : Valid c) (hf : Json.find? t c.members = some d) :
    Valid d := by
  cases h with
  | atom a => simp [members] at hf
  | group nodup indices all => exact all _ (mem_of_find? hf)

theorem Valid.nodup {c : Content} (h : Valid c) : (names c.members).Nodup := by
  cases h with
  | atom a => simp [members]
  | group nodup indices all => exact nodup

theorem Valid.get? {c d : Content} {p : List String} (h : Valid c) (hp : c.get? p = some d) :
    Valid d := by
  induction p generalizing c with
  | nil => exact Option.some.inj hp ▸ h
  | cons t ts ih =>
    rw [Content.get?] at hp
    obtain ⟨e, he, hd⟩ := Option.bind_eq_some_iff.1 hp
    exact ih (h.find? he) hd

/-! ### Values alike but for the order of members -/

/-- A value without its parts. -/
inductive Shape where
  | atom (value : Atom)
  | group (isObject : Bool)
deriving DecidableEq

def shape : Content → Shape
  | .atom a => .atom a
  | .group o _ => .group o

abbrev View := List String → Option Shape

/-- What a pointer meets, the parts below left aside. -/
def view (c : Content) : View := fun p => (c.get? p).map shape

theorem view_nil (c : Content) : c.view [] = some c.shape := rfl

theorem view_cons (t : String) (p : List String) (c : Content) :
    c.view (t :: p) = (find? t c.members).bind fun d => d.view p := by
  simp only [view, get?, Option.map_bind]
  rfl

theorem view_append (p q : List String) (c : Content) :
    c.view (p ++ q) = (c.get? p).bind fun d => d.view q := by
  simp only [view, get?_append, Option.map_bind]
  rfl

def Alike (c d : Content) : Prop := ∀ p, c.view p = d.view p

theorem Alike.refl (c : Content) : Alike c c := fun _ => rfl

theorem Alike.symm {c d : Content} (h : Alike c d) : Alike d c := fun p => (h p).symm

theorem Alike.trans {c d e : Content} (h : Alike c d) (h' : Alike d e) : Alike c e :=
  fun p => (h p).trans (h' p)

theorem Alike.shape_eq {c d : Content} (h : Alike c d) : c.shape = d.shape :=
  Option.some.inj (h [])

theorem isSome_find? (t : String) (c : Content) : (Json.find? t c.members).isSome = (c.view [t]).isSome := by
  rw [view_cons]
  cases Json.find? t c.members <;> rfl

theorem Alike.find? {c d c' : Content} (h : Alike c d) {t : String}
    (hc : Json.find? t c.members = some c') :
    ∃ d', Json.find? t d.members = some d' ∧ Alike c' d' := by
  have hsome : (Json.find? t d.members).isSome := by
    rw [isSome_find?, ← h [t], ← isSome_find?, hc]
    rfl
  obtain ⟨d', hd⟩ := Option.isSome_iff_exists.1 hsome
  refine ⟨d', hd, fun p => ?_⟩
  have hp := h (t :: p)
  rwa [view_cons, view_cons, hc, hd] at hp

theorem Alike.get? {c d c' : Content} (h : Alike c d) {p : List String} (hc : c.get? p = some c') :
    ∃ d', d.get? p = some d' ∧ Alike c' d' := by
  induction p generalizing c d with
  | nil => exact ⟨d, rfl, Option.some.inj hc ▸ h⟩
  | cons t ts ih =>
    rw [Content.get?] at hc
    obtain ⟨e, he, hc⟩ := Option.bind_eq_some_iff.1 hc
    obtain ⟨f, hf, hef⟩ := h.find? he
    obtain ⟨d', hd, hcd⟩ := ih hef hc
    exact ⟨d', by rw [Content.get?, hf]; exact hd, hcd⟩

mutual

/-- Every object sorted by name. -/
def sorted : Content → Content
  | .atom a => .atom a
  | .group true ms => .group true (sortMembers (sortedMembers ms))
  | .group false ms => .group false (sortedMembers ms)

def sortedMembers : List (String × Content) → List (String × Content)
  | [] => []
  | (k, c) :: ms => (k, c.sorted) :: sortedMembers ms

end

theorem sortedMembers_eq_map (ms : List (String × Content)) :
    sortedMembers ms = ms.map fun m => (m.1, m.2.sorted) := by
  induction ms with
  | nil => rfl
  | cons m ms ih => simp [sortedMembers, ih]

theorem length_eq_of_find? (xs ys : List Content)
    (h : ∀ t, (Json.find? t (numbered 0 xs)).isSome = (Json.find? t (numbered 0 ys)).isSome) :
    xs.length = ys.length := by
  have hlt : ∀ j, j < xs.length ↔ j < ys.length := by
    intro j
    have hj := h (toString (0 + j))
    rw [find?_numbered, find?_numbered] at hj
    rw [Bool.eq_iff_iff] at hj
    simpa using hj
  have h1 := hlt xs.length
  have h2 := hlt ys.length
  omega

/-- What looks alike under every pointer is equal when its objects are sorted. -/
theorem Alike.sorted_eq {c d : Content} (hc : Valid c) (hd : Valid d) (h : Alike c d) :
    c.sorted = d.sorted := by
  induction c using Content.induct generalizing d with
  | atom a =>
    cases d with
    | atom b =>
      have hs := h.shape_eq
      simp only [shape, Shape.atom.injEq] at hs
      rw [hs]
    | group o ms =>
      have hs := h.shape_eq
      simp [shape] at hs
  | group o ms ih =>
    cases d with
    | atom b =>
      have hs := h.shape_eq
      simp [shape] at hs
    | group o' ns =>
      obtain rfl : o = o' := by simpa [shape] using h.shape_eq
      have hfind : ∀ t, (Json.find? t ms).map sorted = (Json.find? t ns).map sorted := by
        intro t
        cases ht : Json.find? t ms with
        | none =>
          cases ht' : Json.find? t ns with
          | none => rfl
          | some e =>
            obtain ⟨e', he, -⟩ := h.symm.find? (c := .group o ns) ht'
            simp [members, ht] at he
        | some c' =>
          obtain ⟨d', hd', ha⟩ := h.find? (c := .group o ms) ht
          have heq := ih _ (mem_of_find? ht) (hc.find? ht) (hd.find? hd') ha
          rw [show Json.find? t ns = some d' from hd', Option.map_some, Option.map_some, heq]
      cases o with
      | true =>
        rw [sorted, sorted, sortedMembers_eq_map, sortedMembers_eq_map]
        congr 1
        refine sortMembers_congr ?_ ?_ fun t => ?_
        · rw [names_map]
          exact hc.nodup
        · rw [names_map]
          exact hd.nodup
        · rw [find?_map, find?_map, hfind]
      | false =>
        cases hc with
        | group hcn hci hca =>
          cases hd with
          | group hdn hdi hda =>
            have hms := hci rfl
            have hns := hdi rfl
            generalize ms.map Prod.snd = xs at hms
            generalize ns.map Prod.snd = ys at hns
            subst hms hns
            rw [sorted, sorted, sortedMembers_eq_map, sortedMembers_eq_map, ← numbered_map,
              ← numbered_map]
            have hmap : xs.map sorted = ys.map sorted := by
              refine List.ext_getElem? fun j => ?_
              rw [List.getElem?_map, List.getElem?_map, ← find?_numbered 0 j xs,
                ← find?_numbered 0 j ys, hfind]
            rw [hmap]

end Content

end Quarry
