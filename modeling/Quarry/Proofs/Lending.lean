import Quarry.Pool

/-!
Whoever lends and gives back, and in whichever order: an instance of a pool has one holder at a time,
and it changes hands as resetting leaves it.
-/

namespace Quarry

variable {β : Type}

/-- What the holders of a pool do, one after another. -/
inductive Turn (β : Type) where
  | lend
  | use (act : β → β) (lease : Nat)
  | drop (lease : Nat)

namespace Pool

/-- A pool that tells its instances apart by their numbers. -/
def numbered (capacity : Nat) (fresh : Nat → β) (clean : β → β) : Pool (Nat × β) :=
  empty capacity (fun n => (n, fresh n)) (Prod.map id clean)

variable {p : Pool (Nat × β)} {a : Nat × β}

theorem made_le_lend : p.made ≤ p.lend.2.made := by
  unfold lend
  split
  · exact Nat.le_succ p.made
  · exact Nat.le_refl p.made

theorem made_giveBack : (p.giveBack a).made = p.made := by
  unfold giveBack
  split <;> rfl

end Pool

namespace Lending

/-- Whatever is done to an instance, it stays the same instance. -/
def turn (s : Lending (Nat × β)) : Turn β → Lending (Nat × β)
  | .lend => s.lend
  | .use act lease => s.use (Prod.map id act) lease
  | .drop lease => s.drop lease

def run (s : Lending (Nat × β)) (turns : List (Turn β)) : Lending (Nat × β) := turns.foldl turn s

/-- The instances that are somewhere: the held ones, then the idle ones. -/
def instances (s : Lending (Nat × β)) : List Nat :=
  s.held.map (fun h => h.2.1) ++ s.pool.idle.map Prod.fst

def leases (s : Lending (Nat × β)) : List Nat := s.held.map Prod.fst

/-- What every turn preserves. -/
structure Sound (capacity : Nat) (fresh : Nat → β) (clean : β → β) (s : Lending (Nat × β)) :
    Prop where
  keeps : s.pool.capacity = capacity
  makes : s.pool.make = fun n => (n, fresh n)
  resets : s.pool.reset = Prod.map id clean
  once : s.instances.Nodup
  made : ∀ n ∈ s.instances, n < s.pool.made
  apart : s.leases.Nodup
  given : ∀ n ∈ s.leases, n < s.next
  cleaned : ∀ a ∈ s.pool.idle, ∃ b, a.2 = clean b
  room : s.pool.idle.length ≤ capacity

variable {capacity : Nat} {fresh : Nat → β} {clean : β → β} {s : Lending (Nat × β)}

theorem sound_start : (start (Pool.numbered capacity fresh clean)).Sound capacity fresh clean where
  keeps := rfl
  makes := rfl
  resets := rfl
  once := List.nodup_nil
  made := nofun
  apart := List.nodup_nil
  given := nofun
  cleaned := nofun
  room := Nat.zero_le capacity

/-! ### Lending -/

theorem lend_of_idle {a : Nat × β} {as : List (Nat × β)} (h : s.pool.idle = a :: as) :
    s.lend = ⟨{ s.pool with idle := as }, s.next + 1, (s.next, a) :: s.held⟩ := by
  unfold lend Pool.lend
  rw [h]

theorem lend_of_empty (h : s.pool.idle = []) :
    s.lend = ⟨{ s.pool with made := s.pool.made + 1 }, s.next + 1,
      (s.next, s.pool.make s.pool.made) :: s.held⟩ := by
  obtain ⟨⟨capacity, make, reset, made, idle⟩, next, held⟩ := s
  cases h
  rfl

/-- A lease under a number that was not given before. -/
theorem Sound.leased (h : s.Sound capacity fresh clean) :
    (s.next :: s.leases).Nodup ∧ ∀ n ∈ s.next :: s.leases, n < s.next + 1 := by
  constructor
  · rw [List.nodup_cons]
    constructor
    · intro hmem
      exact Nat.lt_irrefl _ (h.given s.next hmem)
    · exact h.apart
  · intro n hn
    rcases List.mem_cons.1 hn with rfl | hn
    · exact Nat.lt_succ_self _
    · exact Nat.lt_succ_of_lt (h.given n hn)

theorem Sound.lend_idle (h : s.Sound capacity fresh clean) {a : Nat × β} {as : List (Nat × β)}
    (hidle : s.pool.idle = a :: as) : s.lend.Sound capacity fresh clean := by
  have hperm : s.lend.instances.Perm s.instances := by
    rw [lend_of_idle hidle]
    unfold instances
    rw [hidle]
    exact List.perm_middle.symm
  have hsub : ∀ b ∈ as, b ∈ s.pool.idle := fun b hb => hidle ▸ List.mem_cons_of_mem a hb
  have hroom := h.room
  rw [hidle, List.length_cons] at hroom
  have hmade : ∀ n ∈ s.lend.instances, n < s.pool.made := fun n hn => h.made n (hperm.mem_iff.1 hn)
  have honce := hperm.nodup_iff.2 h.once
  rw [lend_of_idle hidle] at hmade honce ⊢
  exact ⟨h.keeps, h.makes, h.resets, honce, hmade, h.leased.1, h.leased.2,
    fun b hb => h.cleaned b (hsub b hb), Nat.le_of_succ_le hroom⟩

theorem Sound.lend_new (h : s.Sound capacity fresh clean) (hidle : s.pool.idle = []) :
    s.lend.Sound capacity fresh clean := by
  rw [lend_of_empty hidle]
  have hnew : (s.pool.make s.pool.made).1 = s.pool.made := by rw [h.makes]
  refine ⟨h.keeps, h.makes, h.resets, ?_, ?_, h.leased.1, h.leased.2, h.cleaned, h.room⟩
  · unfold instances
    rw [List.map_cons, List.cons_append, hnew, List.nodup_cons]
    constructor
    · intro hmem
      exact Nat.lt_irrefl _ (h.made s.pool.made hmem)
    · exact h.once
  · unfold instances
    rw [List.map_cons, List.cons_append, hnew]
    intro n hn
    rcases List.mem_cons.1 hn with rfl | hn
    · exact Nat.lt_succ_self _
    · exact Nat.lt_succ_of_lt (h.made n hn)

theorem Sound.lend (h : s.Sound capacity fresh clean) : s.lend.Sound capacity fresh clean := by
  cases hidle : s.pool.idle with
  | nil => exact h.lend_new hidle
  | cons a as => exact h.lend_idle hidle

/-! ### Using -/

theorem leases_use (act : β → β) (lease : Nat) :
    (s.use (Prod.map id act) lease).leases = s.leases := by
  unfold leases use
  rw [List.map_map]
  apply List.map_congr_left
  intro x _
  rw [Function.comp]
  split <;> rfl

theorem instances_use (act : β → β) (lease : Nat) :
    (s.use (Prod.map id act) lease).instances = s.instances := by
  unfold instances use
  rw [List.map_map]
  apply congrArg (· ++ _)
  apply List.map_congr_left
  intro x _
  rw [Function.comp]
  split <;> rfl

theorem Sound.use (h : s.Sound capacity fresh clean) (act : β → β) (lease : Nat) :
    (s.use (Prod.map id act) lease).Sound capacity fresh clean where
  keeps := h.keeps
  makes := h.makes
  resets := h.resets
  once := (instances_use act lease).symm ▸ h.once
  made := (instances_use act lease).symm ▸ h.made
  apart := (leases_use act lease).symm ▸ h.apart
  given := (leases_use act lease).symm ▸ h.given
  cleaned := h.cleaned
  room := h.room

/-! ### Giving back -/

/-- The lease that ends and the others. -/
theorem split_of_held? {lease : Nat} {a : Nat × β} (h : s.held? lease = some a) :
    ∃ before after, s.held = before ++ (lease, a) :: after ∧
      (s.held.filter fun x => x.1 != lease).Sublist (before ++ after) := by
  obtain ⟨x, hfind, rfl⟩ := Option.map_eq_some_iff.1 h
  have hlease : x.1 = lease := by simpa using List.find?_some hfind
  obtain ⟨before, after, hheld⟩ := List.append_of_mem (List.mem_of_find?_eq_some hfind)
  subst hlease
  refine ⟨before, after, hheld, ?_⟩
  rw [hheld, List.filter_append, List.filter_cons_of_neg (by simp)]
  exact List.filter_sublist.append List.filter_sublist

/-- An instance that comes back is idle or, when the pool is full, nowhere. -/
theorem idle_giveBack (h : s.Sound capacity fresh clean) (a : Nat × β) :
    ((s.pool.giveBack a).idle.map Prod.fst).Sublist (a.1 :: s.pool.idle.map Prod.fst) ∧
      (∀ b ∈ (s.pool.giveBack a).idle, ∃ c, b.2 = clean c) ∧
      (s.pool.giveBack a).idle.length ≤ capacity := by
  unfold Pool.giveBack
  split
  · rename_i hroom
    rw [h.resets]
    refine ⟨List.Sublist.refl _, ?_, ?_⟩
    · intro b hb
      rcases List.mem_cons.1 hb with rfl | hb
      · exact ⟨a.2, rfl⟩
      · exact h.cleaned b hb
    · rw [h.keeps] at hroom
      exact hroom
  · exact ⟨List.sublist_cons_self _ _, h.cleaned, h.room⟩

theorem Sound.drop (h : s.Sound capacity fresh clean) (lease : Nat) :
    (s.drop lease).Sound capacity fresh clean := by
  unfold Lending.drop
  cases hheld : s.held? lease with
  | none => exact h
  | some a =>
    obtain ⟨before, after, hsplit, hothers⟩ := split_of_held? hheld
    obtain ⟨hidle, hcleaned, hroom⟩ := idle_giveBack h a
    have hinstances : ((before ++ after).map (fun h => h.2.1) ++
        a.1 :: s.pool.idle.map Prod.fst).Perm s.instances := by
      unfold instances
      rw [hsplit, List.map_append, List.map_append, List.append_assoc, List.append_assoc]
      exact List.Perm.append_left _ List.perm_middle
    have hleft := (hothers.map fun h => h.2.1).append hidle
    have hleases := hothers.map Prod.fst
    have hsub : ((before ++ after).map Prod.fst).Sublist s.leases := by
      unfold leases
      rw [hsplit]
      exact ((List.sublist_cons_self _ _).append_left before).map Prod.fst
    have hshape : (s.pool.giveBack a).capacity = s.pool.capacity ∧
        (s.pool.giveBack a).make = s.pool.make ∧ (s.pool.giveBack a).reset = s.pool.reset := by
      unfold Pool.giveBack
      split <;> exact ⟨rfl, rfl, rfl⟩
    refine ⟨hshape.1.trans h.keeps, hshape.2.1.trans h.makes, hshape.2.2.trans h.resets, ?_, ?_,
      (hleases.trans hsub).nodup h.apart, ?_, hcleaned, hroom⟩
    · exact hleft.nodup (hinstances.nodup_iff.2 h.once)
    · intro n hn
      exact Pool.made_giveBack.symm ▸ h.made n (hinstances.mem_iff.1 (hleft.subset hn))
    · intro n hn
      exact h.given n (hsub.subset (hleases.subset hn))

/-! ### Any number of turns -/

theorem Sound.turn (h : s.Sound capacity fresh clean) (t : Turn β) :
    (s.turn t).Sound capacity fresh clean := by
  cases t with
  | lend => exact h.lend
  | use act lease => exact h.use act lease
  | drop lease => exact h.drop lease

theorem Sound.run (h : s.Sound capacity fresh clean) (turns : List (Turn β)) :
    (s.run turns).Sound capacity fresh clean := by
  induction turns generalizing s with
  | nil => exact h
  | cons t ts ih => exact ih (h.turn t)

theorem made_le_turn (t : Turn β) : s.pool.made ≤ (s.turn t).pool.made := by
  cases t with
  | lend => exact Pool.made_le_lend
  | use act lease => exact Nat.le_refl s.pool.made
  | drop lease =>
    rw [turn, drop]
    split
    · exact Nat.le_refl s.pool.made
    · exact Nat.le_of_eq Pool.made_giveBack.symm

theorem made_le_run (turns : List (Turn β)) : s.pool.made ≤ (s.run turns).pool.made := by
  induction turns generalizing s with
  | nil => exact Nat.le_refl s.pool.made
  | cons t ts ih => exact Nat.le_trans (made_le_turn t) ih

theorem run_append (turns more : List (Turn β)) : s.run (turns ++ more) = (s.run turns).run more :=
  List.foldl_append

/-- However leases begin, are used and end: no instance is in two places, idle ones are clean and no
more than the pool may keep, and a lease gets an idle instance if there is one and else one that was
nowhere before. -/
theorem run_shares (capacity : Nat) (fresh : Nat → β) (clean : β → β) (turns more : List (Turn β)) :
    let before := (start (Pool.numbered capacity fresh clean)).run turns
    let now := (start (Pool.numbered capacity fresh clean)).run (turns ++ more)
    now.instances.Nodup ∧ now.leases.Nodup ∧
      (∀ a ∈ now.pool.idle, ∃ b, a.2 = clean b) ∧ now.pool.idle.length ≤ capacity ∧
      (∀ a as, now.pool.idle = a :: as →
        now.lend.held = (now.next, a) :: now.held ∧ now.lend.pool.idle = as) ∧
      (now.pool.idle = [] →
        now.lend.held = (now.next, now.pool.made, fresh now.pool.made) :: now.held ∧
          now.lend.pool.idle = [] ∧ now.pool.made ∉ before.instances) := by
  intro before now
  have hbefore : before.Sound capacity fresh clean := sound_start.run turns
  have hnow : now.Sound capacity fresh clean := sound_start.run (turns ++ more)
  refine ⟨hnow.once, hnow.apart, hnow.cleaned, hnow.room, ?_, ?_⟩
  · intro a as hidle
    rw [lend_of_idle hidle]
    exact ⟨rfl, rfl⟩
  · intro hidle
    rw [lend_of_empty hidle, hnow.makes]
    refine ⟨rfl, hidle, ?_⟩
    intro hmem
    have hmade := hbefore.made now.pool.made hmem
    have hle : before.pool.made ≤ now.pool.made := by
      rw [show now = before.run more from run_append turns more]
      exact made_le_run more
    omega

/-- Two leases of a pool that keeps one instance: the second instance to come back is dropped. -/
example : ((start (Pool.numbered 1 (fun _ => "") fun _ => "")).run
    [.lend, .lend, .use (· ++ "a") 1, .drop 1, .drop 0]).pool.idle = [(1, "")] := by decide

end Lending

end Quarry
