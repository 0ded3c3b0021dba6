namespace Quarry

/-- Instances that are not in use; what is lent comes from here before a new one is made. -/
structure Pool (α : Type) where
  capacity : Nat
  /-- The instances in the order they are made in. -/
  make : Nat → α
  reset : α → α
  made : Nat
  idle : List α

namespace Pool

variable {α : Type}

def empty (capacity : Nat) (make : Nat → α) (reset : α → α) : Pool α :=
  ⟨capacity, make, reset, 0, []⟩

/-- The instance that was given back last, or a new one. -/
def lend (p : Pool α) : α × Pool α :=
  match p.idle with
  | [] => (p.make p.made, { p with made := p.made + 1 })
  | a :: as => (a, { p with idle := as })

/-- Takes an instance back, clean; a full pool drops it. -/
def giveBack (a : α) (p : Pool α) : Pool α :=
  if p.idle.length < p.capacity then { p with idle := p.reset a :: p.idle } else p

end Pool

/-- A pool with the instances it has lent, each under the number of its lease. -/
structure Lending (α : Type) where
  pool : Pool α
  next : Nat
  held : List (Nat × α)

namespace Lending

variable {α : Type}

def start (pool : Pool α) : Lending α := ⟨pool, 0, []⟩

def lend (s : Lending α) : Lending α :=
  let (a, pool) := s.pool.lend
  ⟨pool, s.next + 1, (s.next, a) :: s.held⟩

def held? (lease : Nat) (s : Lending α) : Option α := (s.held.find? fun h => h.1 == lease).map Prod.snd

/-- Lets a holder use its instance. -/
def use (f : α → α) (lease : Nat) (s : Lending α) : Lending α :=
  { s with held := s.held.map fun h => if h.1 == lease then (h.1, f h.2) else h }

/-- Ends a lease; one that has ended already stays so. -/
def drop (lease : Nat) (s : Lending α) : Lending α :=
  match s.held? lease with
  | none => s
  | some a =>
    { s with pool := s.pool.giveBack a, held := s.held.filter fun h => h.1 != lease }

end Lending

end Quarry
