import Quarry.Lambda
import Quarry.Pool
import Quarry.Text.Split

/-!
A text with one document per line, filtered in chunks. Each chunk has a filter of its own, and what
passes stays in the order of the text.
-/

namespace Quarry

/-- The lines that passed, and how many could not be decided. -/
structure Batch where
  matched : List String
  failed : Nat
deriving Repr, DecidableEq

namespace Batch

def empty : Batch := ⟨[], 0⟩

def append (a b : Batch) : Batch := ⟨a.matched ++ b.matched, a.failed + b.failed⟩

theorem empty_append (b : Batch) : empty.append b = b := by simp [append, empty]

theorem append_empty (b : Batch) : b.append empty = b := by simp [append, empty]

theorem append_assoc (a b c : Batch) : (a.append b).append c = a.append (b.append c) := by
  simp [append, Nat.add_assoc]

/-- What the answer for one line adds. -/
def ofLine (line : String) : Except RunError Bool → Batch
  | .ok true => ⟨[line], 0⟩
  | .ok false => empty
  | .error _ => ⟨[], 1⟩

/-- Filters line after line with the same filter. -/
def run (f : Filter) : List String → Batch × Filter
  | [] => (empty, f)
  | line :: lines =>
    let (answer, f) := f.filter (Text.bytes line)
    let (rest, f) := run f lines
    ((ofLine line answer).append rest, f)

/-! ### Chunks -/

/-- Consecutive pieces of a length that is at least one; only the last may be shorter. -/
def chunks {α : Type} (size : Nat) (xs : List α) : List (List α) :=
  match xs with
  | [] => []
  | x :: xs => (x :: xs.take (size - 1)) :: chunks size (xs.drop (size - 1))
termination_by xs.length

theorem flatten_chunks {α : Type} (size : Nat) (xs : List α) : (chunks size xs).flatten = xs := by
  fun_induction chunks size xs with
  | case1 => rfl
  | case2 x xs ih => simp [ih]

/-- How long chunks are if each of the workers gets at most one. -/
def chunkSize (workers count : Nat) : Nat := (count + workers - 1) / workers

/-- Runs chunk after chunk, each with a filter from the pool that then takes it back. -/
def runChunks (pool : Pool Filter) : List (List String) → Batch × Pool Filter
  | [] => (empty, pool)
  | chunk :: rest =>
    let (f, pool) := pool.lend
    let (batch, f) := run f chunk
    let (others, pool) := runChunks (pool.giveBack f) rest
    (batch.append others, pool)

def isDocument (line : List Char) : Bool := !line.all Text.isBlank

/-- The lines that hold anything but blanks. -/
def documents (text : String) : List String :=
  ((Text.lines text.toList).filter isDocument).map String.ofList

/-- There are no more workers than a pool keeps filters. -/
def filter (f : Filter) (poolCapacity workers : Nat) (text : String) : Batch :=
  let lines := documents text
  let size := chunkSize (min workers (max 1 poolCapacity)) lines.length
  (runChunks (.empty poolCapacity (fun _ => f) Filter.reset) (chunks size lines)).1

end Batch

end Quarry
