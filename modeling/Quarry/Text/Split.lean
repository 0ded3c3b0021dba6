namespace Quarry.Text

/-- The pieces between separators; there is one more than there are separators. -/
def split (sep : Char) : List Char → List (List Char)
  | [] => [[]]
  | c :: cs =>
    if c = sep then [] :: split sep cs
    else
      match split sep cs with
      | [] => [[c]]
      | p :: ps => (c :: p) :: ps

theorem split_ne_nil (sep : Char) (cs : List Char) : split sep cs ≠ [] := by
  cases cs with
  | nil => simp [split]
  | cons c cs =>
    simp only [split]
    split
    · simp
    · split <;> simp

/-- Pieces written one after another, with a separator between each two. -/
def glue (sep : Char) : List (List Char) → List Char
  | [] => []
  | [p] => p
  | p :: q :: ps => p ++ sep :: glue sep (q :: ps)

theorem glue_split (sep : Char) (cs : List Char) : glue sep (split sep cs) = cs := by
  induction cs with
  | nil => rfl
  | cons c cs ih =>
    have hne := split_ne_nil sep cs
    simp only [split]
    cases h : split sep cs with
    | nil => exact absurd h hne
    | cons p ps =>
      rw [h] at ih
      by_cases hc : c = sep
      · simp [hc, glue, ih]
      · cases ps with
        | nil => simpa [hc, glue] using ih
        | cons q qs => simpa [hc, glue] using ih

/-! ### Lines -/

/-- A line end may be written as a carriage return and a line feed. -/
def dropReturn (line : List Char) : List Char :=
  if line.getLast? = some '\r' then line.dropLast else line

/-- The lines that pieces between line feeds make up; the last piece has no line end. -/
def linesOf : List (List Char) → List (List Char)
  | [] => []
  | [last] => if last.isEmpty then [] else [last]
  | line :: next :: rest => dropReturn line :: linesOf (next :: rest)

def lines (cs : List Char) : List (List Char) := linesOf (split '\n' cs)

end Quarry.Text
