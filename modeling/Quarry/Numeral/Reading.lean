import Quarry.Numeral.Dyadic

namespace Quarry.Numeral

def digitValue (c : Char) : Nat := c.toNat - '0'.toNat

/-- The value of a run of decimal digits. -/
def natOfDigits (ds : List Char) : Nat := ds.foldl (fun n c => 10 * n + digitValue c) 0

/-- The number `whole.frac` times `10 ^ exp`, rounded to nearest. -/
def ofParts (whole frac : List Char) (exp : Int) : Float :=
  let e := exp - frac.length
  if 0 ≤ e then Float.ofScientific (natOfDigits (whole ++ frac)) false e.toNat
  else Float.ofScientific (natOfDigits (whole ++ frac)) true (-e).toNat

/-- The digits at the head of a text, and what follows them. -/
def digitsOf (cs : List Char) : List Char × List Char := cs.span Char.isDigit

/-- An optional sign, and what follows it. -/
def signOf : List Char → Bool × List Char
  | '-' :: cs => (true, cs)
  | '+' :: cs => (false, cs)
  | cs => (false, cs)

def exponentOf? : List Char → Option Int
  | [] => some 0
  | c :: cs =>
    if c = 'e' ∨ c = 'E' then
      let (negative, cs) := signOf cs
      let (ds, rest) := digitsOf cs
      if ds.isEmpty || !rest.isEmpty then none
      else some (if negative then -(natOfDigits ds : Int) else natOfDigits ds)
    else none

/-- An unsigned decimal: digits on at least one side of the point, then an optional exponent. -/
def decimal? (cs : List Char) : Option Float :=
  let (whole, rest) := digitsOf cs
  let (frac, rest) :=
    match rest with
    | '.' :: rest => digitsOf rest
    | rest => ([], rest)
  if whole.isEmpty && frac.isEmpty then none
  else (exponentOf? rest).map (ofParts whole frac)

/-- Reads a decimal, or one of the words for infinity and not-a-number in any case. -/
def ofText? (s : String) : Option Float :=
  let (negative, cs) := signOf s.toList
  let word := String.ofList (cs.map Char.toLower)
  if word = "inf" ∨ word = "infinity" then some (withSign negative infinity)
  else if word = "nan" then some nan
  else (decimal? cs).map (withSign negative)

/-- The integer written by digits with an optional sign. -/
def integer? (s : String) : Option Int :=
  let (negative, cs) := signOf s.toList
  if cs.isEmpty || !cs.all Char.isDigit then none
  else some (if negative then -(natOfDigits cs : Int) else natOfDigits cs)

/-- The index written by digits with an optional plus sign, if 64 bits hold it. -/
def index? (s : String) : Option Nat :=
  let cs := match s.toList with
    | '+' :: cs => cs
    | cs => cs
  if cs.isEmpty || !cs.all Char.isDigit then none
  else if natOfDigits cs < UInt64.size then some (natOfDigits cs)
  else none

end Quarry.Numeral
