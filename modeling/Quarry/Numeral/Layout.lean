import Quarry.Numeral.Shortest

namespace Quarry.Numeral

/-- How the digits of a number are laid out as text. -/
structure Layout where
  /-- Plain notation is used for numbers from `10 ^ plainFrom` to below `10 ^ plainTo`. -/
  plainFrom : Int
  plainTo : Int
  /-- Whether a positive exponent carries a sign. -/
  plusSign : Bool
  tie : Tie

namespace Layout

def exponent (l : Layout) (e : Int) : String :=
  if 0 ≤ e && l.plusSign then s!"e+{e}" else s!"e{e}"

/-- `ds` are the digits of a number between `10 ^ (k - 1)` and `10 ^ k`. -/
def place (l : Layout) (ds : List Char) (k : Int) : String :=
  if l.plainFrom < k ∧ k ≤ l.plainTo then
    if k ≤ 0 then
      String.ofList ("0.".toList ++ List.replicate (-k).toNat '0' ++ ds)
    else
      let whole := ds.take k.toNat ++ List.replicate (k.toNat - ds.length) '0'
      let frac := if ds.length ≤ k.toNat then ['0'] else ds.drop k.toNat
      String.ofList (whole ++ '.' :: frac)
  else
    let point := if ds.length = 1 then [] else ['.']
    String.ofList (ds.take 1 ++ point ++ ds.drop 1) ++ l.exponent (k - 1)

def magnitude (l : Layout) (x : Dyadic) : String :=
  if x.mant = 0 then "0.0"
  else
    let d := shortest l.tie x
    let ds := Nat.toDigits 10 d.digits
    l.place ds (d.exp + ds.length)

/-- The text of a finite number. -/
def finite (l : Layout) (x : Float) : String :=
  (if isNegative x then "-" else "") ++ l.magnitude (Dyadic.ofFloat x)

/-- The text of any number. -/
def write (l : Layout) (x : Float) : String :=
  if x.isNaN then "NaN"
  else if x.isInf then (if isNegative x then "-inf" else "inf")
  else l.finite x

end Layout

end Quarry.Numeral
