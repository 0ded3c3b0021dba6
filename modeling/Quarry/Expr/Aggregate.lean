import Quarry.Expr.Basic
import Quarry.Numeral.Fixed
import Quarry.Scalar.Arithmetic
import Quarry.Scalar.Compare

/-!
Aggregates of one value per element. Nulls are left out before.
-/

namespace Quarry.Expr

/-- The value that comes before (after) all others, the first of several. -/
def extreme (name : String) (better : Ordering) (best : Scalar) : List Scalar → Scalar
  | [] => best
  | s :: ss =>
    match s.order best name with
    | .error e => e
    | .ok o => extreme name better (if o = better then s else best) ss

def extremeOf (op : AggregateOp) (better : Ordering) : List Scalar → Scalar
  | [] => .null
  | s :: ss => extreme op.name better s ss

/-- Sums in plain floating point, for totals out of the decimal range. -/
def floatTotal (values : List Scalar) : Float :=
  values.foldl (fun total s => total + s.toFloat?.getD 0.0) (-0.0)

def fixed? : Scalar → Option (Option Numeral.Fixed)
  | .long n => some (some (.ofInt n.toInt))
  | .double x => some (Numeral.Fixed.ofFloat? x)
  | _ => none

/-- The exact sum; none when a value or the sum leaves the decimal range. -/
def decimalTotal (range : String) : Option Numeral.Fixed → List Scalar →
    Except Scalar (Option Numeral.Fixed)
  | total, [] => .ok total
  | total, s :: ss =>
    match fixed? s with
    | none => .error (.error s!"aggregate over {range} expects numbers, got {s.described}")
    | some d => decimalTotal range (total.bind fun t => d.bind t.add?) ss

def total (range : String) (values : List Scalar) : Except Scalar (Option Numeral.Fixed) :=
  decimalTotal range (some .zero) values

def longs? (values : List Scalar) : Option (List Int64) :=
  values.mapM fun s =>
    match s with
    | .long n => some n
    | _ => none

def sumLongs (range : String) (sum : Int64) : List Int64 → Scalar
  | [] => .long sum
  | n :: ns =>
    match Scalar.addLong? sum n with
    | some sum => sumLongs range sum ns
    | none => .error s!"integer overflow in {range}.Sum"

/-- Integers have an integer sum, all other numbers the sum of their decimals. -/
def sumOf (range : String) (values : List Scalar) : Scalar :=
  match longs? values with
  | some ns => sumLongs range 0 ns
  | none =>
    match total range values with
    | .ok (some t) => .double t.toFloat
    | .ok none => .double (floatTotal values)
    | .error e => e

def averageOf (range : String) (values : List Scalar) : Scalar :=
  if values.isEmpty then .null
  else
    match total range values with
    | .ok (some t) => .double (t.divide values.length).toFloat
    | .ok none => .double (floatTotal values / Float.ofInt values.length)
    | .error e => e

def aggregated (op : AggregateOp) (range : String) (values : List Scalar) : Scalar :=
  match op with
  | .min => extremeOf op .lt values
  | .max => extremeOf op .gt values
  | .sum => sumOf range values
  | .average => averageOf range values

end Quarry.Expr
