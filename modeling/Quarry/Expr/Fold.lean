import Quarry.Expr.Apply

namespace Quarry.Expr

/-- The literal of a value; infinities, not-a-number and errors have none. -/
def ofScalar? (s : Scalar) : Option Expr :=
  match Atom.ofScalar? s with
  | some (.double x) => if x.isFinite then some (.literal (.double x)) else none
  | some a => some (.literal a)
  | none => none

def literal? : Expr → Option Atom
  | .literal a => some a
  | _ => none

/-- The value of a node whose operands are literals. -/
def literalValue? : Expr → Option Scalar
  | .unary op e => e.literal?.map fun a => op.apply a.toScalar
  | .binary op l r => do
    return op.apply (← l.literal?).toScalar (← r.literal?).toScalar
  | .connect k es => (es.mapM literal?).map fun as => Scalar.connect k (as.map Atom.toScalar)
  | .not e => e.literal?.map fun a => a.toScalar.not
  | _ => none

/-- A node of literals becomes its value, if there is a literal for it. -/
def reduce (e : Expr) : Expr := (e.literalValue?.bind ofScalar?).getD e

mutual

/-- Replaces all parts that do not depend on a document by their value. -/
def fold : Expr → Expr
  | .field name path => .field name path
  | .literal a => .literal a
  | .unary op e => reduce (.unary op e.fold)
  | .binary op l r => reduce (.binary op l.fold r.fold)
  | .aggregate op f x b => .aggregate op f x b.fold
  | .count f => .count f
  | .connect k es => reduce (.connect k (foldAll es))
  | .not e => reduce (.not e.fold)
  | .quantifier q f x b => .quantifier q f x b.fold

def foldAll : List Expr → List Expr
  | [] => []
  | e :: es => e.fold :: foldAll es

end

theorem foldAll_eq_map (es : List Expr) : foldAll es = es.map fold := by
  induction es with
  | nil => rfl
  | cons e es ih => simp [foldAll, ih]

end Quarry.Expr
