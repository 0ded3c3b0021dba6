import Quarry.Scalar.Basic

namespace Quarry

/-- A conjunction is decided by `false` and a disjunction by `true`. -/
inductive Connective where
  | and
  | or
deriving Repr, DecidableEq

namespace Connective

def symbol : Connective → String
  | .and => "&&"
  | .or => "||"

def name : Connective → String
  | .and => "And"
  | .or => "Or"

def dominant : Connective → Bool
  | .and => false
  | .or => true

end Connective

namespace Scalar

/-! ### Texts -/

/-- The number of characters of a text. -/
def length : Scalar → Scalar
  | .error message => .error message
  | .null => .null
  | .string s => .long (Int64.ofNat s.length)
  | s => .error s!"Length expects a string, got {s.described}"

def textTest (name : String) (test : List Char → List Char → Bool) (a b : Scalar) : Scalar :=
  match a.firstError? b with
  | some e => e
  | none =>
    match a, b with
    | .null, _ => .null
    | _, .null => .null
    | .string s, .string t => .bool (test s.toList t.toList)
    | a, b => a.incompatible name b

/-- Whether `part` stands somewhere in a text. -/
def hasInfix (part : List Char) : List Char → Bool
  | [] => part.isEmpty
  | c :: cs => part.isPrefixOf (c :: cs) || hasInfix part cs

theorem hasInfix_iff (part cs : List Char) : hasInfix part cs = true ↔ part <:+: cs := by
  induction cs with
  | nil => simp [hasInfix]
  | cons c cs ih =>
    rw [hasInfix, Bool.or_eq_true, ih, List.isPrefixOf_iff_prefix, List.infix_cons_iff]

def contains : Scalar → Scalar → Scalar := textTest "Contains" fun s t => hasInfix t s

def startsWith : Scalar → Scalar → Scalar := textTest "StartsWith" fun s t => t.isPrefixOf s

def endsWith : Scalar → Scalar → Scalar := textTest "EndsWith" fun s t => t.isSuffixOf s

/-! ### Connectives -/

/-- Goes through operands, having met the dominant value or null before; the first error ends it. -/
def connectFrom (k : Connective) (decided sawNull : Bool) : List Scalar → Scalar
  | [] => if decided then .bool k.dominant else if sawNull then .null else .bool !k.dominant
  | .error message :: _ => .error message
  | .bool b :: ss => connectFrom k (decided || b == k.dominant) sawNull ss
  | .null :: ss => connectFrom k decided true ss
  | s :: _ => .error s!"{k.symbol} expects bool operands, got {s.described}"

def connect (k : Connective) (operands : List Scalar) : Scalar := connectFrom k false false operands

def and : List Scalar → Scalar := connect .and

def or : List Scalar → Scalar := connect .or

def not : Scalar → Scalar
  | .bool b => .bool !b
  | .error message => .error message
  | .null => .null
  | s => .error s!"! expects a bool, got {s.described}"

end Scalar

end Quarry
