import Quarry.Command
import Quarry.Json.Pretty

/-!
The arguments of the command line.
-/

namespace Quarry

inductive Flag where
  | config
  | input
  | wire
  | lines
  | pretty
deriving Repr, DecidableEq

namespace Flag

def all : List Flag := [.config, .input, .wire, .lines, .pretty]

def name : Flag → String
  | .config => "--config"
  | .input => "--input"
  | .wire => "--wire"
  | .lines => "--lines"
  | .pretty => "--pretty"

def letter? : Flag → Option Char
  | .input => some 'i'
  | .pretty => some 'p'
  | _ => none

def takesValue : Flag → Bool
  | .config => true
  | .input => true
  | _ => false

end Flag

inductive Verb where
  | filter
  | eval
  | select
  | patch
  | explain
deriving Repr, DecidableEq

namespace Verb

def all : List Verb := [.filter, .eval, .select, .patch, .explain]

def name : Verb → String
  | .filter => "filter"
  | .eval => "eval"
  | .select => "select"
  | .patch => "patch"
  | .explain => "explain"

def allows (v : Verb) : Flag → Bool
  | .config => true
  | .input => v ≠ .explain
  | .wire => v = .filter || v = .eval || v = .explain
  | .lines => v = .filter
  | .pretty => v = .eval || v = .select

/-- All but selection take exactly one operand. -/
def takes (v : Verb) (operands : Nat) : Bool := operands = 1 || (v = .select && 1 < operands)

end Verb

/-- What the arguments ask for. -/
structure Arguments where
  verb : Option Verb := none
  flags : List (Flag × String) := []
  operands : List String := []

namespace Arguments

inductive Error where
  | unexpected (arg : String)
  | missingValue (flag : Flag)
  | missingVerb
  | wrongOperands (verb : Verb)
deriving Repr, DecidableEq

def Error.message : Error → String
  | .unexpected arg => s!"error: unexpected argument '{arg}' found"
  | .missingValue flag => s!"error: a value is required for '{flag.name}' but none was supplied"
  | .missingVerb => "error: a command is required: filter, eval, select, patch or explain"
  | .wrongOperands verb => s!"error: wrong number of arguments for '{verb.name}'"

def has (f : Flag) (a : Arguments) : Bool := a.flags.any fun g => g.1 == f

def value? (f : Flag) (a : Arguments) : Option String :=
  (a.flags.find? fun g => g.1 == f).map Prod.snd

/-- A flag that the command knows and that was not given before. -/
def accepts (a : Arguments) (f : Flag) : Bool :=
  !a.has f && a.verb.elim (f == .config) fun v => v.allows f

/-- The first operand is the command. -/
def addOperand (arg : String) (a : Arguments) : Except Error Arguments :=
  match a.verb with
  | some _ => .ok { a with operands := a.operands ++ [arg] }
  | none =>
    match Verb.all.find? fun v => v.name == arg with
    | some v => .ok { a with verb := some v }
    | none => .error (.unexpected arg)

/-- The flag an argument names, and the value that is part of the argument. -/
def flag? (arg : String) : Option (Flag × Option String) :=
  Flag.all.findSome? fun f =>
    if arg = f.name then some (f, none)
    else if (f.name ++ "=").toList.isPrefixOf arg.toList then
      some (f, some (String.ofList (arg.toList.drop (f.name.length + 1))))
    else
      match arg.toList, f.letter? with
      | ['-', c], some l => if c = l then some (f, none) else none
      | '-' :: c :: '=' :: cs, some l => if c = l then some (f, some (String.ofList cs)) else none
      | '-' :: c :: cs, some l => if c = l then some (f, some (String.ofList cs)) else none
      | _, _ => none

def isOperand (arg : String) : Bool := arg = "-" || arg.toList.head? ≠ some '-'

def ofListFrom : List String → Arguments → Except Error Arguments
  | [], a => .ok a
  | arg :: args, a =>
    if arg = "--" then args.foldlM (fun a arg => a.addOperand arg) a
    else if isOperand arg then do ofListFrom args (← a.addOperand arg)
    else
      match flag? arg with
      | none => .error (.unexpected arg)
      | some (f, part) =>
        if !a.accepts f then .error (.unexpected arg)
        else
          match f.takesValue, part, args with
          | false, none, args => ofListFrom args { a with flags := (f, "") :: a.flags }
          | false, some _, _ => .error (.unexpected arg)
          | true, some v, args => ofListFrom args { a with flags := (f, v) :: a.flags }
          | true, none, [] => .error (.missingValue f)
          | true, none, v :: args => ofListFrom args { a with flags := (f, v) :: a.flags }

/-- The command and its arguments, of which there have to be as many as it takes. -/
def ofList (args : List String) : Except Error (Verb × Arguments) := do
  let a ← ofListFrom args {}
  match a.verb with
  | none => .error .missingVerb
  | some v => if v.takes a.operands.length then return (v, a) else .error (.wrongOperands v)

/-! ### Running -/

def shown (a : Arguments) (v : Json.Value) : String := if a.has .pretty then v.pretty else v.text

def query (a : Arguments) (input : Option String) (config : Config) : Command.Query :=
  ⟨a.operands.head?.getD "", a.has .wire, input, config⟩

/-- What is printed, and how many documents were skipped. -/
structure Output where
  lines : List String
  skipped : Nat := 0
deriving Repr, DecidableEq

/-- Runs a command. Filters share their lines among a number of workers. -/
def run (workers : Nat) (verb : Verb) (a : Arguments) (input : Option String) (config : Config) :
    Except Command.Error Output := do
  let q := a.query input config
  match verb with
  | .filter =>
    if a.has .lines then
      let batch ← q.filterLines workers
      return ⟨batch.matched, batch.failed⟩
    else return ⟨[toString (← q.filter)], 0⟩
  | .eval => return ⟨[a.shown (← q.eval)], 0⟩
  | .select => return ⟨[a.shown (← Command.Selection.select ⟨a.operands, input, config⟩)], 0⟩
  | .patch => return ⟨[← Command.Patching.apply ⟨q.expr, input, config⟩], 0⟩
  | .explain => return ⟨[(← q.explain).pretty], 0⟩

end Arguments

end Quarry
