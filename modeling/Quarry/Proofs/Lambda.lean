import Quarry.Lambda
import Quarry.Proofs.Expr.Running

/-!
A lambda that reads into one document and binds on one stack again and again. A text that breaks off
leaves its containers open there.
-/

namespace Quarry

open Json Text

namespace Building

variable {fuel : Nat} {r : Reader} {b : Building}

def clear (b : Building) : Building := { b with count := 0, opened := [], root := none }

/-- Reads to the end, or up to a fault. -/
def readInto : Nat → Reader → Building → Building × Option ReadError
  | 0, r, b => (b, some r.fault)
  | fuel + 1, r, b =>
    let r := r.next
    match r.event with
    | .eof => (b, none)
    | .error => (b, some r.fault)
    | _ => readInto fuel r (b.step r)

/-- Without a fault no container is open in the end. -/
theorem run_eq_readInto (fuel : Nat) (r : Reader) (b : Building) :
    (run fuel r b).2 = (readInto fuel r b).2 ∧
      ((readInto fuel r b).2 = none → (run fuel r b).1 = (readInto fuel r b).1) := by
  induction fuel generalizing r b with
  | zero => exact ⟨rfl, nofun⟩
  | succ fuel ih =>
    rw [run, readInto]
    cases hevent : r.next.event with
    | eof => exact ⟨rfl, fun _ => rfl⟩
    | error => exact ⟨rfl, nofun⟩
    | _ => exact ih r.next (b.step r.next)

end Building

namespace Lambda

structure Engine where
  arg : String
  body : Expr
  maxDepth : Nat
  building : Building
  /-- The bound arguments, the latest at the end. -/
  stack : List (String × Node)

namespace Engine

def new (l : Lambda) : Engine := ⟨l.arg, l.body, l.document.maxDepth, .empty, []⟩

def reset (e : Engine) : Engine := { e with building := e.building.clear, stack := [] }

def load (input : Bytes) (e : Engine) : Except RunError Node × Engine :=
  match Building.readInto (Document.fuelFor input) (.ofBytes e.maxDepth input) e.building.clear with
  | (b, some err) => (.error (.read err), { e with building := b, stack := [] })
  | (b, none) =>
    match b.root with
    | none => (.error (.read ⟨.emptyDocument, 0⟩), { e with building := b, stack := [] })
    | some root => (.ok root, { e with building := b, stack := [(e.arg, root)] })

def evaluate (e : Engine) : Expr.Result × Engine :=
  match Expr.run e.body ⟨e.stack, []⟩ with
  | (r, m) => (r, { e with stack := m.stack })

def evalResult (input : Bytes) (e : Engine) : Except RunError Expr.Result × Engine :=
  match e.load input with
  | (.error err, e) => (.error err, e)
  | (.ok _, e) => (.ok e.evaluate.1, e.evaluate.2)

def eval (input : Bytes) (e : Engine) : Except RunError Json.Value × Engine :=
  match e.load input with
  | (.error err, e) => (.error err, e)
  | (.ok root, e) =>
    match plainField? e.body with
    | some steps => (.ok (((Expr.follow root steps).map Node.toJson).getD .null), e)
    | none =>
      match e.evaluate.1.firstError? with
      | some err => (.error (.eval (err.errorMessage?.getD "")), e.evaluate.2)
      | none => (.ok e.evaluate.1.toJson, e.evaluate.2)

/-- The engine is made for a lambda; the document and the stack are left out. -/
structure Runs (l : Lambda) (e : Engine) : Prop where
  arg : e.arg = l.arg
  body : e.body = l.body
  maxDepth : e.maxDepth = l.document.maxDepth

variable {e : Engine} {l : Lambda} {input : Bytes}

theorem runs_new (l : Lambda) : (new l).Runs l := ⟨rfl, rfl, rfl⟩

theorem Runs.reset (h : e.Runs l) : e.reset.Runs l := ⟨h.arg, h.body, h.maxDepth⟩

/-- Evaluation gives the stack back as it was. -/
theorem evaluate_eq (e : Engine) : e.evaluate = (Expr.eval e.stack.reverse e.body, e) := by
  let m : Expr.Memory := ⟨e.stack, []⟩
  have hbindings : m.bindings = [] ++ m.bindings := rfl
  have hrun := Expr.run_eq m.bindings e.body hbindings
  rw [evaluate, show Expr.run e.body ⟨e.stack, []⟩ = _ from hrun]
  rfl

/-- Reading fails for both, or both go on to evaluate the body for the same root. -/
theorem Runs.load_cases (h : e.Runs l) (input : Bytes) :
    (∃ err e' l', e.load input = (.error err, e') ∧ l.load input = (.error err, l') ∧
      e'.Runs l) ∨
    ∃ root e' l', e.load input = (.ok root, e') ∧ l.load input = (.ok root, l') ∧ e'.Runs l ∧
      l'.body = l.body ∧ e'.evaluate = (Expr.eval l'.bindings l.body, e') := by
  obtain ⟨harg, hbody, hdepth⟩ := h
  have hrun := Building.run_eq_readInto (Document.fuelFor input)
    (.ofBytes l.document.maxDepth input) .empty
  have hclear : e.building.clear = .empty := rfl
  rw [Engine.load, Lambda.load, Document.parse, hclear, hdepth]
  generalize Building.run (Document.fuelFor input) (.ofBytes l.document.maxDepth input) .empty = p
    at hrun
  generalize Building.readInto (Document.fuelFor input) (.ofBytes l.document.maxDepth input) .empty
    = q at hrun
  obtain ⟨b, err⟩ := p
  obtain ⟨b', err'⟩ := q
  obtain ⟨herr, hsame⟩ := hrun
  obtain rfl : err = err' := herr
  cases err with
  | some err => exact .inl ⟨_, _, _, rfl, rfl, harg, hbody, rfl⟩
  | none =>
    obtain rfl : b = b' := hsame rfl
    obtain ⟨count, opened, root⟩ := b
    cases root with
    | none => exact .inl ⟨_, _, _, rfl, rfl, harg, hbody, rfl⟩
    | some root =>
      refine .inr ⟨root, _, _, rfl, rfl, ⟨harg, hbody, rfl⟩, rfl, ?_⟩
      rw [evaluate_eq, harg, hbody]
      rfl

theorem Runs.evalResult (h : e.Runs l) (input : Bytes) :
    (e.evalResult input).1 = (l.evalResult input).1 ∧ (e.evalResult input).2.Runs l := by
  rw [Engine.evalResult, Lambda.evalResult]
  rcases h.load_cases input with ⟨err, e', l', he, hl, hruns⟩ |
    ⟨root, e', l', he, hl, hruns, hbody, heval⟩
  · rw [he, hl]
    exact ⟨rfl, hruns⟩
  · rw [he, hl]
    simp only [heval, hbody]
    exact ⟨trivial, hruns⟩

theorem Runs.eval (h : e.Runs l) (input : Bytes) :
    (e.eval input).1 = (l.eval input).1 ∧ (e.eval input).2.Runs l := by
  rw [Engine.eval, Lambda.eval]
  rcases h.load_cases input with ⟨err, e', l', he, hl, hruns⟩ |
    ⟨root, e', l', he, hl, hruns, hbody, heval⟩
  · rw [he, hl]
    exact ⟨rfl, hruns⟩
  · rw [he, hl]
    simp only [heval, hbody, hruns.body]
    cases plainField? l.body with
    | some steps => exact ⟨rfl, hruns⟩
    | none =>
      simp only
      cases (Expr.eval l'.bindings l.body).firstError? with
      | some err => exact ⟨rfl, hruns⟩
      | none => exact ⟨rfl, hruns⟩

end Engine

end Lambda

namespace Filter

structure Engine where
  kind : FilterKind
  lambda : Lambda.Engine

namespace Engine

def new (f : Filter) : Engine := ⟨f.kind, .new f.lambda⟩

def reset (e : Engine) : Engine := { e with lambda := e.lambda.reset }

def filter (input : Bytes) (e : Engine) : Except RunError Bool × Engine :=
  match e.kind with
  | .constant b => (.ok b, e)
  | .lambda =>
    match e.lambda.evalResult input with
    | (.error err, l) => (.error err, { e with lambda := l })
    | (.ok r, l) => (decide r.toScalar, { e with lambda := l })

def eval (input : Bytes) (e : Engine) : Except RunError Json.Value × Engine :=
  ((e.lambda.eval input).1, { e with lambda := (e.lambda.eval input).2 })

structure Runs (f : Filter) (e : Engine) : Prop where
  kind : e.kind = f.kind
  lambda : e.lambda.Runs f.lambda

variable {e : Engine} {f : Filter}

theorem runs_new (f : Filter) : (new f).Runs f := ⟨rfl, Lambda.Engine.runs_new f.lambda⟩

theorem Runs.reset (h : e.Runs f) : e.reset.Runs f := ⟨h.kind, h.lambda.reset⟩

theorem Runs.eval (h : e.Runs f) (input : Bytes) :
    (e.eval input).1 = (f.eval input).1 ∧ (e.eval input).2.Runs f :=
  ⟨(h.lambda.eval input).1, h.kind, (h.lambda.eval input).2⟩

theorem Runs.filter (h : e.Runs f) (input : Bytes) :
    (e.filter input).1 = (f.filter input).1 ∧ (e.filter input).2.Runs f := by
  obtain ⟨hanswer, hruns⟩ := h.lambda.evalResult input
  rw [Engine.filter, Filter.filter, h.kind]
  cases hkind : f.kind with
  | constant b => exact ⟨rfl, h⟩
  | lambda =>
    simp only
    generalize e.lambda.evalResult input = p at hanswer hruns
    generalize f.lambda.evalResult input = q at hanswer
    obtain ⟨answer, l⟩ := p
    obtain ⟨answer', l'⟩ := q
    obtain rfl : answer = answer' := hanswer
    cases answer with
    | error err => exact ⟨rfl, hkind.symm, hruns⟩
    | ok r => exact ⟨rfl, hkind.symm, hruns⟩

end Engine

end Filter

end Quarry
