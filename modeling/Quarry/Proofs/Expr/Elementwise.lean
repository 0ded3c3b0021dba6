import Quarry.Proofs.Expr.Failing

/-!
Operations that go through sequences index by index. What stands at an index is made of the operands
at that index alone, but for one thing: an error that arises there names its node only if no operand
holds an error at any index.
-/

namespace Quarry.Expr

/-! ### Indices of results -/

namespace Result

/-- The value at an index; a single value goes with every index. -/
def at? (i : Nat) : Result → Option Scalar
  | .single s => some s
  | .many ss => ss[i]?

/-- A sequence of the given length, or a single value. -/
def Fits (n : Nat) : Result → Prop
  | .single _ => True
  | .many ss => ss.length = n

variable {i n : Nat} {r t : Result}

theorem Fits.exists_at? (h : r.Fits n) (hi : i < n) : ∃ s, r.at? i = some s := by
  cases r with
  | single s => exact ⟨s, rfl⟩
  | many ss =>
    have hlt : i < ss.length := lt_of_lt_of_eq hi (Eq.symm h)
    exact ⟨ss[i], List.getElem?_eq_getElem hlt⟩

theorem at?_map (f : Scalar → Scalar) : (r.map f).at? i = (r.at? i).map f := by
  cases r with
  | single s => rfl
  | many ss => exact List.getElem?_map

theorem at?_zip (f : Scalar → Scalar → Scalar) (hr : r.Fits n) (ht : t.Fits n) :
    (r.zip f t).at? i = (r.at? i).bind fun a => (t.at? i).map (f a) := by
  cases r with
  | single a =>
    cases t with
    | single b => rfl
    | many bs => exact List.getElem?_map
  | many as =>
    cases t with
    | single b =>
      show (as.map fun a => f a b)[i]? = as[i]?.bind fun a => some (f a b)
      rw [List.getElem?_map]
      cases as[i]? <;> rfl
    | many bs =>
      have hlen : as.length = bs.length := hr.trans ht.symm
      rw [zip, if_pos hlen]
      show (List.zipWith f as bs)[i]? = as[i]?.bind fun a => bs[i]?.map (f a)
      rw [List.getElem?_zipWith]
      cases as[i]? <;> cases bs[i]? <;> rfl

end Result

/-! ### One value of every operand -/

/-- An error, with the node it arises in. -/
def noted (e : Expr) : Scalar → Scalar
  | .error message => .error s!"{message} in {e.text}"
  | s => s

theorem noted_of_not_isError {s : Scalar} (h : s.isError = false) (e : Expr) : noted e s = s := by
  cases s with
  | error => cases h
  | _ => rfl

theorem isError_noted (e : Expr) (s : Scalar) : (noted e s).isError = s.isError := by
  cases s <;> rfl

theorem noted_ne {s : Scalar} (h : s.isError = true) (e : Expr) : noted e s ≠ s := by
  cases s with
  | error message =>
    intro heq
    -- The note makes every message longer.
    have hlen := congrArg String.length (Scalar.error.inj heq)
    rw [String.length_append, String.length_append] at hlen
    have hin : (toString " in ").length = 4 := by rfl
    have hmessage : (toString message).length = message.length := rfl
    omega
  | _ => cases h

theorem annotate_eq (e : Expr) (operandError : Bool) (r : Result) :
    annotate e operandError r = r.map (if operandError then id else noted e) := by
  unfold annotate
  split
  · cases r with
    | single s => rfl
    | many ss => exact congrArg Result.many (List.map_id ss).symm
  · rfl

/-- The nodes that go through their operands index by index. -/
inductive Elementwise : Expr → Prop
  | unary (op : UnaryOp) (e : Expr) : Elementwise (.unary op e)
  | binary (op : BinaryOp) (l r : Expr) : Elementwise (.binary op l r)

/-- What the operation of such a node makes of one value of every operand, if all have one. -/
def applied : Expr → List (Option Scalar) → Option Scalar
  | .unary op _, [a] => a.map op.apply
  | .binary op _ _, [a, b] => a.bind fun a => b.map (op.apply a)
  | _, _ => none

/-- Whether an operand holds an error, at whatever index. -/
def operandError (bindings : Bindings) (e : Expr) : Bool :=
  e.operands.any fun o => (eval bindings o).hasError

variable {bindings bindings' : Bindings} {e : Expr} {i n n' : Nat}

theorem forall_operands_binary {op : BinaryOp} {l r : Expr} {P : Expr → Prop} :
    (∀ o ∈ (binary op l r).operands, P o) ↔ P l ∧ P r := by
  simp [operands]

theorem eval_at? (he : e.Elementwise) (hfits : ∀ o ∈ e.operands, (eval bindings o).Fits n) :
    (eval bindings e).at? i =
      (e.applied (e.operands.map fun o => (eval bindings o).at? i)).map
        (if operandError bindings e then id else noted e) := by
  cases he with
  | unary op e =>
    have hflag : operandError bindings (.unary op e) = (eval bindings e).hasError := by
      simp [operandError, operands]
    rw [eval, annotate_eq, Result.at?_map, Result.at?_map, hflag]
    rfl
  | binary op l r =>
    have hflag : operandError bindings (.binary op l r) =
        ((eval bindings l).hasError || (eval bindings r).hasError) := by
      simp [operandError, operands]
    obtain ⟨hl, hr⟩ := forall_operands_binary.1 hfits
    rw [eval, annotate_eq, Result.at?_map, Result.at?_zip _ hl hr, hflag]
    rfl

theorem exists_applied (he : e.Elementwise) (hfits : ∀ o ∈ e.operands, (eval bindings o).Fits n)
    (hi : i < n) :
    ∃ value, e.applied (e.operands.map fun o => (eval bindings o).at? i) = some value := by
  cases he with
  | unary op e =>
    obtain ⟨a, ha⟩ := (hfits e List.mem_cons_self).exists_at? hi
    exact ⟨op.apply a, by simp [operands, applied, ha]⟩
  | binary op l r =>
    obtain ⟨hl, hr⟩ := forall_operands_binary.1 hfits
    obtain ⟨a, ha⟩ := hl.exists_at? hi
    obtain ⟨b, hb⟩ := hr.exists_at? hi
    exact ⟨op.apply a b, by simp [operands, applied, ha, hb]⟩

/-! ### Two runs -/

theorem note_eq_iff (quiet quiet' : Bool) (value : Scalar) :
    (if quiet then id else noted e) value = (if quiet' then id else noted e) value ↔
      quiet = quiet' ∨ ((if quiet then id else noted e) value).isError = false := by
  cases hvalue : value.isError with
  | false => cases quiet <;> cases quiet' <;> simp [noted_of_not_isError hvalue, hvalue]
  | true =>
    have hne := noted_ne hvalue e
    cases quiet <;> cases quiet' <;> simp [isError_noted, hvalue, hne, Ne.symm hne]

/-- Two runs of a node whose operands agree at an index have the same value there, except that a run
in which no operand holds an error adds the node to an error that arises. So the results at the
index are identical, unless they are errors and only one of the runs has an error among its
operands. -/
theorem eval_at_index (he : e.Elementwise) (hfits : ∀ o ∈ e.operands, (eval bindings o).Fits n)
    (hfits' : ∀ o ∈ e.operands, (eval bindings' o).Fits n') (hi : i < n)
    (hat : ∀ o ∈ e.operands, (eval bindings o).at? i = (eval bindings' o).at? i) :
    (∃ value : Scalar,
      (eval bindings e).at? i =
        some ((if operandError bindings e then id else noted e) value) ∧
      (eval bindings' e).at? i =
        some ((if operandError bindings' e then id else noted e) value)) ∧
    ((eval bindings e).at? i = (eval bindings' e).at? i ↔
      operandError bindings e = operandError bindings' e ∨
        ∀ s ∈ (eval bindings e).at? i, s.isError = false) := by
  have hrun := eval_at? (i := i) he hfits
  have hrun' := eval_at? (i := i) he hfits'
  obtain ⟨value, hvalue⟩ := exists_applied he hfits hi
  rw [← List.map_congr_left hat, hvalue, Option.map_some] at hrun'
  rw [hvalue, Option.map_some] at hrun
  refine ⟨⟨value, hrun, hrun'⟩, ?_⟩
  rw [hrun, hrun', Option.some_inj, note_eq_iff]
  simp only [Option.mem_def, Option.some_inj, forall_eq']

/-- The errors before the index differ, and the error at the index is the same. -/
theorem eval_at_index_failing_elsewhere :
    let run (first : Atom) : Bindings :=
      [("o", .array ⟨0, ⟨0, 8⟩⟩ [.atom ⟨1, ⟨1, 5⟩⟩ first, .atom ⟨2, ⟨6, 7⟩⟩ (.long 1)])]
    let sum : Expr :=
      .binary .add (.field "o[*]" (some [.key "o", .wildcard])) (.literal (.long 1))
    let e : Expr := .binary .add sum (.literal (.string "x"))
    (∀ o ∈ e.operands, (eval (run (.bool true)) o).Fits 2) ∧
      (∀ o ∈ e.operands, (eval (run (.string "ab")) o).Fits 2) ∧
      (eval (run (.bool true)) sum).at? 0 ≠ (eval (run (.string "ab")) sum).at? 0 ∧
      (∀ o ∈ e.operands,
        (eval (run (.bool true)) o).at? 1 = (eval (run (.string "ab")) o).at? 1) ∧
      (eval (run (.bool true)) e).at? 1 = (eval (run (.string "ab")) e).at? 1 := by
  intro run sum e
  have hfits : ∀ o ∈ e.operands, (eval (run (.bool true)) o).Fits 2 :=
    forall_operands_binary.2 ⟨rfl, trivial⟩
  have hfits' : ∀ o ∈ e.operands, (eval (run (.string "ab")) o).Fits 2 :=
    forall_operands_binary.2 ⟨rfl, trivial⟩
  have hat : ∀ o ∈ e.operands,
      (eval (run (.bool true)) o).at? 1 = (eval (run (.string "ab")) o).at? 1 :=
    forall_operands_binary.2 ⟨rfl, rfl⟩
  have hflag : operandError (run (.bool true)) e = operandError (run (.string "ab")) e := by rfl
  have hindex := eval_at_index (.binary .add sum (.literal (.string "x"))) hfits hfits'
    (i := 1) (by decide) hat
  exact ⟨hfits, hfits', by decide, hat, hindex.2.2 (.inl hflag)⟩

/-- The operands agree at the second index, and the results do not: where the first operand has an
error elsewhere, the error at the index does not name the node. -/
theorem eval_at_index_unnoted :
    let run (first : Atom) : Bindings :=
      [("o", .array ⟨0, ⟨0, 8⟩⟩ [.atom ⟨1, ⟨1, 5⟩⟩ first, .atom ⟨2, ⟨6, 7⟩⟩ (.long 1)])]
    let sum : Expr :=
      .binary .add (.field "o[*]" (some [.key "o", .wildcard])) (.literal (.long 1))
    let e : Expr := .binary .add sum (.literal (.string "x"))
    (∀ o ∈ e.operands, (eval (run (.bool true)) o).Fits 2) ∧
      (∀ o ∈ e.operands, (eval (run .null) o).Fits 2) ∧
      (∀ o ∈ e.operands, (eval (run (.bool true)) o).at? 1 = (eval (run .null) o).at? 1) ∧
      (eval (run (.bool true)) e).at? 1 =
        some (.error "incompatible operands: 2 (long) + 'x' (string)") ∧
      (eval (run .null) e).at? 1 =
        some (.error "incompatible operands: 2 (long) + 'x' (string) in o[*] + 1 + 'x'") := by
  intro run sum e
  exact ⟨forall_operands_binary.2 ⟨rfl, trivial⟩, forall_operands_binary.2 ⟨rfl, trivial⟩,
    forall_operands_binary.2 ⟨rfl, rfl⟩, by rfl, by rfl⟩

end Quarry.Expr
