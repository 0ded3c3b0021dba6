namespace Quarry.Numeral

def twoTo (n : Nat) : Nat := Nat.pow 2 n

def fiveTo (n : Nat) : Nat := Nat.pow 5 n

def tenTo (n : Nat) : Nat := Nat.pow 10 n

@[simp] theorem twoTo_zero : twoTo 0 = 1 := rfl

@[simp] theorem fiveTo_zero : fiveTo 0 = 1 := rfl

@[simp] theorem tenTo_zero : tenTo 0 = 1 := rfl

theorem twoTo_succ (n : Nat) : twoTo (n + 1) = twoTo n * 2 := rfl

theorem fiveTo_succ (n : Nat) : fiveTo (n + 1) = fiveTo n * 5 := rfl

theorem tenTo_succ (n : Nat) : tenTo (n + 1) = tenTo n * 10 := rfl

theorem twoTo_pos (n : Nat) : 0 < twoTo n := by
  induction n with
  | zero => decide
  | succ n ih => rw [twoTo_succ]; omega

theorem tenTo_pos (n : Nat) : 0 < tenTo n := by
  induction n with
  | zero => decide
  | succ n ih => rw [tenTo_succ]; omega

/-- Ten is twice five, at every power. -/
theorem tenTo_eq (n : Nat) : tenTo n = twoTo n * fiveTo n := by
  induction n with
  | zero => rfl
  | succ n ih => rw [tenTo_succ, ih, twoTo_succ, fiveTo_succ]; ac_nf

end Quarry.Numeral
