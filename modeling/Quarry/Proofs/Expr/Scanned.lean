import Quarry.Proofs.Expr.Numbers

/-!
What the tokens of a text can be.
-/

namespace Quarry.Expr

namespace Lexer

open Quarry.Expr.Parser (marks)

variable {c : Char} {cs : List Char} {p : Nat} {t : Token} {place : Place}

/-- A token other than the end, with a name or an integer as a text can hold it. -/
def Genuine (t : Token) : Prop := t ≠ .eof ∧ Fine Proper t

theorem genuine_singles : ∀ p ∈ singles, Genuine p.2 := by simp [singles, Genuine, Fine]

theorem genuine_pairs : ∀ p ∈ pairs, Genuine p.2 := by simp [pairs, Genuine, Fine]

theorem genuine_mark (h : mark? c cs p = some (t, place)) : Genuine t := by
  rw [mark?] at h
  split at h
  · rename_i u hpair
    cases h
    obtain ⟨d, -, hd⟩ := Option.bind_eq_some_iff.1 hpair
    exact genuine_pairs _ (mem_pairs hd)
  · obtain ⟨u, hu, heq⟩ := Option.map_eq_some_iff.1 h
    cases heq
    exact genuine_singles _ (mem_singles hu)

theorem genuine_word {s : String} (h : IsWord s.toList) : Genuine (Lexer.word s) := by
  by_cases htrue : s = "true"
  · rw [htrue]
    exact ⟨by simp [word], trivial⟩
  by_cases hfalse : s = "false"
  · rw [hfalse]
    exact ⟨by simp [word], trivial⟩
  by_cases hnull : s = "null"
  · rw [hnull]
    exact ⟨by simp [word], trivial⟩
  have hword : Lexer.word s = .identifier s := by
    rw [word, if_neg htrue, if_neg hfalse, if_neg hnull]
  rw [hword]
  exact ⟨by simp, h, hword⟩

theorem isWord_takeWhile (h : isWordStart c = true) :
    IsWord ((c :: cs).takeWhile isWordChar) := by
  rw [List.takeWhile_cons_of_pos (isWordChar_of_isWordStart h)]
  exact ⟨c, _, rfl, h, fun d hd => List.all_eq_true.1 List.all_takeWhile d hd⟩

theorem integer?_nonneg {ds : List Char} {n : Int} (hc : c.isDigit = true)
    (h : Numeral.integer? (String.ofList (c :: ds)) = some n) : 0 ≤ n := by
  rw [Numeral.integer?, String.toList_ofList, Numeral.signOf_digits hc] at h
  dsimp only at h
  split at h
  · cases h
  · cases h
    exact Int.natCast_nonneg _

theorem genuine_number (hc : c.isDigit = true) (h : number (c :: cs) p = .ok (t, place)) :
    Genuine t := by
  rw [number, numberChars_cons, if_pos hc] at h
  dsimp only at h
  split at h
  · split at h
    · cases h
      exact ⟨by simp, trivial⟩
    · cases h
  · split at h
    · rename_i n hn
      cases h
      obtain ⟨z, hz, hlong⟩ := Option.bind_eq_some_iff.1 hn
      have hnonneg := integer?_nonneg hc hz
      rw [← Scalar.toInt_of_long? hlong] at hnonneg
      exact ⟨by simp, Int64.le_iff_toInt_le.2 hnonneg⟩
    · cases h

theorem genuine_tokenAt (h : tokenAt c cs p = .ok (t, place)) : Genuine t := by
  rw [tokenAt] at h
  split at h
  · rename_i u hmark
    cases h
    exact genuine_mark hmark
  · split at h
    · cases h
    · split at h
      · generalize stringChars c cs (p + 1) [] = r at h
        cases r with
        | error e => cases h
        | ok s =>
          cases h
          exact ⟨by simp, trivial⟩
      · split at h
        · rename_i hstart
          cases h
          exact genuine_word (by rw [String.toList_ofList]; exact isWord_takeWhile hstart)
        · split at h
          · rename_i hdigit
            exact genuine_number hdigit h
          · cases h

theorem genuine_tokens {fuel : Nat} {L : List Located} (h : tokens fuel cs p = (L, none)) :
    ∃ ts, marks L = ts ++ [.eof] ∧ ∀ t ∈ ts, Genuine t := by
  induction fuel generalizing cs p L with
  | zero =>
    cases h
    exact ⟨[], rfl, by simp⟩
  | succ fuel ih =>
    rw [tokens] at h
    split at h
    · cases h
      exact ⟨[], rfl, by simp⟩
    · split at h
      · cases h
      · rename_i u place hu
        dsimp only at h
        obtain ⟨rfl, hrest⟩ := Prod.mk.inj h
        obtain ⟨ts, hts, hall⟩ := ih (Prod.ext rfl hrest)
        exact ⟨u :: ts, congrArg (u :: ·) hts, List.forall_mem_cons.2 ⟨genuine_tokenAt hu, hall⟩⟩

end Lexer

end Quarry.Expr
