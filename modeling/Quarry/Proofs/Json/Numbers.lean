import Mathlib.Tactic
import Quarry.Json.Scan

/-!
Which byte sequences the scanner takes for a number.
-/

namespace Quarry.Json

open Text

def Digits (ds : Bytes) : Prop := ds ≠ [] ∧ ∀ b ∈ ds, isDigitByte b = true

inductive Whole : Bytes → Prop
  | zero : Whole [byte '0']
  | digits {ds : Bytes} (h : Digits ds) (hz : ds.head? ≠ some (byte '0')) : Whole ds

inductive Fraction : Bytes → Bool → Prop
  | none : Fraction [] false
  | some {ds : Bytes} (h : Digits ds) : Fraction (byte '.' :: ds) true

inductive Exponent : Bytes → Bool → Prop
  | none : Exponent [] false
  | some {m : UInt8} {sign ds : Bytes} (hm : m = byte 'e' ∨ m = byte 'E')
      (hs : sign = [] ∨ sign = [byte '+'] ∨ sign = [byte '-']) (h : Digits ds) :
      Exponent (m :: sign ++ ds) true

/-- A number as it is written, and whether it is an integer. -/
inductive Figure : Bytes → Bool → Prop
  | make {sign whole frac exp : Bytes} {hasFrac hasExp : Bool}
      (hs : sign = [] ∨ sign = [byte '-']) (hw : Whole whole) (hf : Fraction frac hasFrac)
      (he : Exponent exp hasExp) :
      Figure (sign ++ (whole ++ (frac ++ exp))) (!hasFrac && !hasExp)

def NoDigit (rest : Bytes) : Prop := ∀ b ∈ rest.head?, isDigitByte b = false

/-- What may follow a number without continuing it. -/
def Stops (rest : Bytes) : Prop :=
  ∀ b ∈ rest.head?, isDigitByte b = false ∧ b ≠ byte '.' ∧ b ≠ byte 'e' ∧ b ≠ byte 'E'

theorem Stops.noDigit {rest : Bytes} (h : Stops rest) : NoDigit rest := fun b hb => (h b hb).1

theorem stops_cons {b : UInt8} (bs : Bytes)
    (h : isDigitByte b = false ∧ b ≠ byte '.' ∧ b ≠ byte 'e' ∧ b ≠ byte 'E') : Stops (b :: bs) := by
  intro c hc
  simp only [List.head?_cons, Option.mem_def, Option.some.injEq] at hc
  exact hc ▸ h

theorem dropWhile_of_noDigit {ds rest : Bytes} (hd : ∀ b ∈ ds, isDigitByte b = true)
    (hr : NoDigit rest) : (ds ++ rest).dropWhile isDigitByte = rest ∧
      (ds ++ rest).takeWhile isDigitByte = ds := by
  induction ds with
  | nil =>
    cases rest with
    | nil => simp
    | cons b bs =>
      have hb := hr b rfl
      simp [hb]
  | cons d ds ih =>
    have hd' := ih fun b hb => hd b (List.mem_cons_of_mem _ hb)
    have hh := hd d (by simp)
    simpa [hh] using hd'

/-! ### Runs of digits -/

theorem scanDigits_digits {ds rest : Bytes} (fault : Fault) (h : Digits ds) (hr : NoDigit rest)
    (p : Nat) : scanDigits fault ⟨ds ++ rest, p⟩ = (.ok (), ⟨rest, p + ds.length⟩) := by
  obtain ⟨hne, hall⟩ := h
  obtain ⟨hdrop, htake⟩ := dropWhile_of_noDigit hall hr
  have hon : onDigit ⟨ds ++ rest, p⟩ = true := by
    cases ds with
    | nil => exact absurd rfl hne
    | cons d ds => simpa [onDigit] using hall d (by simp)
  simp [scanDigits, hon, skipDigits, Cursor.dropWhile, hdrop, htake]

theorem digits_of_scanDigits {fault : Fault} {c stop : Cursor}
    (h : scanDigits fault c = (.ok (), stop)) :
    ∃ ds, Digits ds ∧ c.rest = ds ++ stop.rest ∧ stop.position = c.position + ds.length := by
  rw [scanDigits] at h
  split at h
  · rename_i hon
    simp only [Prod.mk.injEq, true_and] at h
    subst h
    refine ⟨c.rest.takeWhile isDigitByte, ⟨?_, List.all_eq_true.1 List.all_takeWhile⟩, ?_, rfl⟩
    · cases hc : c.rest with
      | nil => simp [onDigit, hc] at hon
      | cons b bs =>
        have hb : isDigitByte b = true := by simpa [onDigit, hc] using hon
        simp [hb]
    · exact (List.takeWhile_append_dropWhile ..).symm
  · simp at h

/-! ### The parts of a number -/

theorem scanWhole_whole {w rest : Bytes} (h : Whole w) (hr : NoDigit rest) (p : Nat) :
    scanWhole ⟨w ++ rest, p⟩ = (.ok (), ⟨rest, p + w.length⟩) := by
  cases h with
  | zero => simp [scanWhole, Cursor.startsWith, Cursor.next_cons]
  | digits hd hz =>
    have hs : Cursor.startsWith (byte '0') ⟨w ++ rest, p⟩ = false := by
      cases w with
      | nil => exact absurd rfl hd.1
      | cons d ds => simpa [Cursor.startsWith] using hz
    rw [scanWhole, hs]
    exact scanDigits_digits _ hd hr p

theorem startsWith_eq_true {b : UInt8} {c : Cursor} (h : c.startsWith b = true) :
    ∃ bs, c.rest = b :: bs := by
  cases hc : c.rest with
  | nil => simp [Cursor.startsWith, hc] at h
  | cons d ds => exact ⟨ds, by simpa [Cursor.startsWith, hc] using h⟩

theorem next_of_rest {c : Cursor} {b : UInt8} {bs : Bytes} (h : c.rest = b :: bs) :
    c.next = ⟨bs, c.position + 1⟩ := by
  obtain ⟨rest, p⟩ := c
  simp only at h
  rw [h, Cursor.next_cons]

theorem whole_of_scanWhole {c stop : Cursor} (h : scanWhole c = (.ok (), stop)) :
    ∃ w, Whole w ∧ c.rest = w ++ stop.rest ∧ stop.position = c.position + w.length := by
  rw [scanWhole] at h
  split at h
  · rename_i hz
    obtain ⟨bs, hbs⟩ := startsWith_eq_true hz
    simp only [Prod.mk.injEq, true_and, next_of_rest hbs] at h
    subst h
    exact ⟨_, .zero, by simp [hbs]⟩
  · rename_i hz
    obtain ⟨ds, hds, hrest, hpos⟩ := digits_of_scanDigits h
    refine ⟨ds, .digits hds ?_, hrest, hpos⟩
    rintro hhead
    apply hz
    cases ds with
    | nil => simp at hhead
    | cons d ds => simpa [Cursor.startsWith, hrest] using hhead

theorem scanFraction_fraction {f rest : Bytes} {b : Bool} (h : Fraction f b) (hr : NoDigit rest)
    (hp : b = false → rest.head? ≠ some (byte '.')) (p : Nat) :
    scanFraction ⟨f ++ rest, p⟩ = (.ok b, ⟨rest, p + f.length⟩) := by
  cases h with
  | none =>
    have hs : Cursor.startsWith (byte '.') ⟨rest, p⟩ = false := by
      simpa [Cursor.startsWith] using hp rfl
    simp [scanFraction, hs]
  | @some ds hd =>
    have hs : Cursor.startsWith (byte '.') ⟨byte '.' :: ds ++ rest, p⟩ = true := by
      simp [Cursor.startsWith]
    rw [scanFraction, hs, List.cons_append, Cursor.next_cons, scanDigits_digits _ hd hr]
    simp [Nat.add_assoc, Nat.add_comm 1]

theorem fraction_of_scanFraction {c stop : Cursor} {b : Bool}
    (h : scanFraction c = (.ok b, stop)) :
    ∃ f, Fraction f b ∧ c.rest = f ++ stop.rest ∧ stop.position = c.position + f.length := by
  rw [scanFraction] at h
  split at h
  · rename_i hs
    obtain ⟨bs, hbs⟩ := startsWith_eq_true hs
    split at h
    · rename_i stop' hscan
      simp only [Prod.mk.injEq, Except.ok.injEq] at h
      obtain ⟨rfl, rfl⟩ := h
      rw [next_of_rest hbs] at hscan
      obtain ⟨ds, hds, hrest, hpos⟩ := digits_of_scanDigits hscan
      refine ⟨byte '.' :: ds, .some hds, by simpa [hbs] using hrest, ?_⟩
      simp only [hpos, List.length_cons]
      omega
    · simp at h
  · simp only [Prod.mk.injEq, Except.ok.injEq] at h
    obtain ⟨rfl, rfl⟩ := h
    exact ⟨[], .none, by simp⟩

theorem scanExponent_exponent {e rest : Bytes} {b : Bool} (h : Exponent e b) (hr : NoDigit rest)
    (hp : b = false → rest.head? ≠ some (byte 'e') ∧ rest.head? ≠ some (byte 'E')) (p : Nat) :
    scanExponent ⟨e ++ rest, p⟩ = (.ok b, ⟨rest, p + e.length⟩) := by
  cases h with
  | none =>
    obtain ⟨h1, h2⟩ := hp rfl
    have hs : (Cursor.startsWith (byte 'e') ⟨rest, p⟩ || Cursor.startsWith (byte 'E') ⟨rest, p⟩) =
        false := by simp [Cursor.startsWith, h1, h2]
    simp [scanExponent, hs]
  | @some m sign ds hm hsign hd =>
    have hs : (Cursor.startsWith (byte 'e') ⟨m :: (sign ++ ds ++ rest), p⟩ ||
        Cursor.startsWith (byte 'E') ⟨m :: (sign ++ ds ++ rest), p⟩) = true := by
      rcases hm with rfl | rfl <;> simp [Cursor.startsWith]
    have hpm : ¬(isDigitByte (byte '+') = true) ∧ ¬(isDigitByte (byte '-') = true) := by decide
    rw [show (m :: sign ++ ds) ++ rest = m :: (sign ++ ds ++ rest) by simp]
    rw [scanExponent, if_pos hs, Cursor.next_cons]
    rcases hsign with rfl | rfl | rfl
    · have hn : (Cursor.startsWith (byte '+') ⟨ds ++ rest, p + 1⟩ ||
          Cursor.startsWith (byte '-') ⟨ds ++ rest, p + 1⟩) = false := by
        obtain ⟨hne, hall⟩ := hd
        cases ds with
        | nil => exact absurd rfl hne
        | cons d ds =>
          have hdig := hall d (by simp)
          simp only [Cursor.startsWith, List.cons_append, List.head?_cons, Option.some_beq_some,
            Bool.or_eq_false_iff, beq_eq_false_iff_ne]
          exact ⟨fun he => hpm.1 (he ▸ hdig), fun he => hpm.2 (he ▸ hdig)⟩
      simp only [List.nil_append, hn, Bool.false_eq_true, ↓reduceIte, scanDigits_digits _ hd hr]
      simp [Nat.add_comm, Nat.add_left_comm]
    all_goals
      simp only [Cursor.startsWith, List.cons_append, List.nil_append, List.head?_cons, beq_self_eq_true,
        Bool.true_or, Bool.or_true, ↓reduceIte, Cursor.next_cons, scanDigits_digits _ hd hr]
      simp [Nat.add_comm, Nat.add_left_comm]

theorem exponent_of_scanExponent {c stop : Cursor} {b : Bool}
    (h : scanExponent c = (.ok b, stop)) :
    ∃ e, Exponent e b ∧ c.rest = e ++ stop.rest ∧ stop.position = c.position + e.length := by
  rw [scanExponent] at h
  split at h
  · rename_i hs
    obtain ⟨m, hm, bs, hbs⟩ : ∃ m, (m = byte 'e' ∨ m = byte 'E') ∧ ∃ bs, c.rest = m :: bs := by
      rcases Bool.or_eq_true_iff.1 hs with hs | hs
      · exact ⟨_, .inl rfl, startsWith_eq_true hs⟩
      · exact ⟨_, .inr rfl, startsWith_eq_true hs⟩
    rw [next_of_rest hbs] at h
    simp only at h
    split at h
    · rename_i stop' hscan
      simp only [Prod.mk.injEq, Except.ok.injEq] at h
      obtain ⟨rfl, rfl⟩ := h
      obtain ⟨sign, hsign, ds, hds, hrest, hpos⟩ : ∃ sign, (sign = [] ∨ sign = [byte '+'] ∨
          sign = [byte '-']) ∧ ∃ ds, Digits ds ∧ bs = sign ++ ds ++ stop'.rest ∧
            stop'.position = c.position + 1 + (sign ++ ds).length := by
        split at hscan
        · rename_i hpm
          obtain ⟨s, hs', ds', hds'⟩ : ∃ s, ([s] = ([] : Bytes) ∨ [s] = [byte '+'] ∨
              [s] = [byte '-']) ∧ ∃ ds', bs = s :: ds' := by
            rcases Bool.or_eq_true_iff.1 hpm with hpm | hpm
            · exact ⟨_, .inr (.inl rfl), startsWith_eq_true hpm⟩
            · exact ⟨_, .inr (.inr rfl), startsWith_eq_true hpm⟩
          rw [hds', Cursor.next_cons] at hscan
          obtain ⟨ds, hds, hrest, hpos⟩ := digits_of_scanDigits hscan
          refine ⟨[s], hs', ds, hds, by simpa [hds'] using hrest, ?_⟩
          simp only [hpos, List.length_append, List.length_cons, List.length_nil]
          omega
        · obtain ⟨ds, hds, hrest, hpos⟩ := digits_of_scanDigits hscan
          exact ⟨[], .inl rfl, ds, hds, hrest, hpos⟩
      refine ⟨m :: sign ++ ds, .some hm hsign hds, by simp [hbs, hrest], ?_⟩
      simp only [hpos, List.length_append, List.length_cons]
      omega
    · simp at h
  · simp only [Prod.mk.injEq, Except.ok.injEq] at h
    obtain ⟨rfl, rfl⟩ := h
    exact ⟨[], .none, by simp⟩

/-! ### Whole numbers -/

theorem Exponent.head {e rest : Bytes} {b : Bool} (h : Exponent e b) (hr : Stops rest) :
    ∀ c ∈ (e ++ rest).head?, isDigitByte c = false ∧ c ≠ byte '.' := by
  intro c hc
  cases h with
  | none => exact ⟨(hr c hc).1, (hr c hc).2.1⟩
  | some hm hs hd =>
    simp only [List.cons_append, List.head?_cons, Option.mem_def, Option.some.injEq] at hc
    subst hc
    rcases hm with rfl | rfl <;> decide

theorem Fraction.head {f rest : Bytes} {b : Bool} (h : Fraction f b)
    (hr : ∀ c ∈ rest.head?, isDigitByte c = false) : NoDigit (f ++ rest) := by
  cases h with
  | none => exact hr
  | some hd =>
    intro c hc
    simp only [List.cons_append, List.head?_cons, Option.mem_def, Option.some.injEq] at hc
    subst hc
    decide

theorem Whole.head {w : Bytes} (h : Whole w) : ∃ b bs, w = b :: bs ∧ isDigitByte b = true := by
  cases h with
  | zero => exact ⟨_, [], rfl, by decide⟩
  | digits hd _ =>
    obtain ⟨hne, hall⟩ := hd
    cases w with
    | nil => exact absurd rfl hne
    | cons b bs => exact ⟨b, bs, rfl, hall b (by simp)⟩

theorem Figure.head {t : Bytes} {b : Bool} (h : Figure t b) :
    ∃ d ds, t = d :: ds ∧ (d = byte '-' ∨ isDigitByte d = true) := by
  cases h with
  | make hs hw hf he =>
    rcases hs with rfl | rfl
    · obtain ⟨d, ds, rfl, hd⟩ := hw.head
      exact ⟨d, _, rfl, .inr hd⟩
    · exact ⟨_, _, rfl, .inl rfl⟩

theorem Cursor.since_append (t rest : Bytes) (p : Nat) :
    Cursor.since ⟨rest, p + t.length⟩ ⟨t ++ rest, p⟩ = t := by
  simp [Cursor.since]

/-- The scanner reads every number that is written so, if nothing that could belong to it follows. -/
theorem scanNumber_figure {t rest : Bytes} {b : Bool} (h : Figure t b) (hr : Stops rest) (p : Nat) :
    scanNumber ⟨t ++ rest, p⟩ =
      (.ok (String.ofList (t.map charOfByte), b), ⟨rest, p + t.length⟩) := by
  cases h with
  | @make sign w f e hasFrac hasExp hs hw hf he =>
    have hsign : (if Cursor.startsWith (byte '-') ⟨sign ++ (w ++ (f ++ e)) ++ rest, p⟩ then
        Cursor.next ⟨sign ++ (w ++ (f ++ e)) ++ rest, p⟩
        else ⟨sign ++ (w ++ (f ++ e)) ++ rest, p⟩) =
          ⟨w ++ (f ++ (e ++ rest)), p + sign.length⟩ := by
      rcases hs with rfl | rfl
      · obtain ⟨d, ds, rfl, hd⟩ := hw.head
        have hne : d ≠ byte '-' := by
          rintro rfl
          revert hd
          decide
        simp [Cursor.startsWith, hne]
      · simp [Cursor.startsWith, Cursor.next_cons]
    have hexp := he.head hr
    have hwhole := scanWhole_whole hw (hf.head fun c hc => (hexp c hc).1) (p + sign.length)
    have hfrac := scanFraction_fraction hf (fun c hc => (hexp c hc).1)
      (fun _ hc => (hexp _ hc).2 rfl) (p + sign.length + w.length)
    have hexpo := scanExponent_exponent he hr.noDigit
      (fun _ => ⟨fun hc => (hr _ hc).2.2.1 rfl, fun hc => (hr _ hc).2.2.2 rfl⟩)
      (p + sign.length + w.length + f.length)
    have hsince := Cursor.since_append (sign ++ (w ++ (f ++ e))) rest p
    have hlen : p + (sign ++ (w ++ (f ++ e))).length =
        p + sign.length + w.length + f.length + e.length := by simp; omega
    rw [hlen] at hsince ⊢
    simp only [scanNumber, hsign, hwhole, hfrac, hexpo, hsince]

theorem figure_of_scanNumber {c stop : Cursor} {s : String} {b : Bool}
    (h : scanNumber c = (.ok (s, b), stop)) :
    ∃ t, Figure t b ∧ c.rest = t ++ stop.rest ∧ stop.position = c.position + t.length ∧
      s = String.ofList (t.map charOfByte) := by
  obtain ⟨rest, p⟩ := c
  obtain ⟨sign, hs, rest', hrest, hsigned⟩ : ∃ sign, (sign = [] ∨ sign = [byte '-']) ∧ ∃ rest',
      rest = sign ++ rest' ∧ (if Cursor.startsWith (byte '-') ⟨rest, p⟩ then
        Cursor.next ⟨rest, p⟩ else ⟨rest, p⟩) = ⟨rest', p + sign.length⟩ := by
    by_cases hm : Cursor.startsWith (byte '-') ⟨rest, p⟩ = true
    · obtain ⟨bs, hbs⟩ := startsWith_eq_true hm
      simp only at hbs
      subst hbs
      exact ⟨[byte '-'], .inr rfl, bs, rfl, by simp [hm, Cursor.next_cons]⟩
    · exact ⟨[], .inl rfl, rest, rfl, by simp [hm]⟩
  rw [scanNumber] at h
  simp only [hsigned] at h
  split at h
  · simp at h
  · rename_i stop1 hwhole
    split at h
    · simp at h
    · rename_i hasFrac stop2 hfrac
      split at h
      · simp at h
      · rename_i hasExp stop3 hexp
        simp only [Prod.mk.injEq, Except.ok.injEq] at h
        obtain ⟨⟨rfl, rfl⟩, rfl⟩ := h
        obtain ⟨w, hw, hwr, hwp⟩ := whole_of_scanWhole hwhole
        obtain ⟨f, hf, hfr, hfp⟩ := fraction_of_scanFraction hfrac
        obtain ⟨e, he, her, hep⟩ := exponent_of_scanExponent hexp
        simp only at hwr hwp
        have htext : rest = (sign ++ (w ++ (f ++ e))) ++ stop3.rest := by
          simp [hrest, hwr, hfr, her]
        have hpos : stop3.position = p + (sign ++ (w ++ (f ++ e))).length := by
          simp only [hep, hfp, hwp, List.length_append]
          omega
        refine ⟨_, .make hs hw hf he, htext, hpos, ?_⟩
        obtain ⟨srest, spos⟩ := stop3
        simp only at hpos htext
        rw [hpos, htext, Cursor.since_append]

end Quarry.Json
