import Quarry.Json.Printer
import Quarry.Proofs.Json.Numbers
import Quarry.Proofs.Numeral.Digits
import Quarry.Proofs.Numeral.Shortest
import Quarry.Proofs.Text.Encoding

/-!
Numbers as they are printed are numbers for the scanner.
-/

namespace Quarry.Json

open Text Numeral

/-- A number in characters. -/
structure Written (cs : List Char) (isInteger : Bool) : Prop where
  ascii : ∀ c ∈ cs, c.toNat < 128
  figure : Figure (cs.map byte) isInteger

def IsDigits (cs : List Char) : Prop := ∀ c ∈ cs, c.isDigit = true

theorem isDigit_iff {c : Char} : c.isDigit = true ↔ 48 ≤ c.toNat ∧ c.toNat ≤ 57 := by
  rw [Char.isDigit, Bool.and_eq_true, decide_eq_true_iff, decide_eq_true_iff]
  exact Iff.rfl

theorem ascii_of_isDigit {c : Char} (h : c.isDigit = true) : c.toNat < 128 := by
  have hn := isDigit_iff.1 h
  omega

theorem isDigitByte_byte {c : Char} (h : c.isDigit = true) : isDigitByte (byte c) = true := by
  have hn := isDigit_iff.1 h
  have hb := toNat_byte (ascii_of_isDigit h)
  have h0 : (byte '0').toNat = 48 := rfl
  have h9 : (byte '9').toNat = 57 := rfl
  simp only [isDigitByte, Bool.and_eq_true, decide_eq_true_eq, UInt8.le_iff_toNat_le]
  omega

theorem IsDigits.append {cs ds : List Char} (h : IsDigits cs) (h' : IsDigits ds) :
    IsDigits (cs ++ ds) := by
  intro c hc
  rcases List.mem_append.1 hc with hc | hc
  · exact h c hc
  · exact h' c hc

theorem IsDigits.zeros (n : Nat) : IsDigits (List.replicate n '0') := by
  intro c hc
  rw [List.eq_of_mem_replicate hc]
  rfl

theorem IsDigits.digits {cs : List Char} (h : IsDigits cs) (hne : cs ≠ []) :
    Digits (cs.map byte) := by
  refine ⟨by simpa using hne, fun b hb => ?_⟩
  obtain ⟨c, hc, rfl⟩ := List.mem_map.1 hb
  exact isDigitByte_byte (h c hc)

theorem IsDigits.whole {cs : List Char} (h : IsDigits cs) (hne : cs ≠ [])
    (hz : cs.head? ≠ some '0') : Whole (cs.map byte) := by
  refine .digits (h.digits hne) fun hb => hz ?_
  rw [List.head?_map] at hb
  obtain ⟨c, hc, heq⟩ := Option.map_eq_some_iff.1 hb
  have hdigit := h c (List.mem_of_mem_head? hc)
  rw [hc, (byte_inj (ascii_of_isDigit hdigit) (by decide)).1 heq]

/-! ### Integers -/

theorem isDigits_toDigits (n : Nat) : IsDigits (Nat.toDigits 10 n) := isDigit_toDigits n

theorem whole_toDigits (n : Nat) : Whole ((Nat.toDigits 10 n).map byte) := by
  rcases Nat.eq_zero_or_pos n with rfl | h
  · exact .zero
  · exact (isDigits_toDigits n).whole Nat.toDigits_ne_nil (head_toDigits h)

theorem ascii_digits {cs : List Char} (h : IsDigits cs) : ∀ c ∈ cs, c.toNat < 128 :=
  fun c hc => ascii_of_isDigit (h c hc)

/-- An unsigned number in characters. -/
structure Unsigned (cs : List Char) (isInteger : Bool) : Prop where
  ascii : ∀ c ∈ cs, c.toNat < 128
  parts : ∃ whole frac exp hasFrac hasExp, cs.map byte = whole ++ (frac ++ exp) ∧ Whole whole ∧
    Fraction frac hasFrac ∧ Exponent exp hasExp ∧ isInteger = (!hasFrac && !hasExp)

theorem Unsigned.written {cs : List Char} {b : Bool} (h : Unsigned cs b) : Written cs b := by
  obtain ⟨whole, frac, exp, hasFrac, hasExp, htext, hw, hf, he, rfl⟩ := h.parts
  refine ⟨h.ascii, ?_⟩
  rw [htext]
  exact Figure.make (.inl rfl) hw hf he

theorem Unsigned.negative {cs : List Char} {b : Bool} (h : Unsigned cs b) :
    Written ('-' :: cs) b := by
  obtain ⟨whole, frac, exp, hasFrac, hasExp, htext, hw, hf, he, rfl⟩ := h.parts
  refine ⟨?_, ?_⟩
  · intro c hc
    rcases List.mem_cons.1 hc with rfl | hc
    · decide
    · exact h.ascii c hc
  · rw [List.map_cons, htext]
    exact Figure.make (.inr rfl) hw hf he

theorem unsigned_toDigits (n : Nat) : Unsigned (Nat.toDigits 10 n) true :=
  ⟨ascii_digits (isDigits_toDigits n),
    _, [], [], false, false, by simp, whole_toDigits n, .none, .none, rfl⟩

theorem written_int (z : Int) : Written (toString z).toList true := by
  cases z with
  | ofNat n =>
    rw [toList_toString_ofNat]
    exact (unsigned_toDigits n).written
  | negSucc n =>
    rw [toList_toString_negSucc]
    exact (unsigned_toDigits (n + 1)).negative

/-! ### Floating point -/

theorem unsigned_fraction {cs ds : List Char} (hc : IsDigits cs) (hw : Whole (cs.map byte))
    (hd : IsDigits ds) (hne : ds ≠ []) : Unsigned (cs ++ '.' :: ds) false := by
  refine ⟨?_, cs.map byte, (byte '.' :: ds.map byte), [], true, false, by simp, hw,
    .some (hd.digits hne), .none, rfl⟩
  intro c hmem
  rcases List.mem_append.1 hmem with hmem | hmem
  · exact ascii_digits hc c hmem
  · rcases List.mem_cons.1 hmem with rfl | hmem
    · decide
    · exact ascii_digits hd c hmem

theorem exponent_text (l : Layout) (e : Int) :
    ∃ sign ds, (l.exponent e).toList = 'e' :: (sign ++ ds) ∧
      (sign = [] ∨ sign = ['+'] ∨ sign = ['-']) ∧ IsDigits ds ∧ ds ≠ [] := by
  have htext (p : String) (z : Int) : (toString p ++ toString z).toList =
      p.toList ++ (toString z).toList := String.toList_append
  rw [Layout.exponent]
  split
  · rename_i h
    simp only [Bool.and_eq_true, decide_eq_true_eq] at h
    obtain ⟨n, rfl⟩ := Int.eq_ofNat_of_zero_le h.1
    refine ⟨['+'], Nat.toDigits 10 n, ?_, .inr (.inl rfl), isDigits_toDigits n,
      Nat.toDigits_ne_nil⟩
    rw [htext, ← toList_toString_ofNat]
    rfl
  · cases e with
    | ofNat n =>
      refine ⟨[], Nat.toDigits 10 n, ?_, .inl rfl, isDigits_toDigits n, Nat.toDigits_ne_nil⟩
      rw [htext, ← toList_toString_ofNat]
      rfl
    | negSucc n =>
      refine ⟨['-'], Nat.toDigits 10 (n + 1), ?_, .inr (.inr rfl), isDigits_toDigits (n + 1),
        Nat.toDigits_ne_nil⟩
      rw [htext, toList_toString_negSucc]
      rfl

theorem exponent_exponent (l : Layout) (e : Int) :
    Exponent ((l.exponent e).toList.map byte) true ∧ ∀ c ∈ (l.exponent e).toList, c.toNat < 128 := by
  obtain ⟨sign, ds, htext, hsign, hds, hne⟩ := exponent_text l e
  rw [htext]
  constructor
  · rw [List.map_cons, List.map_append]
    refine .some (.inl rfl) ?_ (hds.digits hne)
    rcases hsign with rfl | rfl | rfl
    · exact .inl rfl
    · exact .inr (.inl rfl)
    · exact .inr (.inr rfl)
  · intro c hc
    rcases List.mem_cons.1 hc with rfl | hc
    · decide
    · rcases List.mem_append.1 hc with hc | hc
      · rcases hsign with rfl | rfl | rfl
        · simp at hc
        · obtain rfl := List.mem_singleton.1 hc
          decide
        · obtain rfl := List.mem_singleton.1 hc
          decide
      · exact ascii_digits hds c hc

theorem unsigned_place (l : Layout) {ds : List Char} (hd : IsDigits ds) (hne : ds ≠ [])
    (hz : ds.head? ≠ some '0') (k : Int) : Unsigned (l.place ds k).toList false := by
  have htake (n : Nat) : IsDigits (ds.take n) := fun c hc => hd c (List.mem_of_mem_take hc)
  have hdrop (n : Nat) : IsDigits (ds.drop n) := fun c hc => hd c (List.mem_of_mem_drop hc)
  obtain ⟨d, rest, rfl⟩ := List.exists_cons_of_ne_nil hne
  have hhead {n : Nat} (hn : n ≠ 0) (zs : List Char) :
      (d :: rest).take n ++ zs ≠ [] ∧ ((d :: rest).take n ++ zs).head? ≠ some '0' := by
    obtain ⟨m, rfl⟩ := Nat.exists_eq_succ_of_ne_zero hn
    exact ⟨by simp, by simpa using hz⟩
  rw [Layout.place]
  split
  · split
    · rw [String.toList_ofList, List.append_assoc]
      have hzeros := (IsDigits.zeros (-k).toNat).append hd
      exact unsigned_fraction (IsDigits.zeros 1) .zero hzeros (by simp)
    · rename_i hk
      rw [String.toList_ofList]
      have hwhole := (htake k.toNat).append (IsDigits.zeros (k.toNat - (d :: rest).length))
      obtain ⟨hwne, hwz⟩ := hhead (n := k.toNat) (by omega)
        (List.replicate (k.toNat - (d :: rest).length) '0')
      refine unsigned_fraction hwhole (hwhole.whole hwne hwz) ?_ ?_
      · split
        · exact IsDigits.zeros 1
        · exact hdrop k.toNat
      · split
        · simp
        · rename_i hlen
          simpa using hlen
  · obtain ⟨he, hascii⟩ := exponent_exponent l (k - 1)
    have hwhole : Whole ([d].map byte) := by
      refine IsDigits.whole (fun c hc => hd c ?_) (by simp) (by simpa using hz)
      obtain rfl := List.mem_singleton.1 hc
      exact List.mem_cons_self
    rw [String.toList_append, String.toList_ofList]
    by_cases hrest : rest = []
    · subst hrest
      refine ⟨?_, [d].map byte, [], _, false, true, by simp, hwhole, .none, he, rfl⟩
      intro c hc
      rcases List.mem_append.1 hc with hc | hc
      · exact ascii_digits hd c (by simpa using hc)
      · exact hascii c hc
    · have hlen : (d :: rest).length ≠ 1 := by simpa using hrest
      have hdrest : IsDigits rest := fun c hc => hd c (List.mem_cons_of_mem d hc)
      refine ⟨?_, [d].map byte, byte '.' :: rest.map byte, _, true, true, by simp [hrest], hwhole,
        .some (hdrest.digits hrest), he, rfl⟩
      intro c hc
      rcases List.mem_append.1 hc with hc | hc
      · simp only [if_neg hlen, List.take_succ_cons, List.take_zero, List.drop_succ_cons,
          List.drop_zero, List.mem_append, List.mem_singleton] at hc
        rcases hc with (rfl | rfl) | hc
        · exact ascii_digits hd _ List.mem_cons_self
        · decide
        · exact ascii_digits hdrest c hc
      · exact hascii c hc

theorem unsigned_magnitude (l : Layout) (x : Numeral.Dyadic) : Unsigned (l.magnitude x).toList false := by
  rw [Layout.magnitude]
  split
  · exact unsigned_fraction (IsDigits.zeros 1) .zero (IsDigits.zeros 1) (by simp)
  · rename_i h
    exact unsigned_place l (isDigits_toDigits _) Nat.toDigits_ne_nil
      (head_toDigits (shortest_pos l.tie h)) _

theorem written_finite (l : Layout) (x : Float) : Written (l.finite x).toList false := by
  have hmag := unsigned_magnitude l (Numeral.Dyadic.ofFloat x)
  rw [Layout.finite, String.toList_append]
  split
  · exact hmag.negative
  · exact hmag.written

/-! ### The parts of a number in characters -/

/-- A point and digits, unless there is no fraction. -/
inductive PointDigits : List Char → Bool → Prop
  | none : PointDigits [] false
  | some {ds : List Char} (h : IsDigits ds) (hne : ds ≠ []) : PointDigits ('.' :: ds) true

/-- A letter and digits that may have a sign, unless there is no exponent. -/
inductive LetterDigits : List Char → Bool → Prop
  | none : LetterDigits [] false
  | some {e : Char} {sign ds : List Char} (he : e = 'e' ∨ e = 'E')
      (hs : sign = [] ∨ sign = ['+'] ∨ sign = ['-']) (h : IsDigits ds) (hne : ds ≠ []) :
      LetterDigits (e :: (sign ++ ds)) true

theorem isDigits_of_digits {ds : List Char} (ha : ∀ c ∈ ds, c.toNat < 128)
    (h : Digits (ds.map byte)) : IsDigits ds ∧ ds ≠ [] := by
  refine ⟨fun c hc => ?_, fun hnil => h.1 (by rw [hnil]; rfl)⟩
  have hb := h.2 _ (List.mem_map_of_mem hc)
  have hn := toNat_byte (ha c hc)
  simp only [isDigitByte, Bool.and_eq_true, decide_eq_true_eq, UInt8.le_iff_toNat_le] at hb
  rw [hn] at hb
  exact isDigit_iff.2 hb

theorem cons_of_map {cs : List Char} {d : Char} {bs : Bytes} (hd : d.toNat < 128)
    (ha : ∀ c ∈ cs, c.toNat < 128) (h : cs.map byte = byte d :: bs) :
    ∃ ds, cs = d :: ds ∧ ds.map byte = bs := by
  obtain ⟨c, ds, rfl, hc, hds⟩ := List.map_eq_cons_iff.1 h
  exact ⟨ds, by rw [(byte_inj (ha c List.mem_cons_self) hd).1 hc], hds⟩

theorem isDigits_of_whole {ws : List Char} (ha : ∀ c ∈ ws, c.toNat < 128)
    (h : Whole (ws.map byte)) :
    IsDigits ws ∧ ws ≠ [] ∧ (ws = ['0'] ∨ ws.head? ≠ some '0') := by
  generalize hbs : ws.map byte = bs at h
  cases h with
  | zero =>
    obtain ⟨ds, rfl, hnil⟩ := cons_of_map (by decide) ha hbs
    rw [List.map_eq_nil_iff.1 hnil]
    exact ⟨IsDigits.zeros 1, List.cons_ne_nil _ _, .inl rfl⟩
  | digits h hz =>
    subst hbs
    obtain ⟨hds, hne⟩ := isDigits_of_digits ha h
    refine ⟨hds, hne, .inr fun hhead => hz ?_⟩
    rw [List.head?_map, hhead, Option.map_some]

theorem pointDigits_of_fraction {fs : List Char} {b : Bool} (ha : ∀ c ∈ fs, c.toNat < 128)
    (h : Fraction (fs.map byte) b) : PointDigits fs b := by
  generalize hbs : fs.map byte = bs at h
  cases h with
  | none =>
    rw [List.map_eq_nil_iff.1 hbs]
    exact .none
  | some h =>
    obtain ⟨ds, rfl, rfl⟩ := cons_of_map (by decide) ha hbs
    obtain ⟨hds, hne⟩ := isDigits_of_digits (fun c hc => ha c (List.mem_cons_of_mem _ hc)) h
    exact .some hds hne

theorem letterDigits_of_exponent {es : List Char} {b : Bool} (ha : ∀ c ∈ es, c.toNat < 128)
    (h : Exponent (es.map byte) b) : LetterDigits es b := by
  generalize hbs : es.map byte = bs at h
  cases h with
  | none =>
    rw [List.map_eq_nil_iff.1 hbs]
    exact .none
  | @some m sign ds hm hs h =>
    obtain ⟨e, hbyte, hletter⟩ : ∃ e, m = byte e ∧ (e = 'e' ∨ e = 'E') := by
      rcases hm with rfl | rfl
      · exact ⟨_, rfl, .inl rfl⟩
      · exact ⟨_, rfl, .inr rfl⟩
    have hascii : e.toNat < 128 := by
      rcases hletter with rfl | rfl <;> decide
    rw [hbyte, List.cons_append] at hbs
    obtain ⟨rest, rfl, hrest⟩ := cons_of_map hascii ha hbs
    obtain ⟨ss, us, rfl, rfl, rfl⟩ := List.map_eq_append_iff.1 hrest
    simp only [List.forall_mem_cons, List.forall_mem_append] at ha
    obtain ⟨hds, hne⟩ := isDigits_of_digits ha.2.2 h
    have hone {c : Char} (hc : c.toNat < 128) (h : ss.map byte = [byte c]) : ss = [c] := by
      obtain ⟨ds, rfl, hnil⟩ := cons_of_map hc ha.2.1 h
      rw [List.map_eq_nil_iff.1 hnil]
    refine .some hletter ?_ hds hne
    rcases hs with hs | hs | hs
    · exact .inl (List.map_eq_nil_iff.1 hs)
    · exact .inr (.inl (hone (by decide) hs))
    · exact .inr (.inr (hone (by decide) hs))

theorem Unsigned.chars {cs : List Char} {b : Bool} (h : Unsigned cs b) :
    ∃ ws fs es hasFrac hasExp, cs = ws ++ (fs ++ es) ∧
      (IsDigits ws ∧ ws ≠ [] ∧ (ws = ['0'] ∨ ws.head? ≠ some '0')) ∧ PointDigits fs hasFrac ∧
      LetterDigits es hasExp ∧ b = (!hasFrac && !hasExp) := by
  obtain ⟨whole, frac, exp, hasFrac, hasExp, htext, hw, hf, he, hb⟩ := h.parts
  obtain ⟨ws, l, rfl, rfl, hl⟩ := List.map_eq_append_iff.1 htext
  obtain ⟨fs, es, rfl, rfl, rfl⟩ := List.map_eq_append_iff.1 hl
  have ha := h.ascii
  simp only [List.forall_mem_append] at ha
  exact ⟨ws, fs, es, hasFrac, hasExp, rfl, isDigits_of_whole ha.1 hw,
    pointDigits_of_fraction ha.2.1 hf, letterDigits_of_exponent ha.2.2 he, hb⟩

theorem Unsigned.head?_isDigit {cs : List Char} {b : Bool} (h : Unsigned cs b) :
    ∃ c, cs.head? = some c ∧ c.isDigit = true := by
  obtain ⟨ws, fs, es, -, -, rfl, ⟨hws, hne, -⟩, -⟩ := h.chars
  obtain ⟨w, ws, rfl⟩ := List.exists_cons_of_ne_nil hne
  exact ⟨w, rfl, hws w List.mem_cons_self⟩

end Quarry.Json
