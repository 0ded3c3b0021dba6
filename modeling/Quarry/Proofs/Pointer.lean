import Quarry.Proofs.Text.Encoding
import Quarry.Proofs.Text.Tokens

/-!
Every list of tokens has exactly one text that is read as this list. Reading undoes the escapes of a
token in one pass; two passes that replace one escape after the other come to the same, as long as
the escapes are checked beforehand.
-/

namespace Quarry

/-- Every `a` stands before a `b` or a `c`. -/
def Followed {α : Type} (a b c : α) (xs : List α) : Prop :=
  ∀ i : Nat, xs[i]? = some a → xs[i + 1]? = some b ∨ xs[i + 1]? = some c

section

variable {α : Type} {a b c x : α} {xs ys : List α}

theorem followed_nil : Followed a b c [] := nofun

theorem followed_cons : Followed a b c (x :: xs) ↔
    (x = a → xs.head? = some b ∨ xs.head? = some c) ∧ Followed a b c xs := by
  rw [List.head?_eq_getElem?]
  constructor
  · intro h
    refine ⟨fun hx => h 0 (congrArg some hx), fun i hi => h (i + 1) hi⟩
  · rintro ⟨hx, hxs⟩ i hi
    cases i with
    | zero => exact hx (Option.some.inj hi)
    | succ i => exact hxs i hi

theorem followed_cons_of_ne (hx : x ≠ a) : Followed a b c (x :: xs) ↔ Followed a b c xs := by
  rw [followed_cons]
  exact and_iff_right fun h => absurd h hx

theorem followed_append (h : a ∉ ys) : Followed a b c (ys ++ xs) ↔ Followed a b c xs := by
  induction ys with
  | nil => rfl
  | cons y ys ih =>
    rw [List.mem_cons, not_or] at h
    rw [List.cons_append, followed_cons_of_ne (Ne.symm h.1), ih h.2]

/-- Nothing is followed by what stands behind another character. -/
theorem followed_append_cons (ha : x ≠ a) (hb : x ≠ b) (hc : x ≠ c) :
    Followed a b c (ys ++ x :: xs) ↔ Followed a b c ys ∧ Followed a b c xs := by
  induction ys with
  | nil => rw [List.nil_append, followed_cons_of_ne ha, and_iff_right followed_nil]
  | cons y ys ih =>
    have hhead : (ys ++ x :: xs).head? = some b ∨ (ys ++ x :: xs).head? = some c ↔
        ys.head? = some b ∨ ys.head? = some c := by
      cases ys <;> simp [hb, hc]
    rw [List.cons_append, followed_cons, followed_cons, ih, hhead, and_assoc]

theorem followed_flatMap (ha : x ≠ a) (hb : x ≠ b) (hc : x ≠ c) (yss : List (List α)) :
    Followed a b c (yss.flatMap fun ys => x :: ys) ↔ ∀ ys ∈ yss, Followed a b c ys := by
  induction yss with
  | nil => simp [followed_nil]
  | cons ys yss ih =>
    cases yss with
    | nil => simp [followed_cons_of_ne ha]
    | cons zs zss =>
      rw [List.flatMap_cons, List.cons_append, followed_cons_of_ne ha, List.flatMap_cons,
        List.cons_append, followed_append_cons ha hb hc, List.forall_mem_cons, ← ih,
        List.flatMap_cons, List.cons_append, followed_cons_of_ne ha]

end

namespace Text

theorem split_append {sep : Char} {p : List Char} (h : sep ∉ p) (cs : List Char) :
    split sep (p ++ sep :: cs) = p :: split sep cs := by
  induction p with
  | nil => rw [List.nil_append, split, if_pos rfl]
  | cons c p ih =>
    rw [List.mem_cons, not_or] at h
    rw [List.cons_append, split, if_neg (Ne.symm h.1), ih h.2]

theorem split_of_not_mem {sep : Char} {p : List Char} (h : sep ∉ p) : split sep p = [p] := by
  induction p with
  | nil => rfl
  | cons c p ih =>
    rw [List.mem_cons, not_or] at h
    rw [split, if_neg (Ne.symm h.1), ih h.2]

theorem split_glue {sep : Char} {ps : List (List Char)} (hne : ps ≠ []) (h : ∀ p ∈ ps, sep ∉ p) :
    split sep (glue sep ps) = ps := by
  induction ps with
  | nil => exact absurd rfl hne
  | cons p ps ih =>
    obtain ⟨hp, hps⟩ := List.forall_mem_cons.1 h
    cases ps with
    | nil => exact split_of_not_mem hp
    | cons q ps => rw [glue, split_append hp, ih (List.cons_ne_nil q ps) hps]

/-- Replaces one character before another by a single one, from the left. -/
def replacePair (a b c : Char) : List Char → List Char
  | x :: y :: cs =>
    if x = a ∧ y = b then c :: replacePair a b c cs else x :: replacePair a b c (y :: cs)
  | cs => cs

theorem replacePair_cons {a x : Char} (h : x ≠ a) (b c : Char) (cs : List Char) :
    replacePair a b c (x :: cs) = x :: replacePair a b c cs := by
  cases cs with
  | nil => rfl
  | cons y cs => rw [replacePair, if_neg fun h' => h h'.1]

theorem replacePair_pair (a b c : Char) (cs : List Char) :
    replacePair a b c (a :: b :: cs) = c :: replacePair a b c cs := by
  rw [replacePair, if_pos ⟨rfl, rfl⟩]

theorem replacePair_skip {b y : Char} (h : y ≠ b) (a c : Char) (cs : List Char) :
    replacePair a b c (a :: y :: cs) = a :: replacePair a b c (y :: cs) := by
  rw [replacePair, if_neg fun h' => h h'.2]

end Text

namespace Pointer

open Text

variable {cs : List Char}

/-! ### One token -/

theorem not_mem_escape (cs : List Char) : '/' ∉ escape cs := by
  fun_induction escape cs <;> simp_all [Ne.symm]

theorem unescape?_cons {c : Char} (h : c ≠ '~') (cs : List Char) :
    unescape? (c :: cs) = (unescape? cs).map (c :: ·) := by
  rw [unescape?, if_neg h]
  · exact fun _ hc => absurd hc h
  · exact fun _ hc => absurd hc h

theorem unescape?_escape (cs : List Char) : unescape? (escape cs) = some cs := by
  fun_induction escape cs with
  | case1 => rfl
  | case2 cs ih => rw [unescape?, ih, Option.map_some]
  | case3 cs ih => rw [unescape?, ih, Option.map_some]
  | case4 c cs htilde _ ih => rw [unescape?_cons htilde, ih, Option.map_some]

/-- In the first pass a tilde before a zero stays, and what it makes is no tilde. -/
theorem unescape?_of_followed (h : Followed '~' '0' '1' cs) :
    unescape? cs = some (replacePair '~' '0' '~' (replacePair '~' '1' '/' cs)) := by
  have hzero : '0' ≠ '~' := by decide
  have hone : '1' ≠ '~' := by decide
  have hslash : '/' ≠ '~' := by decide
  fun_induction unescape? cs with
  | case1 => rfl
  | case2 cs ih =>
    rw [followed_cons, followed_cons_of_ne hzero] at h
    rw [replacePair_skip (by decide), replacePair_cons hzero, replacePair_pair, ih h.2,
      Option.map_some]
  | case3 cs ih =>
    rw [followed_cons, followed_cons_of_ne hone] at h
    rw [replacePair_pair, replacePair_cons hslash, ih h.2, Option.map_some]
  | case4 cs hzero hone =>
    rcases (followed_cons.1 h).1 rfl with hnext | hnext
    · obtain ⟨ds, rfl⟩ := List.head?_eq_some_iff.1 hnext
      exact absurd rfl (hzero ds rfl)
    · obtain ⟨ds, rfl⟩ := List.head?_eq_some_iff.1 hnext
      exact absurd rfl (hone ds rfl)
  | case5 c cs _ _ htilde ih =>
    rw [followed_cons_of_ne htilde] at h
    rw [replacePair_cons htilde, replacePair_cons htilde, ih h, Option.map_some]

theorem followed_of_unescape? {ds : List Char} (h : unescape? cs = some ds) :
    Followed '~' '0' '1' cs := by
  fun_induction unescape? cs generalizing ds with
  | case1 => exact followed_nil
  | case2 cs ih =>
    obtain ⟨es, hes, -⟩ := Option.map_eq_some_iff.1 h
    rw [followed_cons, followed_cons_of_ne (by decide)]
    exact ⟨fun _ => .inl rfl, ih hes⟩
  | case3 cs ih =>
    obtain ⟨es, hes, -⟩ := Option.map_eq_some_iff.1 h
    rw [followed_cons, followed_cons_of_ne (by decide)]
    exact ⟨fun _ => .inr rfl, ih hes⟩
  | case4 => cases h
  | case5 c cs _ _ htilde ih =>
    obtain ⟨es, hes, -⟩ := Option.map_eq_some_iff.1 h
    exact (followed_cons_of_ne htilde).2 (ih hes)

theorem isSome_unescape?_iff : (unescape? cs).isSome = true ↔ Followed '~' '0' '1' cs := by
  constructor
  · intro h
    obtain ⟨ds, hds⟩ := Option.isSome_iff_exists.1 h
    exact followed_of_unescape? hds
  · intro h
    rw [unescape?_of_followed h]
    rfl

/-! ### The bytes of a token -/

/-- Whether every tilde among the bytes stands before a zero or a one. -/
def validEscapes (bs : Bytes) : Bool :=
  bs.zipIdx.all fun (b, i) =>
    b != byte '~' || bs[i + 1]? == some (byte '0') || bs[i + 1]? == some (byte '1')

theorem validEscapes_iff {bs : Bytes} :
    validEscapes bs = true ↔ Followed (byte '~') (byte '0') (byte '1') bs := by
  rw [validEscapes, List.all_eq_true]
  constructor
  · intro h i hi
    simpa using h (byte '~', i) (List.mk_mem_zipIdx_iff_getElem?.2 hi)
  · rintro h ⟨b, i⟩ hmem
    by_cases hb : b = byte '~'
    · subst hb
      simpa using h i (List.mk_mem_zipIdx_iff_getElem?.1 hmem)
    · simp [hb]

theorem head?_encoded {d : Char} (hd : d.toNat < 128) (cs : List Char) :
    (encoded cs).head? = some (byte d) ↔ cs.head? = some d := by
  cases cs with
  | nil => simp
  | cons c cs =>
    rw [encoded_cons, List.head?_cons, Option.some.injEq]
    by_cases hc : c.toNat < 128
    · rw [utf8EncodeChar_ascii hc, List.cons_append, List.head?_cons, Option.some.injEq,
        byte_inj hc hd]
    · obtain ⟨b, bs, hbs⟩ : ∃ b bs, String.utf8EncodeChar c = b :: bs :=
        List.exists_cons_of_ne_nil String.utf8EncodeChar_ne_nil
      have hb : 128 ≤ b.toNat := utf8EncodeChar_high (Nat.le_of_not_lt hc) b (by simp [hbs])
      rw [hbs, List.cons_append, List.head?_cons, Option.some.injEq]
      constructor
      · rintro rfl
        rw [toNat_byte hd] at hb
        omega
      · rintro rfl
        exact absurd hd hc

/-- A character beyond ASCII has no byte that counts. -/
theorem followed_encoded (cs : List Char) : Followed (byte '~') (byte '0') (byte '1') (encoded cs) ↔
    Followed '~' '0' '1' cs := by
  induction cs with
  | nil => simp [followed_nil]
  | cons c cs ih =>
    rw [encoded_cons, followed_cons, ← ih]
    by_cases hc : c.toNat < 128
    · rw [utf8EncodeChar_ascii hc, List.singleton_append, followed_cons, byte_inj hc (by decide),
        head?_encoded (by decide), head?_encoded (by decide)]
    · have hhigh := utf8EncodeChar_high (Nat.le_of_not_lt hc)
      have hmem : byte '~' ∉ String.utf8EncodeChar c := fun h => absurd (hhigh _ h) (by decide)
      have hne : c ≠ '~' := by
        rintro rfl
        exact hc (by decide)
      rw [followed_append hmem]
      exact (and_iff_right fun h => absurd h hne).symm

/-- Checks the escapes of a token, then replaces one after the other. -/
def unescapeInPasses? (cs : List Char) : Option (List Char) :=
  if cs.contains '~' && !validEscapes (encoded cs) then none
  else some (replacePair '~' '0' '~' (replacePair '~' '1' '/' cs))

theorem unescapeInPasses?_eq (cs : List Char) : unescapeInPasses? cs = unescape? cs := by
  have hvalid : validEscapes (encoded cs) = true ↔ Followed '~' '0' '1' cs :=
    validEscapes_iff.trans (followed_encoded cs)
  rw [unescapeInPasses?]
  by_cases h : Followed '~' '0' '1' cs
  · rw [hvalid.2 h, unescape?_of_followed h]
    simp
  · have htilde : '~' ∈ cs := by
      by_contra hnot
      exact h fun i hi => absurd (List.mem_of_getElem? hi) hnot
    have hnone : unescape? cs = none := by
      rw [← Option.not_isSome_iff_eq_none, isSome_unescape?_iff]
      exact h
    rw [Bool.eq_false_iff.2 fun hv => h (hvalid.1 hv), hnone]
    simp [htilde]

/-! ### All tokens -/

def parseInPasses? (text : String) : Option (List String) :=
  match text.toList with
  | [] => some []
  | '/' :: cs => (split '/' cs).mapM fun t => (unescapeInPasses? t).map String.ofList
  | _ => none

theorem parseInPasses?_eq (text : String) : parseInPasses? text = parse? text := by
  simp only [parseInPasses?, unescapeInPasses?_eq]
  rfl

theorem mapM_escape (tokens : List String) : ((tokens.map fun t => escape t.toList).mapM fun p =>
    (unescape? p).map String.ofList) = some tokens := by
  induction tokens with
  | nil => rfl
  | cons t ts ih =>
    rw [List.map_cons, List.mapM_cons, ih, unescape?_escape, Option.map_some, String.ofList_toList]
    rfl

theorem parse?_format (tokens : List String) : parse? (format tokens) = some tokens := by
  cases tokens with
  | nil => rfl
  | cons t ts =>
    let ps := (t :: ts).map fun t => escape t.toList
    have hne : ps ≠ [] := List.cons_ne_nil _ _
    have htext : (format (t :: ts)).toList = '/' :: glue '/' ps := by
      rw [cons_glue hne, List.flatMap_map, format, String.toList_ofList]
    have hsplit : split '/' (glue '/' ps) = ps := by
      apply split_glue hne
      intro p hp
      obtain ⟨t, -, rfl⟩ := List.mem_map.1 hp
      exact not_mem_escape t.toList
    rw [parse?, htext]
    show (split '/' (glue '/' ps)).mapM _ = _
    rw [hsplit]
    exact mapM_escape (t :: ts)

theorem parse?_eq_some {text : String} {tokens : List String} :
    parse? text = some tokens ↔ format tokens = text := by
  constructor
  · intro h
    rw [format, ← toList_of_parse? h, String.ofList_toList]
  · rintro rfl
    exact parse?_format tokens

theorem isSome_mapM {α β : Type} {f : α → Option β} (xs : List α) :
    (xs.mapM f).isSome = true ↔ ∀ x ∈ xs, (f x).isSome = true := by
  induction xs with
  | nil => simp
  | cons x xs ih =>
    rw [List.mapM_cons, List.forall_mem_cons, ← ih]
    cases f x <;> cases xs.mapM f <;> simp

theorem isSome_parse?_iff (text : String) : (parse? text).isSome = true ↔
    text = "" ∨ text.toList.head? = some '/' ∧ Followed '~' '0' '1' text.toList := by
  rw [parse?]
  split
  · rename_i h
    simp [String.toList_eq_nil_iff.1 h]
  · rename_i cs h
    have hpieces : text.toList = (split '/' cs).flatMap fun p => '/' :: p := by
      rw [h, ← cons_glue (split_ne_nil '/' cs), glue_split]
    have hne : text ≠ "" := by
      rintro rfl
      cases h
    rw [isSome_mapM, hpieces, followed_flatMap (by decide) (by decide) (by decide), ← hpieces, h]
    simp [isSome_unescape?_iff, hne]
  · rename_i hempty hslash
    have hne : text ≠ "" := by
      rintro rfl
      exact hempty rfl
    have hhead : text.toList.head? ≠ some '/' := by
      intro hhead
      obtain ⟨cs, hcs⟩ := List.head?_eq_some_iff.1 hhead
      exact hslash cs hcs
    simp [hne, hhead]

/-- Reading and writing undo each other, and no text but the written ones is read. -/
theorem parse?_inverse (text text' : String) (tokens : List String) :
    parse? (format tokens) = some tokens ∧
    (parse? text = some tokens ↔ format tokens = text) ∧
    ((parse? text).isSome = true ↔
      text = "" ∨ text.toList.head? = some '/' ∧ Followed '~' '0' '1' text.toList) ∧
    (parse? text = parse? text' ↔ text = text' ∨ parse? text = none ∧ parse? text' = none) ∧
    parseInPasses? text = parse? text := by
  refine ⟨parse?_format tokens, parse?_eq_some, isSome_parse?_iff text, ?_, parseInPasses?_eq text⟩
  cases h : parse? text with
  | none =>
    refine ⟨fun h' => .inr ⟨rfl, h'.symm⟩, ?_⟩
    rintro (rfl | ⟨-, h'⟩)
    · exact h.symm
    · exact h'.symm
  | some ts =>
    have htext := parse?_eq_some.1 h
    rw [eq_comm, parse?_eq_some, htext]
    simp

end Pointer

end Quarry
