import Quarry.Proofs.Json.Driving

/-!
A reader goes through every text of the grammar that is not nested too deep and shows its tree token
by token, and it comes to the end of no other text, but for escapes that begin with a plus sign.
-/

namespace Quarry.Json

open Text Reader

/-- Whatever its spaces, escapes and numbers look like, a text is read with all of its contents. -/
theorem drive_text {t : Tree} {input : Bytes} {depth fuel : Nat} (h : DocumentText Hex4 t input)
    (hd : t.nesting ≤ depth) (hf : (t.events none).length < fuel) :
    (ofBytes depth input).drive fuel = t.events none ++ [(.eof, none)] := by
  obtain ⟨p, rfl, rfl⟩ := documentText_iff.1 (h.mono (covers_plain input))
  rw [Spelling.nesting_tree] at hd
  exact drive_page p hd hf

/-- Spaces, an escaped name, a number with all of its parts, and a surrogate pair. -/
theorem drive_text_members :
    let t : Tree := .group true [(some "é", .group false
      [(none, .number "-0.5E+1" false), (none, .string "x😀")])]
    let input := bytes " \x7b\"\\u00E9\" : [-0.5E+1,\t\"x\\ud83d\\uDE00\"]\x7d"
    DocumentText Hex4 t input ∧ t.nesting ≤ 2 ∧
      (ofBytes 2 input).drive 7 = [(.objectStart, none), (.arrayStart, some "é"),
        (.number "-0.5E+1" false, none), (.string "x😀", none), (.arrayEnd, none),
        (.objectEnd, none), (.eof, none)] := by
  intro t input
  have hname : StringText Hex4 "é" (bytes "\"\\u00E9\"") :=
    ⟨_, .cons (.unicode (.make (.lower (v := 0) (by decide)) (.lower (v := 0) (by decide))
      (.upper (v := 14) (by decide)) (.lower (v := 9) (by decide)))) .nil, rfl⟩
  have hfraction : Fraction [byte '.', byte '5'] true :=
    .some ⟨by simp, by decide +kernel⟩
  have hexponent : Exponent [byte 'E', byte '+', byte '1'] true :=
    .some (.inr rfl) (.inr (.inl rfl)) ⟨by simp, by decide +kernel⟩
  have hnumber : Figure (bytes "-0.5E+1") false :=
    .make (.inr rfl) .zero hfraction hexponent
  have hstring : StringText Hex4 "x😀" (bytes "\"x\\ud83d\\uDE00\"") :=
    ⟨_, .cons (.plain (c := 'x') (by decide) (by decide) (by decide)) (.cons (.pair
      (.make (.lower (v := 13) (by decide)) (.lower (v := 8) (by decide))
        (.lower (v := 3) (by decide)) (.lower (v := 13) (by decide)))
      (.make (.upper (v := 13) (by decide)) (.upper (v := 14) (by decide))
        (.lower (v := 0) (by decide)) (.lower (v := 0) (by decide)))
      (by decide) (by decide) (by decide)) .nil), rfl⟩
  have hnone : Blank [] := by decide +kernel
  have hspace : Blank (bytes " ") := by decide +kernel
  have htab : Blank (bytes "\t") := by decide +kernel
  have helements : PartsText Hex4 false [(none, .number "-0.5E+1" false), (none, .string "x😀")]
      (bytes "-0.5E+1,\t\"x\\ud83d\\uDE00\"") :=
    .cons hnone .element (.number hnumber) hnone (.last htab .element (.string hstring) hnone)
  have hmember : PartsText Hex4 true [(some "é", .group false
      [(none, .number "-0.5E+1" false), (none, .string "x😀")])]
      (bytes "\"\\u00E9\" : [-0.5E+1,\t\"x\\ud83d\\uDE00\"]") :=
    .last hnone (.member hname hspace hspace) (.group helements) hnone
  have h : DocumentText Hex4 t input := ⟨bytes " ", _, [], hspace, .group hmember, hnone, rfl⟩
  exact ⟨h, by decide, drive_text h (by decide) (by decide)⟩

theorem escapes_not_mark : ∀ p ∈ escapes, byte p.1 ≠ byte 'u' := by decide

theorem Letter.code_of_mark {code : Bytes → Nat → Prop} {c : Char} {t rest bs : Bytes}
    (h : Letter code c t) (ht : t ++ rest = unicodeMark ++ bs) :
    ∃ q n bs', code q n ∧ bs = q ++ bs' := by
  cases h with
  | plain _ hs _ =>
    have hc : String.utf8EncodeChar c ++ rest = String.utf8EncodeChar '\\' ++ byte 'u' :: bs := ht
    exact absurd (utf8EncodeChar_append_inj hc).1 hs
  | simple h =>
    have hu := (List.cons.inj (List.cons.inj ht).2).1
    exact absurd hu (escapes_not_mark _ h)
  | unicode h =>
    rw [List.append_assoc] at ht
    exact ⟨_, _, _, h, (List.append_cancel_left ht).symm⟩
  | pair h _ _ _ _ =>
    simp only [List.append_assoc] at ht
    exact ⟨_, _, _, h, (List.append_cancel_left ht).symm⟩

theorem ValueText.string_of_quote {code : Bytes → Nat → Prop} {v : Tree} {t rest bs : Bytes}
    (h : ValueText code v t) (ht : t ++ rest = byte '"' :: bs) : ∃ s, StringText code s t := by
  cases h with
  | string h => exact ⟨_, h⟩
  | number h =>
    obtain ⟨b, t, rfl, hb⟩ := h.head
    rw [(List.cons.inj ht).1] at hb
    exact absurd hb (by decide)
  | empty o _ => cases o <;> exact absurd (List.cons.inj ht).1 (by decide)
  | @group o _ _ _ => cases o <;> exact absurd (List.cons.inj ht).1 (by decide)
  | _ => exact absurd (List.cons.inj ht).1 (by decide)

/-- A string that begins with an escape begins with a code of the notation. -/
theorem DocumentText.code_of_mark {code : Bytes → Nat → Prop} {v : Tree} {bs : Bytes}
    (h : DocumentText code v (byte '"' :: (unicodeMark ++ bs))) :
    ∃ q n bs', code q n ∧ bs = q ++ bs' := by
  obtain ⟨before, t, after, hb, hv, -, heq⟩ := h
  cases before with
  | cons b before =>
    have hspace := hb b List.mem_cons_self
    rw [← (List.cons.inj heq).1] at hspace
    exact absurd hspace (by decide)
  | nil =>
    obtain ⟨s, inner, hletters, rfl⟩ := hv.string_of_quote heq.symm
    have hinner : inner ++ byte '"' :: after = unicodeMark ++ bs := by
      simpa using (List.cons.inj heq).2.symm
    generalize s.toList = cs at hletters
    cases hletters with
    | nil => exact absurd (List.cons.inj hinner).1 (by decide)
    | cons h _ =>
      rw [List.append_assoc] at hinner
      exact h.code_of_mark hinner

/-- What a reader comes to the end of is a text, and what it showed is the tree of it. An escape
that begins with a plus sign is read as if that were a zero. -/
theorem text_of_drive {depth fuel : Nat} {input : Bytes} {es : List Meeting} {key : Option String}
    (h : (ofBytes depth input).drive fuel = es ++ [(.eof, key)]) :
    ((∃ m ∈ es, m.1.isValue = true) → ∃ t, DocumentText SignedHex4 t input ∧ t.nesting ≤ depth ∧
        es = t.events none ∧
        (¬unicodeMark ++ [byte '+'] <:+: input → DocumentText Hex4 t input)) ∧
      ((∀ m ∈ es, m.1.isValue = false) → Blank input) := by
  have hc := completes_of_drive h
  rcases page_of_completes hc with ⟨sp, rfl⟩ | ⟨p, rfl, hd⟩
  · obtain ⟨key', hdrive⟩ := @drive_empty depth (fuel + 1) sp (Nat.succ_pos fuel)
    rw [drive_add h 1] at hdrive
    have hes : es = [] := by
      rw [← List.nil_append [(Event.eof, key')]] at hdrive
      exact List.append_inj_left' hdrive rfl
    exact ⟨fun ⟨m, hm, _⟩ => absurd (hes ▸ hm) List.not_mem_nil, fun _ => sp.blank⟩
  · have hlong : (p.value.tree.events none).length <
        fuel + ((p.value.tree.events none).length + 1) := by omega
    have hdrive := drive_page p hd hlong
    rw [drive_add h] at hdrive
    have hes : es = p.value.tree.events none := List.append_inj_left' hdrive rfl
    have ht : DocumentText SignedHex4 p.value.tree p.text := documentText_iff.2 ⟨p, rfl, rfl⟩
    constructor
    · intro _
      exact ⟨_, ht, by rwa [Spelling.nesting_tree], hes, fun hp => ht.mono (covers_of_no_plus hp)⟩
    · intro hno
      obtain ⟨e, rest, he, hvalue⟩ := p.value.tree.exists_event none
      have hmem : (e, none) ∈ es := by
        rw [hes, he]
        exact List.mem_cons_self
      simp [hno _ hmem] at hvalue

/-- A name that is written with an escape, and a space. -/
theorem text_of_drive_member :
    let input := bytes "\x7b\"\\u0041\":null\x7d "
    let es : List Meeting := [(.objectStart, none), (.null, some "A"), (.objectEnd, none)]
    (ofBytes 1 input).drive 4 = es ++ [(.eof, none)] ∧
      (∃ t, DocumentText Hex4 t input ∧ t.nesting ≤ 1 ∧ es = t.events none) ∧
      (ofBytes 1 (bytes " ")).drive 1 = [] ++ [(.eof, none)] ∧ Blank (bytes " ") := by
  intro input es
  have h : (ofBytes 1 input).drive 4 = es ++ [(.eof, none)] := by decide +kernel
  have h' : (ofBytes 1 (bytes " ")).drive 1 = [] ++ [(.eof, none)] := by decide +kernel
  obtain ⟨t, -, hd, hes, ht⟩ := (text_of_drive h).1 ⟨(.null, some "A"), by simp [es], rfl⟩
  exact ⟨h, ⟨t, ht (by decide), hd, hes⟩, h', (text_of_drive h').2 (by simp)⟩

theorem drive_plus_escape :
    let input := bytes "\"\\u+041\""
    (ofBytes 512 input).drive 2 = [(.string "A", none), (.eof, none)] ∧
      ∀ t, ¬DocumentText Hex4 t input := by
  refine ⟨by decide +kernel, fun t h => ?_⟩
  obtain ⟨q, n, bs, hq, heq⟩ := @DocumentText.code_of_mark Hex4 t (bytes "+041\"") h
  cases hq with
  | make ha _ _ _ =>
    rw [← (List.cons.inj heq).1] at ha
    exact not_hex_plus ha

end Quarry.Json
