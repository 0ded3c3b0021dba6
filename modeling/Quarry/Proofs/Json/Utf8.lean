import Quarry.Proofs.Json.Passage
import Quarry.Proofs.Text.Encoding

/-!
Whatever the reader takes for a value is UTF-8: outside strings all bytes are ASCII, and the
contents of a string are checked once its escapes stand for their characters.
-/

namespace Quarry

namespace Text

def IsUtf8 (bs : Bytes) : Prop := ∃ cs, bs = encoded cs

theorem IsUtf8.append {bs bs' : Bytes} (h : IsUtf8 bs) (h' : IsUtf8 bs') : IsUtf8 (bs ++ bs') := by
  obtain ⟨cs, rfl⟩ := h
  obtain ⟨ds, rfl⟩ := h'
  exact ⟨cs ++ ds, (encoded_append cs ds).symm⟩

theorem toNat_charOfByte (b : UInt8) : (charOfByte b).toNat = b.toNat := by
  have hb := b.toNat_lt
  have hv : b.toNat.isValidChar := .inl (by omega)
  rw [charOfByte, Char.ofNat, dif_pos hv]
  rfl

theorem byte_charOfByte (b : UInt8) : byte (charOfByte b) = b := by
  have hb := b.toNat_lt
  apply UInt8.toNat_inj.1
  have hu : (byte (charOfByte b)).toNat = (charOfByte b).toNat % 256 := rfl
  rw [hu, toNat_charOfByte]
  omega

theorem isUtf8_ascii {bs : Bytes} (h : ∀ b ∈ bs, b.toNat < 128) : IsUtf8 bs := by
  refine ⟨bs.map charOfByte, ?_⟩
  rw [encoded_ascii]
  · simp [Function.comp_def, byte_charOfByte]
  · intro c hc
    obtain ⟨b, hb, rfl⟩ := List.mem_map.1 hc
    rw [toNat_charOfByte]
    exact h b hb

theorem bytes_ofBytes {bs : Bytes} (h : IsUtf8 bs) : bytes (ofBytes bs) = bs := by
  obtain ⟨cs, rfl⟩ := h
  rw [← bytes_ofList, ofBytes_bytes]

/-- A character begins with a byte that no other byte of a character is like. -/
theorem utf8EncodeChar_cases (c : Char) :
    ∃ b bs, String.utf8EncodeChar c = b :: bs ∧ b.IsUTF8FirstByte ∧
      ∀ d ∈ bs, ¬d.IsUTF8FirstByte := by
  have hpos : 0 < (String.utf8EncodeChar c).length := by
    rw [String.length_utf8EncodeChar]
    exact c.utf8Size_pos
  obtain ⟨b, bs, hc⟩ := List.exists_cons_of_length_pos hpos
  have hfirst : ∀ i (hi : i < (b :: bs).length), (b :: bs)[i].IsUTF8FirstByte ↔ i = 0 := by
    rw [← hc]
    intro i hi
    exact UInt8.isUTF8FirstByte_getElem_utf8EncodeChar
  refine ⟨b, bs, hc, (hfirst 0 (Nat.succ_pos _)).2 rfl, ?_⟩
  intro d hd hfd
  obtain ⟨i, hi, rfl⟩ := List.getElem_of_mem hd
  have hz := (hfirst (i + 1) (Nat.succ_lt_succ hi)).1 hfd
  omega

theorem utf8EncodeChar_append_inj {c d : Char} {bs bs' : Bytes}
    (h : String.utf8EncodeChar c ++ bs = String.utf8EncodeChar d ++ bs') : c = d ∧ bs = bs' := by
  have hdecode : ∀ (c : Char) (bs : Bytes),
      ByteArray.utf8DecodeChar? (String.utf8EncodeChar c ++ bs).toByteArray 0 = some c := by
    intro c bs
    rw [List.toByteArray_append]
    exact ByteArray.utf8DecodeChar?_utf8EncodeChar_append
  have hc := hdecode c bs
  rw [h, hdecode d bs'] at hc
  obtain rfl := Option.some.inj hc
  exact ⟨rfl, List.append_cancel_left h⟩

end Text

open Text

namespace Json

/-! ### Strings -/

theorem hexValue?_ascii {b : UInt8} (h : (hexValue? b).isSome) : b.toNat < 128 := by
  rw [hexValue?] at h
  split at h
  · rename_i hd
    simp only [isDigitByte, Bool.and_eq_true, decide_eq_true_eq, UInt8.le_iff_toNat_le] at hd
    exact lt_of_le_of_lt hd.2 (by decide)
  · split at h
    · rename_i hd
      simp only [Bool.and_eq_true, decide_eq_true_eq, UInt8.le_iff_toNat_le] at hd
      exact lt_of_le_of_lt hd.2 (by decide)
    · split at h
      · rename_i hd
        simp only [Bool.and_eq_true, decide_eq_true_eq, UInt8.le_iff_toNat_le] at hd
        exact lt_of_le_of_lt hd.2 (by decide)
      · simp at h

theorem hexNumber?_ascii {bs : Bytes} {n : Nat} (h : hexNumber? bs = some n) :
    ∀ b ∈ bs, b.toNat < 128 := by
  rw [hexNumber?] at h
  generalize 0 = m at h
  induction bs generalizing m with
  | nil => simp
  | cons b bs ih =>
    rw [List.foldlM_cons] at h
    obtain ⟨k, hk, h⟩ := Option.bind_eq_some_iff.1 h
    intro d hd
    rcases List.mem_cons.1 hd with rfl | hd
    · obtain ⟨v, hv, -⟩ := Option.map_eq_some_iff.1 hk
      exact hexValue?_ascii (Option.isSome_iff_exists.2 ⟨v, hv⟩)
    · exact ih k h d hd

theorem hex4?_ascii {a b c d : UInt8} {n : Nat} (h : hex4? a b c d = some n) :
    ∀ e ∈ [a, b, c, d], e.toNat < 128 := by
  rw [hex4?] at h
  split at h
  · rename_i ha
    subst ha
    intro e he
    rcases List.mem_cons.1 he with rfl | he
    · decide
    · exact hexNumber?_ascii h e he
  · exact hexNumber?_ascii h

theorem simpleEscape?_ascii {e : UInt8} {c : Char} (h : simpleEscape? e = some c) :
    e.toNat < 128 := by
  simp only [simpleEscape?] at h
  repeat' split at h
  all_goals first | (subst e; decide) | simp at h

theorem bytes_toString (c : Char) : bytes c.toString = String.utf8EncodeChar c := by
  rw [bytes_eq]
  simp [encoded]

/-- A glyph is a byte that stands for itself, or ASCII that stands for a character. -/
theorem Glyph.cases_ascii {t u : Bytes} (h : Glyph t u) :
    (∃ b, t = [b] ∧ u = [b]) ∨
      ∃ c, u = String.utf8EncodeChar c ∧ ∀ b ∈ t, b.toNat < 128 := by
  have hslash : (byte '\\').toNat < 128 := by decide
  have hu : (byte 'u').toNat < 128 := by decide
  cases h with
  | plain _ _ _ => exact .inl ⟨_, rfl, rfl⟩
  | @simple e c he =>
    have hascii := simpleEscape?_ascii he
    exact .inr ⟨c, bytes_toString c, by simp [hslash, hascii]⟩
  | unicode hn _ _ =>
    have hascii := hex4?_ascii hn
    refine .inr ⟨_, bytes_toString _, ?_⟩
    simpa [hslash, hu] using hascii
  | pair hn _ hm _ =>
    have hascii := hex4?_ascii hn
    have hascii' := hex4?_ascii hm
    refine .inr ⟨_, bytes_toString _, ?_⟩
    simp only [List.mem_cons, List.not_mem_nil, or_false, forall_eq_or_imp, forall_eq] at hascii hascii' ⊢
    tauto

/-- What stands for characters is cut between them if every glyph stands for a character or for a
byte of one; `tail` is what is left of a character whose first bytes were met before. -/
theorem Glyphs.exists_forall₂ {R : Char → Bytes → Prop}
    (hR : ∀ {t u : Bytes}, Glyph t u →
      (∃ b, t = [b] ∧ u = [b] ∧ ∀ c bs, String.utf8EncodeChar c = b :: bs → R c (b :: bs)) ∨
        ∃ c, u = String.utf8EncodeChar c ∧ R c t)
    {t u tail : Bytes} {cs : List Char} (h : Glyphs t u)
    (htail : ∀ b ∈ tail, ¬b.IsUTF8FirstByte) (hu : u = tail ++ encoded cs) :
    ∃ ts : List Bytes, t = tail ++ ts.flatten ∧ List.Forall₂ R cs ts := by
  induction h generalizing tail cs with
  | nil =>
    obtain ⟨rfl, hcs⟩ := List.append_eq_nil_iff.1 hu.symm
    cases cs with
    | nil => exact ⟨[], rfl, .nil⟩
    | cons c cs =>
      obtain ⟨b, bs, hc, -⟩ := utf8EncodeChar_cases c
      simp [encoded_cons, hc] at hcs
  | @cons t u ts us head _ ih =>
    cases tail with
    | cons b tail =>
      -- A character that was begun goes on, so this is no escape.
      rcases hR head with ⟨b', rfl, rfl, -⟩ | ⟨c, rfl, -⟩
      · obtain ⟨rfl, hrest⟩ := List.cons.inj hu
        obtain ⟨ls, hls, hall⟩ := ih (fun d hd => htail d (List.mem_cons_of_mem _ hd)) hrest
        exact ⟨ls, by simp [hls], hall⟩
      · obtain ⟨b', bs, hc, hfirst, -⟩ := utf8EncodeChar_cases c
        rw [hc] at hu
        obtain ⟨rfl, -⟩ := List.cons.inj hu
        exact absurd hfirst (htail b' List.mem_cons_self)
    | nil =>
      cases cs with
      | nil =>
        rcases hR head with ⟨b', rfl, rfl, -⟩ | ⟨c, rfl, -⟩
        · simp at hu
        · obtain ⟨b', bs, hc, -⟩ := utf8EncodeChar_cases c
          simp [hc] at hu
      | cons c cs =>
        rw [List.nil_append, encoded_cons] at hu
        rcases hR head with ⟨b', rfl, rfl, hplain⟩ | ⟨d, rfl, hescape⟩
        · obtain ⟨b, bs, hc, -, hbs⟩ := utf8EncodeChar_cases c
          rw [hc] at hu
          obtain ⟨rfl, hrest⟩ := List.cons.inj hu
          obtain ⟨ls, rfl, hall⟩ := ih hbs hrest
          exact ⟨(b' :: bs) :: ls, rfl, .cons (hplain c bs hc) hall⟩
        · obtain ⟨rfl, hrest⟩ := utf8EncodeChar_append_inj hu
          obtain ⟨ls, hls, hall⟩ := ih (fun b (hb : b ∈ []) => absurd hb List.not_mem_nil) hrest
          exact ⟨t :: ls, by rw [hls]; rfl, .cons hescape hall⟩

/-- The contents of a string are UTF-8 when what they stand for is. -/
theorem Glyphs.isUtf8 {t : Bytes} {cs : List Char} (h : Glyphs t (encoded cs)) : IsUtf8 t := by
  obtain ⟨ts, rfl, hall⟩ := h.exists_forall₂ (R := fun _ t => IsUtf8 t)
    (fun {t u} hglyph => by
      rcases hglyph.cases_ascii with ⟨b, rfl, rfl⟩ | ⟨c, rfl, hascii⟩
      · exact .inl ⟨b, rfl, rfl, fun c bs hc => hc ▸ ⟨[c], by simp [encoded]⟩⟩
      · exact .inr ⟨c, rfl, isUtf8_ascii hascii⟩)
    (by simp) (List.nil_append (encoded cs)).symm
  rw [List.nil_append]
  clear h
  induction hall with
  | nil => exact ⟨[], rfl⟩
  | cons ht _ ih => exact ht.append ih

theorem ascii_of_all {t : Bytes} (h : t.all (fun b => decide (b.toNat < 128)) = true) :
    ∀ b ∈ t, b.toNat < 128 :=
  fun b hb => of_decide_eq_true (List.all_eq_true.1 h b hb)

theorem Quoted.isUtf8 (q : Quoted) : IsUtf8 q.text := by
  have hquote : IsUtf8 [byte '"'] := isUtf8_ascii (ascii_of_all (by decide))
  have hinner : IsUtf8 q.inner := (bytes_eq q.value ▸ q.spells).isUtf8
  exact (hquote.append hinner).append hquote

/-! ### Values -/

theorem isDigitByte_ascii {b : UInt8} (h : isDigitByte b = true) : b.toNat < 128 := by
  simp only [isDigitByte, Bool.and_eq_true, decide_eq_true_eq, UInt8.le_iff_toNat_le] at h
  exact lt_of_le_of_lt h.2 (by decide)

theorem Digits.ascii {ds : Bytes} (h : Digits ds) : ∀ b ∈ ds, b.toNat < 128 :=
  fun b hb => isDigitByte_ascii (h.2 b hb)

theorem Figure.ascii {t : Bytes} {i : Bool} (h : Figure t i) : ∀ b ∈ t, b.toNat < 128 := by
  obtain ⟨hs, hw, hf, he⟩ := h
  rename_i sign whole frac exp hasFrac hasExp
  have hsign : ∀ b ∈ sign, b.toNat < 128 := by
    rcases hs with rfl | rfl <;> exact ascii_of_all (by decide)
  have hwhole : ∀ b ∈ whole, b.toNat < 128 := by
    cases hw with
    | zero => exact ascii_of_all (by decide)
    | digits h _ => exact h.ascii
  have hfrac : ∀ b ∈ frac, b.toNat < 128 := by
    cases hf with
    | none => simp
    | some h =>
      intro b hb
      rcases List.mem_cons.1 hb with rfl | hb
      · decide
      · exact h.ascii b hb
  have hexp : ∀ b ∈ exp, b.toNat < 128 := by
    cases he with
    | none => simp
    | @some m sign' ds hm hs h =>
      have hmark : m.toNat < 128 := by rcases hm with rfl | rfl <;> decide
      have hsign' : ∀ b ∈ sign', b.toNat < 128 := by
        rcases hs with rfl | rfl | rfl <;> exact ascii_of_all (by decide)
      intro b hb
      rcases List.mem_append.1 hb with hb | hb
      · rcases List.mem_cons.1 hb with rfl | hb
        · exact hmark
        · exact hsign' b hb
      · exact h.ascii b hb
  intro b hb
  simp only [List.mem_append] at hb
  rcases hb with hb | hb | hb | hb
  · exact hsign b hb
  · exact hwhole b hb
  · exact hfrac b hb
  · exact hexp b hb

theorem Token.isUtf8 (t : Token) : IsUtf8 t.text := by
  obtain ⟨text, event, h⟩ := t
  cases h with
  | string q => exact q.isUtf8
  | number h => exact isUtf8_ascii h.ascii
  | true => exact isUtf8_ascii (ascii_of_all (by decide))
  | false => exact isUtf8_ascii (ascii_of_all (by decide))
  | null => exact isUtf8_ascii (ascii_of_all (by decide))

theorem Space.isUtf8 (sp : Space) : IsUtf8 sp.bytes := by
  apply isUtf8_ascii
  intro b hb
  have hblank := sp.blank b hb
  simp only [Cursor.isSpace, Bool.or_eq_true, beq_iff_eq] at hblank
  rcases hblank with ((rfl | rfl) | rfl) | rfl <;> decide

theorem isUtf8_byte {b : UInt8} (h : b.toNat < 128) : IsUtf8 [b] :=
  isUtf8_ascii (by simpa using h)

theorem Label.isUtf8 (l : Label) : IsUtf8 l.text :=
  l.name.isUtf8.append (l.before.isUtf8.append
    ((isUtf8_byte (by decide : (byte ':').toNat < 128)).append l.after.isUtf8))

theorem Lead.isUtf8 {o s : Bool} (l : Lead o s) : IsUtf8 l.text := by
  refine l.space.isUtf8.append (.append ?_ ?_)
  · cases l.comma with
    | none => exact ⟨[], rfl⟩
    | some sp => exact (isUtf8_byte (by decide : (byte ',').toNat < 128)).append sp.isUtf8
  · cases l.label with
    | none => exact ⟨[], rfl⟩
    | some b => exact b.isUtf8

theorem isUtf8_openByte (k : Bool) : IsUtf8 [Reader.openByte k] :=
  isUtf8_byte (by cases k <;> decide)

theorem Passage.isUtf8 {o s : Bool} (p : Passage o s) : IsUtf8 p.text := by
  induction p with
  | @close o s sp => exact sp.isUtf8.append (isUtf8_byte (by cases o <;> decide))
  | token l t rest ih => exact l.isUtf8.append (t.isUtf8.append ih)
  | nested l k inside rest ih1 ih2 =>
    exact l.isUtf8.append ((isUtf8_openByte k).append (ih1.append ih2))

theorem Spelling.isUtf8 (v : Spelling) : IsUtf8 v.text := by
  cases v with
  | token t => exact t.isUtf8
  | nested k inside => exact (isUtf8_openByte k).append inside.isUtf8

end Json

end Quarry
