import Quarry.Proofs.Json.Contents
import Quarry.Proofs.Json.Decoding
import Quarry.Proofs.Json.Meaning

/-!
The parser of values accepts the texts of the grammar that are not nested too deep and have no
number out of range, and no others, and what it reads is the value of their tree.
-/

namespace Quarry.Json

open Text

namespace Parser

open Quarry.Expr.Parser (bind_eq_ok)
open Reader (openByte closeByte)

variable {r : Rules} {fuel : Nat} {o s : Bool} {c : Char} {cs ws t ts rest : List Char}
  {ps : List (Option String × Tree)} {v : Tree} {k : Option String}

/-! ### Spaces -/

def Spaces (ws : List Char) : Prop := ∀ c ∈ ws, isSpace c = true

theorem spaces_nil : Spaces [] := fun _ h => (List.not_mem_nil h).elim

theorem isSpace_cases (h : isSpace c = true) : c = ' ' ∨ c = '\n' ∨ c = '\t' ∨ c = '\r' := by
  simp only [isSpace, Bool.or_eq_true, beq_iff_eq] at h
  tauto

theorem Spaces.append (h : Spaces ws) (h' : Spaces cs) : Spaces (ws ++ cs) :=
  List.forall_mem_append.2 ⟨h, h'⟩

theorem Spaces.blank (h : Spaces ws) : Blank (encoded ws) := by
  have hspace : ∀ c ∈ ws, c.toNat < 128 ∧ Cursor.isSpace (byte c) = true := by
    intro c hc
    rcases isSpace_cases (h c hc) with rfl | rfl | rfl | rfl <;> decide
  rw [encoded_ascii fun c hc => (hspace c hc).1]
  intro b hb
  obtain ⟨c, hc, rfl⟩ := List.mem_map.1 hb
  exact (hspace c hc).2

theorem exists_spaces {bs : Bytes} (h : Blank bs) : ∃ ws, encoded ws = bs ∧ Spaces ws := by
  have hspace : ∀ b ∈ bs, (charOfByte b).toNat < 128 ∧ isSpace (charOfByte b) = true := by
    intro b hb
    have hb := h b hb
    simp only [Cursor.isSpace, Bool.or_eq_true, beq_iff_eq] at hb
    rcases hb with ((rfl | rfl) | rfl) | rfl <;> decide
  refine ⟨bs.map charOfByte, ?_, List.forall_mem_map.2 fun b hb => (hspace b hb).2⟩
  rw [encoded_ascii (List.forall_mem_map.2 fun b hb => (hspace b hb).1), List.map_map]
  exact List.map_id'' byte_charOfByte bs

theorem skipSpace_spaces (h : Spaces ws) (cs : List Char) : skipSpace (ws ++ cs) = skipSpace cs :=
  List.dropWhile_append_of_pos h

theorem skipSpace_cut (cs : List Char) : ∃ ws, Spaces ws ∧ cs = ws ++ skipSpace cs :=
  ⟨cs.takeWhile isSpace, List.all_eq_true.1 List.all_takeWhile,
    List.takeWhile_append_dropWhile.symm⟩

theorem mark_spaces (m : Char) (h : Spaces ws) (cs : List Char) : mark m (ws ++ cs) = mark m cs := by
  rw [mark, mark, skipSpace_spaces h]

theorem name_spaces (h : Spaces ws) (cs : List Char) : name r (ws ++ cs) = name r cs := by
  rw [name, name, key, key, mark_spaces _ h]

theorem value_spaces (h : Spaces ws) (cs : List Char) : value r fuel (ws ++ cs) = value r fuel cs := by
  cases fuel with
  | zero => rfl
  | succ fuel =>
    unfold value
    rw [skipSpace_spaces h]

theorem Spaces.ends (h : Spaces ws) (hcs : Ends cs) : Ends (ws ++ cs) := by
  cases ws with
  | nil => exact hcs
  | cons w ws =>
    rintro c ⟨⟩
    rcases isSpace_cases (h w List.mem_cons_self) with rfl | rfl | rfl | rfl <;> decide

/-! ### Texts in characters -/

def openChar (isObject : Bool) : Char := if isObject then '\x7b' else '['

def closeChar (isObject : Bool) : Char := if isObject then '\x7d' else ']'

theorem encoded_openChar (o : Bool) (cs : List Char) :
    encoded (openChar o :: cs) = openByte o :: encoded cs := by
  cases o <;> rfl

theorem encoded_closeChar (o : Bool) : encoded [closeChar o] = [closeByte o] := by
  cases o <;> rfl

theorem encoded_quoted (t : List Char) :
    encoded ('"' :: (t ++ ['"'])) = byte '"' :: encoded t ++ [byte '"'] := by
  rw [encoded_cons, encoded_append]
  rfl

theorem encoded_injective {cs ds : List Char} (h : encoded cs = encoded ds) : cs = ds := by
  rw [← bytes_ofList, ← bytes_ofList] at h
  have hs := congrArg ofBytes h
  rw [ofBytes_bytes, ofBytes_bytes] at hs
  exact String.ofList_injective hs

/-- What leads to a part of a container: nothing to the first, a comma to others. -/
inductive Led : Bool → List Char → Prop
  | first : Led false []
  | later {ws : List Char} (h : Spaces ws) : Led true (ws ++ [','])

theorem Led.opening (h : Led s cs) : Opening s (encoded cs) := by
  cases h with
  | first => exact .first
  | later h =>
    rw [encoded_append]
    exact .later h.blank

theorem exists_led {bs : Bytes} (h : Opening s bs) : ∃ cs, encoded cs = bs ∧ Led s cs := by
  cases h with
  | first => exact ⟨[], rfl, .first⟩
  | later h =>
    obtain ⟨ws, rfl, hws⟩ := exists_spaces h
    exact ⟨ws ++ [','], encoded_append ws [','], .later hws⟩

inductive Labels : Bool → Option String → List Char → Prop
  | element : Labels false none []
  | member {s : String} {t before after : List Char}
      (h : ∀ rest, Contents (t ++ '"' :: rest) s.toList rest) (hb : Spaces before)
      (ha : Spaces after) : Labels true (some s) ('"' :: (t ++ '"' :: (before ++ ':' :: after)))

theorem exists_quoted {q : String} {bs : Bytes} (h : StringText Hex4 q bs) :
    ∃ t, encoded ('"' :: (t ++ ['"'])) = bs ∧ ∀ rest, Contents (t ++ '"' :: rest) q.toList rest := by
  obtain ⟨inner, h, rfl⟩ := h
  obtain ⟨t, rfl, ht⟩ := exists_contents h
  exact ⟨t, encoded_quoted t, ht⟩

theorem exists_labels {bs : Bytes} (h : NameText Hex4 o k bs) :
    ∃ cs, encoded cs = bs ∧ Labels o k cs := by
  cases h with
  | element => exact ⟨[], rfl, .element⟩
  | member h hb ha =>
    obtain ⟨t, rfl, ht⟩ := exists_quoted h
    obtain ⟨before, rfl, hbefore⟩ := exists_spaces hb
    obtain ⟨after, rfl, hafter⟩ := exists_spaces ha
    refine ⟨_, ?_, .member ht hbefore hafter⟩
    have hcut : '"' :: (t ++ '"' :: (before ++ ':' :: after)) =
        '"' :: (t ++ ['"']) ++ (before ++ ':' :: after) := by simp
    rw [hcut, encoded_append, encoded_append before]
    rfl

theorem stringChars_quoted (hr : r.pairs = true) {q : String}
    (h : ∀ rest, Contents (t ++ '"' :: rest) q.toList rest) (rest : List Char) :
    stringChars r (t ++ '"' :: rest) [] = .ok (q, rest) := by
  rw [stringChars_contents hr (h rest), List.reverse_nil, List.nil_append, String.ofList_toList]

/-! ### Texts that are read -/

/-- A value is read from a text, whatever follows that does not continue it. -/
structure Spells (r : Rules) (v : Tree) (t : List Char) : Prop where
  head : ∃ c tail, t = c :: tail ∧ isSpace c = false ∧ c ≠ ']'
  reads : ∀ fuel rest, Ends rest → 2 * t.length ≤ fuel + 1 →
    value r (fuel + 1) (t ++ rest) = .ok (v.value, rest)

/-- The parts of a container are read up to its end. -/
def ReadsInside (r : Rules) (fuel : Nat) (s : Bool) (cs rest : List Char) :
    Bool → List (Option String × Tree) → Prop
  | true, ps => members r fuel s cs = .ok (Tree.value.membersOf ps, rest)
  | false, ps => items r fuel s cs = .ok (Tree.value.itemsOf ps, rest)

structure SpellsInside (r : Rules) (o s : Bool) (ps : List (Option String × Tree))
    (t : List Char) : Prop where
  pos : 0 < t.length
  ends : s = true → ∀ rest, Ends (t ++ rest)
  reads : ∀ fuel rest, 2 * t.length ≤ fuel + 1 → ReadsInside r fuel s (t ++ rest) rest o ps

theorem readsInside_close (h : Spaces ws) :
    ReadsInside r (fuel + 1) s (ws ++ closeChar o :: rest) rest o [] := by
  have hskip : skipSpace (ws ++ closeChar o :: rest) = closeChar o :: rest := by
    rw [skipSpace_spaces h, skipSpace_cons (by cases o <;> decide)]
  cases o with
  | true =>
    show members r (fuel + 1) s _ = _
    unfold members
    rw [hskip]
    rfl
  | false =>
    show items r (fuel + 1) s _ = _
    unfold items
    rw [hskip]
    rfl

/-- A part is read behind what leads to it. -/
theorem items_led (hled : Led s cs) (h : Spaces ws) (hc : isSpace c = false) (hclose : c ≠ ']') :
    items r (fuel + 1) s (cs ++ (ws ++ c :: t)) = do
      let (v, cs) ← value r fuel (ws ++ c :: t)
      let (vs, cs) ← items r fuel true cs
      return (v :: vs, cs) := by
  conv_lhs => unfold items
  cases hled with
  | first =>
    rw [List.nil_append, value_spaces h, skipSpace_spaces h, skipSpace_cons hc]
    simp only [if_neg hclose]
    rfl
  | later h' =>
    rw [List.append_assoc, skipSpace_spaces h', List.singleton_append, skipSpace_cons (by decide)]
    rfl

theorem members_led (hled : Led s cs) (h : Spaces ws) :
    members r (fuel + 1) s (cs ++ (ws ++ '"' :: t)) = do
      let (k, cs) ← name r (ws ++ '"' :: t)
      let (v, cs) ← value r fuel cs
      let (ms, cs) ← members r fuel true cs
      return ((k, v) :: ms, cs) := by
  conv_lhs => unfold members
  cases hled with
  | first =>
    rw [List.nil_append, name_spaces h, skipSpace_spaces h, skipSpace_cons (by decide)]
    rfl
  | later h' =>
    rw [List.append_assoc, skipSpace_spaces h', List.singleton_append, skipSpace_cons (by decide)]
    rfl

theorem name_quoted (hr : r.pairs = true) {q : String} {before : List Char}
    (h : ∀ rest, Contents (t ++ '"' :: rest) q.toList rest) (hb : Spaces before) :
    name r ('"' :: (t ++ '"' :: (before ++ ':' :: rest))) = .ok (q, rest) := by
  have hkey : key r ('"' :: (t ++ '"' :: (before ++ ':' :: rest))) =
      .ok (q, before ++ ':' :: rest) := by
    rw [key, mark, skipSpace_cons (by decide)]
    exact stringChars_quoted hr h _
  refine (bind_of_ok hkey).trans (bind_of_ok ?_)
  rw [mark_spaces _ hb]
  exact mark_colon rest

theorem readsInside_cons (hr : r.pairs = true) {before name : List Char} (hled : Led s cs)
    (hb : Spaces before) (hn : Labels o k name) (hv : value r (fuel + 1) (t ++ ts) = .ok (v.value, ts))
    (hhead : ∃ c tail, t = c :: tail ∧ isSpace c = false ∧ c ≠ ']')
    (hs : ReadsInside r (fuel + 1) true ts rest o ps) :
    ReadsInside r (fuel + 2) s (cs ++ (before ++ (name ++ (t ++ ts)))) rest o ((k, v) :: ps) := by
  cases hn with
  | element =>
    obtain ⟨c, tail, rfl, hc, hclose⟩ := hhead
    show items r (fuel + 2) s _ = _
    rw [List.nil_append, List.cons_append, items_led hled hb hc hclose, value_spaces hb]
    exact (bind_of_ok hv).trans (bind_of_ok hs)
  | @member q inner mid after h hmid hafter =>
    show members r (fuel + 2) s _ = _
    have hname : Parser.name r ('"' :: (inner ++ '"' :: (mid ++ ':' :: (after ++ (t ++ ts))))) =
        .ok (q, after ++ (t ++ ts)) := name_quoted hr h hmid
    rw [List.cons_append, members_led hled hb, name_spaces hb]
    simp only [List.append_assoc, List.cons_append]
    refine (bind_of_ok hname).trans ?_
    rw [value_spaces hafter]
    exact (bind_of_ok hv).trans (bind_of_ok hs)

theorem value_group (hdepth : r.depth ≠ 0) (h : ReadsInside r.inside fuel false cs rest o ps) :
    value r (fuel + 1) (openChar o :: cs) = .ok ((Tree.group o ps).value, rest) := by
  cases o with
  | true =>
    have h : members r.inside fuel false cs = _ := h
    rw [openChar, if_pos rfl, value_object, if_neg hdepth, h]
    rfl
  | false =>
    have h : items r.inside fuel false cs = _ := h
    rw [openChar, if_neg Bool.false_ne_true, value_array, if_neg hdepth, h]
    rfl

theorem SpellsInside.close (h : Spaces ws) : SpellsInside r o s [] (ws ++ [closeChar o]) where
  pos := by simp
  ends _ rest := by
    rw [List.append_assoc]
    refine h.ends (ends_cons ?_ rest)
    cases o with
    | true => exact .inr (.inr rfl)
    | false => exact .inr (.inl rfl)
  reads fuel rest hfuel := by
    rw [List.length_append, List.length_singleton] at hfuel
    obtain ⟨fuel, rfl⟩ : ∃ n, fuel = n + 1 := ⟨fuel - 1, by omega⟩
    rw [List.append_assoc]
    exact readsInside_close h

theorem SpellsInside.cons (hr : r.pairs = true) {before name : List Char} (hled : Led s cs)
    (hb : Spaces before) (hn : Labels o k name) (hv : Spells r v t)
    (hs : SpellsInside r o true ps ts) :
    SpellsInside r o s ((k, v) :: ps) (cs ++ (before ++ (name ++ (t ++ ts)))) where
  pos := by
    have hpos := hs.pos
    simp only [List.length_append]
    omega
  ends h rest := by
    cases hled with
    | first => cases h
    | later h' =>
      simp only [List.append_assoc]
      exact h'.ends (ends_cons (.inl rfl) _)
  reads fuel rest hfuel := by
    have hpos := hs.pos
    have hlength : 0 < t.length := by
      obtain ⟨c, tail, rfl, -⟩ := hv.head
      exact Nat.succ_pos _
    simp only [List.length_append] at hfuel
    obtain ⟨fuel, rfl⟩ : ∃ n, fuel = n + 2 := ⟨fuel - 2, by omega⟩
    simp only [List.append_assoc]
    exact readsInside_cons hr hled hb hn (hv.reads fuel _ (hs.ends rfl rest) (by omega)) hv.head
      (hs.reads (fuel + 1) rest (by omega))

theorem Spells.group (hdepth : r.depth ≠ 0) (h : SpellsInside r.inside o false ps t) :
    Spells r (.group o ps) (openChar o :: t) where
  head := ⟨openChar o, t, rfl, by cases o <;> decide, by cases o <;> decide⟩
  reads fuel rest _ hfuel := by
    rw [List.length_cons] at hfuel
    exact value_group hdepth (h.reads fuel rest (by omega))

/-! ### The texts of the grammar -/

theorem spells_word {cs : List Char} {x : Value} (hx : v.value = x)
    (hc : isSpace c = false) (hclose : c ≠ ']') (harray : c ≠ '[') (hobject : c ≠ '\x7b')
    (h : ∀ rest, scalar r c (cs ++ rest) = .ok (x, rest)) : Spells r v (c :: cs) where
  head := ⟨c, cs, rfl, hc, hclose⟩
  reads fuel rest _ _ := by
    rw [List.cons_append, value_scalar hc harray hobject, hx]
    exact h rest

theorem exists_written {bs : Bytes} {i : Bool} (h : Figure bs i) :
    ∃ t, encoded t = bs ∧ Written t i ∧ bs.map charOfByte = t := by
  have hascii : ∀ c ∈ bs.map charOfByte, c.toNat < 128 := by
    refine List.forall_mem_map.2 fun b hb => ?_
    rw [toNat_charOfByte]
    exact h.ascii b hb
  have hbytes : (bs.map charOfByte).map byte = bs := by
    rw [List.map_map]
    exact List.map_id'' byte_charOfByte bs
  refine ⟨_, (encoded_ascii hascii).trans hbytes, ⟨hascii, ?_⟩, rfl⟩
  rw [hbytes]
  exact h

theorem spells_number {i : Bool} (h : Written t i)
    (hrange : Number.inRange (.ofText (String.ofList t) i) = true) :
    Spells r (.number (String.ofList t) i) t where
  head := by
    have hread := anyNumber_written h ends_nil
    rw [List.append_nil] at hread
    obtain ⟨c, tail, rfl, hc⟩ := head_of_anyNumber hread
    obtain ⟨hs, -, -, hclose, -⟩ := number_start hc
    exact ⟨c, tail, rfl, hs, hclose⟩
  reads fuel rest hrest _ := by
    rw [value_number r fuel (anyNumber_written h hrest), hrange, Bool.not_true, Bool.and_false,
      if_neg Bool.false_ne_true]
    rfl

mutual

theorem spells_value {v : Tree} {bs : Bytes} (h : ValueText Hex4 v bs) {r : Rules} (hr : r.pairs = true)
    (hfit : v.Fits r.depth) : ∃ t, encoded t = bs ∧ Spells r v t := by
  cases h with
  | null =>
    exact ⟨"null".toList, rfl, spells_word rfl (by decide) (by decide) (by decide) (by decide)
      fun _ => rfl⟩
  | true =>
    exact ⟨"true".toList, rfl, spells_word rfl (by decide) (by decide) (by decide) (by decide)
      fun _ => rfl⟩
  | false =>
    exact ⟨"false".toList, rfl, spells_word rfl (by decide) (by decide) (by decide) (by decide)
      fun _ => rfl⟩
  | number h =>
    obtain ⟨t, ht, hw, htext⟩ := exists_written h
    rw [htext] at hfit ⊢
    exact ⟨t, ht, spells_number hw hfit.2⟩
  | string h =>
    obtain ⟨t, ht, hcontents⟩ := exists_quoted h
    refine ⟨_, ht, spells_word rfl (by decide) (by decide) (by decide) (by decide) fun rest => ?_⟩
    have hread := stringChars_quoted hr hcontents rest
    rw [List.append_assoc, List.singleton_append, scalar]
    simp only [hread]
    rfl
  | empty o h =>
    obtain ⟨ws, rfl, hws⟩ := exists_spaces h
    have hdepth := (Tree.fits_group.1 hfit).1
    refine ⟨openChar o :: (ws ++ [closeChar o]), ?_, .group hdepth (.close hws)⟩
    rw [encoded_openChar, encoded_append, encoded_closeChar]
    rfl
  | @group o ps bs h =>
    obtain ⟨hdepth, hfit⟩ := Tree.fits_group.1 hfit
    obtain ⟨t, ht, hspells⟩ := spells_parts h .first (r := r.inside) hr hfit
    refine ⟨openChar o :: t, ?_, .group hdepth hspells⟩
    rw [encoded_openChar, ht]
    rfl

theorem spells_parts {o s : Bool} {ps : List (Option String × Tree)} {bs opening : Bytes}
    (h : PartsText Hex4 o ps bs) (ho : Opening s opening) {r : Rules} (hr : r.pairs = true) (hfit : Tree.AllFit r.depth ps) :
    ∃ t, encoded t = opening ++ (bs ++ [closeByte o]) ∧ SpellsInside r o s ps t := by
  obtain ⟨cs, rfl, hled⟩ := exists_led ho
  cases h with
  | last hb hn h ha =>
    obtain ⟨before, rfl, hbefore⟩ := exists_spaces hb
    obtain ⟨name, rfl, hname⟩ := exists_labels hn
    obtain ⟨t, rfl, hv⟩ := spells_value h hr (Tree.allFit_cons.1 hfit).1
    obtain ⟨after, rfl, hafter⟩ := exists_spaces ha
    refine ⟨_, ?_, .cons hr hled hbefore hname hv (.close hafter)⟩
    simp only [encoded_append, encoded_closeChar, List.append_assoc]
  | cons hb hn h ha hs =>
    obtain ⟨hfitv, hfits⟩ := Tree.allFit_cons.1 hfit
    obtain ⟨before, rfl, hbefore⟩ := exists_spaces hb
    obtain ⟨name, rfl, hname⟩ := exists_labels hn
    obtain ⟨t, rfl, hv⟩ := spells_value h hr hfitv
    obtain ⟨ts, hts, hs⟩ := spells_parts hs (.later ha) hr hfits
    refine ⟨_, ?_, .cons hr hled hbefore hname hv hs⟩
    simp only [encoded_append, hts, List.append_assoc, List.cons_append, List.nil_append]

end

end Parser

end Quarry.Json
