import Quarry.Proofs.Json.Accepted

/-!
Whatever the parser of values reads is a text of the grammar.
-/

namespace Quarry.Json

open Text

namespace Parser

open Quarry.Expr.Parser (bind_eq_ok)
open Reader (openByte closeByte)

variable {r : Rules} {fuel : Nat} {o s : Bool} {c : Char} {cs ws t ts rest : List Char}
  {ps : List (Option String × Tree)} {v : Tree} {k : Option String} {x : Value}

theorem map_eq_ok {ε α β : Type} {p : Except ε α} {f : α → β} {b : β} (h : p.map f = .ok b) :
    ∃ a, p = .ok a ∧ f a = b := by
  cases p with
  | error e => cases h
  | ok a => exact ⟨a, rfl, Except.ok.inj h⟩

/-! ### Parts of values -/

theorem word_sound (h : word ws cs = .ok rest) : cs = ws ++ rest := by
  induction ws generalizing cs with
  | nil =>
    cases h
    rfl
  | cons w ws ih =>
    cases cs with
    | nil => cases h
    | cons c cs =>
      rw [word] at h
      split at h
      · rename_i hw
        rw [hw, ih h, List.cons_append]
      · cases h

theorem mark_sound {m : Char} (h : mark m cs = .ok rest) :
    ∃ ws, Spaces ws ∧ cs = ws ++ m :: rest := by
  obtain ⟨ws, hws, hcut⟩ := skipSpace_cut cs
  rw [mark] at h
  split at h
  · cases h
  · rename_i c tail hskip
    split at h
    · rename_i hc
      cases h
      exact ⟨ws, hws, by rw [hcut, hskip, hc]⟩
    · cases h

theorem string_sound (hr : r.pairs = true) {q : String}
    (h : stringChars r cs [] = .ok (q, rest)) :
    ∃ t, cs = t ++ '"' :: rest ∧ StringText Hex4 q (encoded ('"' :: (t ++ ['"']))) := by
  obtain ⟨w, hw, rfl⟩ := (stringChars_eq_ok hr).1 h
  obtain ⟨t, rfl, ht⟩ := hw.letters
  refine ⟨t, rfl, encoded t, ?_, encoded_quoted t⟩
  rwa [List.reverse_nil, List.nil_append, String.toList_ofList]

/-- The spaces behind the colon are left to the value. -/
theorem name_sound (hr : r.pairs = true) {q : String} (h : name r cs = .ok (q, rest)) :
    ∃ before name, Spaces before ∧ cs = before ++ (name ++ rest) ∧
      ∀ after, Spaces after → NameText Hex4 true (some q) (encoded (name ++ after)) := by
  obtain ⟨⟨q', cs1⟩, hkey, h⟩ := bind_eq_ok.1 h
  obtain ⟨cs2, hcolon, h⟩ := bind_eq_ok.1 h
  cases h
  obtain ⟨cs3, hquote, hchars⟩ := bind_eq_ok.1 hkey
  obtain ⟨before, hbefore, rfl⟩ := mark_sound hquote
  obtain ⟨t, rfl, ht⟩ := string_sound hr hchars
  obtain ⟨mid, hmid, rfl⟩ := mark_sound hcolon
  refine ⟨before, '"' :: (t ++ ['"']) ++ (mid ++ [':']), hbefore, by simp, fun after hafter => ?_⟩
  have hmember := NameText.member ht hmid.blank hafter.blank
  have hcut : '"' :: (t ++ ['"']) ++ (mid ++ [':']) ++ after =
      '"' :: (t ++ ['"']) ++ (mid ++ ':' :: after) := by simp
  rw [hcut, encoded_append, encoded_append mid]
  exact hmember

/-! ### Values -/

/-- What was read is a text of the grammar that fits the rules. -/
def Derives (r : Rules) (v : Tree) (t : List Char) (x : Value) : Prop :=
  ValueText Hex4 v (encoded t) ∧ v.Fits r.depth ∧ v.value = x

def DerivesInside (r : Rules) (o s : Bool) (ps : List (Option String × Tree)) (t : List Char) :
    Prop :=
  Remains Hex4 o s ps (encoded t) ∧ Tree.AllFit r.depth ps

theorem fits_leaf (depth : Nat) (h : v.nesting = 0) (h' : v.inRange = true) : v.Fits depth :=
  ⟨h ▸ Nat.zero_le _, h'⟩

theorem number_sound (hr : r.numbers = true) {n : Number} (h : number r cs = .ok (n, rest)) :
    ∃ v t, cs = t ++ rest ∧ Derives r v t (.number n) := by
  rw [number] at h
  split at h
  · rename_i n' rest' hread
    rw [hr, Bool.true_and] at h
    split at h
    · cases h
    · rename_i hrange
      cases h
      obtain ⟨t, i, rfl, hw, rfl⟩ := anyNumber_sound hread
      have htext : encoded t = t.map byte := encoded_ascii hw.ascii
      have hspelled : (t.map byte).map charOfByte = t := by
        rw [List.map_map]
        exact (List.map_congr_left fun c hc => charOfByte_byte (hw.ascii c hc)).trans (List.map_id t)
      have hvalue : ValueText Hex4 _ _ := .number hw.figure
      rw [hspelled, ← htext] at hvalue
      exact ⟨_, t, rfl, hvalue, fits_leaf _ rfl (by simpa [Tree.inRange] using hrange), rfl⟩
  · cases h

theorem scalar_sound (hp : r.pairs = true) (hn : r.numbers = true)
    (h : scalar r c cs = .ok (x, rest)) : ∃ v t, c :: cs = t ++ rest ∧ Derives r v t x := by
  rw [scalar] at h
  repeat' split at h
  · rename_i hc
    obtain ⟨cs', hword, heq⟩ := map_eq_ok h
    cases heq
    rw [hc, word_sound hword]
    exact ⟨.null, "null".toList, rfl, .null, fits_leaf _ rfl rfl, rfl⟩
  · rename_i hc
    obtain ⟨cs', hword, heq⟩ := map_eq_ok h
    cases heq
    rw [hc, word_sound hword]
    exact ⟨.bool true, "true".toList, rfl, .true, fits_leaf _ rfl rfl, rfl⟩
  · rename_i hc
    obtain ⟨cs', hword, heq⟩ := map_eq_ok h
    cases heq
    rw [hc, word_sound hword]
    exact ⟨.bool false, "false".toList, rfl, .false, fits_leaf _ rfl rfl, rfl⟩
  · rename_i hc
    obtain ⟨⟨q, cs'⟩, hchars, heq⟩ := map_eq_ok h
    cases heq
    obtain ⟨t, rfl, ht⟩ := string_sound hp hchars
    exact ⟨.string q, '"' :: (t ++ ['"']), by simp [hc], .string ht, fits_leaf _ rfl rfl, rfl⟩
  · obtain ⟨⟨n, cs'⟩, hnumber, heq⟩ := map_eq_ok h
    cases heq
    exact number_sound hn hnumber
  · cases h

/-! ### Containers -/

theorem derivesInside_close (h : Spaces ws) : DerivesInside r o s [] (ws ++ [closeChar o]) := by
  refine ⟨?_, Tree.allFit_nil _⟩
  rw [encoded_append, encoded_closeChar]
  exact .close h.blank

theorem derivesInside_cons {before name : List Char} (hled : Led s cs) (hb : Spaces before)
    (hn : NameText Hex4 o k (encoded name)) (hv : Derives r v t x)
    (hs : DerivesInside r o true ps ts) :
    DerivesInside r o s ((k, v) :: ps) (cs ++ (before ++ (name ++ (t ++ ts)))) := by
  refine ⟨?_, Tree.allFit_cons.2 ⟨hv.2.1, hs.2⟩⟩
  simp only [encoded_append]
  exact .cons hled.opening hb.blank hn hv.1 hs.1

theorem derives_group (hdepth : r.depth ≠ 0) (h : DerivesInside r.inside o false ps t) :
    Derives r (.group o ps) (openChar o :: t) (Tree.group o ps).value := by
  refine ⟨?_, Tree.fits_group.2 ⟨hdepth, h.2⟩, rfl⟩
  rw [encoded_openChar]
  exact h.1.valueText

theorem led_of_skipSpace (h : skipSpace cs = c :: t) (hcomma : ¬(s && c != ',') = true) :
    ∃ lead before, Led s lead ∧ Spaces before ∧
      cs = lead ++ (before ++ (if s then t else c :: t)) := by
  obtain ⟨ws, hws, hcut⟩ := skipSpace_cut cs
  rw [h] at hcut
  cases s with
  | false => exact ⟨[], ws, .first, hws, hcut⟩
  | true =>
    have hc : c = ',' := by simpa using hcomma
    exact ⟨ws ++ [','], [], .later hws, spaces_nil, by simp [hcut, hc]⟩

/-- What is read with so much fuel is a text of the grammar. -/
structure Sound (r : Rules) (fuel : Nat) : Prop where
  value : ∀ {cs x rest}, value r fuel cs = .ok (x, rest) →
    ∃ v ws t, Spaces ws ∧ cs = ws ++ (t ++ rest) ∧ Derives r v t x
  items : ∀ {s cs xs rest}, items r fuel s cs = .ok (xs, rest) →
    ∃ ps t, cs = t ++ rest ∧ DerivesInside r false s ps t ∧ Tree.value.itemsOf ps = xs
  members : ∀ {s cs ms rest}, members r fuel s cs = .ok (ms, rest) →
    ∃ ps t, cs = t ++ rest ∧ DerivesInside r true s ps t ∧ Tree.value.membersOf ps = ms

theorem value_sound (hp : r.pairs = true) (hn : r.numbers = true) (hs : Sound r.inside fuel)
    (h : value r (fuel + 1) cs = .ok (x, rest)) :
    ∃ v ws t, Spaces ws ∧ cs = ws ++ (t ++ rest) ∧ Derives r v t x := by
  obtain ⟨ws, hws, hcut⟩ := skipSpace_cut cs
  unfold value at h
  split at h
  · cases h
  rename_i c tail hskip
  rw [hskip] at hcut
  split at h
  · rename_i hc
    split at h
    · cases h
    rename_i hdepth
    obtain ⟨⟨xs, cs'⟩, hitems, heq⟩ := map_eq_ok h
    cases heq
    obtain ⟨ps, t, rfl, ht, rfl⟩ := hs.items hitems
    exact ⟨.group false ps, ws, openChar false :: t, hws, by rw [hcut, hc]; rfl,
      derives_group hdepth ht⟩
  split at h
  · rename_i hc
    split at h
    · cases h
    rename_i hdepth
    obtain ⟨⟨ms, cs'⟩, hmembers, heq⟩ := map_eq_ok h
    cases heq
    obtain ⟨ps, t, rfl, ht, rfl⟩ := hs.members hmembers
    exact ⟨.group true ps, ws, openChar true :: t, hws, by rw [hcut, hc]; rfl,
      derives_group hdepth ht⟩
  · obtain ⟨v, t, htext, ht⟩ := scalar_sound hp hn h
    exact ⟨v, ws, t, hws, by rw [hcut, htext], ht⟩

theorem items_sound (hs : Sound r fuel) {xs : List Value}
    (h : items r (fuel + 1) s cs = .ok (xs, rest)) :
    ∃ ps t, cs = t ++ rest ∧ DerivesInside r false s ps t ∧ Tree.value.itemsOf ps = xs := by
  unfold items at h
  split at h
  · cases h
  rename_i c tail hskip
  split at h
  · rename_i hc
    cases h
    obtain ⟨ws, hws, hcut⟩ := skipSpace_cut cs
    rw [hskip] at hcut
    exact ⟨[], ws ++ [closeChar false], by rw [hcut, hc]; simp [closeChar],
      derivesInside_close hws, rfl⟩
  split at h
  · cases h
  · rename_i hcomma
    obtain ⟨⟨x, cs1⟩, hvalue, h⟩ := bind_eq_ok.1 h
    obtain ⟨⟨xs, cs2⟩, hitems, h⟩ := bind_eq_ok.1 h
    cases h
    obtain ⟨lead, before, hlead, hbefore, rfl⟩ := led_of_skipSpace hskip hcomma
    obtain ⟨v, ws, t, hws, htext, ht⟩ := hs.value hvalue
    obtain ⟨ps, ts, rfl, hts, rfl⟩ := hs.items hitems
    refine ⟨(none, v) :: ps, lead ++ (before ++ ws ++ ([] ++ (t ++ ts))), ?_,
      derivesInside_cons hlead (hbefore.append hws) .element ht hts, ?_⟩
    · rw [htext]
      simp only [List.append_assoc, List.nil_append]
    · rw [Tree.value.itemsOf, ht.2.2]

theorem members_sound (hp : r.pairs = true) (hs : Sound r fuel) {ms : List (String × Value)}
    (h : members r (fuel + 1) s cs = .ok (ms, rest)) :
    ∃ ps t, cs = t ++ rest ∧ DerivesInside r true s ps t ∧ Tree.value.membersOf ps = ms := by
  unfold members at h
  split at h
  · cases h
  rename_i c tail hskip
  split at h
  · rename_i hc
    cases h
    obtain ⟨ws, hws, hcut⟩ := skipSpace_cut cs
    rw [hskip] at hcut
    exact ⟨[], ws ++ [closeChar true], by rw [hcut, hc]; simp [closeChar],
      derivesInside_close hws, rfl⟩
  split at h
  · cases h
  · rename_i hcomma
    obtain ⟨⟨k, cs1⟩, hname, h⟩ := bind_eq_ok.1 h
    obtain ⟨⟨x, cs2⟩, hvalue, h⟩ := bind_eq_ok.1 h
    obtain ⟨⟨ms, cs3⟩, hmembers, h⟩ := bind_eq_ok.1 h
    cases h
    obtain ⟨lead, before, hlead, hbefore, rfl⟩ := led_of_skipSpace hskip hcomma
    obtain ⟨before', name, hbefore', htext, hlabel⟩ := name_sound hp hname
    obtain ⟨v, ws, t, hws, rfl, ht⟩ := hs.value hvalue
    obtain ⟨ps, ts, rfl, hts, rfl⟩ := hs.members hmembers
    refine ⟨(some k, v) :: ps, lead ++ (before ++ before' ++ (name ++ ws ++ (t ++ ts))), ?_,
      derivesInside_cons hlead (hbefore.append hbefore') (hlabel ws hws) ht hts, ?_⟩
    · rw [htext]
      simp only [List.append_assoc]
    · rw [Tree.value.membersOf, ht.2.2, Option.getD_some]

theorem sound (fuel : Nat) : ∀ {r : Rules}, r.pairs = true → r.numbers = true → Sound r fuel := by
  induction fuel with
  | zero =>
    exact fun _ _ => ⟨nofun, nofun, nofun⟩
  | succ fuel ih =>
    intro r hp hn
    exact ⟨value_sound hp hn (ih (r := r.inside) hp hn), items_sound (ih hp hn),
      members_sound hp (ih hp hn)⟩

end Parser

/-- The parser of values takes exactly the texts of the grammar that have no number out of range
and at most 127 containers within one another, for the values that they stand for. -/
theorem Value.parse_eq_ok {text : String} {x : Value} :
    Value.parse text = .ok x ↔
      ∃ v : Tree, DocumentText Hex4 v (bytes text) ∧ v.Fits 127 ∧ v.value = x := by
  rw [Value.parse, Parser.complete, Expr.Parser.bind_eq_ok]
  constructor
  · rintro ⟨⟨x', rest⟩, hread, h⟩
    dsimp only at h
    split at h
    · rename_i hend
      cases h
      obtain ⟨after, hafter, hcut⟩ := Parser.skipSpace_cut rest
      rw [List.isEmpty_iff.1 hend, List.append_nil] at hcut
      obtain ⟨v, ws, t, hws, htext, ht, hfit, rfl⟩ := (Parser.sound _ rfl rfl).value hread
      refine ⟨v, ⟨_, _, _, hws.blank, ht, (hcut ▸ hafter).blank, ?_⟩, hfit, rfl⟩
      rw [bytes_eq, htext, encoded_append, encoded_append]
    · cases h
  · rintro ⟨v, ⟨before, bs, after, hb, hv, ha, htext⟩, hfit, rfl⟩
    obtain ⟨ws, rfl, hws⟩ := Parser.exists_spaces hb
    obtain ⟨t, rfl, ht⟩ := Parser.spells_value hv (r := Parser.strict) rfl hfit
    obtain ⟨rest, rfl, hrest⟩ := Parser.exists_spaces ha
    rw [bytes_eq, ← encoded_append, ← encoded_append] at htext
    refine ⟨(v.value, rest), ?_, ?_⟩
    · rw [Parser.readValue, Parser.encoded_injective htext, Parser.value_spaces hws]
      have hends := hrest.ends Parser.ends_nil
      rw [List.append_nil] at hends
      apply ht.reads _ _ hends
      simp only [List.length_append]
      omega
    · have hskip := Parser.skipSpace_spaces hrest []
      rw [List.append_nil] at hskip
      dsimp only
      rw [hskip]
      rfl

end Quarry.Json
