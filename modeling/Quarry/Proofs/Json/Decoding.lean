import Quarry.Proofs.Json.Scalars

/-!
Values as they are printed, read by the parser of values: the value comes back if it is not nested
deeper than the rules allow, and is refused if it is.
-/

namespace Quarry.Json

namespace Value

mutual

/-- How many containers are open at once at most. -/
def nesting : Value → Nat
  | .null => 0
  | .bool _ => 0
  | .number _ => 0
  | .string _ => 0
  | .array vs => nestingItems vs + 1
  | .object ms => nestingMembers ms + 1

def nestingItems : List Value → Nat
  | [] => 0
  | v :: vs => max v.nesting (nestingItems vs)

def nestingMembers : List (String × Value) → Nat
  | [] => 0
  | (_, v) :: ms => max v.nesting (nestingMembers ms)

end

mutual

/-- Whether the texts of all numbers are read as the numbers. -/
def Readable : Value → Prop
  | .null => True
  | .bool _ => True
  | .number n => n.ReadsBack
  | .string _ => True
  | .array vs => ReadableItems vs
  | .object ms => ReadableMembers ms

def ReadableItems : List Value → Prop
  | [] => True
  | v :: vs => v.Readable ∧ ReadableItems vs

def ReadableMembers : List (String × Value) → Prop
  | [] => True
  | (_, v) :: ms => v.Readable ∧ ReadableMembers ms

end

theorem nestingMembers_append (ms ns : List (String × Value)) :
    nestingMembers (ms ++ ns) = max (nestingMembers ms) (nestingMembers ns) := by
  induction ms with
  | nil => rw [List.nil_append, nestingMembers, Nat.zero_max]
  | cons m ms ih => rw [List.cons_append, nestingMembers, nestingMembers, ih, Nat.max_assoc]

theorem nestingMembers_perm {ms ns : List (String × Value)} (h : ms.Perm ns) :
    nestingMembers ms = nestingMembers ns := by
  induction h with
  | nil => rfl
  | cons m _ ih => rw [nestingMembers, nestingMembers, ih]
  | swap m n ms =>
    simp only [nestingMembers]
    omega
  | trans _ _ ih ih' => rw [ih, ih']

theorem readableMembers_iff {ms : List (String × Value)} :
    ReadableMembers ms ↔ ∀ m ∈ ms, m.2.Readable := by
  induction ms with
  | nil => simp [ReadableMembers]
  | cons m ms ih => rw [ReadableMembers, ih, List.forall_mem_cons]

end Value

namespace Parser

open Value

variable {r : Rules} {fuel : Nat} {rest : List Char}

/-! ### Scalars -/

theorem skipSpace_cons {c : Char} (h : isSpace c = false) (cs : List Char) :
    skipSpace (c :: cs) = c :: cs := List.dropWhile_cons_of_neg (by rw [h]; exact Bool.false_ne_true)

theorem value_scalar {c : Char} (hs : isSpace c = false) (harray : c ≠ '[') (hobject : c ≠ '\x7b')
    (cs : List Char) : value r (fuel + 1) (c :: cs) = scalar r c cs := by
  unfold value
  rw [skipSpace_cons hs]
  simp only [if_neg harray, if_neg hobject]

theorem head_of_digits {cs : List Char} {p : List Char × List Char} (h : digits cs = .ok p) :
    ∃ c tail, cs = c :: tail ∧ c.isDigit = true := by
  cases cs with
  | nil => cases h
  | cons c tail =>
    refine ⟨c, tail, rfl, ?_⟩
    by_contra hc
    rw [digits, List.span_eq_takeWhile_dropWhile, List.takeWhile_cons_of_neg hc,
      List.dropWhile_cons_of_neg hc] at h
    cases h

theorem head_of_whole {cs : List Char} {p : List Char × List Char} (h : whole cs = .ok p) :
    ∃ c tail, cs = c :: tail ∧ c.isDigit = true := by
  unfold whole at h
  split at h
  · exact ⟨'0', _, rfl, rfl⟩
  · exact head_of_digits h

theorem head_of_anyNumber {cs : List Char} {p : Number × List Char} (h : anyNumber cs = .ok p) :
    ∃ c tail, cs = c :: tail ∧ (c == '-' || c.isDigit) = true := by
  unfold anyNumber at h
  split at h
  rename_i negative digits heq
  split at heq
  · exact ⟨'-', _, rfl, rfl⟩
  · cases heq
    cases hw : whole cs with
    | error e =>
      rw [hw] at h
      cases h
    | ok p =>
      obtain ⟨c, tail, rfl, hc⟩ := head_of_whole hw
      exact ⟨c, tail, rfl, by rw [hc, Bool.or_true]⟩

/-- The first character of a number begins nothing else. -/
theorem number_start {c : Char} (h : (c == '-' || c.isDigit) = true) :
    isSpace c = false ∧ c ≠ '[' ∧ c ≠ '\x7b' ∧ c ≠ ']' ∧ c ≠ 'n' ∧ c ≠ 't' ∧ c ≠ 'f' ∧ c ≠ '"' := by
  have hne {d : Char} (hd : (d == '-' || d.isDigit) = false) : c ≠ d := by
    rintro rfl
    rw [h] at hd
    cases hd
  refine ⟨?_, hne rfl, hne rfl, hne rfl, hne rfl, hne rfl, hne rfl, hne rfl⟩
  simp only [isSpace, Bool.or_eq_false_iff, beq_eq_false_iff_ne]
  exact ⟨⟨⟨hne rfl, hne rfl⟩, hne rfl⟩, hne rfl⟩

theorem value_number (r : Rules) (fuel : Nat) {cs : List Char} {n : Number}
    (h : anyNumber (cs ++ rest) = .ok (n, rest)) :
    value r (fuel + 1) (cs ++ rest) =
      if r.numbers && !Number.inRange n then .error .malformed else .ok (.number n, rest) := by
  obtain ⟨c, tail, heq, hc⟩ := head_of_anyNumber h
  obtain ⟨hs, harray, hobject, -, hn, ht, hf, hq⟩ := number_start hc
  rw [heq, value_scalar hs harray hobject, scalar, if_neg hn, if_neg ht, if_neg hf, if_neg hq,
    if_pos (by simpa only [beq_eq_decide] using hc), ← heq, number, h]
  dsimp only
  split <;> rfl

/-! ### The first of several -/

theorem head_value {v : Value} (hv : v.Readable) :
    ∃ c cs, Printer.value v = c :: cs ∧ isSpace c = false ∧ c ≠ ']' := by
  cases v with
  | null => exact ⟨'n', _, rfl, by decide, by decide⟩
  | bool b =>
    cases b with
    | true => exact ⟨'t', _, rfl, by decide, by decide⟩
    | false => exact ⟨'f', _, rfl, by decide, by decide⟩
  | number n =>
    obtain ⟨c, cs, heq, hc⟩ := head_of_anyNumber (hv.anyNumber [] ends_nil)
    obtain ⟨hs, -, -, hclose, -⟩ := number_start hc
    rw [List.append_nil] at heq
    exact ⟨c, cs, heq, hs, hclose⟩
  | string s => exact ⟨'"', _, rfl, by decide, by decide⟩
  | array vs => cases vs <;> exact ⟨'[', _, rfl, by decide, by decide⟩
  | object ms => cases ms <;> exact ⟨'\x7b', _, rfl, by decide, by decide⟩

/-- The first element is read as if a comma led it, too. -/
theorem items_opened {vs : List Value} (hvs : ReadableItems vs) :
    ∃ cs, Printer.value (.array vs) = '[' :: cs ∧ (Printer.items vs).length ≤ cs.length + 1 ∧
      ∀ r fuel rest, items r (fuel + 1) false (cs ++ rest) =
        items r (fuel + 1) true (Printer.items vs ++ rest) := by
  cases vs with
  | nil => exact ⟨[']'], rfl, Nat.le_add_left .., fun r fuel rest => rfl⟩
  | cons v vs =>
    obtain ⟨c, tail, htext, hs, hclose⟩ := head_value hvs.1
    refine ⟨Printer.value v ++ Printer.items vs, rfl, Nat.le_refl _, fun r fuel rest => ?_⟩
    rw [Printer.items, htext]
    unfold items
    simp only [List.cons_append]
    rw [skipSpace_cons hs, skipSpace_cons (by decide)]
    simp only [if_neg hclose]
    rfl

/-- An object is printed as its members are, but for what opens it. -/
theorem object_cons (m : String × Value) (ms : List (String × Value)) :
    ∃ cs, Printer.value (.object (m :: ms)) = '\x7b' :: (Printer.string m.1 ++ cs) ∧
      Printer.members (m :: ms) = ',' :: (Printer.string m.1 ++ cs) := by
  refine ⟨':' :: (Printer.value m.2 ++ Printer.members ms), ?_, ?_⟩
  · simp only [Printer.value, List.cons_append, List.append_assoc]
  · simp only [Printer.members, List.cons_append, List.append_assoc]

theorem members_opened (ms : List (String × Value)) :
    ∃ cs, Printer.value (.object ms) = '\x7b' :: cs ∧
      (Printer.members ms).length ≤ cs.length + 1 ∧
      ∀ r fuel rest, members r (fuel + 1) false (cs ++ rest) =
        members r (fuel + 1) true (Printer.members ms ++ rest) := by
  cases ms with
  | nil => exact ⟨['\x7d'], rfl, Nat.le_add_left .., fun r fuel rest => rfl⟩
  | cons m ms =>
    obtain ⟨tail, hobject, hmembers⟩ := object_cons m ms
    refine ⟨Printer.string m.1 ++ tail, hobject, by rw [hmembers]; exact Nat.le_refl _,
      fun r fuel rest => ?_⟩
    rw [hmembers, Printer.string]
    unfold members
    simp only [List.cons_append]
    rw [skipSpace_cons (by decide), skipSpace_cons (by decide)]
    rfl

theorem length_value_pos {v : Value} (hv : v.Readable) : 0 < (Printer.value v).length := by
  obtain ⟨c, cs, htext, -⟩ := head_value hv
  rw [htext, List.length_cons]
  exact Nat.succ_pos _

theorem ends_items (vs : List Value) (rest : List Char) : Ends (Printer.items vs ++ rest) := by
  cases vs with
  | nil => exact ends_cons (.inr (.inl rfl)) _
  | cons v vs => exact ends_cons (.inl rfl) _

theorem ends_members (ms : List (String × Value)) (rest : List Char) :
    Ends (Printer.members ms ++ rest) := by
  cases ms with
  | nil => exact ends_cons (.inr (.inr rfl)) _
  | cons m ms => exact ends_cons (.inl rfl) _

/-! ### Names -/

theorem key_string (k : String) (cs : List Char) : key r (Printer.string k ++ cs) = .ok (k, cs) := by
  obtain ⟨tail, htail, hread⟩ := stringChars_string r k cs
  rw [htail, key, mark, skipSpace_cons (by decide)]
  exact hread

theorem mark_colon (cs : List Char) : mark ':' (':' :: cs) = .ok cs := by
  rw [mark, skipSpace_cons (by decide)]
  rfl

theorem name_string (k : String) (cs : List Char) :
    name r (Printer.string k ++ ':' :: cs) = .ok (k, cs) :=
  (bind_of_ok (key_string k (':' :: cs))).trans (bind_of_ok (mark_colon cs))

/-! ### Values -/

/-- The answer for what is nested that deep. -/
def within {α : Type} (r : Rules) (nesting : Nat) (a : α) (rest : List Char) :
    Except DecodeError (α × List Char) :=
  if nesting ≤ r.depth then .ok (a, rest) else .error .malformed

theorem within_zero {α : Type} (r : Rules) (a : α) (rest : List Char) :
    within r 0 a rest = .ok (a, rest) := if_pos (Nat.zero_le _)

/-- A container is entered if one more may be open. -/
theorem within_inside {α β : Type} (f : α → β) (r : Rules) (nesting : Nat) (a : α)
    (rest : List Char) :
    (if r.depth = 0 then .error .malformed
      else (within r.inside nesting a rest).map fun (a, cs) => (f a, cs)) =
      within r (nesting + 1) (f a) rest := by
  unfold within
  by_cases h : r.depth = 0
  · rw [if_pos h, if_neg (by omega)]
  · have hiff : nesting ≤ r.inside.depth ↔ nesting + 1 ≤ r.depth := by
      show nesting ≤ r.depth - 1 ↔ _
      omega
    by_cases hn : nesting + 1 ≤ r.depth
    · rw [if_neg h, if_pos (hiff.2 hn), if_pos hn]
      rfl
    · rw [if_neg h, if_neg (fun hin => hn (hiff.1 hin)), if_neg hn]
      rfl

/-- Two parts are read one after the other if neither is nested too deep. -/
theorem within_seq {α β γ : Type} {n m : Nat} {a : α} {b : β} {cs : List Char}
    {p : Except DecodeError (α × List Char)}
    {q : List Char → Except DecodeError (β × List Char)} (g : α → β → γ)
    (hp : p = within r n a cs) (hq : q cs = within r m b rest) :
    (do
      let (a, cs) ← p
      let (b, cs) ← q cs
      return (g a b, cs)) = within r (max n m) (g a b) rest := by
  unfold within at hp hq ⊢
  by_cases hn : n ≤ r.depth
  · rw [if_pos hn] at hp
    rw [bind_of_ok hp]
    by_cases hm : m ≤ r.depth
    · rw [if_pos hm] at hq
      rw [if_pos (Nat.max_le.2 ⟨hn, hm⟩)]
      exact bind_of_ok hq
    · rw [if_neg hm] at hq
      rw [if_neg (fun h => hm (Nat.max_le.1 h).2)]
      exact bind_of_error hq
  · rw [if_neg hn] at hp
    rw [if_neg (fun h => hn (Nat.max_le.1 h).1)]
    exact bind_of_error hp

theorem items_comma (cs : List Char) : items r (fuel + 1) true (',' :: cs) = do
    let (v, cs) ← value r fuel cs
    let (vs, cs) ← items r fuel true cs
    return (v :: vs, cs) := by
  conv_lhs => unfold items
  rw [skipSpace_cons (by decide)]
  rfl

theorem members_comma (k : String) (cs : List Char) :
    members r (fuel + 1) true (',' :: (Printer.string k ++ ':' :: cs)) = do
      let (v, cs) ← value r fuel cs
      let (ms, cs) ← members r fuel true cs
      return ((k, v) :: ms, cs) := by
  conv_lhs => unfold members
  rw [skipSpace_cons (by decide)]
  exact bind_of_ok (name_string k cs)

theorem value_array (cs : List Char) : value r (fuel + 1) ('[' :: cs) =
    if r.depth = 0 then .error .malformed
    else (items r.inside fuel false cs).map fun (vs, cs) => (.array vs, cs) := by
  conv_lhs => unfold value
  rw [skipSpace_cons (by decide)]
  rfl

theorem value_object (cs : List Char) : value r (fuel + 1) ('\x7b' :: cs) =
    if r.depth = 0 then .error .malformed
    else (members r.inside fuel false cs).map fun (ms, cs) => (.object ms, cs) := by
  conv_lhs => unfold value
  rw [skipSpace_cons (by decide)]
  rfl

mutual

theorem value_printed (r : Rules) : (v : Value) → (fuel : Nat) → ∀ {rest : List Char},
    v.Readable → Ends rest → 2 * (Printer.value v).length ≤ fuel + 1 →
    value r (fuel + 1) (Printer.value v ++ rest) = within r v.nesting v rest
  | .null, _, _, _, _, _ => by
    rw [nesting, within_zero]
    exact value_scalar (by decide) (by decide) (by decide) _
  | .bool true, _, _, _, _, _ => by
    rw [nesting, within_zero]
    exact value_scalar (by decide) (by decide) (by decide) _
  | .bool false, _, _, _, _, _ => by
    rw [nesting, within_zero]
    exact value_scalar (by decide) (by decide) (by decide) _
  | .number n, _, rest, hv, hr, _ => by
    have hrange : ¬(r.numbers && !Number.inRange n) = true := by simp [hv.inRange]
    rw [nesting, within_zero, Printer.value, value_number r _ (hv.anyNumber rest hr), if_neg hrange]
  | .string s, _, rest, _, _, _ => by
    obtain ⟨cs, hcs, hread⟩ := stringChars_string r s rest
    rw [nesting, within_zero, Printer.value, hcs, value_scalar (by decide) (by decide) (by decide),
      scalar]
    simp only [hread]
    rfl
  | .array vs, fuel, rest, hv, _, hfuel => by
    obtain ⟨cs, htext, hlength, hopen⟩ := items_opened hv
    rw [htext, List.length_cons] at hfuel
    rw [nesting, ← within_inside, ← items_printed r.inside vs fuel hv (by omega), htext,
      List.cons_append, value_array]
    obtain ⟨k, rfl⟩ : ∃ k, fuel = k + 1 := ⟨fuel - 1, by omega⟩
    rw [hopen]
  | .object ms, fuel, rest, hv, _, hfuel => by
    obtain ⟨cs, htext, hlength, hopen⟩ := members_opened ms
    rw [htext, List.length_cons] at hfuel
    rw [nesting, ← within_inside, ← members_printed r.inside ms fuel hv (by omega), htext,
      List.cons_append, value_object]
    obtain ⟨k, rfl⟩ : ∃ k, fuel = k + 1 := ⟨fuel - 1, by omega⟩
    rw [hopen]

theorem items_printed (r : Rules) : (vs : List Value) → (fuel : Nat) → ∀ {rest : List Char},
    ReadableItems vs → 2 * (Printer.items vs).length ≤ fuel + 1 →
    items r fuel true (Printer.items vs ++ rest) = within r (nestingItems vs) vs rest
  | [], fuel, rest, _, hfuel => by
    simp only [Printer.items, List.length_singleton] at hfuel
    obtain ⟨k, rfl⟩ : ∃ k, fuel = k + 1 := ⟨fuel - 1, by omega⟩
    rw [nestingItems, within_zero]
    rfl
  | v :: vs, fuel, rest, hv, hfuel => by
    have hlength := length_value_pos hv.1
    rw [Printer.items, List.length_append, List.length_cons] at hfuel
    obtain ⟨k, rfl⟩ : ∃ k, fuel = k + 2 := ⟨fuel - 2, by omega⟩
    rw [nestingItems, Printer.items, List.cons_append, List.cons_append, List.append_assoc,
      items_comma]
    exact within_seq List.cons (value_printed r v k hv.1 (ends_items vs rest) (by omega))
      (items_printed r vs (k + 1) hv.2 (by omega))

theorem members_printed (r : Rules) : (ms : List (String × Value)) → (fuel : Nat) →
    ∀ {rest : List Char}, ReadableMembers ms →
    2 * (Printer.members ms).length ≤ fuel + 1 →
    members r fuel true (Printer.members ms ++ rest) = within r (nestingMembers ms) ms rest
  | [], fuel, rest, _, hfuel => by
    simp only [Printer.members, List.length_singleton] at hfuel
    obtain ⟨k, rfl⟩ : ∃ k, fuel = k + 1 := ⟨fuel - 1, by omega⟩
    rw [nestingMembers, within_zero]
    rfl
  | (k, v) :: ms, fuel, rest, hv, hfuel => by
    have hlength := length_value_pos hv.1
    simp only [Printer.members, List.length_append, List.length_cons] at hfuel
    obtain ⟨n, rfl⟩ : ∃ n, fuel = n + 2 := ⟨fuel - 2, by omega⟩
    simp only [nestingMembers, Printer.members, List.cons_append, List.append_assoc]
    rw [members_comma]
    exact within_seq (fun v ms => (k, v) :: ms)
      (value_printed r v n hv.1 (ends_members ms rest) (by omega))
      (members_printed r ms (n + 1) hv.2 (by omega))

end

theorem readValue_printed {v : Value} (hv : v.Readable) :
    readValue (Printer.value v) = within strict v.nesting v [] := by
  have hread := value_printed strict v (2 * (Printer.value v).length + 1) hv ends_nil
    (by omega)
  rwa [List.append_nil] at hread

theorem complete_within {α : Type} (n : Nat) (a : α) :
    complete (within strict n a []) = if n ≤ 127 then .ok a else .error .malformed := by
  by_cases h : n ≤ strict.depth
  · rw [within, if_pos h]
    exact (if_pos h).symm
  · rw [within, if_neg h]
    exact (if_neg h).symm

end Parser

/-- A printed text is read as its value, unless that is nested too deep. -/
theorem Value.parse_text {v : Value} (hv : v.Readable) :
    Value.parse v.text = if v.nesting ≤ 127 then .ok v else .error .malformed := by
  rw [Value.parse, Value.text, String.toList_ofList, Parser.readValue_printed hv,
    Parser.complete_within]

/-- That a text is read as some number can be evaluated. -/
theorem Value.parse_eq_float {s : String} {x : Float}
    (h : (match Value.parse s with
      | .ok (.number (.float y)) => decide (y = x)
      | _ => false) = true) : Value.parse s = .ok (.number (.float x)) := by
  split at h
  · rename_i heq
    rw [heq, of_decide_eq_true h]
  · cases h

/-- If the text of a finite number alone is read as the number, so it is everywhere. -/
theorem Number.readsBack_of_parse {x : Float} (hx : x.isFinite = true)
    (h : Value.parse (Value.number (.float x)).text = .ok (.number (.float x))) :
    (Number.float x).ReadsBack := by
  obtain ⟨n, hread⟩ := Parser.anyNumber_finite hx
  have hvalue := Parser.value_number Parser.strict
    (2 * (Number.float x).text.toList.length + 1) (hread [] Parser.ends_nil)
  rw [List.append_nil] at hvalue
  have hparse : Value.parse (Value.number (.float x)).text =
      if Parser.Number.inRange n then .ok (.number n) else .error .malformed := by
    rw [Value.parse, Value.text, String.toList_ofList]
    refine (congrArg Parser.complete hvalue).trans ?_
    cases Parser.Number.inRange n <;> rfl
  rw [hparse] at h
  split at h
  · rename_i hrange
    cases h
    exact ⟨hrange, hread⟩
  · cases h

end Quarry.Json
