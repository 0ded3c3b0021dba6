import Quarry.Json.Tagged
import Quarry.Proofs.Json.Decoding

/-!
Tagged objects as they are printed, with the tag at any place among the members.
-/

namespace Quarry.Json

namespace Body

variable {α : Type} {ms ns : List (String × α)}

theorem theOnly?_perm (h : ms.Perm ns) (k : String) : theOnly? k ms = theOnly? k ns := by
  have hf := h.filter fun m => m.1 == k
  unfold theOnly?
  generalize ms.filter (fun m => m.1 == k) = as at hf
  generalize ns.filter (fun m => m.1 == k) = bs at hf
  cases as with
  | nil => rw [List.nil_perm.1 hf]
  | cons a as =>
    cases as with
    | nil => rw [List.singleton_perm.1 hf]
    | cons a' as =>
      match bs, hf.length_eq with
      | b :: b' :: bs, _ => rfl

theorem take?_perm (h : ms.Perm ns) (ks : List String) :
    (Body.fields ms).take? ks = (Body.fields ns).take? ks := by
  unfold take?
  simp only [theOnly?_perm h]

end Body

namespace Tagged

open Json.Parser Value

variable {kinds : List String} {r : Rules} {fuel : Nat} {rest : List Char}

/-- The tag is found wherever it stands among members that were read. -/
theorem ofMembers?_tagged {α : Type} (value : α → Value) {t : String} {a : α}
    (ha : value a = .string t) (ht : kinds.contains t = true) {before after : List (String × α)}
    (hbefore : ∀ m ∈ before, m.1 ≠ tagName) (hafter : ∀ m ∈ after, m.1 ≠ tagName) :
    ofMembers? kinds value (before ++ (tagName, a) :: after) =
      some ⟨t, .fields (before ++ after)⟩ := by
  have hnone {ms : List (String × α)} (h : ∀ m ∈ ms, m.1 ≠ tagName) :
      (ms.filter fun m => m.1 == tagName) = [] ∧ (ms.filter fun m => m.1 != tagName) = ms :=
    ⟨List.filter_eq_nil_iff.2 (by simpa using h), List.filter_eq_self.2 (by simpa using h)⟩
  have htag : Body.theOnly? tagName (before ++ (tagName, a) :: after) = some a := by
    rw [Body.theOnly?, List.filter_append, List.filter_cons_of_pos (by simp), (hnone hbefore).1,
      (hnone hafter).1]
    rfl
  have hrest : (before ++ (tagName, a) :: after).filter (fun m => m.1 != tagName) =
      before ++ after := by
    rw [List.filter_append, List.filter_cons_of_neg (by simp), (hnone hbefore).2, (hnone hafter).2]
  rw [ofMembers?, htag, Option.bind_eq_bind, Option.bind_some, ha, kind?, if_pos ht, hrest]
  rfl

theorem readKind_string {t : String} (ht : kinds.contains t = true) (cs : List Char) :
    readKind kinds (Printer.string t ++ cs) = .ok (t, cs) := by
  obtain ⟨tail, htail, hread⟩ := stringChars_string strict t cs
  have hleaf : leaf strict (Printer.string t ++ cs) = .ok (.string t, cs) := by
    rw [htail, leaf, skipSpace_cons (by decide)]
    simp only [scalar]
    rw [hread]
    rfl
  refine (bind_of_ok hleaf).trans ?_
  simp only [ht, ↓reduceIte]
  rfl

theorem readMembers_field {k : String} (hk : k ≠ tagName) (kind : Option String) (cs : List Char) :
    readMembers kinds r (fuel + 1) true kind (',' :: (Printer.string k ++ ':' :: cs)) = do
      let (v, cs) ← value r fuel cs
      let ((kind, ms), cs) ← readMembers kinds r fuel true kind cs
      return ((kind, (k, v) :: ms), cs) := by
  conv_lhs => unfold readMembers
  rw [skipSpace_cons (by decide)]
  refine (bind_of_ok (key_string k (':' :: cs))).trans ?_
  simp only [if_neg hk]
  exact bind_of_ok (mark_colon cs)

theorem readMembers_tag {t : String} (ht : kinds.contains t = true) (cs : List Char) :
    readMembers kinds r (fuel + 1) true none
      (',' :: (Printer.string tagName ++ ':' :: (Printer.string t ++ cs))) =
      readMembers kinds r fuel true (some t) cs := by
  conv_lhs => unfold readMembers
  rw [skipSpace_cons (by decide)]
  refine (bind_of_ok (key_string tagName (':' :: (Printer.string t ++ cs)))).trans ?_
  refine (bind_of_ok (mark_colon _)).trans ?_
  exact bind_of_ok (readKind_string ht cs)

/-- The first member is read as if a comma led it, too. -/
theorem readMembers_first (k : String) (kind : Option String) (cs : List Char) :
    readMembers kinds r (fuel + 1) false kind (Printer.string k ++ cs) =
      readMembers kinds r (fuel + 1) true kind (',' :: (Printer.string k ++ cs)) := by
  unfold readMembers
  rw [Printer.string, List.cons_append, List.cons_append, skipSpace_cons (by decide),
    skipSpace_cons (by decide)]
  rfl

theorem readMembers_fields (r : Rules) (kind : Option String) (ms : List (String × Value)) :
    ∀ fuel : Nat, (∀ m ∈ ms, m.1 ≠ tagName) → ReadableMembers ms →
      2 * (Printer.members ms).length ≤ fuel + 1 →
      readMembers kinds r fuel true kind (Printer.members ms ++ rest) =
        within r (nestingMembers ms) (kind, ms) rest := by
  induction ms with
  | nil =>
    intro fuel _ _ hfuel
    simp only [Printer.members, List.length_singleton] at hfuel
    obtain ⟨n, rfl⟩ : ∃ n, fuel = n + 1 := ⟨fuel - 1, by omega⟩
    rw [nestingMembers, within_zero]
    rfl
  | cons m ms ih =>
    intro fuel hname hv hfuel
    obtain ⟨k, v⟩ := m
    obtain ⟨hk, hname⟩ := List.forall_mem_cons.1 hname
    have hlength := length_value_pos hv.1
    simp only [Printer.members, List.length_append, List.length_cons] at hfuel
    obtain ⟨n, rfl⟩ : ∃ n, fuel = n + 2 := ⟨fuel - 2, by omega⟩
    simp only [nestingMembers, Printer.members, List.cons_append, List.append_assoc]
    rw [readMembers_field hk]
    exact within_seq (fun v p => (p.1, (k, v) :: p.2))
      (value_printed r v n hv.1 (ends_members ms rest) (by omega)) (ih (n + 1) hname hv.2 (by omega))

/-- The tag is found wherever it stands. -/
theorem readMembers_tagged (r : Rules) {t : String} (ht : kinds.contains t = true)
    {after : List (String × Value)} (hafter : ∀ m ∈ after, m.1 ≠ tagName)
    (before : List (String × Value)) : ∀ fuel : Nat, (∀ m ∈ before, m.1 ≠ tagName) →
      ReadableMembers (before ++ after) →
      2 * (Printer.members (before ++ (tagName, .string t) :: after)).length ≤ fuel + 1 →
      readMembers kinds r fuel true none
          (Printer.members (before ++ (tagName, .string t) :: after) ++ rest) =
        within r (nestingMembers (before ++ after)) (some t, before ++ after) rest := by
  induction before with
  | nil =>
    intro fuel _ hv hfuel
    simp only [List.nil_append, Printer.members, Printer.value, List.length_append,
      List.length_cons] at hfuel
    obtain ⟨n, rfl⟩ : ∃ n, fuel = n + 1 := ⟨fuel - 1, by omega⟩
    simp only [List.nil_append, Printer.members, Printer.value, List.cons_append, List.append_assoc]
    rw [readMembers_tag ht]
    exact readMembers_fields r (some t) after n hafter hv (by omega)
  | cons m before ih =>
    intro fuel hname hv hfuel
    obtain ⟨k, v⟩ := m
    obtain ⟨hk, hname⟩ := List.forall_mem_cons.1 hname
    have hlength := length_value_pos hv.1
    simp only [List.cons_append, Printer.members, List.length_append, List.length_cons] at hfuel
    obtain ⟨n, rfl⟩ : ∃ n, fuel = n + 2 := ⟨fuel - 2, by omega⟩
    simp only [nestingMembers, Printer.members, List.cons_append, List.append_assoc]
    rw [readMembers_field hk]
    exact within_seq (fun v p => (p.1, (k, v) :: p.2))
      (value_printed r v n hv.1 (ends_members _ rest) (by omega)) (ih (n + 1) hname hv.2 (by omega))

/-- A tagged object is read as its kind and its other members. -/
theorem read_printed {t : String} (ht : kinds.contains t = true)
    {before after : List (String × Value)} (hbefore : ∀ m ∈ before, m.1 ≠ tagName)
    (hafter : ∀ m ∈ after, m.1 ≠ tagName) (hv : ReadableMembers (before ++ after))
    (rest : List Char) :
    read kinds strict
        (Printer.value (.object (before ++ (tagName, .string t) :: after)) ++ rest) =
      within strict (nestingMembers (before ++ after) + 1) ⟨t, .fields (before ++ after)⟩ rest := by
  obtain ⟨m, ms, hms⟩ : ∃ m ms, before ++ (tagName, .string t) :: after = m :: ms :=
    List.exists_cons_of_ne_nil (by simp)
  obtain ⟨tail, hobject, hmembers⟩ := object_cons m ms
  have hfuel : 2 * (Printer.members (m :: ms)).length ≤
      fuelFor (Printer.string m.1 ++ (tail ++ rest)) + 1 := by
    rw [hmembers, fuelFor, ← List.append_assoc, List.length_append, List.length_cons]
    omega
  have hread : readMembers kinds strict.inside (fuelFor (Printer.string m.1 ++ (tail ++ rest)))
      false none (Printer.string m.1 ++ (tail ++ rest)) =
      within strict.inside (nestingMembers (before ++ after)) (some t, before ++ after) rest := by
    rw [← readMembers_tagged strict.inside ht hafter before _ hbefore hv (hms ▸ hfuel), hms,
      hmembers, fuelFor, readMembers_first, List.cons_append, List.append_assoc]
  rw [hms, hobject, List.cons_append, List.append_assoc, read, skipSpace_cons (by decide)]
  simp only [if_neg (show ¬ '\x7b' = '[' by decide), ↓reduceIte]
  unfold within at hread ⊢
  have hiff : nestingMembers (before ++ after) ≤ strict.inside.depth ↔
      nestingMembers (before ++ after) + 1 ≤ strict.depth := Nat.succ_le_succ_iff.symm
  by_cases hn : nestingMembers (before ++ after) ≤ strict.inside.depth
  · rw [if_pos hn] at hread
    rw [if_pos (hiff.1 hn)]
    exact bind_of_ok hread
  · rw [if_neg hn] at hread
    rw [if_neg (fun h => hn (hiff.2 h))]
    exact bind_of_error hread

end Tagged

end Quarry.Json
