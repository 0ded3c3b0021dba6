import Mathlib.Data.String.Basic
import Mathlib.Tactic
import Quarry.Json.Value

/-!
Lists of named values: finding a name, putting one in, leaving one out and sorting.
-/

namespace Quarry.Json

variable {α β : Type}

def names (ms : List (String × α)) : List String := ms.map Prod.fst

@[simp] theorem names_nil : names ([] : List (String × α)) = [] := rfl

@[simp] theorem names_cons (m : String × α) (ms : List (String × α)) :
    names (m :: ms) = m.1 :: names ms := rfl

@[simp] theorem names_append (ms ns : List (String × α)) :
    names (ms ++ ns) = names ms ++ names ns := List.map_append ..

theorem mem_names {m : String × α} {ms : List (String × α)} (h : m ∈ ms) : m.1 ∈ names ms :=
  List.mem_map_of_mem h

@[simp] theorem find?_nil (k : String) : find? k ([] : List (String × α)) = none := rfl

theorem find?_cons (k : String) (m : String × α) (ms : List (String × α)) :
    find? k (m :: ms) = if m.1 = k then some m.2 else find? k ms := by
  by_cases h : m.1 = k <;> simp [find?, h]

theorem mem_names_reverse {k : String} {ms : List (String × α)} :
    k ∈ names ms.reverse ↔ k ∈ names ms := by
  rw [names, List.map_reverse, List.mem_reverse, names]

theorem find?_append (k : String) (ms ns : List (String × α)) :
    find? k (ms ++ ns) = (find? k ms).or (find? k ns) := by
  unfold find?
  rw [List.find?_append, Option.map_or]

theorem find?_eq_none {k : String} {ms : List (String × α)} :
    find? k ms = none ↔ k ∉ names ms := by
  induction ms with
  | nil => simp
  | cons m ms ih =>
    rw [find?_cons, names_cons, List.mem_cons]
    by_cases h : m.1 = k
    · simp [h]
    · simp [h, ih, Ne.symm h]

theorem find?_isSome {k : String} {ms : List (String × α)} :
    (find? k ms).isSome ↔ k ∈ names ms := by
  rw [Option.isSome_iff_ne_none, ne_eq, find?_eq_none, not_not]

theorem mem_of_find? {k : String} {a : α} {ms : List (String × α)} (h : find? k ms = some a) :
    (k, a) ∈ ms := by
  induction ms with
  | nil => simp at h
  | cons m ms ih =>
    rw [find?_cons] at h
    split at h
    · rename_i hk
      obtain rfl := Option.some.inj h
      exact List.mem_cons.2 (.inl (Prod.ext hk.symm rfl))
    · exact List.mem_cons_of_mem _ (ih h)

theorem find?_of_mem {k : String} {a : α} {ms : List (String × α)} (hd : (names ms).Nodup)
    (h : (k, a) ∈ ms) : find? k ms = some a := by
  induction ms with
  | nil => simp at h
  | cons m ms ih =>
    obtain ⟨hm, hd⟩ := List.nodup_cons.1 hd
    rw [find?_cons]
    rcases List.mem_cons.1 h with rfl | h
    · simp
    · rw [if_neg, ih hd h]
      rintro rfl
      have hn := mem_names h
      exact hm hn

theorem find?_iff_mem {k : String} {a : α} {ms : List (String × α)} (hd : (names ms).Nodup) :
    find? k ms = some a ↔ (k, a) ∈ ms :=
  ⟨mem_of_find?, find?_of_mem hd⟩

theorem find?_reverse {ms : List (String × α)} (hd : (names ms).Nodup) (k : String) :
    find? k ms.reverse = find? k ms := by
  have hd' : (names ms.reverse).Nodup := by
    rw [names, List.map_reverse]
    exact List.nodup_reverse.2 hd
  ext a
  rw [find?_iff_mem hd', find?_iff_mem hd, List.mem_reverse]

theorem find?_map (f : α → β) (k : String) (ms : List (String × α)) :
    find? k (ms.map fun m => (m.1, f m.2)) = (find? k ms).map f := by
  induction ms with
  | nil => rfl
  | cons m ms ih =>
    rw [List.map_cons, find?_cons, find?_cons, ih]
    split <;> rfl

theorem names_map (f : α → β) (ms : List (String × α)) :
    names (ms.map fun m => (m.1, f m.2)) = names ms := by
  simp [names, Function.comp_def]

/-! ### Putting a member in, and leaving one out -/

/-- Puts a member in the place of the one with the same name, or after all others. -/
def put (k : String) (a : α) : List (String × α) → List (String × α)
  | [] => [(k, a)]
  | (j, b) :: ms => if j = k then (k, a) :: ms else (j, b) :: put k a ms

theorem find?_put (k j : String) (a : α) (ms : List (String × α)) :
    find? j (put k a ms) = if k = j then some a else find? j ms := by
  induction ms with
  | nil => simp [put, find?_cons]
  | cons m ms ih =>
    obtain ⟨i, b⟩ := m
    by_cases hi : i = k
    · subst hi
      simp only [put, ↓reduceIte, find?_cons]
      split <;> rfl
    · simp only [put, hi, ↓reduceIte, find?_cons, ih]
      by_cases hj : i = j
      · subst hj
        simp [Ne.symm hi]
      · simp [hj]

theorem put_of_not_mem {k : String} (a : α) {ms : List (String × α)} (h : k ∉ names ms) :
    put k a ms = ms ++ [(k, a)] := by
  induction ms with
  | nil => rfl
  | cons m ms ih =>
    rw [names_cons, List.mem_cons, not_or] at h
    simp [put, Ne.symm h.1, ih h.2]

theorem names_put_of_mem {k : String} (a : α) {ms : List (String × α)} (h : k ∈ names ms) :
    names (put k a ms) = names ms := by
  induction ms with
  | nil => simp at h
  | cons m ms ih =>
    by_cases hm : m.1 = k
    · simp [put, hm]
    · rw [names_cons, List.mem_cons] at h
      simp [put, hm, ih (h.resolve_left (Ne.symm hm))]

theorem nodup_put (k : String) (a : α) {ms : List (String × α)} (h : (names ms).Nodup) :
    (names (put k a ms)).Nodup := by
  by_cases hk : k ∈ names ms
  · rwa [names_put_of_mem a hk]
  · rw [put_of_not_mem a hk, names_append]
    refine List.nodup_append.2 ⟨h, by simp, ?_⟩
    rintro b hb c hc rfl
    simp only [names_cons, names_nil, List.mem_singleton] at hc
    exact hk (hc ▸ hb)

theorem mem_put {k : String} {a : α} {ms : List (String × α)} {m : String × α}
    (h : m ∈ put k a ms) : m = (k, a) ∨ m ∈ ms := by
  induction ms with
  | nil => exact .inl (by simpa [put] using h)
  | cons n ms ih =>
    obtain ⟨i, b⟩ := n
    rw [put] at h
    split at h
    · rcases List.mem_cons.1 h with rfl | h
      · exact .inl rfl
      · exact .inr (List.mem_cons_of_mem _ h)
    · rcases List.mem_cons.1 h with rfl | h
      · exact .inr List.mem_cons_self
      · exact (ih h).imp_right (List.mem_cons_of_mem _)

def erase (k : String) (ms : List (String × α)) : List (String × α) := ms.eraseP (·.1 == k)

theorem erase_cons (k : String) (m : String × α) (ms : List (String × α)) :
    erase k (m :: ms) = if m.1 = k then ms else m :: erase k ms := by
  by_cases h : m.1 = k <;> simp [erase, h]

theorem mem_of_mem_erase {k : String} {ms : List (String × α)} {m : String × α}
    (h : m ∈ erase k ms) : m ∈ ms := List.mem_of_mem_eraseP h

theorem nodup_erase (k : String) {ms : List (String × α)} (h : (names ms).Nodup) :
    (names (erase k ms)).Nodup :=
  h.sublist (List.eraseP_sublist.map _)

theorem find?_erase {ms : List (String × α)} (h : (names ms).Nodup) (k j : String) :
    find? j (erase k ms) = if k = j then none else find? j ms := by
  induction ms with
  | nil => simp [erase]
  | cons m ms ih =>
    obtain ⟨hm, hd⟩ := List.nodup_cons.1 h
    rw [erase_cons]
    by_cases hk : m.1 = k
    · subst hk
      rw [if_pos rfl]
      by_cases hj : m.1 = j
      · subst hj
        rw [if_pos rfl, find?_eq_none]
        exact hm
      · rw [if_neg hj, find?_cons, if_neg hj]
    · rw [if_neg hk, find?_cons, ih hd, find?_cons]
      by_cases hj : m.1 = j
      · subst hj
        simp [Ne.symm hk]
      · simp [hj]

/-- Puts a member in, leaves it out, or does neither, by what there is with its name. -/
def alter (k : String) (f : Option α → Option (Option α)) (ms : List (String × α)) :
    Option (List (String × α)) :=
  (f (find? k ms)).map fun out =>
    match out with
    | some a => put k a ms
    | none => erase k ms

section Alter

variable {k : String} {f : Option α → Option (Option α)} {ms ms' : List (String × α)}

theorem alter_cons_self (a : α) (ms : List (String × α)) :
    alter k f ((k, a) :: ms) = (f (some a)).map fun out => (out.map (Prod.mk k)).toList ++ ms := by
  rw [alter, find?_cons, if_pos rfl]
  congr 1
  funext out
  cases out with
  | none => simp [erase_cons]
  | some b => simp [put]

theorem alter_cons_of_ne {j : String} (h : j ≠ k) (a : α) (ms : List (String × α)) :
    alter k f ((j, a) :: ms) = (alter k f ms).map ((j, a) :: ·) := by
  rw [alter, find?_cons, if_neg h, alter, Option.map_map]
  congr 1
  funext out
  cases out with
  | none => simp [erase_cons, h]
  | some b => simp [put, h]

theorem find?_alter (hms : (names ms).Nodup) (h : alter k f ms = some ms') (j : String) :
    (if k = j then f (find? k ms) else some (find? j ms)) = some (find? j ms') := by
  obtain ⟨out, hout, rfl⟩ := Option.map_eq_some_iff.1 h
  cases out with
  | none =>
    rw [find?_erase hms]
    split
    · exact hout
    · rfl
  | some a =>
    rw [find?_put]
    split
    · exact hout
    · rfl

theorem isSome_alter : (alter k f ms).isSome = (f (find? k ms)).isSome := by
  rw [alter, Option.isSome_map]

theorem nodup_alter (hms : (names ms).Nodup) (h : alter k f ms = some ms') :
    (names ms').Nodup := by
  obtain ⟨out, hout, rfl⟩ := Option.map_eq_some_iff.1 h
  cases out with
  | none => exact nodup_erase k hms
  | some a => exact nodup_put k a hms

theorem mem_alter {m : String × α} (h : alter k f ms = some ms') (hm : m ∈ ms') :
    (m.1 = k ∧ f (find? k ms) = some (some m.2)) ∨ m ∈ ms := by
  obtain ⟨out, hout, rfl⟩ := Option.map_eq_some_iff.1 h
  cases out with
  | none => exact .inr (mem_of_mem_erase hm)
  | some a =>
    rcases mem_put hm with rfl | hm
    · exact .inl ⟨rfl, hout⟩
    · exact .inr hm

end Alter

/-! ### Sorting -/

def Sorted (ms : List (String × α)) : Prop := ms.Pairwise fun m n => m.1 < n.1

theorem Sorted.nodup {ms : List (String × α)} (h : Sorted ms) : (names ms).Nodup :=
  List.pairwise_map.2 (List.Pairwise.imp (fun hlt => ne_of_lt hlt) h)

theorem find?_insertMember (k j : String) (a : α) (ms : List (String × α)) :
    find? j (insertMember k a ms) = if k = j then some a else find? j ms := by
  induction ms with
  | nil => rw [insertMember, find?_cons]
  | cons m ms ih =>
    obtain ⟨i, b⟩ := m
    rw [insertMember]
    split
    · rw [find?_cons]
    · split
      · rename_i hk
        subst hk
        rw [find?_cons, find?_cons]
        split <;> rfl
      · rename_i hk
        rw [find?_cons, find?_cons, ih]
        by_cases hi : i = j
        · subst hi
          simp [hk]
        · simp [hi]

theorem mem_insertMember {k : String} {a : α} {ms : List (String × α)} {m : String × α}
    (h : m ∈ insertMember k a ms) : m = (k, a) ∨ m ∈ ms := by
  induction ms with
  | nil => exact .inl (by simpa [insertMember] using h)
  | cons n ms ih =>
    obtain ⟨i, b⟩ := n
    rw [insertMember] at h
    split at h
    · exact List.mem_cons.1 h
    · split at h
      · rcases List.mem_cons.1 h with rfl | h
        · exact .inl rfl
        · exact .inr (List.mem_cons_of_mem _ h)
      · rcases List.mem_cons.1 h with rfl | h
        · exact .inr List.mem_cons_self
        · exact (ih h).imp_right (List.mem_cons_of_mem _)

theorem sorted_insertMember (k : String) (a : α) {ms : List (String × α)} (h : Sorted ms) :
    Sorted (insertMember k a ms) := by
  induction ms with
  | nil => exact List.pairwise_singleton _ _
  | cons m ms ih =>
    obtain ⟨i, b⟩ := m
    obtain ⟨hm, hs⟩ := List.pairwise_cons.1 h
    rw [insertMember]
    split
    · rename_i hlt
      refine List.pairwise_cons.2 ⟨fun n hn => ?_, h⟩
      rcases List.mem_cons.1 hn with rfl | hn
      · exact hlt
      · exact hlt.trans (hm n hn)
    · rename_i hlt
      split
      · rename_i hk
        subst hk
        exact List.pairwise_cons.2 ⟨hm, hs⟩
      · rename_i hk
        refine List.pairwise_cons.2 ⟨fun n hn => ?_, ih hs⟩
        rcases mem_insertMember hn with rfl | hn
        · exact lt_of_le_of_ne (not_lt.1 hlt) (Ne.symm hk)
        · exact hm n hn

theorem sortMembers_append (ms : List (String × α)) (m : String × α) :
    sortMembers (ms ++ [m]) = insertMember m.1 m.2 (sortMembers ms) := by
  rw [sortMembers, List.foldl_append]
  rfl

theorem sorted_sortMembers (ms : List (String × α)) : Sorted (sortMembers ms) := by
  induction ms using List.reverseRecOn with
  | nil => exact List.Pairwise.nil
  | append_singleton ms m ih =>
    rw [sortMembers_append]
    exact sorted_insertMember _ _ ih

/-- Of repeated names the last counts. -/
theorem find?_sortMembers (j : String) (ms : List (String × α)) :
    find? j (sortMembers ms) = find? j ms.reverse := by
  induction ms using List.reverseRecOn with
  | nil => rfl
  | append_singleton ms m ih =>
    rw [sortMembers_append, find?_insertMember, ih, List.reverse_append, List.reverse_singleton,
      List.singleton_append, find?_cons]

theorem eq_of_sorted {ms ns : List (String × α)} (hm : Sorted ms) (hn : Sorted ns)
    (h : ∀ k, find? k ms = find? k ns) : ms = ns := by
  have hmem : ∀ m, m ∈ ms ↔ m ∈ ns := by
    intro m
    rw [← find?_iff_mem hm.nodup, ← find?_iff_mem hn.nodup, h]
  have hperm : ms.Perm ns :=
    (List.perm_ext_iff_of_nodup (List.Nodup.of_map _ hm.nodup) (List.Nodup.of_map _ hn.nodup)).2 hmem
  exact hperm.eq_of_pairwise (fun a b _ _ hab hba => absurd (hab.trans hba) (lt_irrefl _)) hm hn

/-- Lists of members that agree on every name are sorted alike. -/
theorem sortMembers_congr {ms ns : List (String × α)} (hm : (names ms).Nodup)
    (hn : (names ns).Nodup) (h : ∀ k, find? k ms = find? k ns) :
    sortMembers ms = sortMembers ns := by
  refine eq_of_sorted (sorted_sortMembers ms) (sorted_sortMembers ns) fun k => ?_
  rw [find?_sortMembers, find?_sortMembers, find?_reverse hm, find?_reverse hn, h]

end Quarry.Json
