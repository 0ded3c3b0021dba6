import Quarry.Pointer

/-!
A pointer is written in one way only.
-/

namespace Quarry

namespace Text

theorem not_mem_of_mem_split {sep : Char} {cs p : List Char} (h : p ∈ split sep cs) : sep ∉ p := by
  induction cs generalizing p with
  | nil =>
    obtain rfl := List.mem_singleton.1 h
    simp
  | cons c cs ih =>
    rw [split] at h
    split at h
    · rcases List.mem_cons.1 h with rfl | h
      · simp
      · exact ih h
    · rename_i hc
      split at h
      · obtain rfl := List.mem_singleton.1 h
        simpa using Ne.symm hc
      · rename_i q qs hq
        rw [hq] at ih
        rcases List.mem_cons.1 h with rfl | h
        · have hnot := ih List.mem_cons_self
          simp only [List.mem_cons, not_or]
          exact ⟨Ne.symm hc, hnot⟩
        · exact ih (List.mem_cons_of_mem q h)

theorem cons_glue {sep : Char} {ps : List (List Char)} (h : ps ≠ []) :
    sep :: glue sep ps = ps.flatMap fun p => sep :: p := by
  induction ps with
  | nil => exact absurd rfl h
  | cons p ps ih =>
    cases ps with
    | nil => simp [glue]
    | cons q qs =>
      have hglue := ih (by simp)
      rw [glue, List.flatMap_cons, ← hglue]
      rfl

end Text

namespace Pointer

open Text

theorem escape_of_unescape? {cs ds : List Char} (hc : '/' ∉ cs) (h : unescape? cs = some ds) :
    escape ds = cs := by
  fun_induction unescape? cs generalizing ds with
  | case1 =>
    obtain rfl := Option.some.inj h
    rfl
  | case2 cs ih =>
    obtain ⟨es, hes, rfl⟩ := Option.map_eq_some_iff.1 h
    rw [escape, ih (by simp_all) hes]
  | case3 cs ih =>
    obtain ⟨es, hes, rfl⟩ := Option.map_eq_some_iff.1 h
    rw [escape, ih (by simp_all) hes]
  | case4 cs h1 h2 => simp at h
  | case5 c cs h1 h2 htilde ih =>
    obtain ⟨es, hes, rfl⟩ := Option.map_eq_some_iff.1 h
    have hslash : c ≠ '/' := by
      rintro rfl
      simp at hc
    rw [escape, ih (by simp_all) hes]
    · exact htilde
    · exact hslash

theorem flatMap_escape {ps : List (List Char)} {ts : List String} (hps : ∀ p ∈ ps, '/' ∉ p)
    (h : (ps.mapM fun p => (unescape? p).map String.ofList) = some ts) :
    (ps.flatMap fun p => '/' :: p) = ts.flatMap fun t => '/' :: escape t.toList := by
  induction ps generalizing ts with
  | nil =>
    obtain rfl := Option.some.inj h
    rfl
  | cons p ps ih =>
    rw [List.forall_mem_cons] at hps
    rw [List.mapM_cons] at h
    obtain ⟨t, ht, h⟩ := Option.bind_eq_some_iff.1 h
    obtain ⟨us, hus, h⟩ := Option.bind_eq_some_iff.1 h
    obtain rfl := Option.some.inj h
    obtain ⟨ds, hds, rfl⟩ := Option.map_eq_some_iff.1 ht
    rw [List.flatMap_cons, List.flatMap_cons, ih hps.2 hus, String.toList_ofList,
      escape_of_unescape? hps.1 hds]

theorem toList_of_parse? {s : String} {ts : List String} (h : parse? s = some ts) :
    s.toList = ts.flatMap fun t => '/' :: escape t.toList := by
  rw [parse?] at h
  split at h
  · rename_i hs
    obtain rfl := Option.some.inj h
    rw [hs]
    rfl
  · rename_i cs hs
    rw [hs, ← flatMap_escape (fun p hp => not_mem_of_mem_split hp) h,
      ← cons_glue (split_ne_nil '/' cs), glue_split]
  · cases h

/-- What lies within a place has a pointer that goes on behind a slash. -/
theorem slash_within {s s' : String} {p q : List String} (hs : parse? s = some p)
    (hs' : parse? s' = some q) (hne : p ≠ q) (h : p <+: q) :
    s.toList ++ ['/'] <+: s'.toList := by
  obtain ⟨us, rfl⟩ := h
  cases us with
  | nil => simp at hne
  | cons t us =>
    rw [toList_of_parse? hs, toList_of_parse? hs', List.flatMap_append, List.flatMap_cons]
    exact ⟨escape t.toList ++ us.flatMap fun t => '/' :: escape t.toList, by simp⟩

end Pointer

end Quarry
