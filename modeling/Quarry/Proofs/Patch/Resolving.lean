import Quarry.Patch.Patcher
import Quarry.Proofs.Document.Reading
import Quarry.Proofs.Patch.Disjoint

/-!
What the targets of a patch put in place, and where they have it from.
-/

namespace Quarry.Patch

open Text

/-- What holds of the texts that a patch puts in place, as long as it holds of the values in the
patch: it passes from a text to those of its parts, and the parts of the document have it. -/
structure Inherited (input : Bytes) (depth : Nat) (P : Bytes → Prop) : Prop where
  part : ∀ {bs : Bytes} {d : Document} {q : List String} {n : Quarry.Node}, P bs →
    Document.read depth bs = .ok d → d.pointer? q = some n → P (n.span.of bs)
  document : ∀ {d : Document} {q : List String} {n : Quarry.Node},
    Document.read depth input = .ok d → d.pointer? q = some n → P (n.span.of input)

/-- The texts of an operation. -/
def Operation.Holds (P : Bytes → Prop) : Operation → Prop
  | .replace _ value => P (bytes value.text)
  | .add _ value => P (bytes value.text)
  | _ => True

namespace Resolving

/-- The document is the one that was read, and what the targets put in place satisfies `P`. -/
structure Keeps (input : Bytes) (depth : Nat) (P : Bytes → Prop) (r : Resolving) : Prop where
  document : ∀ d, r.document = some d → Document.read depth input = .ok d
  payload : ∀ t ∈ r.targets, ∀ bs, t.edit.value? = some bs → P bs

variable {input text : Bytes} {depth : Nat} {P : Bytes → Prop} {r r' : Resolving}
  {tokens : List String} {path op : String}

theorem keeps_start (input : Bytes) (depth : Nat) (P : Bytes → Prop) :
    Keeps input depth P ⟨none, []⟩ :=
  ⟨by simp, by simp⟩

theorem Keeps.push (h : r.Keeps input depth P) {t : Target}
    (ht : ∀ bs, t.edit.value? = some bs → P bs) : (r.push t).Keeps input depth P := by
  refine ⟨h.document, ?_⟩
  intro u hu
  rcases List.mem_cons.1 hu with rfl | hu
  · exact ht
  · exact h.payload u hu

theorem Keeps.eraseIdx (h : r.Keeps input depth P) (i : Nat) :
    Keeps input depth P { r with targets := r.targets.eraseIdx i } := by
  refine ⟨h.document, ?_⟩
  intro u hu
  exact h.payload u (List.eraseIdx_subset hu)

theorem raw_textAt {bs : Bytes} {d : Document} (h : textAt bs d tokens = .raw text) :
    ∃ n, d.pointer? tokens = some n ∧ text = n.span.of bs := by
  rw [textAt] at h
  split at h
  · rename_i n hn
    cases h
    exact ⟨n, hn, rfl⟩
  · cases h

theorem raw_textIn {bs : Bytes} (hP : Inherited input depth P) (hbs : P bs)
    (h : textIn depth bs tokens = .ok (.raw text)) : P text := by
  rw [textIn] at h
  split at h
  · cases h
    exact hbs
  · split at h
    · rename_i d hd
      obtain ⟨n, hn, rfl⟩ := raw_textAt (Except.ok.inj h)
      exact hP.part hbs hd hn
    · cases h

theorem raw_decided {ts : List Target} (hP : Inherited input depth P)
    (hts : ∀ t ∈ ts, ∀ bs, t.edit.value? = some bs → P bs)
    (h : decided depth tokens ts = some (.ok (.raw text))) : P text := by
  induction ts with
  | nil => cases h
  | cons t ts ih =>
    rw [List.forall_mem_cons] at hts
    rw [decided] at h
    split at h
    · split at h
      · cases h
      · rename_i rest _ hkind
        have hvalue : t.edit.value? = some t.edit.payload := by
          rw [Edit.value?]
          cases hk : t.edit.kind <;> simp_all
        exact raw_textIn hP (hts.1 _ hvalue) (Option.some.inj h)
    · split at h
      · cases h
      · exact ih hts.2 h

/-- Looking a value up changes nothing but that the document may have been read. -/
theorem targets_current (input : Bytes) (depth : Nat) (tokens : List String) (r : Resolving) :
    (r.current input depth tokens).2.targets = r.targets := by
  rw [current]
  split
  · rfl
  · split
    · rfl
    · split <;> rfl

theorem keeps_current (h : r.Keeps input depth P) (tokens : List String) :
    (r.current input depth tokens).2.Keeps input depth P := by
  refine ⟨?_, targets_current input depth tokens r ▸ h.payload⟩
  rw [current]
  split
  · exact h.document
  · split
    · exact h.document
    · split
      · exact h.document
      · rename_i d hd
        intro d' hd'
        rwa [← Option.some.inj hd']

theorem raw_current (hP : Inherited input depth P) (h : r.Keeps input depth P)
    (hc : r.current input depth tokens = (.ok (.raw text), r')) : P text := by
  rw [current] at hc
  split at hc
  · rename_i c hd
    obtain ⟨rfl, -⟩ := Prod.mk.inj hc
    exact raw_decided hP h.payload hd
  · split at hc
    · rename_i d hd
      obtain ⟨n, hn, rfl⟩ := raw_textAt (Except.ok.inj (Prod.mk.inj hc).1)
      exact hP.document (h.document d hd) hn
    · split at hc
      · cases hc
      · rename_i d hd
        obtain ⟨n, hn, rfl⟩ := raw_textAt (Except.ok.inj (Prod.mk.inj hc).1)
        exact hP.document hd hn

theorem targets_valueAt {a : Except Error Bytes}
    (h : r.valueAt input depth path op = (a, r')) : r'.targets = r.targets := by
  rw [valueAt] at h
  split at h
  · cases h
    rfl
  · rename_i tokens _
    have hc := targets_current input depth tokens r
    split at h <;> rename_i heq <;> cases h <;> rw [heq] at hc <;> exact hc

theorem keeps_valueAt (h : r.Keeps input depth P) (path op : String) :
    (r.valueAt input depth path op).2.Keeps input depth P := by
  rw [valueAt]
  split
  · exact h
  · rename_i tokens _
    have hc := keeps_current h tokens
    split <;> rename_i heq <;> rw [heq] at hc <;> exact hc

theorem ok_valueAt (hP : Inherited input depth P) (h : r.Keeps input depth P)
    (hv : r.valueAt input depth path op = (.ok text, r')) : P text := by
  rw [valueAt] at hv
  split at hv
  · cases hv
  · split at hv
    · cases hv
    · rename_i heq
      cases hv
      exact raw_current hP h heq
    · cases hv
    · cases hv

theorem keeps_pushEdit {kind : EditKind} {payload : Bytes} (h : r.Keeps input depth P)
    (hp : P payload) : (r.pushEdit kind path payload).2.Keeps input depth P := by
  rw [pushEdit]
  split
  · rename_i t ht
    apply h.push
    intro bs hbs
    rw [Target.make] at ht
    split at ht
    · cases ht
      cases kind <;> simp_all [Edit.value?]
    · cases ht
  · exact h

theorem keeps_remove (h : r.Keeps input depth P) (path : String) :
    (r.remove input depth path).2.Keeps input depth P := by
  rw [remove]
  split
  · exact h
  rename_i t ht
  have hpush : ∀ {r : Resolving}, r.Keeps input depth P → (r.push t).Keeps input depth P := by
    intro r h
    apply h.push
    intro bs hbs
    rw [Target.make] at ht
    split at ht
    · cases ht
      cases hbs
    · cases ht
  split
  · exact hpush h
  · rename_i i _
    have hc := keeps_current (h.eraseIdx i) t.tokens
    split <;> rename_i heq <;> rw [heq] at hc
    · exact hc
    · exact hc
    · exact hpush hc

theorem keeps_operation {o : Operation} (hP : Inherited input depth P) (h : r.Keeps input depth P)
    (ho : o.Holds P) : (operation input depth o r).2.Keeps input depth P := by
  cases o with
  | replace path value => exact keeps_pushEdit h ho
  | add path value => exact keeps_pushEdit h ho
  | remove path => exact keeps_remove h path
  | copy source path =>
    have hv := keeps_valueAt h source "copy"
    simp only [operation]
    split <;> rename_i heq <;> rw [heq] at hv
    · exact hv
    · exact keeps_pushEdit hv (ok_valueAt hP h heq)
  | move source path =>
    simp only [operation]
    split
    · exact h
    have hv := keeps_valueAt h source "move"
    split <;> rename_i heq <;> rw [heq] at hv
    · exact hv
    · have hr := keeps_remove hv source
      split <;> rename_i hremove <;> rw [hremove] at hr
      · exact hr
      · exact keeps_pushEdit hr (ok_valueAt hP h heq)
  | test path value =>
    have hv := keeps_valueAt h path "test"
    simp only [operation]
    split <;> rename_i heq <;> rw [heq] at hv
    · exact hv
    · split <;> exact hv

theorem keeps_operations {ops : List Operation} (hP : Inherited input depth P)
    (hops : ∀ o ∈ ops, o.Holds P) (h : r.Keeps input depth P) :
    (operations input depth ops r).2.Keeps input depth P := by
  induction ops generalizing r with
  | nil => exact h
  | cons o ops ih =>
    rw [List.forall_mem_cons] at hops
    have ho := keeps_operation hP h hops.1
    rw [operations]
    split <;> rename_i heq <;> rw [heq] at ho
    · exact ho
    · exact ih hops.2 ho

end Resolving

end Quarry.Patch
