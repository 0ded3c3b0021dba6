import Quarry.Proofs.Patch.Edited
import Quarry.Proofs.Patch.Splicing

/-!
The targets of a patch in a tree, and the pass with this tree over the text.
-/

namespace Quarry.Patch

open Json Content

/-- The latest edit at a place or around it; the latest target stands first. -/
def foremost : List Target → List String → Option (Edit × List String)
  | [], _ => none
  | t :: ts, q =>
    match after? t.tokens q with
    | some rest => some (t.edit, rest)
    | none => foremost ts q

/-- One of two places lies within the other. -/
def Crossing (p q : List String) : Prop := p ≠ q ∧ (p <+: q ∨ q <+: p)

theorem Crossing.symm {p q : List String} (h : Crossing p q) : Crossing q p :=
  ⟨h.1.symm, h.2.symm⟩

def Uncrossed (ts : List Target) : Prop := ∀ t ∈ ts, ∀ u ∈ ts, ¬ Crossing t.tokens u.tokens

theorem mem_of_foremost {ts : List Target} {p : List String} {e : Edit}
    (h : foremost ts p = some (e, [])) : ∃ t ∈ ts, t.tokens = p ∧ t.edit = e := by
  induction ts with
  | nil => cases h
  | cons t ts ih =>
    rw [foremost] at h
    split at h
    · rename_i rest hrest
      simp only [Option.some.injEq, Prod.mk.injEq] at h
      obtain ⟨rfl, rfl⟩ := h
      rw [after?_eq_some, List.append_nil] at hrest
      exact ⟨t, List.mem_cons_self, hrest.symm, rfl⟩
    · obtain ⟨u, hu, hp, he⟩ := ih h
      exact ⟨u, List.mem_cons_of_mem t hu, hp, he⟩

theorem exists_foremost {ts : List Target} (h : Uncrossed ts) {t : Target} (ht : t ∈ ts) :
    ∃ e, foremost ts t.tokens = some (e, []) := by
  induction ts with
  | nil => cases ht
  | cons u ts ih =>
    rw [foremost]
    split
    · rename_i rest hrest
      have hcross := h t ht u List.mem_cons_self
      rw [after?_eq_some] at hrest
      have heq : t.tokens = u.tokens := by
        by_contra hne
        exact hcross ⟨hne, .inr ⟨rest, hrest.symm⟩⟩
      rw [heq] at hrest
      obtain rfl : rest = [] := by simpa using hrest
      exact ⟨u.edit, rfl⟩
    · rename_i hnone
      have hne : t ≠ u := by
        rintro rfl
        rw [after?_eq_none] at hnone
        exact hnone List.prefix_rfl
      apply ih
      · intro a ha b hb
        exact h a (List.mem_cons_of_mem u ha) b (List.mem_cons_of_mem u hb)
      · exact (List.mem_cons.1 ht).resolve_left hne

/-- A tree in which each place has its latest edit, also if that is the root. -/
structure Bears (ts : List Target) (n : Node) : Prop where
  sound : n.Sound
  along : ∀ q, n.along q = foremost ts q
  uncrossed : Uncrossed ts

theorem bears_leaf (id : Nat) : Bears [] (.leaf id) where
  sound := .leaf id
  along q := Node.along_leaf id q
  uncrossed := by simp [Uncrossed]

section Bears

variable {ts : List Target} {n n' : Node} {t : Target} {next next' stop : Nat}

theorem Bears.not_crossing (h : Bears ts n)
    (hins : n.insert t.edit t.tokens next = some (n', next', stop)) :
    ∀ u ∈ ts, ¬ Crossing u.tokens t.tokens := by
  rintro u hu ⟨hne, hpre⟩
  obtain ⟨e, he⟩ := exists_foremost h.uncrossed hu
  rw [← h.along] at he
  rcases Node.apart_of_insert h.sound hins he with heq | ⟨h1, h2⟩
  · exact hne heq
  · exact hpre.elim h1 h2

theorem Bears.exists_crossing (h : Bears ts n) (hins : n.insert t.edit t.tokens next = none) :
    ∃ u ∈ ts, Crossing u.tokens t.tokens := by
  obtain ⟨q, f, hq, hne, hpre⟩ := Node.exists_of_insert_none h.sound hins
  rw [h.along] at hq
  obtain ⟨u, hu, rfl, -⟩ := mem_of_foremost hq
  exact ⟨u, hu, hne, hpre⟩

theorem Bears.insert (h : Bears ts n)
    (hins : n.insert t.edit t.tokens next = some (n', next', stop)) : Bears (t :: ts) n' where
  sound := .grown (Node.grown_insert h.sound hins)
  along q := by
    cases hafter : after? t.tokens q <;>
      simp only [Node.along_insert hins, foremost, h.along, hafter]
  uncrossed := by
    intro a ha b hb
    rcases List.mem_cons.1 ha with rfl | ha
    · rcases List.mem_cons.1 hb with rfl | hb
      · intro hc
        exact hc.1 rfl
      · intro hc
        exact h.not_crossing hins b hb hc.symm
    · rcases List.mem_cons.1 hb with hb | hb
      · rw [hb]
        exact h.not_crossing hins a ha
      · exact h.uncrossed a ha b hb

theorem Bears.grown (h : Bears ts n) (hts : ts ≠ []) : n.Grown := by
  cases h.sound with
  | leaf id =>
    obtain ⟨t, ts, rfl⟩ := List.exists_cons_of_ne_nil hts
    obtain ⟨e, he⟩ := exists_foremost h.uncrossed (List.mem_cons_self (a := t) (l := ts))
    rw [← h.along, Node.along_leaf] at he
    cases he
  | grown h => exact h

end Bears

/-- A tree with the latest edit of each place. -/
structure Gathers (ts : List Target) (n : Node) : Prop where
  sound : n.Sound
  edit : n.edit = none
  along : ∀ q, n.along q = foremost ts q
  uncrossed : Uncrossed ts
  every : ∀ P : Edit → Prop, (∀ t ∈ ts, P t.edit) → n.Every P

theorem gathers_leaf (id : Nat) : Gathers [] (.leaf id) where
  sound := .leaf id
  edit := rfl
  along q := Node.along_leaf id q
  uncrossed := by simp [Uncrossed]
  every P _ := .make nofun (by simp)

section Gathers

variable {ts : List Target} {n n' : Node} {t : Target} {next next' stop : Nat}

theorem Gathers.bears (h : Gathers ts n) : Bears ts n := ⟨h.sound, h.along, h.uncrossed⟩

theorem Gathers.insert (h : Gathers ts n) (hp : t.tokens ≠ [])
    (hins : n.insert t.edit t.tokens next = some (n', next', stop)) : Gathers (t :: ts) n' where
  sound := (h.bears.insert hins).sound
  edit := by
    obtain ⟨u, us, hu⟩ := List.exists_cons_of_ne_nil hp
    rw [hu] at hins
    obtain ⟨-, -, -, -, -, -, rfl⟩ := Node.insert_cons hins
    rfl
  along := (h.bears.insert hins).along
  uncrossed := (h.bears.insert hins).uncrossed
  every P hP := by
    apply Node.every_insert (hP t List.mem_cons_self)
    · exact h.every P fun u hu => hP u (List.mem_cons_of_mem t hu)
    · exact hins

theorem Gathers.children_eq_nil (h : Gathers ts n) : n.children = [] ↔ ts = [] := by
  constructor
  · intro hnil
    by_contra hts
    cases h.bears.grown hts with
    | edit id e => cases h.edit
    | inner nonempty nodup all => exact nonempty hnil
  · rintro rfl
    cases h.sound with
    | leaf id => rfl
    | grown hg =>
      obtain ⟨p, e, hp⟩ := hg.exists_along
      rw [h.along] at hp
      cases hp

end Gathers

/-! ### Merging -/

namespace Patcher

/-- The targets after the latest one of the whole document. -/
def survivors (ts : List Target) : List Target := ts.takeWhile fun t => !t.tokens.isEmpty

/-- What these targets are made in. -/
def base (input : Text.Bytes) (ts : List Target) : Text.Bytes :=
  match ts.find? fun t => t.tokens.isEmpty with
  | some t => t.edit.payload
  | none => input

section Merge

variable {input source : Text.Bytes} {tree : Tree} {ts : List Target} {e : Error}

theorem merge_append (us vs : List Target) (source : Text.Bytes) (tree : Tree) :
    merge (us ++ vs) source tree =
      match merge us source tree with
      | .ok (source, tree) => merge vs source tree
      | .error e => .error e := by
  induction us generalizing source tree with
  | nil => rfl
  | cons t us ih =>
    rw [List.cons_append, merge, merge]
    split
    · split
      · rfl
      · exact ih _ _
    · cases tree.insert t.tokens t.edit with
      | error e => rfl
      | ok x => exact ih _ _

theorem merge_ok (h : merge ts.reverse input .empty = .ok (source, tree)) :
    source = base input ts ∧ Gathers (survivors ts) tree.root ∧
      ∀ t ∈ ts, t.tokens = [] → t.edit.kind ≠ .remove := by
  induction ts generalizing source tree with
  | nil =>
    simp only [List.reverse_nil, merge, Except.ok.injEq, Prod.mk.injEq] at h
    obtain ⟨rfl, rfl⟩ := h
    exact ⟨rfl, gathers_leaf 0, by simp⟩
  | cons t ts ih =>
    rw [List.reverse_cons, merge_append] at h
    split at h
    · rename_i source' tree' hm
      obtain ⟨hsource, hgathers, hroots⟩ := ih hm
      simp only [merge] at h
      by_cases ht : t.tokens = []
      · rw [if_pos (by simp [ht])] at h
        split at h
        · cases h
        · rename_i hkind
          simp only [Except.ok.injEq, Prod.mk.injEq] at h
          obtain ⟨rfl, rfl⟩ := h
          refine ⟨by simp [base, ht], ?_, ?_⟩
          · rw [survivors, List.takeWhile_cons_of_neg (by simp [ht])]
            exact gathers_leaf 0
          · intro u hu hu'
            rcases List.mem_cons.1 hu with rfl | hu
            · exact hkind
            · exact hroots u hu hu'
      · rw [if_neg (by simpa using ht), Tree.insert] at h
        cases hins : tree'.root.insert t.edit t.tokens tree'.size with
        | none =>
          rw [hins] at h
          cases h
        | some x =>
          obtain ⟨root, size, stop⟩ := x
          rw [hins] at h
          simp only [Except.ok.injEq, Prod.mk.injEq] at h
          obtain ⟨rfl, rfl⟩ := h
          refine ⟨by simpa [base, ht] using hsource, ?_, ?_⟩
          · rw [survivors, List.takeWhile_cons_of_pos (by simpa using ht)]
            exact hgathers.insert ht hins
          · intro u hu hu'
            rcases List.mem_cons.1 hu with rfl | hu
            · exact absurd hu' ht
            · exact hroots u hu hu'
    · cases h

theorem merge_error (h : merge ts.reverse input .empty = .error e) :
    (∃ path op, e = .unsupported path op) ∧
      ((∃ t ∈ ts, t.tokens = [] ∧ t.edit.kind = .remove) ∨ ¬ Uncrossed ts) := by
  induction ts with
  | nil => cases h
  | cons t ts ih =>
    rw [List.reverse_cons, merge_append] at h
    split at h
    · rename_i source' tree' hm
      obtain ⟨-, hgathers, -⟩ := merge_ok hm
      simp only [merge] at h
      split at h
      · rename_i ht
        split at h
        · rename_i hkind
          obtain rfl := Except.error.inj h
          exact ⟨⟨_, _, rfl⟩, .inl ⟨t, List.mem_cons_self, by simpa using ht, hkind⟩⟩
        · cases h
      · rw [Tree.insert] at h
        cases hins : tree'.root.insert t.edit t.tokens tree'.size with
        | some x =>
          rw [hins] at h
          cases h
        | none =>
          rw [hins] at h
          obtain rfl := Except.error.inj h
          obtain ⟨u, hu, hcross⟩ := hgathers.bears.exists_crossing hins
          refine ⟨⟨_, _, rfl⟩, .inr fun hun => ?_⟩
          have hu' : u ∈ ts := (List.takeWhile_sublist _).subset hu
          exact hun u (List.mem_cons_of_mem t hu') t List.mem_cons_self hcross
    · rename_i e' hm
      obtain rfl := Except.error.inj h
      obtain ⟨he, hwhy⟩ := ih hm
      refine ⟨he, ?_⟩
      rcases hwhy with ⟨u, hu, hu'⟩ | hcross
      · exact .inl ⟨u, List.mem_cons_of_mem t hu, hu'⟩
      · right
        intro hun
        apply hcross
        intro a ha b hb
        exact hun a (List.mem_cons_of_mem t ha) b (List.mem_cons_of_mem t hb)

end Merge

/-! ### The pass with the tree -/

section Splice

variable {p : Patcher} {page : Page} {ts : List Target} {tree : Tree}

theorem splice_nil (h : Gathers [] tree.root) (source : Text.Bytes) :
    (p.splice source tree).1 = .ok source := by
  rw [splice, if_pos]
  rw [Tree.isEmpty, List.isEmpty_iff, h.children_eq_nil]

theorem splice_of_ne_nil (h : Gathers ts tree.root) (hts : ts ≠ []) (hw : p.writer = .empty)
    (source : Text.Bytes) :
    (p.splice source tree).1 =
      match Splice.document tree.root ⟨.ofBytes p.maxDepth source, .empty⟩ with
      | (.ok _, s) => .ok s.writer.output
      | (.error e, _) => .error e := by
  rw [splice, if_neg]
  · simp only [hw]
    generalize Splice.document tree.root ⟨.ofBytes p.maxDepth source, .empty⟩ = answer
    obtain ⟨a, s⟩ := answer
    cases a <;> rfl
  · rw [Tree.isEmpty, List.isEmpty_iff, h.children_eq_nil]
    exact hts

/-- The pass gives the edited value of a text that is not nested too deep, or finds the edits
unfit. -/
theorem splice_page (h : Gathers ts tree.root) (hts : ts ≠ []) (hw : p.writer = .empty)
    (hd : page.value.nesting ≤ p.maxDepth) (he : ∀ t ∈ ts, t.edit.Spelled) :
    match edited content? page.value.content tree.root.children with
    | some c => ∃ v : Spelling, v.content = c ∧ (p.splice page.text tree).1 = .ok v.text
    | none => ∃ e : Error, e.Unfit ∧ (p.splice page.text tree).1 = .error e := by
  have hspelled := (h.every Edit.Spelled he).children
  have hdoc := Splice.document_page page hd hspelled
  rw [splice_of_ne_nil h hts hw]
  simp only at hdoc
  cases hc : edited content? page.value.content tree.root.children with
  | some c =>
    rw [hc] at hdoc
    obtain ⟨v, s, hv, hs, hout⟩ := hdoc
    refine ⟨v, hv, ?_⟩
    rw [hs, ← hout]
  | none =>
    rw [hc] at hdoc
    obtain ⟨e, s, hs, hunfit⟩ := hdoc
    refine ⟨e, hunfit, ?_⟩
    rw [hs]

theorem nesting_of_splice (h : Gathers ts tree.root) (hts : ts ≠ []) (hw : p.writer = .empty)
    (he : ∀ t ∈ ts, t.edit.Spelled) {out : Text.Bytes}
    (hout : (p.splice page.text tree).1 = .ok out) : page.value.nesting ≤ p.maxDepth := by
  by_contra hd
  have hspelled := (h.every Edit.Spelled he).children
  obtain ⟨e, s, hs, -⟩ := Splice.document_deep page (Nat.lt_of_not_le hd) hspelled
  rw [splice_of_ne_nil h hts hw, hs] at hout
  cases hout

theorem splice_space (h : Gathers ts tree.root) (hts : ts ≠ []) (hw : p.writer = .empty)
    (sp : Space) : ∃ e, (p.splice sp.bytes tree).1 = .error e := by
  obtain ⟨e, s, hs, -⟩ : Splice.Fails (fun _ => True)
      (Splice.document tree.root ⟨.ofBytes p.maxDepth sp.bytes, .empty⟩) :=
    Splice.document_space sp tree.root
  rw [splice_of_ne_nil h hts hw, hs]
  exact ⟨e, rfl⟩

end Splice

/-- The document that is kept does not matter for the pass. -/
theorem splice_document (p : Patcher) (d : Option Document) (source : Text.Bytes) (tree : Tree) :
    (({ p with document := d } : Patcher).splice source tree).1 = (p.splice source tree).1 := by
  rw [splice, splice]
  by_cases hempty : tree.isEmpty = true
  · simp only [hempty, ↓reduceIte]
  · simp only [hempty, Bool.false_eq_true, ↓reduceIte]
    generalize Splice.document tree.root ⟨.ofBytes p.maxDepth source, p.writer⟩ = answer
    obtain ⟨a, s⟩ := answer
    cases a <;> rfl

/-- A patch is resolved, merged and made. -/
theorem apply_eq (p : Patcher) (input : Text.Bytes) (ops : List Operation) :
    (p.apply input ops).1 =
      match Resolving.operations input p.maxDepth ops ⟨none, []⟩ with
      | (.error e, _) => .error e
      | (.ok _, r) =>
        match merge r.targets.reverse input .empty with
        | .error e => .error e
        | .ok (source, tree) => (p.reset.splice source tree).1 := by
  rw [apply]
  simp only
  rw [show p.reset.maxDepth = p.maxDepth from rfl, show p.reset.document = none from rfl,
    show p.reset.tree = .empty from rfl]
  generalize Resolving.operations input p.maxDepth ops ⟨none, []⟩ = answer
  obtain ⟨a, r⟩ := answer
  cases a with
  | error e => rfl
  | ok u =>
    simp only
    cases merge r.targets.reverse input .empty with
    | error e => rfl
    | ok x => exact splice_document p.reset r.document x.1 x.2

theorem apply_ok {p : Patcher} {input out : Text.Bytes} {ops : List Operation}
    (h : (p.apply input ops).1 = .ok out) :
    ∃ r source tree, Resolving.operations input p.maxDepth ops ⟨none, []⟩ = (.ok (), r) ∧
      merge r.targets.reverse input .empty = .ok (source, tree) ∧
      (p.reset.splice source tree).1 = .ok out := by
  rw [apply_eq] at h
  split at h
  · cases h
  rename_i r hresolve
  split at h
  · cases h
  rename_i source tree hmerge
  exact ⟨r, source, tree, hresolve, hmerge, h⟩

end Patcher

end Quarry.Patch
