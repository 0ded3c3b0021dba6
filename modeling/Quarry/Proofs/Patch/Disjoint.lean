import Mathlib.Data.List.TakeWhile
import Quarry.Proofs.Patch.Merging
import Quarry.Proofs.Patch.Stepwise

/-!
Patches whose operations have nothing to do with one another.
-/

namespace Quarry.Patch

open Json Content

namespace Operation

def kind? : Operation → Option EditKind
  | .replace _ _ => some .replace
  | .add _ _ => some .add
  | .remove _ => some .remove
  | _ => none

/-- Where an operation makes its edit, if to edit is all it does. -/
def place? (op : Operation) : Option (List String) :=
  op.kind?.bind fun _ => Pointer.parse? op.path

/-- Whether such an operation can be made in a value by itself, with no element of an array put in
or taken out. -/
def Applicable (c : Content) (op : Operation) : Prop :=
  ∃ k p, op.kind? = some k ∧ op.place? = some p ∧ k.Suits c.view p

/-- The places of two operations, none of which lies within the other. -/
def Apart (a b : Operation) : Prop :=
  ∀ p q, a.place? = some p → b.place? = some q → ¬ p <+: q ∧ ¬ q <+: p

def payload : Operation → Text.Bytes
  | .replace _ value => Text.bytes value.text
  | .add _ value => Text.bytes value.text
  | _ => []

def target (op : Operation) : Target :=
  ⟨op.place?.getD [], op.kind?.getD .remove, op.path, op.payload⟩

def change : Operation → Change
  | .replace _ value => .replace (.ofJson value)
  | .add _ value => .add (.ofJson value)
  | _ => .remove

/-- An operation that is an edit of a place within the document. -/
def Edits (op : Operation) : Prop := op.place? = some op.target.tokens ∧ op.target.tokens ≠ []

theorem edits_of_place? {op : Operation} (h : ∃ p, op.place? = some p ∧ p ≠ []) : op.Edits := by
  obtain ⟨p, hp, hne⟩ := h
  have htokens : op.target.tokens = p := by simp [target, hp]
  exact ⟨by rw [htokens, hp], by rwa [htokens]⟩

section Edits

variable {op : Operation} (h : op.Edits)

include h

theorem Edits.kind : op.kind? = some op.target.edit.kind := by
  obtain ⟨k, hk, -⟩ := Option.bind_eq_some_iff.1 h.1
  simp [target, hk]

theorem Edits.parse : Pointer.parse? op.path = some op.target.tokens := by
  obtain ⟨k, -, hp⟩ := Option.bind_eq_some_iff.1 h.1
  exact hp

theorem Edits.change? : op.target.edit.change? content? = some op.change := by
  have hk := h.kind
  have hvalue : ∀ v : Json.Value, content? (Text.bytes v.text) = some (.ofJson v) := by
    intro v
    obtain ⟨q, hq, hc⟩ := spelling_text v
    rw [← hq, content?_text, hc]
  cases op with
  | replace path value => simp [target, kind?, Edit.change?, payload, hvalue, change]
  | add path value => simp [target, kind?, Edit.change?, payload, hvalue, change]
  | remove path => simp [target, kind?, Edit.change?, change]
  | copy source path => cases hk
  | move source path => cases hk
  | test path value => cases hk

theorem Edits.spelled : op.target.edit.Spelled := by
  have hk := h.kind
  intro bs hbs
  cases op with
  | replace path value =>
    obtain rfl := Option.some.inj hbs
    obtain ⟨q, hq, -⟩ := spelling_text value
    exact ⟨q, hq⟩
  | add path value =>
    obtain rfl := Option.some.inj hbs
    obtain ⟨q, hq, -⟩ := spelling_text value
    exact ⟨q, hq⟩
  | remove path => cases hbs
  | copy source path => cases hk
  | move source path => cases hk
  | test path value => cases hk

theorem Edits.step (c : Content) : op.step c = op.change.make op.target.tokens c := by
  have hk := h.kind
  obtain ⟨p, hp⟩ : ∃ p, Pointer.parse? op.path = some p := ⟨_, h.parse⟩
  cases op with
  | replace path value =>
    simp only [Operation.path] at hp
    simp [Operation.step, changes, hp, makeAll, change, target, place?, kind?, Operation.path]
  | add path value =>
    simp only [Operation.path] at hp
    simp [Operation.step, changes, hp, makeAll, change, target, place?, kind?, Operation.path]
  | remove path =>
    simp only [Operation.path] at hp
    simp [Operation.step, changes, hp, makeAll, change, target, place?, kind?, Operation.path]
  | copy source path => cases hk
  | move source path => cases hk
  | test path value => cases hk

/-- Such an operation is put down as it is, where no edit before has to do with its place. -/
theorem Edits.operation {r : Resolving} (input : Text.Bytes) (depth : Nat)
    (hr : ∀ u ∈ r.targets, u.overlaps op.target.tokens = false) :
    Resolving.operation input depth op r = (.ok (), r.push op.target) := by
  have hk := h.kind
  obtain ⟨p, hp⟩ : ∃ p, Pointer.parse? op.path = some p := ⟨_, h.parse⟩
  have htokens : op.target.tokens = p := Option.some.inj (h.parse.symm.trans hp)
  have hnew : Resolving.undone? p r.targets = none := by
    have hidx : r.targets.findIdx? (Target.overlaps p) = none := by
      rw [List.findIdx?_eq_none_iff, ← htokens]
      exact hr
    rw [Resolving.undone?, hidx]
    rfl
  cases op with
  | replace path value =>
    simp only [Operation.path] at hp
    simp [Resolving.operation, Resolving.pushEdit, Target.make, hp, target, place?, kind?, payload,
      Operation.path]
  | add path value =>
    simp only [Operation.path] at hp
    simp [Resolving.operation, Resolving.pushEdit, Target.make, hp, target, place?, kind?, payload,
      Operation.path]
  | remove path =>
    simp only [Operation.path] at hp
    simp [Resolving.operation, Resolving.remove, Target.make, hp, hnew, target, place?, kind?,
      payload, Operation.path]
  | copy source path => cases hk
  | move source path => cases hk
  | test path value => cases hk

end Edits

section Lists

variable {ops : List Operation} {input : Text.Bytes} {depth : Nat}

theorem apart_of_mem {a b : Operation} (h : ops.Pairwise Apart) (ha : a ∈ ops) (hb : b ∈ ops)
    (hne : a ≠ b) : Apart a b := by
  have hsymm : Std.Symm Apart := ⟨fun a b h p q hp hq => (h q p hq hp).symm⟩
  exact h.forall ha hb hne

theorem overlaps_of_apart {a b : Operation} (ha : a.Edits) (hb : b.Edits) (h : Apart a b) :
    a.target.overlaps b.target.tokens = false := by
  obtain ⟨h1, h2⟩ := h _ _ ha.1 hb.1
  rw [Target.overlaps, Bool.or_eq_false_iff, ← Bool.not_eq_true, ← Bool.not_eq_true,
    List.isPrefixOf_iff_prefix, List.isPrefixOf_iff_prefix]
  exact ⟨h1, h2⟩

variable (input depth) in
theorem operations_apart {r : Resolving} (hops : ∀ op ∈ ops, op.Edits)
    (hr : ∀ op ∈ ops, ∀ u ∈ r.targets, u.overlaps op.target.tokens = false)
    (hapart : ops.Pairwise Apart) :
    Resolving.operations input depth ops r =
      (.ok (), ⟨r.document, (ops.map target).reverse ++ r.targets⟩) := by
  induction ops generalizing r with
  | nil => rfl
  | cons op ops ih =>
    obtain ⟨hop, hapart⟩ := List.pairwise_cons.1 hapart
    rw [List.forall_mem_cons] at hops hr
    rw [Resolving.operations, hops.1.operation input depth hr.1]
    simp only
    rw [ih hops.2 _ hapart]
    · simp [Resolving.push]
    · intro b hb u hu
      rcases List.mem_cons.1 hu with rfl | hu
      · exact overlaps_of_apart hops.1 (hops.2 b hb) (hop b hb)
      · exact hr.2 b hb u hu

/-- The merged edits do what the operations do one by one. -/
theorem edited_apart {source : Text.Bytes} {tree : Tree} (hops : ∀ op ∈ ops, op.Edits)
    (hapart : ops.Pairwise Apart) (h : Patcher.merge (ops.map target) input .empty = .ok (source, tree))
    (c : Content) :
    edited content? c tree.root.children = (edited content? c []).bind fun c =>
      ops.foldlM (fun c op => op.change.inPlace op.target.tokens c) c := by
  induction ops using List.reverseRecOn generalizing source tree with
  | nil =>
    rw [List.map_nil, Patcher.merge] at h
    simp only [Except.ok.injEq, Prod.mk.injEq] at h
    obtain ⟨-, rfl⟩ := h
    show edited content? c [] = (edited content? c []).bind fun c => some c
    cases edited content? c [] <;> rfl
  | append_singleton ops op ih =>
    rw [List.map_append, List.map_singleton, Patcher.merge_append] at h
    split at h
    · rename_i source' tree' hm
      obtain ⟨hapart, -, hnew⟩ := List.pairwise_append.1 hapart
      have hop := hops op (by simp)
      have hprev : ∀ b ∈ ops, b.Edits := fun b hb => hops b (List.mem_append_left _ hb)
      have hmr := hm
      rw [← List.reverse_reverse (ops.map target)] at hmr
      obtain ⟨-, hg, -⟩ := Patcher.merge_ok hmr
      rw [Patcher.merge, if_neg (by simpa using hop.2), Tree.insert] at h
      cases hins : tree'.root.insert op.target.edit op.target.tokens tree'.size with
      | none =>
        rw [hins] at h
        cases h
      | some x =>
        obtain ⟨root, size, stop⟩ := x
        rw [hins] at h
        simp only [Patcher.merge, Except.ok.injEq, Prod.mk.injEq] at h
        obtain ⟨-, rfl⟩ := h
        have hfree : ∀ f, tree'.root.along op.target.tokens ≠ some (f, []) := by
          intro f hf
          rw [hg.along] at hf
          obtain ⟨u, hu, htokens, -⟩ := mem_of_foremost hf
          have hu' : u ∈ ops.map target := by
            have := (List.takeWhile_sublist _).subset hu
            simpa using this
          obtain ⟨b, hb, rfl⟩ := List.mem_map.1 hu'
          obtain ⟨hnot, -⟩ := hnew b hb op (by simp) _ _ (hprev b hb).1 hop.1
          exact hnot (htokens ▸ List.prefix_rfl)
        rw [edited_insert hg.sound hop.2 hop.change? hins hfree, ih hprev hapart hm,
          Option.bind_assoc]
        simp [List.foldlM_append]
    · cases h

theorem run_of_inPlace {c v : Content} (hops : ∀ op ∈ ops, op.Edits)
    (h : ops.foldlM (fun c op => op.change.inPlace op.target.tokens c) c = some v) :
    run c ops = some v := by
  induction ops generalizing c with
  | nil => exact h
  | cons op ops ih =>
    rw [List.forall_mem_cons] at hops
    rw [List.foldlM_cons] at h
    obtain ⟨c', hc, h⟩ := Option.bind_eq_some_iff.1 h
    rw [run_cons, hops.1.step, Change.make_of_inPlace hc]
    exact ih hops.2 h

end Lists

end Operation

namespace Patcher

open Operation

variable {p : Patcher} {input : Text.Bytes} {ops : List Operation}

variable (p input) in
/-- Operations apart from one another end up in a tree that holds each of them. -/
theorem apply_tree (hops : ∀ op ∈ ops, op.Edits) (hapart : ops.Pairwise Apart) :
    ∃ tree, merge (ops.map target) input .empty = .ok (input, tree) ∧
      Gathers (ops.map target).reverse tree.root ∧
      (p.apply input ops).1 = (p.reset.splice input tree).1 := by
  have hresolve := operations_apart input p.maxDepth (r := ⟨none, []⟩) hops (by simp) hapart
  have hroot : ∀ t ∈ ops.map target, t.tokens ≠ [] := by
    intro t ht
    obtain ⟨op, hop, rfl⟩ := List.mem_map.1 ht
    exact (hops op hop).2
  have hcross : Uncrossed (ops.map target).reverse := by
    rintro t ht u hu ⟨hne, hpre⟩
    obtain ⟨a, ha, rfl⟩ := List.mem_map.1 (List.mem_reverse.1 ht)
    obtain ⟨b, hb, rfl⟩ := List.mem_map.1 (List.mem_reverse.1 hu)
    have hab : a ≠ b := by
      rintro rfl
      exact hne rfl
    obtain ⟨h1, h2⟩ := apart_of_mem hapart ha hb hab _ _ (hops a ha).1 (hops b hb).1
    exact hpre.elim h1 h2
  have hmerge : ∃ x, merge (ops.map target) input .empty = .ok x := by
    cases hm : merge (ops.map target) input .empty with
    | ok x => exact ⟨x, rfl⟩
    | error e =>
      exfalso
      rw [← List.reverse_reverse (ops.map target)] at hm
      rcases (merge_error hm).2 with ⟨t, ht, hnil, -⟩ | hun
      · exact hroot t (List.mem_reverse.1 ht) hnil
      · exact hun hcross
  obtain ⟨⟨source, tree⟩, hm⟩ := hmerge
  have hmr := hm
  rw [← List.reverse_reverse (ops.map target)] at hmr
  obtain ⟨hsource, hg, -⟩ := merge_ok hmr
  have hsurvive : survivors (ops.map target).reverse = (ops.map target).reverse := by
    apply List.takeWhile_eq_self_iff.2
    intro t ht
    simpa using hroot t (List.mem_reverse.1 ht)
  have hbase : base input (ops.map target).reverse = input := by
    rw [base, List.find?_eq_none.2]
    intro t ht
    simpa using hroot t (List.mem_reverse.1 ht)
  rw [hsurvive] at hg
  rw [hbase] at hsource
  subst hsource
  refine ⟨tree, hm, hg, ?_⟩
  rw [apply_eq, hresolve]
  simp only [List.append_nil, List.reverse_reverse, hm]

/-- A patch of operations apart from one another is applied just if each of them is applicable by
itself, and then it does what they do one after another. -/
theorem apply_apart {d : Document} (hread : Document.read p.maxDepth input = .ok d)
    (hdistinct : ∀ n, d.root = some n → n.Distinct) (hne : ops ≠ [])
    (hplace : ∀ op ∈ ops, ∃ q, op.place? = some q ∧ q ≠ []) (hapart : ops.Pairwise Apart) :
    ((∃ out, (p.apply input ops).1 = .ok out) ↔
      ∃ n, d.root = some n ∧ ∀ op ∈ ops, op.Applicable n.content) ∧
    ∀ out, (p.apply input ops).1 = .ok out →
      ∃ n v, d.root = some n ∧ run n.content ops = some v ∧ Holds out v := by
  have hops : ∀ op ∈ ops, op.Edits := fun op hop => edits_of_place? (hplace op hop)
  obtain ⟨tree, hmerge, hg, happly⟩ := apply_tree p input hops hapart
  have hts : (ops.map target).reverse ≠ [] := by simpa using hne
  have hspelled : ∀ t ∈ (ops.map target).reverse, t.edit.Spelled := by
    intro t ht
    obtain ⟨op, hop, rfl⟩ := List.mem_map.1 (List.mem_reverse.1 ht)
    exact (hops op hop).spelled
  rw [happly]
  rcases Document.read_ok hread with ⟨sp, rfl, hroot⟩ | ⟨page, n, rfl, hd, rfl, -, hn⟩
  · obtain ⟨e, he⟩ := splice_space (p := p.reset) hg hts rfl sp
    simp [hroot, he]
  · have hvalid : page.value.content.Valid := by
      rw [← hn]
      exact (hdistinct n rfl).valid
    have hlegible : tree.root.Every (Edit.Legible content?) := by
      apply hg.every
      intro t ht
      obtain ⟨op, hop, rfl⟩ := List.mem_map.1 (List.mem_reverse.1 ht)
      exact ⟨op.change, (hops op hop).change?⟩
    have hsome : (edited content? page.value.content tree.root.children).isSome ↔
        ∀ op ∈ ops, op.Applicable n.content := by
      rw [isSome_edited hvalid (hg.bears.grown hts) hg.edit hlegible, hn]
      constructor
      · intro h op hop
        obtain ⟨e, he⟩ := exists_foremost hg.uncrossed
          (List.mem_reverse.2 (List.mem_map_of_mem (f := target) hop))
        obtain ⟨t, ht, htokens, rfl⟩ := mem_of_foremost he
        obtain ⟨b, hb, rfl⟩ := List.mem_map.1 (List.mem_reverse.1 ht)
        have hbop : b = op := by
          by_contra hne
          obtain ⟨hnot, -⟩ := apart_of_mem hapart hb hop hne _ _ (hops b hb).1 (hops op hop).1
          exact hnot (htokens ▸ List.prefix_rfl)
        subst hbop
        refine ⟨_, _, (hops b hb).kind, (hops b hb).1, ?_⟩
        apply h
        rw [hg.along]
        exact he
      · intro h q e hq
        rw [hg.along] at hq
        obtain ⟨t, ht, rfl, rfl⟩ := mem_of_foremost hq
        obtain ⟨op, hop, rfl⟩ := List.mem_map.1 (List.mem_reverse.1 ht)
        obtain ⟨k, q, hk, hq, hsuits⟩ := h op hop
        rw [(hops op hop).kind] at hk
        rw [(hops op hop).1] at hq
        obtain rfl := Option.some.inj hk
        obtain rfl := Option.some.inj hq
        exact hsuits
    have hsplice := splice_page (p := p.reset) hg hts rfl hd hspelled
    cases hc : edited content? page.value.content tree.root.children with
    | none =>
      rw [hc] at hsplice hsome
      obtain ⟨e, -, he⟩ := hsplice
      constructor
      · constructor
        · rintro ⟨out, hout⟩
          rw [he] at hout
          cases hout
        · rintro ⟨m, hm, happ⟩
          obtain rfl := Option.some.inj hm
          exact absurd (hsome.2 happ) (by simp)
      · intro out hout
        rw [he] at hout
        cases hout
    | some v =>
      rw [hc] at hsplice
      obtain ⟨w, hw, hout⟩ := hsplice
      constructor
      · constructor
        · intro h
          exact ⟨n, rfl, hsome.1 (by simp [hc])⟩
        · intro h
          exact ⟨_, hout⟩
      · intro out hout'
        rw [hout] at hout'
        obtain rfl := Except.ok.inj hout'
        refine ⟨n, v, rfl, ?_, hw ▸ holds_text w⟩
        rw [edited_apart hops hapart hmerge, ← hn] at hc
        obtain ⟨c, hcn, hc⟩ := Option.bind_eq_some_iff.1 hc
        apply run_of_inPlace hops
        cases hcont : n.content with
        | atom a =>
          rw [hcont] at hcn
          cases hcn
        | group o ms =>
          rw [hcont, edited_leaf] at hcn
          obtain rfl := Option.some.inj hcn
          exact hc

theorem apply_apart_members : ∃ out, ((make {}).apply (Text.bytes "\x7b\"a\":1\x7d")
    [.replace "/a" .null, .add "/b" (.bool true)]).1 = .ok out := by
  let n : Quarry.Node := .object ⟨0, ⟨0, 7⟩⟩ [("a", .atom ⟨1, ⟨5, 6⟩⟩ (.long 1))]
  have hread : Document.read (make {}).maxDepth (Text.bytes "\x7b\"a\":1\x7d") =
      .ok ⟨512, some n⟩ := by rfl
  refine (apply_apart hread ?_ (by simp) ?_ ?_).1.2 ⟨n, rfl, ?_⟩
  · rintro m hm
    obtain rfl := Option.some.inj hm
    apply Node.Distinct.object
    · decide
    · simp only [List.mem_singleton, forall_eq]
      exact .atom _ _
  · simp only [List.mem_cons, List.not_mem_nil, or_false, forall_eq_or_imp, forall_eq]
    exact ⟨⟨["a"], by decide, by simp⟩, ⟨["b"], by decide, by simp⟩⟩
  · simp only [List.pairwise_cons, List.mem_singleton, forall_eq, List.not_mem_nil,
      List.Pairwise.nil, and_true, false_imp_iff, implies_true]
    rintro p q hp hq
    obtain rfl := Option.some.inj (hp.symm.trans (show _ = some ["a"] by decide))
    obtain rfl := Option.some.inj (hq.symm.trans (show _ = some ["b"] by decide))
    decide
  · simp only [List.mem_cons, List.not_mem_nil, or_false, forall_eq_or_imp, forall_eq]
    exact ⟨⟨.replace, ["a"], rfl, by decide, .inl rfl⟩, ⟨.add, ["b"], rfl, by decide, rfl⟩⟩

end Patcher

end Quarry.Patch
