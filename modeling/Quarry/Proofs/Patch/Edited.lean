import Quarry.Proofs.Patch.Change
import Quarry.Proofs.Patch.Tree

/-!
The edits of a tree as changes made one after another.
-/

namespace Quarry.Patch

open Json Content

section Edited

variable (payload : Text.Bytes → Option Content)

def Edit.change? (e : Edit) : Option Change :=
  match e.kind with
  | .replace => (payload e.payload).map .replace
  | .add => (payload e.payload).map .add
  | .remove => some .remove

/-- What a child makes of the member or element with its token, or of there being none. -/
def Node.alters (o : Bool) (n : Node) (old : Option Content) : Option (Option Content) :=
  match n.edit with
  | some e => (e.change? payload).bind fun a => a.alters o old
  | none => old.bind fun c => (edited payload c n.children).map some

end Edited

variable {payload : Text.Bytes → Option Content}

theorem kind_of_change? {e : Edit} {a : Change} (h : e.change? payload = some a) :
    a.kind = e.kind := by
  obtain ⟨kind, path, bs⟩ := e
  cases kind with
  | replace =>
    obtain ⟨c, -, rfl⟩ := Option.map_eq_some_iff.1 h
    rfl
  | add =>
    obtain ⟨c, -, rfl⟩ := Option.map_eq_some_iff.1 h
    rfl
  | remove =>
    obtain rfl := Option.some.inj h
    rfl

theorem appended_cons (o : Bool) (k : String) (n : Node) (left : List (String × Node)) :
    appended payload o ((k, n) :: left) =
      (n.alters payload o none).bind fun out =>
        (appended payload o left).map ((out.map (Prod.mk k)).toList ++ ·) := by
  rw [appended, Node.alters]
  cases he : n.edit with
  | none => cases o <;> rfl
  | some e =>
    obtain ⟨kind, path, bs⟩ := e
    cases kind with
    | remove => cases o <;> simp [Edit.value?, Edit.change?, Change.alters]
    | replace =>
      cases o with
      | false => cases hp : payload bs <;> simp [Edit.change?, Change.alters, hp]
      | true =>
        cases hp : payload bs <;> simp [Edit.value?, Edit.change?, Change.alters, hp]
        cases appended payload true left <;> rfl
    | add =>
      cases o with
      | false => cases hp : payload bs <;> simp [Edit.change?, Change.alters, hp]
      | true =>
        cases hp : payload bs <;> simp [Edit.value?, Edit.change?, Change.alters, hp]
        cases appended payload true left <;> rfl

theorem editedMembers_cons (o : Bool) (k : String) (c : Content) (ms : List (String × Content))
    (left : List (String × Node)) :
    editedMembers payload o ((k, c) :: ms) left =
      match find? k left with
      | none => (editedMembers payload o ms left).map ((k, c) :: ·)
      | some n =>
        (n.alters payload o (some c)).bind fun out =>
          (editedMembers payload o ms (erase k left)).map
            ((out.map (Prod.mk k)).toList ++ ·) := by
  rw [editedMembers, editMember, Node.takeChild_eq]
  cases find? k left with
  | none => rfl
  | some n =>
    simp only [Option.map_some, Node.alters]
    cases n.edit with
    | none =>
      simp only [Option.bind_some]
      cases edited payload c n.children with
      | none => rfl
      | some c' => cases editedMembers payload o ms (erase k left) <;> rfl
    | some e =>
      obtain ⟨kind, path, bs⟩ := e
      cases kind with
      | remove =>
        cases o with
        | false => rfl
        | true =>
          simp only [Edit.outcome, Edit.change?, Option.bind_some, Change.alters]
          simp
      | replace =>
        cases hp : payload bs <;> simp [Edit.outcome, Edit.change?, Change.alters, hp]
        cases editedMembers payload o ms (erase k left) <;> rfl
      | add =>
        cases o with
        | false => cases hp : payload bs <;> simp [Edit.outcome, Edit.change?, Change.alters, hp]
        | true =>
          cases hp : payload bs <;> simp [Edit.outcome, Edit.change?, Change.alters, hp]
          cases editedMembers payload true ms (erase k left) <;> rfl

theorem editedMembers_leaf (o : Bool) (ms : List (String × Content)) :
    editedMembers payload o ms [] = some ms := by
  induction ms with
  | nil => rfl
  | cons m ms ih =>
    obtain ⟨k, c⟩ := m
    rw [editedMembers_cons, find?_nil, ih, Option.map_some]

/-- The first child does its work on its own, the others on what it leaves. -/
theorem editedMembers_child {o : Bool} {t : String} {n : Node} {cs : List (String × Node)}
    (ht : t ∉ names cs) (ms : List (String × Content)) :
    editedMembers payload o ms ((t, n) :: cs) =
      (alter t (n.alters payload o) ms).bind fun ms => editedMembers payload o ms cs := by
  induction ms generalizing cs with
  | nil =>
    rw [editedMembers, appended_cons, alter, Option.bind_map, find?_nil]
    congr 1
    funext out
    cases out with
    | none =>
      simp only [Option.map_none, Option.toList_none, List.nil_append, Option.map_id']
      rfl
    | some c =>
      simp only [Function.comp_apply, put, editedMembers_cons, find?_eq_none.2 ht]
      rfl
  | cons m ms ih =>
    obtain ⟨k, c⟩ := m
    rw [editedMembers_cons, find?_cons]
    by_cases hk : t = k
    · subst hk
      rw [if_pos rfl, erase_cons, if_pos rfl, alter_cons_self, Option.bind_map]
      simp only
      congr 1
      funext out
      cases out with
      | none =>
        simp only [Option.map_none, Option.toList_none, List.nil_append, Option.map_id',
          Function.comp_apply]
      | some d =>
        simp only [Option.map_some, Option.toList_some, List.cons_append, List.nil_append,
          Function.comp_apply, editedMembers_cons, find?_eq_none.2 ht]
    · rw [if_neg hk, erase_cons, if_neg hk, alter_cons_of_ne (Ne.symm hk), Option.bind_map]
      cases hf : find? k cs with
      | none =>
        simp only
        rw [ih ht, Option.map_bind]
        congr 1
        funext ms'
        simp only [Function.comp_apply, editedMembers_cons, hf]
      | some d =>
        simp only
        have ht' : t ∉ names (erase k cs) := by
          intro h
          obtain ⟨x, hx, rfl⟩ := List.mem_map.1 h
          exact ht (mem_names (mem_of_mem_erase hx))
        rw [ih ht']
        simp only [Function.comp_def, editedMembers_cons, hf, Option.map_bind]
        cases d.alters payload o (some c) with
        | none => cases alter t (n.alters payload o) ms <;> rfl
        | some out => rfl

/-! ### What a container holds afterwards -/

section Members

variable {o : Bool} {cs : List (String × Node)} {ms out : List (String × Content)}

theorem find?_editedMembers (hcs : (names cs).Nodup) (hms : (names ms).Nodup)
    (h : editedMembers payload o ms cs = some out) (k : String) :
    (match find? k cs with
      | none => some (find? k ms)
      | some n => n.alters payload o (find? k ms)) = some (find? k out) := by
  induction cs generalizing ms with
  | nil =>
    rw [editedMembers_leaf] at h
    rw [Option.some.inj h]
    rfl
  | cons m cs ih =>
    obtain ⟨t, n⟩ := m
    obtain ⟨ht, hcs⟩ := List.nodup_cons.1 hcs
    rw [editedMembers_child ht] at h
    obtain ⟨ms', hms', h⟩ := Option.bind_eq_some_iff.1 h
    have hfind := find?_alter hms hms' k
    have hrest := ih hcs (nodup_alter hms hms') h
    rw [find?_cons]
    by_cases hk : t = k
    · subst hk
      rw [if_pos rfl] at hfind ⊢
      rw [find?_eq_none.2 ht] at hrest
      exact hfind.trans hrest
    · rw [if_neg hk] at hfind ⊢
      rw [Option.some.inj hfind]
      exact hrest

theorem isSome_editedMembers (hcs : (names cs).Nodup) (hms : (names ms).Nodup) :
    (editedMembers payload o ms cs).isSome ↔
      ∀ c ∈ cs, (c.2.alters payload o (find? c.1 ms)).isSome := by
  induction cs generalizing ms with
  | nil => simp [editedMembers_leaf]
  | cons m cs ih =>
    obtain ⟨t, n⟩ := m
    obtain ⟨ht, hcs⟩ := List.nodup_cons.1 hcs
    rw [editedMembers_child ht, List.forall_mem_cons, ← isSome_alter]
    cases hms' : alter t (n.alters payload o) ms with
    | none => simp
    | some ms' =>
      have hsame : ∀ c ∈ cs, find? c.1 ms' = find? c.1 ms := by
        intro c hc
        have hne : t ≠ c.1 := by
          rintro rfl
          have hmem : c.1 ∈ names cs := mem_names hc
          exact ht hmem
        have hfind := find?_alter hms hms' c.1
        rw [if_neg hne] at hfind
        exact (Option.some.inj hfind).symm
      rw [Option.bind_some, ih hcs (nodup_alter hms hms')]
      constructor
      · intro h
        refine ⟨rfl, fun c hc => ?_⟩
        rw [← hsame c hc]
        exact h c hc
      · rintro ⟨-, h⟩ c hc
        rw [hsame c hc]
        exact h c hc

theorem editedMembers_append {t : String} {n : Node} (hcs : (names cs).Nodup)
    (ht : t ∉ names cs) :
    editedMembers payload o ms (cs ++ [(t, n)]) =
      (editedMembers payload o ms cs).bind (alter t (n.alters payload o)) := by
  induction cs generalizing ms with
  | nil =>
    rw [List.nil_append, editedMembers_child (by simp), editedMembers_leaf, Option.bind_some]
    simp [editedMembers_leaf]
  | cons m cs ih =>
    obtain ⟨u, d⟩ := m
    obtain ⟨hu, hcs⟩ := List.nodup_cons.1 hcs
    rw [names_cons, List.mem_cons, not_or] at ht
    have hu' : u ∉ names (cs ++ [(t, n)]) := by
      rw [names_append, List.mem_append, not_or]
      refine ⟨hu, ?_⟩
      simpa using Ne.symm ht.1
    rw [List.cons_append, editedMembers_child hu', editedMembers_child hu, Option.bind_assoc]
    congr 1
    funext ms'
    exact ih hcs ht.2

theorem put_append (t : String) (c : Content) {k : String} (hk : k ≠ t) (old : Option Content)
    (ms : List (String × Content)) :
    put t c ((old.map (Prod.mk k)).toList ++ ms) = (old.map (Prod.mk k)).toList ++ put t c ms := by
  cases old with
  | none => rfl
  | some d => simp [put, hk]

/-- A member that no child has to do with may be anything. -/
theorem editedMembers_put {t : String} (c : Content) (ht : t ∉ names cs) (hm : t ∈ names ms) :
    editedMembers payload o (put t c ms) cs = (editedMembers payload o ms cs).map (put t c) := by
  induction ms generalizing cs with
  | nil => simp at hm
  | cons m ms ih =>
    obtain ⟨k, d⟩ := m
    rw [put]
    by_cases hk : k = t
    · subst hk
      rw [if_pos rfl, editedMembers_cons, editedMembers_cons, find?_eq_none.2 ht]
      simp only [Option.map_map]
      congr 1
      funext ms'
      simp [put]
    · rw [names_cons, List.mem_cons] at hm
      have hm' := hm.resolve_left (Ne.symm hk)
      rw [if_neg hk, editedMembers_cons, editedMembers_cons]
      cases hf : find? k cs with
      | none =>
        simp only [ih ht hm', Option.map_map]
        congr 1
        funext ms'
        simp [put, hk]
      | some n =>
        have ht' : t ∉ names (erase k cs) := by
          intro h
          obtain ⟨x, hx, rfl⟩ := List.mem_map.1 h
          exact ht (mem_names (mem_of_mem_erase hx))
        simp only [ih ht' hm', Option.map_map, Option.map_bind]
        congr 1
        funext old
        simp only [Function.comp_def, put_append t c hk, Option.map_map]

end Members

/-! ### What a value is afterwards -/

theorem edited_leaf (o : Bool) (ms : List (String × Content)) :
    edited payload (.group o ms) [] = some (.group o ms) := by
  rw [edited, editedMembers_leaf, Option.map_some]

theorem shape_edited {c c' : Content} {cs : List (String × Node)}
    (h : edited payload c cs = some c') : c'.shape = c.shape := by
  cases c with
  | atom a => simp [edited] at h
  | group o ms =>
    obtain ⟨ms', -, rfl⟩ := Option.map_eq_some_iff.1 h
    rfl

/-- What an edit puts in place. -/
def Edit.content (payload : Text.Bytes → Option Content) (e : Edit) : Option Content :=
  (e.change? payload).bind Change.value?

/-- What is seen at a pointer after the edits below a node. -/
def Node.overlay (payload : Text.Bytes → Option Content) (n : Node) (f : View) : View := fun q =>
  match n.along q with
  | some (e, rest) => (e.content payload).bind fun c => c.view rest
  | none => f q

theorem view_edited {c c' : Content} {n : Node} (hc : c.Valid) (hn : n.Sound)
    (he : n.edit = none) (h : edited payload c n.children = some c') :
    c'.view = n.overlay payload c.view := by
  funext q
  induction q generalizing c c' n with
  | nil =>
    obtain ⟨id, edit, cs⟩ := n
    obtain rfl : edit = none := he
    rw [Node.overlay, Node.along, view_nil, view_nil, shape_edited h]
  | cons t q ih =>
    obtain ⟨hnodup, hgrown⟩ := hn.children
    obtain ⟨id, edit, cs⟩ := n
    obtain rfl : edit = none := he
    cases c with
    | atom a => simp [edited] at h
    | group o ms =>
      obtain ⟨out, hout, rfl⟩ := Option.map_eq_some_iff.1 h
      have hfind := find?_editedMembers hnodup hc.nodup hout t
      rw [Node.overlay, Node.along, view_cons, view_cons]
      show ((find? t out).bind fun d => d.view q) = _
      cases ht : find? t cs with
      | none =>
        rw [show find? t (Node.make id none cs).children = none from ht] at hfind
        simp only at hfind
        rw [← Option.some.inj hfind]
        rfl
      | some m =>
        rw [show find? t (Node.make id none cs).children = some m from ht] at hfind
        simp only [Node.alters] at hfind
        rw [Option.bind_some]
        obtain ⟨id', edit', cs'⟩ := m
        cases edit' with
        | some e =>
          simp only [Node.edit] at hfind
          obtain ⟨a, ha, hfind⟩ := Option.bind_eq_some_iff.1 hfind
          have hvalue : e.content payload = find? t out := by
            rw [Edit.content, ha, Option.bind_some, Change.value_of_alters hfind]
          rw [← hvalue, Node.along_edit (show (Node.make id' (some e) cs').edit = some e from rfl)]
        | none =>
          simp only [Node.edit] at hfind
          obtain ⟨d, hd, hfind⟩ := Option.bind_eq_some_iff.1 hfind
          obtain ⟨d', hd', hfind⟩ := Option.map_eq_some_iff.1 hfind
          have hm : (Node.make id' none cs').Sound := .grown (hgrown _ (mem_of_find? ht))
          rw [← hfind, show find? t (Content.group o ms).members = some d from hd, Option.bind_some,
            Option.bind_some, ih (hc.find? hd) hm rfl hd', Node.overlay]

/-- An edit whose text holds a value. -/
def Edit.Legible (payload : Text.Bytes → Option Content) (e : Edit) : Prop :=
  ∃ a, e.change? payload = some a

/-- What a child does is judged by the edits at it or below it. -/
theorem isSome_alters {o : Bool} {ms : List (String × Content)} {t : String} {n : Node}
    (hn : n.Grown) (hl : n.Every (Edit.Legible payload))
    (hbelow : n.edit = none → ∀ d, find? t ms = some d →
      ((edited payload d n.children).isSome ↔
        ∀ p e, n.along p = some (e, []) → e.kind.Suits d.view p)) :
    (n.alters payload o (find? t ms)).isSome ↔
      ∀ p e, n.along p = some (e, []) → e.kind.Suits (group o ms).view (t :: p) := by
  rw [Node.alters]
  cases hedit : n.edit with
  | some e =>
    obtain ⟨a, ha⟩ := hl.edit hedit
    have hsome := Change.isSome_inPlace (a := a) (c := group o ms) (List.cons_ne_nil t [])
    rw [Change.inPlace_singleton, Option.isSome_map, isSome_alter, kind_of_change? ha] at hsome
    simp only [ha, Option.bind_some, hsome]
    constructor
    · intro h p e' hp
      rw [Node.along_edit hedit] at hp
      simp only [Option.some.injEq, Prod.mk.injEq] at hp
      obtain ⟨rfl, rfl⟩ := hp
      exact h
    · intro h
      exact h [] e (Node.along_edit hedit [])
  | none =>
    have hne : ∀ p e, n.along p = some (e, []) → p ≠ [] := by
      rintro p e hp rfl
      rw [Node.along_nil hedit] at hp
      cases hp
    constructor
    · intro h p e hp
      obtain ⟨out, hout⟩ := Option.isSome_iff_exists.1 h
      obtain ⟨d, hd, hout⟩ := Option.bind_eq_some_iff.1 hout
      rw [EditKind.suits_cons (hne p e hp)]
      refine ⟨d, hd, ?_⟩
      apply (hbelow hedit d hd).1 _ p e hp
      obtain ⟨d', hd', -⟩ := Option.map_eq_some_iff.1 hout
      rw [hd']
      rfl
    · intro h
      obtain ⟨p, e, hp⟩ := hn.exists_along
      obtain ⟨d, hd, -⟩ := (EditKind.suits_cons (hne p e hp)).1 (h p e hp)
      simp only [show find? t ms = some d from hd, Option.bind_some, Option.isSome_map]
      apply (hbelow hedit d hd).2
      intro p e hp
      obtain ⟨d', hd', hsuits⟩ := (EditKind.suits_cons (hne p e hp)).1 (h p e hp)
      obtain rfl : d = d' := Option.some.inj (hd.symm.trans hd')
      exact hsuits

/-- The edits below a node can be made just if each of them suits the value. -/
theorem isSome_edited {c : Content} {n : Node} (hc : c.Valid) (hn : n.Grown) (he : n.edit = none)
    (hl : n.Every (Edit.Legible payload)) :
    (edited payload c n.children).isSome ↔
      ∀ p e, n.along p = some (e, []) → e.kind.Suits c.view p := by
  induction hn generalizing c with
  | edit id e => simp [Node.edit] at he
  | @inner id cs nonempty nodup all ih =>
    have halong : ∀ t p, (Node.make id none cs).along (t :: p) = (find? t cs).bind (Node.along p) :=
      fun t p => rfl
    cases c with
    | atom b =>
      constructor
      · intro h
        simp [edited] at h
      · intro h
        obtain ⟨⟨t, m⟩, cs', rfl⟩ := List.exists_cons_of_ne_nil nonempty
        obtain ⟨p, e, hp⟩ := (all _ List.mem_cons_self).exists_along
        have hp' : (Node.make id none ((t, m) :: cs')).along (t :: p) = some (e, []) := by
          rw [halong, find?_cons, if_pos rfl]
          exact hp
        exact absurd (h _ _ hp') (EditKind.not_suits_atom _ _ _ _)
    | group o ms =>
      have hms : (names ms).Nodup := hc.nodup
      have hcs : (names (Node.make id none cs).children).Nodup := nodup
      have hchild : ∀ m ∈ cs, (m.2.alters payload o (find? m.1 ms)).isSome ↔
          ∀ p e, m.2.along p = some (e, []) → e.kind.Suits (group o ms).view (m.1 :: p) := by
        intro m hm
        refine isSome_alters (all m hm) (hl.children m hm) fun hedit d hd => ?_
        exact ih m hm (hc.find? hd) hedit (hl.children m hm)
      rw [edited, Option.isSome_map, isSome_editedMembers hcs hms]
      constructor
      · intro h p e hp
        cases p with
        | nil => cases hp
        | cons t p =>
          rw [halong] at hp
          obtain ⟨m, hm, hp⟩ := Option.bind_eq_some_iff.1 hp
          have hmem := mem_of_find? hm
          exact (hchild _ hmem).1 (h _ hmem) p e hp
      · rintro h ⟨t, m⟩ hm
        apply (hchild _ hm).2
        intro p e hp
        apply h
        rw [halong, find?_of_mem nodup hm]
        exact hp

theorem valid_editedMembers {o : Bool} {cs : List (String × Node)}
    {ms out : List (String × Content)} (hcs : (names cs).Nodup) (hms : (group o ms).Valid)
    (hv : ∀ m ∈ cs, ∀ d c, (∀ x, d = some x → x.Valid) →
      m.2.alters payload o d = some (some c) → c.Valid)
    (h : editedMembers payload o ms cs = some out) : (group o out).Valid := by
  induction cs generalizing ms with
  | nil =>
    rw [editedMembers_leaf] at h
    rwa [← Option.some.inj h]
  | cons m cs ih =>
    obtain ⟨t, n⟩ := m
    obtain ⟨ht, hcs⟩ := List.nodup_cons.1 hcs
    rw [editedMembers_child ht] at h
    obtain ⟨ms', hms', h⟩ := Option.bind_eq_some_iff.1 h
    apply ih hcs _ (fun m hm => hv m (List.mem_cons_of_mem _ hm)) h
    apply hms.alter hms'
    · intro c hc
      exact hv _ List.mem_cons_self _ c (fun x hx => hms.find? (t := t) hx) hc
    · rintro rfl
      have hsome : (alter t (n.alters payload false) ms).isSome := by
        rw [hms']
        rfl
      rw [isSome_alter] at hsome
      obtain ⟨d, hd⟩ := Option.isSome_iff_exists.1 hsome
      rw [← find?_isSome, hd, ne_eq, Option.some.injEq]
      rw [Node.alters] at hd
      split at hd
      · obtain ⟨a, -, hd⟩ := Option.bind_eq_some_iff.1 hd
        exact Change.array_of_alters hd
      · obtain ⟨c, hc, hd⟩ := Option.bind_eq_some_iff.1 hd
        obtain ⟨c', -, rfl⟩ := Option.map_eq_some_iff.1 hd
        rw [hc]
        simp

/-- An edit that puts in place what repeats no name. -/
def Edit.Valid (payload : Text.Bytes → Option Content) (e : Edit) : Prop :=
  ∀ c, e.content payload = some c → c.Valid

theorem valid_edited {c c' : Content} {n : Node} (hn : n.Grown) (hc : c.Valid)
    (hv : n.Every (Edit.Valid payload)) (h : edited payload c n.children = some c') :
    c'.Valid := by
  induction hn generalizing c c' with
  | edit id e =>
    cases c with
    | atom a => simp [edited] at h
    | group o ms =>
      rw [show (Node.make id (some e) []).children = [] from rfl, edited_leaf] at h
      rwa [← Option.some.inj h]
  | @inner id cs nonempty nodup all ih =>
    cases c with
    | atom a => simp [edited] at h
    | group o ms =>
      obtain ⟨out, hout, rfl⟩ := Option.map_eq_some_iff.1 h
      apply valid_editedMembers nodup hc _ hout
      intro m hm d x hd hx
      rw [Node.alters] at hx
      split at hx
      · rename_i e he
        obtain ⟨a, ha, hx⟩ := Option.bind_eq_some_iff.1 hx
        apply (hv.children m hm).edit he
        rw [Edit.content, ha, Option.bind_some, Change.value_of_alters hx]
      · obtain ⟨y, hy, hx⟩ := Option.bind_eq_some_iff.1 hx
        obtain ⟨z, hz, hx⟩ := Option.map_eq_some_iff.1 hx
        obtain rfl := Option.some.inj hx
        exact ih m hm (hd y hy) (hv.children m hm) hz

/-! ### One more edit -/

section Insert

variable {o : Bool} {t : String} {cs : List (String × Node)} {ms : List (String × Content)}

theorem put_put (t : String) (c d : Content) (ms : List (String × Content)) :
    put t d (put t c ms) = put t d ms := by
  induction ms with
  | nil => simp [put]
  | cons m ms ih =>
    obtain ⟨k, e⟩ := m
    by_cases hk : k = t
    · simp [put, hk]
    · simp [put, hk, ih]

/-- If a child that enters its member does one more thing there, this can be done afterwards. -/
theorem editedMembers_deepen {n n' : Node} {deeper : Content → Option Content}
    (hcs : (names cs).Nodup) (hfind : find? t cs = some n) (hn : n.edit = none)
    (hn' : n'.edit = none)
    (hg : ∀ d, edited payload d n'.children = (edited payload d n.children).bind deeper) :
    editedMembers payload o ms (put t n' cs) =
      (editedMembers payload o ms cs).bind
        (alter t fun old => old.bind fun c => (deeper c).map some) := by
  induction cs generalizing ms with
  | nil => cases hfind
  | cons m cs ih =>
    obtain ⟨u, m⟩ := m
    obtain ⟨hu, hcs⟩ := List.nodup_cons.1 hcs
    rw [find?_cons] at hfind
    rw [put]
    by_cases hut : u = t
    · subst hut
      rw [if_pos rfl] at hfind
      obtain rfl := Option.some.inj hfind
      rw [if_pos rfl, editedMembers_child hu, editedMembers_child hu, alter, alter, Node.alters,
        Node.alters, hn, hn']
      cases hd : find? u ms with
      | none => rfl
      | some d =>
        have hmem : u ∈ names ms := by
          rw [← find?_isSome, hd]
          rfl
        simp only [Option.bind_some, hg]
        cases edited payload d m.children with
        | none => rfl
        | some d' =>
          have hput : ∀ ms', alter u (fun old => old.bind fun c => (deeper c).map some)
              (put u d' ms') = (deeper d').map fun x => put u x ms' := by
            intro ms'
            rw [alter, find?_put, if_pos rfl, Option.bind_some, Option.map_map]
            congr 1
            funext x
            exact put_put u d' x ms'
          simp only [Option.bind_some, Option.map_some, editedMembers_put d' hu hmem,
            Option.bind_map, Function.comp_def, hput]
          cases deeper d' with
          | none => cases editedMembers payload o ms cs <;> rfl
          | some x =>
            simp only [Option.map_some, Option.bind_some, editedMembers_put x hu hmem]
            cases editedMembers payload o ms cs <;> rfl
    · rw [if_neg hut] at hfind
      have hu' : u ∉ names (put t n' cs) := by
        rw [names_put_of_mem]
        · exact hu
        · rw [← find?_isSome, hfind]
          rfl
      rw [if_neg hut, editedMembers_child hu', editedMembers_child hu, Option.bind_assoc]
      congr 1
      funext ms'
      exact ih hcs hfind

end Insert

/-- An edit that is merged in where none was is a change made after the others. -/
theorem edited_insert {e : Edit} {a : Change} {p : List String} {next next' stop : Nat}
    {n n' : Node} (hn : n.Sound) (hp : p ≠ []) (ha : e.change? payload = some a)
    (h : Node.insert e p next n = some (n', next', stop)) (hnew : ∀ f, n.along p ≠ some (f, []))
    (c : Content) :
    edited payload c n'.children = (edited payload c n.children).bind (a.inPlace p) := by
  induction p generalizing n n' next c with
  | nil => exact absurd rfl hp
  | cons t ts ih =>
    obtain ⟨hedit, m, m', next'', hm, hins, rfl⟩ := Node.insert_cons h
    obtain ⟨hnodup, hgrown⟩ := hn.children
    rw [Node.along_cons hedit] at hnew
    cases c with
    | atom b => rfl
    | group o ms =>
      have hkey : editedMembers payload o ms (put t m' n.children) =
          (editedMembers payload o ms n.children).bind
            (alter t (a.reaches o (a.inPlace ts) ts)) := by
        rcases hm with hm | ⟨hm, id, rfl⟩
        · rw [hm] at hnew
          have hmsound : m.Sound := .grown (hgrown _ (mem_of_find? hm))
          cases ts with
          | nil =>
            exfalso
            obtain ⟨hnone, -⟩ := Node.insert_nil hins
            cases hgrown _ (mem_of_find? hm) with
            | edit id f => exact hnew f rfl
            | inner nonempty nodup all => exact nonempty hnone
          | cons u us =>
            obtain ⟨hedit', x, x', k, -, -, rfl⟩ := Node.insert_cons hins
            rw [editedMembers_deepen hnodup hm hedit' rfl
              (ih hmsound (by simp) hins hnew)]
            rfl
        · rw [put_of_not_mem m' (find?_eq_none.1 hm), editedMembers_append hnodup
            (find?_eq_none.1 hm)]
          congr 2
          funext old
          cases ts with
          | nil =>
            obtain ⟨-, rfl⟩ := Node.insert_nil hins
            simp only [Node.alters, Node.edit, ha, Option.bind_some]
            rfl
          | cons u us =>
            have hleaf : ∀ f, (Node.leaf id).along (u :: us) ≠ some (f, []) := by
              intro f
              rw [Node.along_leaf]
              simp
            have hdeep := ih (.leaf id) (by simp) hins hleaf
            obtain ⟨-, x, x', k, -, -, rfl⟩ := Node.insert_cons hins
            simp only [Node.alters, Node.edit, hdeep]
            cases old with
            | none => rfl
            | some d =>
              cases d with
              | atom b => rfl
              | group o' ms' =>
                rw [show (Node.leaf id).children = [] from rfl, Option.bind_some, edited_leaf]
                rfl
      rw [show (Node.make n.id none (put t m' n.children)).children = put t m' n.children from rfl,
        edited, edited, hkey, Option.bind_map, Option.map_bind]
      congr 1

end Quarry.Patch
