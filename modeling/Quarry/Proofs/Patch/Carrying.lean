import Quarry.Proofs.Patch.Accepted
import Quarry.Proofs.Patch.Splicing

/-!
What the pass of a patch carries from one text into the other, and how.
-/

namespace Quarry

open Json Text

/-! ### Places in a text -/

theorem Json.Span.of_prefix {start : Nat} {a bs : Bytes} (h : a <+: bs.drop start) :
    Span.of ⟨start, start + a.length⟩ bs = a := by
  obtain ⟨rest, hrest⟩ := h
  simp [Span.of, ← hrest]

theorem prefix_drop_append {start : Nat} {a b bs : Bytes} (h : a ++ b <+: bs.drop start) :
    a <+: bs.drop start ∧ b <+: bs.drop (start + a.length) := by
  obtain ⟨rest, hrest⟩ := h
  constructor
  · exact ⟨b ++ rest, by rw [← hrest, List.append_assoc]⟩
  · exact ⟨rest, by rw [← List.drop_drop, ← hrest]; simp⟩

namespace Json

def Spelling.count : Spelling → Nat
  | .token _ => 1
  | .nested _ inside => inside.count + 1

theorem Passage.nodes_cons {o s : Bool} (l : Lead o s) (v : Spelling) (rest : Passage o true)
    (start k : Nat) :
    (cons l v rest).nodes start k =
      (l.key.getD "", v.node (start + l.text.length) k) ::
        rest.nodes (start + l.text.length + v.text.length) (k + v.count) := by
  cases v with
  | token t => rfl
  | nested b inside =>
    simp [cons, nodes, Spelling.node, Spelling.text, Spelling.count, Nat.add_assoc,
      Nat.add_comm 1]

theorem Passage.prefix_cons {o s : Bool} {l : Lead o s} {v : Spelling} {rest : Passage o true}
    {start : Nat} {bs : Bytes} (h : (cons l v rest).text <+: bs.drop start) :
    v.text <+: bs.drop (start + l.text.length) ∧
      rest.text <+: bs.drop (start + l.text.length + v.text.length) := by
  rw [text_cons] at h
  obtain ⟨-, h⟩ := prefix_drop_append h
  exact prefix_drop_append h

theorem Spelling.span_of_node {v : Spelling} {start : Nat} {bs : Bytes}
    (h : v.text <+: bs.drop start) (k : Nat) : (v.node start k).span.of bs = v.text := by
  rw [span_node]
  exact Span.of_prefix h

theorem getD_key_leadFor {o s st : Bool} (l : Lead o s) (i : Nat) :
    (leadFor o st (l.name i)).key.getD "" = l.key.getD "" := by
  cases o with
  | true => exact (l.name_key i rfl).symm
  | false =>
    have hkey : l.key = none := by simpa using l.key_isSome
    rw [hkey]
    rfl

end Json

namespace Patch

/-- The token a member or element is met under. -/
def label (o : Bool) (k : String) (i : Nat) : String := if o then k else toString i

/-- How the members or elements of a container come into what is written, in their order. The first
of them has the index `i`, and `left` are the edits below the container that none before it met. -/
inductive Carried (source out : Bytes) : (o : Bool) → (i : Nat) → List (String × Quarry.Node) →
    (left : List (String × Node)) → List (String × Quarry.Node) → Prop
  /-- Behind the last of them stands what is put where nothing was. -/
  | appended {o : Bool} {i : Nat} {left : List (String × Node)} {ms : List (String × Quarry.Node)}
      (object : left ≠ [] → o = true)
      (values : List.Forall₂ (fun c m => c.1 = m.1 ∧
        ∃ e : Edit, c.2.edit = some e ∧ e.value? = some (m.2.span.of out)) left ms) :
      Carried source out o i [] left ms
  | kept {o : Bool} {i : Nat} {k : String} {n m : Quarry.Node} {ns ms : List (String × Quarry.Node)}
      {left : List (String × Node)} (free : Node.takeChild (label o k i) left = none)
      (text : m.span.of out = n.span.of source) (rest : Carried source out o (i + 1) ns left ms) :
      Carried source out o i ((k, n) :: ns) left ((k, m) :: ms)
  | replaced {o : Bool} {i : Nat} {k : String} {n m : Quarry.Node}
      {ns ms : List (String × Quarry.Node)} {left left' : List (String × Node)} {c : Node} {e : Edit}
      (taken : Node.takeChild (label o k i) left = some (c, left')) (edit : c.edit = some e)
      (text : e.outcome o = some (some (m.span.of out)))
      (rest : Carried source out o (i + 1) ns left' ms) :
      Carried source out o i ((k, n) :: ns) left ((k, m) :: ms)
  | dropped {o : Bool} {i : Nat} {k : String} {n : Quarry.Node}
      {ns ms : List (String × Quarry.Node)} {left left' : List (String × Node)} {c : Node} {e : Edit}
      (taken : Node.takeChild (label o k i) left = some (c, left')) (edit : c.edit = some e)
      (nothing : e.outcome o = some none) (rest : Carried source out o (i + 1) ns left' ms) :
      Carried source out o i ((k, n) :: ns) left ms
  | entered {o b : Bool} {i : Nat} {k : String} {mark mark' : Mark}
      {inner inner' ns ms : List (String × Quarry.Node)} {left left' : List (String × Node)} {c : Node}
      (taken : Node.takeChild (label o k i) left = some (c, left')) (edit : c.edit = none)
      (inside : Carried source out b 0 inner c.children inner')
      (rest : Carried source out o (i + 1) ns left' ms) :
      Carried source out o i ((k, .group b mark inner) :: ns) left
        ((k, .group b mark' inner') :: ms)

section Passages

variable {source out : Bytes} {o s st : Bool} {i start start' k k' : Nat}
  {left : List (String × Node)} {ps : List (String × Spelling)}

theorem forall₂_appended (h : appended spelling? true left = some ps)
    (hout : (Passage.ofParts st ps : Passage true st).text <+: out.drop start) :
    List.Forall₂ (fun c m => c.1 = m.1 ∧
        ∃ e : Edit, c.2.edit = some e ∧ e.value? = some (m.2.span.of out)) left
      ((Passage.ofParts st ps : Passage true st).nodes start k) := by
  induction left generalizing ps st start k with
  | nil =>
    obtain rfl := Option.some.inj h
    exact .nil
  | cons c left ih =>
    obtain ⟨t, n⟩ := c
    rw [appended, if_pos rfl] at h
    obtain ⟨e, he, h⟩ := Option.bind_eq_some_iff.1 h
    obtain ⟨bs, hbs, h⟩ := Option.bind_eq_some_iff.1 h
    obtain ⟨v, hv, h⟩ := Option.bind_eq_some_iff.1 h
    obtain ⟨ps', hps, h⟩ := Option.bind_eq_some_iff.1 h
    obtain rfl := Option.some.inj h
    obtain ⟨hvalue, hrest⟩ := Passage.prefix_cons hout
    rw [Passage.ofParts, Passage.nodes_cons]
    refine .cons ⟨rfl, e, he, ?_⟩ (ih hps hrest)
    rw [hbs, Spelling.span_of_node hvalue, text_of_spelling? hv]

theorem carried_member {l : Lead o s} {v : Spelling} {ns : List (String × Quarry.Node)}
    {entered : List (String × Node) → Option Spelling}
    {after : List (String × Node) → Option (List (String × Spelling))}
    (h : editMember spelling? o (l.name i) v entered after left = some ps)
    (hsource : v.text <+: source.drop start)
    (hout : (Passage.ofParts st ps : Passage o st).text <+: out.drop start')
    (henter : ∀ {cs : List (String × Node)} {v' : Spelling} {start' : Nat} (k' : Nat),
      entered cs = some v' → v'.text <+: out.drop start' →
      ∃ b mark mark' inner inner', v.node start k = .group b mark inner ∧
        v'.node start' k' = .group b mark' inner' ∧ Carried source out b 0 inner cs inner')
    (hafter : ∀ {left' : List (String × Node)} {ps' : List (String × Spelling)} {st' : Bool}
      {start' : Nat} (k' : Nat), after left' = some ps' →
      (Passage.ofParts st' ps' : Passage o st').text <+: out.drop start' →
      Carried source out o (i + 1) ns left' ((Passage.ofParts st' ps' : Passage o st').nodes start' k')) :
    Carried source out o i ((l.key.getD "", v.node start k) :: ns) left
      ((Passage.ofParts st ps : Passage o st).nodes start' k') := by
  have hlabel : label o (l.key.getD "") i = l.name i := by
    cases o with
    | true => exact l.name_key i rfl
    | false => exact (l.name_index i).symm
  -- Where a value is written in its turn, it has the name of the value that was there.
  have hwritten : ∀ {v' : Spelling} {ps' : List (String × Spelling)},
      ps = (l.name i, v') :: ps' →
      v'.text <+: out.drop (start' + (leadFor o st (l.name i)).text.length) ∧
      (Passage.ofParts true ps' : Passage o true).text <+:
        out.drop (start' + (leadFor o st (l.name i)).text.length + v'.text.length) ∧
      (Passage.ofParts st ps : Passage o st).nodes start' k' =
        (l.key.getD "", v'.node (start' + (leadFor o st (l.name i)).text.length) k') ::
          (Passage.ofParts true ps' : Passage o true).nodes
            (start' + (leadFor o st (l.name i)).text.length + v'.text.length) (k' + v'.count) := by
    rintro v' ps' rfl
    obtain ⟨hvalue, hrest⟩ := Passage.prefix_cons hout
    refine ⟨hvalue, hrest, ?_⟩
    rw [Passage.ofParts, Passage.nodes_cons, getD_key_leadFor]
  rw [editMember] at h
  split at h
  · rename_i hfree
    obtain ⟨ps', hps, heq⟩ := Option.map_eq_some_iff.1 h
    obtain ⟨hvalue, hrest, hnodes⟩ := hwritten heq.symm
    rw [hnodes]
    refine .kept (hlabel ▸ hfree) ?_ (hafter _ hps hrest)
    rw [Spelling.span_of_node hvalue, Spelling.span_of_node hsource]
  · rename_i c left' htaken
    rw [← hlabel] at htaken
    split at h
    · rename_i hedit
      obtain ⟨v', hv, h⟩ := Option.bind_eq_some_iff.1 h
      obtain ⟨ps', hps, h⟩ := Option.bind_eq_some_iff.1 h
      obtain ⟨hvalue, hrest, hnodes⟩ := hwritten (Option.some.inj h).symm
      obtain ⟨b, mark, mark', inner, inner', hv, hv', hinside⟩ := henter k' hv hvalue
      rw [hnodes, hv, hv']
      exact .entered htaken hedit hinside (hafter _ hps hrest)
    · rename_i e hedit
      split at h
      · cases h
      · rename_i hnothing
        exact .dropped htaken hedit hnothing (hafter _ h hout)
      · rename_i bs houtcome
        obtain ⟨v', hv, h⟩ := Option.bind_eq_some_iff.1 h
        obtain ⟨ps', hps, h⟩ := Option.bind_eq_some_iff.1 h
        obtain ⟨hvalue, hrest, hnodes⟩ := hwritten (Option.some.inj h).symm
        rw [hnodes]
        refine .replaced htaken hedit ?_ (hafter _ hps hrest)
        rw [houtcome, Spelling.span_of_node hvalue, text_of_spelling? hv]

/-- The edits of a passage carry its members or elements over. -/
theorem carried_passage (p : Passage o s) (h : p.edit i left = some ps)
    (hsource : p.text <+: source.drop start)
    (hout : (Passage.ofParts st ps : Passage o st).text <+: out.drop start') :
    Carried source out o i (p.nodes start k) left
      ((Passage.ofParts st ps : Passage o st).nodes start' k') := by
  induction p generalizing i left ps start start' st k k' with
  | @close o s sp =>
    have h : appended spelling? o left = some ps := h
    cases o with
    | true => exact .appended (fun _ => rfl) (forall₂_appended h hout)
    | false =>
      cases left with
      | nil =>
        obtain rfl := Option.some.inj h
        exact .appended (by simp) .nil
      | cons c left => simp [appended] at h
  | @token o s l t rest ih =>
    obtain ⟨hvalue, hrest⟩ := Passage.prefix_cons (l := l) (v := .token t) hsource
    refine carried_member (v := .token t) h hvalue hout ?_ ?_
    · rintro cs v' start' k' ⟨⟩
    · intro left' ps' st' start' k' hps hout'
      exact ih hps hrest hout'
  | @nested o s l b inside rest ih1 ih2 =>
    have hsource : (Passage.cons l (.nested b inside) rest).text <+: source.drop start := hsource
    obtain ⟨hvalue, hrest⟩ := Passage.prefix_cons hsource
    have hnodes := Passage.nodes_cons l (.nested b inside) rest start k
    rw [show Passage.nested l b inside rest = .cons l (.nested b inside) rest from rfl, hnodes]
    refine carried_member h hvalue hout ?_ ?_
    · intro cs v' start' k' hv hout'
      obtain ⟨qs, hqs, rfl⟩ := Option.map_eq_some_iff.1 hv
      refine ⟨b, _, _, _, _, rfl, rfl, ?_⟩
      have hin : inside.text <+: source.drop (start + l.text.length + 1) :=
        (prefix_drop_append (a := [Reader.openByte b]) hvalue).2
      have hin' : (Passage.ofParts false qs : Passage b false).text <+: out.drop (start' + 1) :=
        (prefix_drop_append (a := [Reader.openByte b]) hout').2
      exact ih1 hqs hin hin'
    · intro left' ps' st' start' k' hps hout'
      exact ih2 hps hrest hout'

end Passages

end Patch

end Quarry
