import Quarry.Proofs.Json.Skipping
import Quarry.Proofs.Select.Matching
import Quarry.Proofs.Select.Reading

/-!
A pass through a document adds to the result of each collector what the collector meets. A container
is added without its text, which is put in its place after what is inside has been added behind it.
-/

namespace Quarry

open Json Json.Reader Text

/-! ### Results that grow -/

namespace Matches

def append (m m' : Matches) : Matches := ⟨m.values ++ m'.values, m.json ++ m'.json⟩

/-- The matches that nodes of a text make. -/
def found (input : Bytes) (ns : List Node) : Matches :=
  ⟨ns.map Node.scalar, ns.map fun n => ofBytes (n.span.of input)⟩

theorem append_found_nil (input : Bytes) (m : Matches) : m.append (found input []) = m := by
  simp [append, found]

theorem append_found_append (input : Bytes) (ns ns' : List Node) (m : Matches) :
    m.append (found input (ns ++ ns')) = (m.append (found input ns)).append (found input ns') := by
  simp [append, found]

/-- A text that was left out is put in its place behind what was there before. -/
theorem setText_append (m m' : Matches) (s : Scalar) (text : String) :
    setText m.json.length text ((m.add s "").append m') = (m.add s text).append m' := by
  simp [setText, append, add]

end Matches

namespace Walk

/-- The results have grown by these hits. -/
def Grows (input : Bytes) (hs : List Hit) (rs rs' : List Matches) : Prop :=
  ∀ j : Nat, rs'[j]? = rs[j]?.map fun m : Matches => m.append (.found input (hitsOf j hs))

variable {input : Bytes} {hs hs' : List Hit} {rs rs' rs'' : List Matches}

theorem Grows.refl : Grows input [] rs rs := by
  intro j
  have hnil : hitsOf j [] = [] := rfl
  simp only [hnil, Matches.append_found_nil, Option.map_id']

theorem Grows.trans (h : Grows input hs rs rs') (h' : Grows input hs' rs' rs'') :
    Grows input (hs ++ hs') rs rs'' := by
  intro j
  rw [h' j, h j, Option.map_map, hitsOf_append]
  congr 1
  funext m
  exact (Matches.append_found_append input _ _ m).symm

theorem getElem?_foldl_modify {cs : List Nat} (h : cs.Nodup) (f : Nat → Matches → Matches)
    (rs : List Matches) (j : Nat) :
    (cs.foldl (fun rs i => rs.modify i (f i)) rs)[j]? =
      if j ∈ cs then rs[j]?.map (f j) else rs[j]? := by
  induction cs generalizing rs with
  | nil => rfl
  | cons i cs ih =>
    obtain ⟨hi, hcs⟩ := List.nodup_cons.1 h
    rw [List.foldl_cons, ih hcs, List.getElem?_modify]
    by_cases hij : i = j
    · subst hij
      simp [hi]
    · have hji : j ≠ i := Ne.symm hij
      simp [hij, hji]

variable {cs : List Nat} {n : Node} {w : Walk}

theorem grows_record (hcs : cs.Nodup) :
    Grows input (cs.map fun j => (j, n)) w.results
      (w.record cs n.scalar (ofBytes (n.span.of input))).results := by
  intro j
  rw [record, getElem?_foldl_modify hcs, hitsOf_collectors hcs]
  split
  · rfl
  · simp only [Matches.append_found_nil, Option.map_id']

theorem grows_fill (hcs : cs.Nodup) {w' : Walk}
    (h : Grows input hs (w.record cs n.scalar "").results w'.results) :
    Grows input ((cs.map fun j => (j, n)) ++ hs) w.results
      (w'.fill ((w.record cs n.scalar "").slots cs) (ofBytes (n.span.of input))).results := by
  intro j
  rw [fill, slots, List.foldl_map, getElem?_foldl_modify hcs, h j, hitsOf_append,
    hitsOf_collectors hcs]
  have hrec : ∀ j, (w.record cs n.scalar "").results[j]? =
      if j ∈ cs then w.results[j]?.map (Matches.add n.scalar "") else w.results[j]? :=
    getElem?_foldl_modify hcs _ _
  rw [hrec]
  split
  · cases w.results[j]? with
    | none => rfl
    | some m =>
      have hlen : (m.add n.scalar "").json.length - 1 = m.json.length := by simp [Matches.add]
      simp only [Option.map_some, Option.getD_some, hlen, Matches.setText_append,
        Matches.append_found_append]
      rfl
  · rfl

/-! ### Through a container -/

variable {depth fuel : Nat} {read rest : Bytes} {outer : List Frame} {o s : Bool}
  {i k : Nat} {tree : Tree}

theorem childFor_eq (o : Bool) (i : Nat) (t : Tree) (w : Walk) :
    w.childFor o i t =
      t.child? (t.pick (if o then .key (w.reader.key.getD "") else .index i)) := by
  cases o with
  | true => rfl
  | false => exact t.childAt?_eq i

theorem hits_of_not_hasChildren (p : Passage o s) (h : tree.hasChildren = false) (i start k : Nat) :
    p.hits tree i start k = [] := by
  induction p generalizing i start k with
  | close sp => rfl
  | token l t rest ih =>
    rw [Passage.hits, ih, hitsAt, PathNode.child?_of_not_hasChildren h]
    rfl
  | nested l b inside rest ih1 ih2 =>
    rw [Passage.hits, ih2, hitsAt, PathNode.child?_of_not_hasChildren h]
    rfl

theorem visit_token (enter : Tree → Bool → Walk → Except ReadError Unit × Walk) (t : Token)
    {span : Span} (he : w.reader.event = t.event) (hspan : w.reader.span = span)
    (hi : w.reader.input = input) (hn : ∀ path, (tree.collected path).Nodup) (k : Nat) :
    ∃ rs, visit enter tree o i w = (.ok (), { w with results := rs }) ∧
      Grows input (hitsAt tree (if o then .key (w.reader.key.getD "") else .index i)
        (.atom ⟨k, span⟩ t.atom) fun _ => []) w.results rs := by
  rw [visit, childFor_eq, hitsAt, he, t.event_not_start]
  generalize tree.pick (if o then .key (w.reader.key.getD "") else .index i) = step
  cases hc : tree.child? step with
  | none => exact ⟨w.results, rfl, .refl⟩
  | some c =>
    have hscalar : scalarOf t.event = t.atom.toScalar := by
      obtain ⟨text, event, h⟩ := t
      cases h <;> rfl
    refine ⟨_, rfl, ?_⟩
    show Grows input ((c.collectors.map fun j => (j, .atom ⟨k, span⟩ t.atom)) ++ []) w.results
      (w.record c.collectors (scalarOf t.event) (w.textOf w.reader.span)).results
    rw [List.append_nil, hscalar, textOf, hi, hspan]
    exact grows_record (n := .atom ⟨k, span⟩ t.atom) (nodup_child hn hc [])

theorem scalarOf_startEvent (b : Bool) (mark : Mark) (ns : List (String × Node)) :
    scalarOf (startEvent b) = (Node.group b mark ns).scalar := by
  cases b <;> rfl

theorem passOver_nested {b : Bool} {inside : Passage b false} (done : Span → Walk → Walk)
    (h : w.reader.Stands depth (read ++ [openByte b]) (inside.text ++ rest) (⟨b, false⟩ :: outer))
    (he : w.reader.event = startEvent b) (hv : w.reader.valueStart = read.length)
    (hd : outer.length + 1 + inside.nesting ≤ depth) :
    ∃ r : Reader, r.Stands depth (read ++ openByte b :: inside.text) rest outer ∧
      w.passOver done =
        (.ok (), done ⟨read.length, read.length + 1 + inside.text.length⟩
          { w with reader := r }) := by
  obtain ⟨r, hr, hskip⟩ := skip_nested h he hv hd
  refine ⟨r, hr, ?_⟩
  have hlen : (read ++ openByte b :: inside.text).length =
      read.length + 1 + inside.text.length := by
    simp only [List.length_append, List.length_cons]
    omega
  rw [passOver, skip, hskip, hlen]

/-- Behind the opening of a container the reader goes through it, and what the collectors meet at
the container and inside it is added. -/
theorem visit_nested {b : Bool} {inside : Passage b false}
    (enter : Tree → Bool → Walk → Except ReadError Unit × Walk)
    (h : w.reader.Stands depth (read ++ [openByte b]) (inside.text ++ rest) (⟨b, false⟩ :: outer))
    (he : w.reader.event = startEvent b) (hv : w.reader.valueStart = read.length)
    (hd : outer.length + 1 + inside.nesting ≤ depth) (hi : w.reader.input = input)
    (hn : ∀ path, (tree.collected path).Nodup) (k : Nat)
    (hk : ∀ c, (∀ path, (c.collected path).Nodup) → ∀ rs, ∃ w' : Walk,
      enter c b ⟨w.reader, rs⟩ = (.ok (), w') ∧
        w'.reader.Stands depth (read ++ openByte b :: inside.text) rest outer ∧
        Grows input (inside.hits c 0 (read.length + 1) (k + 1)) rs w'.results) :
    ∃ w' : Walk, visit enter tree o i w = (.ok (), w') ∧
      w'.reader.Stands depth (read ++ openByte b :: inside.text) rest outer ∧
      Grows input (hitsAt tree (if o then .key (w.reader.key.getD "") else .index i)
        (.group b ⟨k, ⟨read.length, read.length + 1 + inside.text.length⟩⟩
          (inside.nodes (read.length + 1) (k + 1)))
        fun c => inside.hits c 0 (read.length + 1) (k + 1)) w.results w'.results := by
  rw [visit, childFor_eq, hitsAt, he, isStart_startEvent]
  generalize tree.pick (if o then .key (w.reader.key.getD "") else .index i) = step
  have hobj : (startEvent b == Event.objectStart) = b := by cases b <;> rfl
  cases hc : tree.child? step with
  | none =>
    obtain ⟨r, hr, hpass⟩ := passOver_nested (fun _ w => w) h he hv hd
    exact ⟨_, hpass, hr, .refl⟩
  | some c =>
    let mark : Mark := ⟨k, ⟨read.length, read.length + 1 + inside.text.length⟩⟩
    let n : Node := .group b mark (inside.nodes (read.length + 1) (k + 1))
    have hspan : n.span = ⟨read.length, read.length + 1 + inside.text.length⟩ :=
      Node.span_group b mark _
    have hcs : c.collectors.Nodup := nodup_child hn hc []
    rw [scalarOf_startEvent b mark (inside.nodes (read.length + 1) (k + 1))]
    simp only [↓reduceIte, hobj]
    split
    · obtain ⟨w', hw', hs, hgrows⟩ :=
        hk c (nodup_child hn hc) (w.record c.collectors n.scalar "").results
      have htext : w'.textOf ⟨w.reader.valueStart, w'.reader.position⟩ =
          ofBytes (n.span.of input) := by
        have hinput : w'.reader.input = input := by rw [hs.input, ← hi, h.input]; simp
        rw [textOf, hv, Reader.position, hs.cursor, hinput, hspan, List.length_append,
          List.length_cons, Nat.add_assoc, Nat.add_comm 1]
      refine ⟨w'.fill ((w.record c.collectors n.scalar "").slots c.collectors)
        (ofBytes (n.span.of input)), ?_, hs, grows_fill hcs hgrows⟩
      rw [show enter c b (w.record c.collectors n.scalar "") = (.ok (), w') from hw', ← htext]
      rfl
    · rename_i hleaf
      rw [Bool.not_eq_true] at hleaf
      obtain ⟨r, hr, hpass⟩ := passOver_nested (w := w.record c.collectors n.scalar "")
        (fun s w' => w'.fill ((w.record c.collectors n.scalar "").slots c.collectors)
          (w'.textOf s)) h he hv hd
      have htext : (⟨r, (w.record c.collectors n.scalar "").results⟩ : Walk).textOf
          ⟨read.length, read.length + 1 + inside.text.length⟩ = ofBytes (n.span.of input) := by
        have hinput : r.input = input := by rw [hr.input, ← hi, h.input]; simp
        rw [textOf, hinput, hspan]
      refine ⟨_, hpass, hr, ?_⟩
      rw [hits_of_not_hasChildren inside hleaf]
      show Grows input _ w.results (fill _ (textOf _ ⟨r, _⟩) ⟨r, _⟩).results
      rw [htext]
      exact grows_fill hcs .refl

/-- A pass through a container adds what the collectors meet in it. -/
theorem inside_passage (p : Passage o s) (hi : input = read ++ (p.text ++ rest))
    (h : w.reader.Stands depth read (p.text ++ rest) (⟨o, s⟩ :: outer))
    (hd : outer.length + 1 + p.nesting ≤ depth) (hn : ∀ path, (tree.collected path).Nodup)
    (hf : p.steps ≤ fuel) (i k : Nat) :
    ∃ w' : Walk, inside fuel tree o i w = (.ok (), w') ∧
      w'.reader.Stands depth (read ++ p.text) rest outer ∧
      Grows input (p.hits tree i read.length k) w.results w'.results := by
  induction p generalizing w read rest outer tree fuel i k with
  | @close o s sp =>
    obtain ⟨fuel, rfl⟩ : ∃ m, fuel = m + 1 := ⟨fuel - 1, by simp only [Passage.steps] at hf; omega⟩
    obtain ⟨hstands, hevent, -⟩ := h.next_close
    refine ⟨{ w with reader := w.reader.next }, ?_, hstands, .refl⟩
    rw [inside_succ]
    simp only [hevent, endEvent_not_last, isEnd_endEvent, Bool.false_eq_true, ↓reduceIte]
  | @token o s l t tail ih =>
    obtain ⟨fuel, rfl⟩ : ∃ m, fuel = m + 1 := ⟨fuel - 1, by simp only [Passage.steps] at hf; omega⟩
    obtain ⟨hstands, hmeets⟩ := h.next_token
    let w1 : Walk := { w with reader := w.reader.next }
    let first := read.length + l.text.length
    have hstop : (read ++ (l.text ++ t.text)).length = first + t.text.length := by
      rw [← List.append_assoc, List.length_append, List.length_append]
    have hspan : w1.reader.span = ⟨first, first + t.text.length⟩ := by
      rw [Reader.span, hmeets.valueStart, Reader.position, hstands.cursor, hstop,
        List.length_append]
    have hinput : w1.reader.input = input := by rw [hstands.input, hi]; simp [Passage.text]
    obtain ⟨rs, hvisit, hgrows⟩ := visit_token (o := o) (i := i) (inside fuel · · 0 ·)
      t hmeets.event hspan hinput hn k
    obtain ⟨w', hw', hs', hgrows'⟩ := ih (w := ⟨w1.reader, rs⟩)
      (show input = (read ++ (l.text ++ t.text)) ++ (tail.text ++ rest) by simp [hi, Passage.text])
      hstands hd hn (Nat.le_of_succ_le_succ hf) (i + 1) (k + 1)
    have hkey : w1.reader.key = l.key := hmeets.key
    rw [hkey] at hgrows
    rw [hstop] at hgrows'
    refine ⟨w', ?_, by simpa [Passage.text] using hs', hgrows.trans hgrows'⟩
    rw [inside_succ]
    simp only [hmeets.event, t.event_not_last, t.event_not_end, Bool.false_eq_true, ↓reduceIte]
    rw [hvisit]
    exact hw'
  | @nested o s l b inside tail ih1 ih2 =>
    obtain ⟨fuel, rfl⟩ : ∃ m, fuel = m + 1 := ⟨fuel - 1, by simp only [Passage.steps] at hf; omega⟩
    have hf : inside.steps + tail.steps ≤ fuel := Nat.le_of_succ_le_succ hf
    simp only [Passage.nesting] at hd
    obtain ⟨hstands, hmeets⟩ := h.next_open (by omega)
    let w1 : Walk := { w with reader := w.reader.next }
    let first := read.length + l.text.length
    have hfirst : (read ++ l.text).length = first := List.length_append
    have hinput : w1.reader.input = input := by rw [hstands.input, hi]; simp [Passage.text]
    rw [← List.append_assoc] at hstands
    obtain ⟨w2, hvisit, hs2, hgrows⟩ := visit_nested (w := w1) (o := o) (i := i)
      (Walk.inside fuel · · 0 ·) hstands hmeets.event hmeets.valueStart
      (by simp only [List.length_cons]; omega) hinput hn k (by
        intro c hc rs
        obtain ⟨w2, hw2, hs2, hgrows⟩ := ih1 (w := ⟨w1.reader, rs⟩)
          (show input = (read ++ l.text ++ [openByte b]) ++ (inside.text ++ (tail.text ++ rest)) by
            simp [hi, Passage.text])
          hstands (by simp only [List.length_cons]; omega) hc (show inside.steps ≤ fuel by omega)
          0 (k + 1)
        have hlen : (read ++ l.text ++ [openByte b]).length = (read ++ l.text).length + 1 :=
          List.length_append
        rw [hlen] at hgrows
        exact ⟨w2, hw2, by simpa using hs2, hgrows⟩)
    obtain ⟨w', hw', hs', hgrows'⟩ := ih2
      (show input = (read ++ l.text ++ openByte b :: inside.text) ++ (tail.text ++ rest) by
        simp [hi, Passage.text])
      hs2 (by omega) hn (show tail.steps ≤ fuel by omega) (i + 1) (k + 1 + inside.count)
    have hkey : w1.reader.key = l.key := hmeets.key
    have hstop : (read ++ l.text ++ openByte b :: inside.text).length =
        first + 1 + inside.text.length := by
      rw [List.length_append, hfirst, List.length_cons]
      omega
    rw [hkey, hfirst] at hgrows
    rw [hstop] at hgrows'
    refine ⟨w', ?_, by simpa [Passage.text] using hs', hgrows.trans hgrows'⟩
    rw [inside_succ]
    simp only [hmeets.event, startEvent_not_last, isEnd_startEvent, Bool.false_eq_true, ↓reduceIte]
    rw [hvisit]
    exact hw'

end Walk

end Quarry
