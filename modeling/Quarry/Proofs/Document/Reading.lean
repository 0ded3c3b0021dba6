import Quarry.Proofs.Document.Nodes
import Quarry.Proofs.Json.Passage

/-!
Which document a text is read as, and where its nodes stand in the text.
-/

namespace Quarry

open Json Json.Reader Text

namespace Json

/-- The name a value has in its container. -/
def Lead.name {o s : Bool} (l : Lead o s) (i : Nat) : String := l.key.getD (toString i)

/-- The members or elements up to the end, of which the first has the index `i`. -/
def Passage.members : {o s : Bool} → Passage o s → Nat → List (String × Content)
  | _, _, .close _, _ => []
  | _, _, .token l t rest, i => (l.name i, .atom t.atom) :: rest.members (i + 1)
  | _, _, .nested l k inside rest, i =>
    (l.name i, .group k (inside.members 0)) :: rest.members (i + 1)

def Spelling.content : Spelling → Content
  | .token t => .atom t.atom
  | .nested k inside => .group k (inside.members 0)

theorem Passage.nestingOf_members {o s : Bool} (p : Passage o s) (i : Nat) :
    Content.nesting.nestingOf (p.members i) = p.nesting := by
  induction p generalizing i with
  | close sp => rfl
  | token l t rest ih =>
    rw [members, Content.nesting.nestingOf, ih, nesting, Content.nesting, Nat.zero_max]
  | nested l k inside rest ih1 ih2 =>
    rw [members, Content.nesting.nestingOf, ih2, nesting, Content.nesting, ih1]

theorem Spelling.nesting_content (v : Spelling) : v.content.nesting = v.nesting := by
  cases v with
  | token t => rfl
  | nested k inside => rw [content, Content.nesting, Passage.nestingOf_members, nesting]

theorem Passage.length_members {o s : Bool} (p : Passage o s) (i : Nat) :
    (p.members i).length ≤ p.text.length := by
  induction p generalizing i with
  | close sp => exact Nat.zero_le _
  | token l t rest ih =>
    obtain ⟨b, bs, hb, -⟩ := t.head
    have hrest := ih (i + 1)
    simp only [members, text, hb, List.length_cons, List.length_append]
    omega
  | nested l k inside rest ih1 ih2 =>
    have hrest := ih2 (i + 1)
    simp only [members, text, List.length_cons, List.length_append]
    omega

theorem Spelling.length_members (v : Spelling) : v.content.members.length ≤ v.text.length := by
  cases v with
  | token t => exact Nat.zero_le _
  | nested k inside =>
    have h := inside.length_members 0
    simp only [content, Content.members, text, List.length_cons]
    omega

end Json

/-! ### Nodes and their text -/

theorem Json.Span.length_of_le (s : Span) (input : Bytes) : (s.of input).length ≤ input.length := by
  rw [Span.of, List.length_take, List.length_drop]
  omega

theorem Json.Span.of_parts {start stop : Nat} {a b c : Bytes} (hs : start = a.length)
    (he : stop = start + b.length) : Span.of ⟨start, stop⟩ (a ++ (b ++ c)) = b := by
  simp [Span.of, hs, he]

theorem span_of_append (a b c : Bytes) :
    Span.of ⟨a.length, (a ++ b).length⟩ (a ++ (b ++ c)) = b :=
  Span.of_parts rfl List.length_append

namespace Node

def parts : Node → List Node
  | .atom _ _ => []
  | .array _ items => items
  | .object _ members => members.map Prod.snd

theorem mem_parts_of_child? {n m : Node} {t : String} (h : n.child? t = some m) : m ∈ n.parts := by
  cases n with
  | atom mark a => simp [child?] at h
  | array mark items =>
    obtain ⟨i, -, hi⟩ := Option.bind_eq_some_iff.1 h
    exact List.mem_of_getElem? hi
  | object mark ms =>
    exact List.mem_map_of_mem (f := Prod.snd)
      (List.mem_reverse.1 (mem_of_find? (show find? t _ = some m from h)))

/-- The spans of a node and of its parts hold their texts. -/
inductive Written (input : Bytes) (depth : Nat) : Node → Prop
  | make {n : Node} (v : Spelling) (text : n.span.of input = v.text)
      (content : v.content = n.content) (fits : v.nesting ≤ depth)
      (all : ∀ m ∈ n.parts, Written input depth m) : Written input depth n

theorem Written.part {input : Bytes} {depth : Nat} {n c : Node} (h : n.Written input depth)
    (hc : c ∈ n.parts) : c.Written input depth := by
  cases h with
  | make v text content fits all => exact all c hc

theorem Written.pointer? {input : Bytes} {depth : Nat} {n m : Node} {p : List String}
    (h : n.Written input depth) (hp : n.pointer? p = some m) : m.Written input depth :=
  of_pointer? (fun h hc => h.part (mem_parts_of_child? hc)) h hp

/-- In a text that is not too long no array has too many elements. -/
theorem Written.countable {input : Bytes} {depth : Nat} {n : Node} (h : n.Written input depth)
    (hlen : input.length ≤ UInt64.size) : n.Countable := by
  induction h with
  | @make n v text content fits all ih =>
    have hmembers := v.length_members
    have hspan := n.span.length_of_le input
    rw [← text, content] at hmembers
    cases n with
    | atom mark a => exact .atom mark a
    | array mark items =>
      refine .array ?_ ih
      have hitems : (Node.array mark items).content.members.length = items.length := by
        rw [Node.content, contentItems_eq_map, Content.array, Content.members, length_numbered,
          List.length_map]
      omega
    | object mark ms => exact .object fun m hm => ih m.2 (List.mem_map_of_mem hm)

end Node

/-- A container with its members or elements, whatever names elements are kept under. -/
def Node.group (isObject : Bool) (mark : Mark) (ns : List (String × Node)) : Node :=
  if isObject then .object mark ns else .array mark (ns.map Prod.snd)

/-- Nodes under the names they have in their container. -/
def Node.labelled (isObject : Bool) (i : Nat) (ns : List (String × Node)) :
    List (String × Content) :=
  if isObject then ns.map fun n => (n.1, n.2.content) else numbered i (ns.map fun n => n.2.content)

section Group

variable (isObject : Bool) (mark : Mark) (ns : List (String × Node))

theorem Node.content_group :
    (group isObject mark ns).content = .group isObject (labelled isObject 0 ns) := by
  cases isObject with
  | true =>
    simp only [group, ↓reduceIte, labelled]
    rw [content, contentMembers_eq_map]
  | false =>
    simp only [group, Bool.false_eq_true, ↓reduceIte, labelled]
    rw [content, contentItems_eq_map, Content.array, List.map_map]
    rfl

theorem Node.span_group : (group isObject mark ns).span = mark.span := by
  rw [group]
  split <;> rfl

theorem Node.parts_group : (group isObject mark ns).parts = ns.map Prod.snd := by
  rw [group]
  split <;> rfl

end Group

namespace Json

section Names

variable {o s : Bool}

theorem Lead.name_key (l : Lead o s) (i : Nat) (h : o = true) : l.key.getD "" = l.name i := by
  have hk := l.key_isSome
  obtain ⟨k, hk⟩ := Option.isSome_iff_exists.1 (hk.trans h)
  rw [name, hk]
  rfl

theorem Lead.name_index (l : Lead false s) (i : Nat) : l.name i = toString i := by
  have hk : l.key = none := by simpa using l.key_isSome
  rw [name, hk]
  rfl

/-- A further node comes before those that follow it. -/
theorem Lead.labelled_cons (l : Lead o s) (i : Nat) (n : Node) (ns : List (String × Node)) :
    Node.labelled o i ((l.key.getD "", n) :: ns) =
      (l.name i, n.content) :: Node.labelled o (i + 1) ns := by
  cases o with
  | true => simp [Node.labelled, l.name_key i rfl]
  | false => simp [Node.labelled, numbered, l.name_index]

end Names

/-- The number of values in the rest of a container. -/
def Passage.count : {o s : Bool} → Passage o s → Nat
  | _, _, .close _ => 0
  | _, _, .token _ _ rest => rest.count + 1
  | _, _, .nested _ _ inside rest => inside.count + rest.count + 1

/-- What the members or elements up to the end are read as when they stand behind `start` bytes and
are numbered from `k` on. -/
def Passage.nodes : {o s : Bool} → Passage o s → (start k : Nat) → List (String × Node)
  | _, _, .close _, _, _ => []
  | _, _, .token l t rest, start, k =>
    let first := start + l.text.length
    let stop := first + t.text.length
    (l.key.getD "", .atom ⟨k, ⟨first, stop⟩⟩ t.atom) :: rest.nodes stop (k + 1)
  | _, _, .nested l b inside rest, start, k =>
    let first := start + l.text.length
    let stop := first + 1 + inside.text.length
    (l.key.getD "", .group b ⟨k, ⟨first, stop⟩⟩ (inside.nodes (first + 1) (k + 1))) ::
      rest.nodes stop (k + 1 + inside.count)

/-- What a value is read as when it stands behind `start` bytes and is numbered from `k` on. -/
def Spelling.node (start k : Nat) : Spelling → Node
  | .token t => .atom ⟨k, ⟨start, start + t.text.length⟩⟩ t.atom
  | .nested b inside =>
    .group b ⟨k, ⟨start, start + 1 + inside.text.length⟩⟩ (inside.nodes (start + 1) (k + 1))

theorem Passage.labelled_nodes {o s : Bool} (p : Passage o s) (i start k : Nat) :
    Node.labelled o i (p.nodes start k) = p.members i := by
  induction p generalizing i start k with
  | @close o s sp => cases o <;> rfl
  | token l t rest ih =>
    rw [nodes, l.labelled_cons, ih]
    rfl
  | nested l b inside rest ih1 ih2 =>
    rw [nodes, l.labelled_cons, ih2, Node.content_group, ih1]
    rfl

theorem Spelling.content_node (v : Spelling) (start k : Nat) :
    (v.node start k).content = v.content := by
  cases v with
  | token t => rfl
  | nested b inside => rw [node, Node.content_group, inside.labelled_nodes, content]

theorem Spelling.span_node (v : Spelling) (start k : Nat) :
    (v.node start k).span = ⟨start, start + v.text.length⟩ := by
  cases v with
  | token t => rfl
  | nested b inside =>
    rw [node, Node.span_group, text, List.length_cons, Nat.add_assoc, Nat.add_comm 1]

theorem stops_space (sp : Space) : Stops sp.bytes := by
  obtain ⟨bs, hb⟩ := sp
  cases bs with
  | nil => simp [Stops]
  | cons b bs =>
    refine stops_cons bs ?_
    have hc := hb b List.mem_cons_self
    simp only [Cursor.isSpace, Bool.or_eq_true, beq_iff_eq] at hc
    rcases hc with ((rfl | rfl) | rfl) | rfl <;> decide

theorem Passage.written_nodes {o s : Bool} (p : Passage o s) {input read rest : Bytes}
    {depth : Nat} (hi : input = read ++ (p.text ++ rest)) (hd : p.nesting ≤ depth)
    (k : Nat) : ∀ n ∈ p.nodes read.length k, n.2.Written input depth := by
  induction p generalizing read rest depth k with
  | close sp => simp [nodes]
  | token l t tail ih =>
    have hi : input = (read ++ l.text) ++ (t.text ++ (tail.text ++ rest)) := by
      simp [hi, text]
    have htail := ih
      (show input = (read ++ l.text ++ t.text) ++ (tail.text ++ rest) by simp [hi]) hd (k + 1)
    simp only [List.length_append] at htail
    rw [nodes]
    intro n hn
    rcases List.mem_cons.1 hn with rfl | hn
    · refine .make (.token t) ?_ rfl (Nat.zero_le _) (by simp [Node.parts])
      rw [hi]
      exact Span.of_parts (by simp) rfl
    · exact htail n hn
  | nested l b inside tail ih1 ih2 =>
    simp only [nesting] at hd
    have hi : input =
        (read ++ l.text) ++ (openByte b :: inside.text ++ (tail.text ++ rest)) := by
      simp [hi, text]
    have hinside := ih1 (show input = (read ++ l.text ++ [openByte b]) ++
      (inside.text ++ (tail.text ++ rest)) by simp [hi])
      (show inside.nesting ≤ depth by omega) (k + 1)
    have htail := ih2 (show input = (read ++ l.text ++ openByte b :: inside.text) ++
      (tail.text ++ rest) by simp [hi]) (show tail.nesting ≤ depth by omega)
      (k + 1 + inside.count)
    simp only [List.length_append, List.length_cons, List.length_nil] at hinside htail
    rw [nodes]
    intro n hn
    rcases List.mem_cons.1 hn with rfl | hn
    · refine .make (.nested b inside) ?_ ?_ (by rw [Spelling.nesting]; omega) ?_
      · rw [hi, Node.span_group]
        exact Span.of_parts (by simp) (by simp only [List.length_cons]; omega)
      · rw [Node.content_group, labelled_nodes, Spelling.content]
      · intro m hm
        rw [Node.parts_group] at hm
        obtain ⟨m', hm', rfl⟩ := List.mem_map.1 hm
        exact hinside m' hm'
    · refine htail n ?_
      rwa [Nat.add_assoc, Nat.add_comm 1, ← Nat.add_assoc] at hn

theorem Spelling.written_node (v : Spelling) {before after : Bytes} {depth : Nat}
    (hd : v.nesting ≤ depth) (k : Nat) :
    (v.node before.length k).Written (before ++ (v.text ++ after)) depth := by
  refine .make v ?_ (v.content_node _ _).symm hd ?_
  · rw [span_node]
    exact Span.of_parts rfl rfl
  · cases v with
    | token t => simp [node, Node.parts]
    | nested b inside =>
      intro m hm
      rw [node, Node.parts_group] at hm
      obtain ⟨m', hm', rfl⟩ := List.mem_map.1 hm
      rw [nesting] at hd
      have hinside := inside.written_nodes
        (show before ++ (openByte b :: inside.text ++ after) =
          (before ++ [openByte b]) ++ (inside.text ++ after) by simp)
        (Nat.le_of_succ_le hd) (k + 1)
      rw [List.length_append] at hinside
      exact hinside m' hm'

end Json

/-! ### Reading a container to its end -/

namespace Building

variable {r : Reader} {depth : Nat} {read rest : Bytes} {outer : List Frame} {o s : Bool}

/-- What has been built when the rest of the innermost container has been read. -/
def closed (c : OpenNode) (os : List OpenNode) (ns : List (String × Node)) (k stop : Nat)
    (b : Building) : Building :=
  ({ b with count := k, opened := os } : Building).place c.name
    (OpenNode.close { c with children := ns.reverse ++ c.children } ⟨c.mark.span.start, stop⟩)

theorem run_next {fuel : Nat} {b : Building} (h : r.next.event.isLast = false) :
    run (fuel + 1) r b = run fuel r.next (b.step r.next) := by
  rw [run]
  split
  · rename_i he
    simp [he, Event.isLast] at h
  · rename_i he
    simp [he, Event.isLast] at h
  · rfl

theorem step_close {b : Building} (h : r.event = endEvent o) : b.step r = b.close r.position := by
  have he : r.event.isEnd = true := by
    rw [h]
    cases o <;> rfl
  simp only [step, he, ↓reduceIte]

theorem step_token {b : Building} (t : Token) (h : r.event = t.event) :
    b.step r = ({ b with count := b.count + 1 } : Building).place (r.key.getD "")
      (.atom ⟨b.count, r.span⟩ t.atom) := by
  have hend : r.event.isEnd = false := h ▸ t.event_not_end
  have hstart : r.event.isStart = false := h ▸ t.event_not_start
  have hatom : atom? r.event = some t.atom := h ▸ t.atom?_event
  simp only [step, hend, hstart, hatom, Bool.false_eq_true, ↓reduceIte]

theorem step_open {b : Building} (k : Bool) (h : r.event = startEvent k) :
    b.step r = { b with
      count := b.count + 1
      opened := ⟨k, r.key.getD "", ⟨b.count, r.span⟩, []⟩ :: b.opened } := by
  cases k <;> simp [step, h, startEvent, Event.isEnd, Event.isStart]

theorem run_crosses {p : Passage o s} {r' : Reader} (h : Crosses depth p read rest outer r r')
    {b : Building} {c : OpenNode} {os : List OpenNode} (hb : b.opened = c :: os) (fuel : Nat) :
    run (fuel + p.steps) r b =
      run fuel r' (b.closed c os (p.nodes read.length b.count) (b.count + p.count)
        (read ++ p.text).length) := by
  induction h generalizing b c os fuel with
  | @close o s read rest outer r sp stands event =>
    have hpos : r.next.position = (read ++ (Passage.close sp : Passage o s).text).length := by
      rw [Reader.position, stands.cursor]
    rw [Passage.steps, run_next (event ▸ endEvent_not_last o), step_close event, close, hb, hpos]
    rfl
  | @token o s read rest outer r r' l t tail stands meets onward ih =>
    have hspan : r.next.span = ⟨(read ++ l.text).length, (read ++ l.text ++ t.text).length⟩ := by
      rw [Reader.span, meets.valueStart, Reader.position, stands.cursor, List.append_assoc]
    let n : Node := .atom ⟨b.count, r.next.span⟩ t.atom
    have hstep : b.step r.next = { b with
        count := b.count + 1
        opened := { c with children := (l.key.getD "", n) :: c.children } :: os } := by
      simp [step_token t meets.event, place, hb, meets.key, n]
    rw [Passage.steps, ← Nat.add_assoc, run_next (meets.event ▸ t.event_not_last), hstep, ih rfl]
    simp [closed, Passage.text, Passage.nodes, Passage.count, n, hspan, Nat.add_assoc,
      Nat.add_comm 1]
  | @nested o s read rest outer r middle r' l k inside tail stands meets fits _ _ ih1 ih2 =>
    let c1 : OpenNode := ⟨k, l.key.getD "", ⟨b.count, r.next.span⟩, []⟩
    have hstep : b.step r.next = { b with count := b.count + 1, opened := c1 :: c :: os } := by
      rw [step_open k meets.event, meets.key, hb]
    let stop := (read ++ (l.text ++ [openByte k]) ++ inside.text).length
    let ns := inside.nodes (read ++ (l.text ++ [openByte k])).length (b.count + 1)
    let n := OpenNode.close { c1 with children := ns.reverse ++ c1.children }
      ⟨c1.mark.span.start, stop⟩
    let b' := (b.step r.next).closed c1 (c :: os) ns (b.count + 1 + inside.count) stop
    have hinside := ih1 (show (b.step r.next).opened = c1 :: c :: os by rw [hstep])
    have htail := ih2
      (show b'.opened = { c with children := (l.key.getD "", n) :: c.children } :: os by
        simp [b', closed, place, n, c1])
    have hfuel : fuel + (inside.steps + tail.steps + 1) =
        fuel + tail.steps + inside.steps + 1 := by omega
    have hn : n = .group k ⟨b.count, ⟨read.length + l.text.length,
        read.length + l.text.length + 1 + inside.text.length⟩⟩
        (inside.nodes (read.length + l.text.length + 1) (b.count + 1)) := by
      have hstart : r.next.span.start = read.length + l.text.length := by
        rw [Reader.span, meets.valueStart, List.length_append]
      simp [n, ns, c1, stop, OpenNode.close, Node.group, hstart, Nat.add_assoc]
    have hns : (Passage.nested l k inside tail).nodes read.length b.count =
        (l.key.getD "", n) :: tail.nodes (read ++ (l.text ++ [openByte k]) ++ inside.text).length
          (b.count + 1 + inside.count) := by
      simp [Passage.nodes, hn, Nat.add_assoc, Nat.add_comm 1]
    rw [Passage.steps, hfuel, run_next (meets.event ▸ startEvent_not_last k), hinside]
    have hcount : (b.step r.next).count = b.count + 1 := by rw [hstep]
    rw [hcount, htail, hns]
    simp [b', closed, hstep, place, Passage.text, Passage.count, Nat.add_assoc, Nat.add_comm 1]

/-! ### Reading a whole text -/

theorem completes_of_run {fuel : Nat} {b : Building} (h : (run fuel r b).2 = none) :
    r.completes fuel = true := by
  induction fuel generalizing r b with
  | zero => cases h
  | succ fuel ih =>
    rw [run] at h
    rw [completes]
    cases he : r.next.event with
    | eof => rfl
    | error =>
      simp only [he] at h
      cases h
    | _ =>
      simp only [he] at h ⊢
      exact ih h

theorem run_eof {fuel : Nat} {b : Building} (h : r.next.event = .eof) :
    run (fuel + 1) r b = (b, none) := by
  rw [run]
  simp [h]

end Building

namespace Document

variable {depth : Nat}

/-- A text of spaces holds no value. -/
theorem read_space (sp : Space) : read depth sp.bytes = .ok ⟨depth, none⟩ := by
  rw [read, parse, fuelFor, Building.run_eof (next_empty sp)]
  rfl

theorem read_of_run {input : Bytes} {b : Building}
    (h : Building.run (fuelFor input) (ofBytes depth input) .empty = (b, none)) :
    read depth input = .ok ⟨depth, b.root⟩ := by
  rw [read, parse]
  simp only [empty, h]

/-- A value between spaces is read with all of its parts. -/
theorem read_value (p : Page) (h : p.value.nesting ≤ depth) :
    read depth p.text = .ok ⟨depth, some (p.value.node p.before.bytes.length 0)⟩ := by
  obtain ⟨before, value, after⟩ := p
  cases value with
  | token t =>
    let input := before.bytes ++ (t.text ++ after.bytes)
    obtain ⟨hs, hm⟩ := next_first_token depth before t (stops_space after)
    have hspan : (ofBytes depth input).next.span =
        ⟨before.bytes.length, before.bytes.length + t.text.length⟩ := by
      rw [Reader.span, hm.valueStart, Reader.position, hs.cursor, List.length_append]
    have hrun : Building.run (input.length + 1 + 1) (ofBytes depth input) .empty =
        (⟨1, [], some (.atom ⟨0, (ofBytes depth input).next.span⟩ t.atom)⟩, none) := by
      rw [Building.run_next (hm.event ▸ t.event_not_last),
        Building.run_eof (next_eof after hs), Building.step_token t hm.event]
      rfl
    have hread := read_of_run hrun
    rw [hspan] at hread
    exact hread
  | nested k inside =>
    have hd : inside.nesting + 1 ≤ depth := h
    let input := before.bytes ++ openByte k :: (inside.text ++ after.bytes)
    obtain ⟨hs, hm⟩ := next_first_open depth before k
      (inside.text ++ after.bytes) (by omega)
    let r := (ofBytes depth input).next
    let c : OpenNode := ⟨k, "", ⟨0, r.span⟩, []⟩
    have hstep : Building.empty.step r = ⟨1, [c], none⟩ := by
      rw [Building.step_open k hm.event, hm.key]
      rfl
    obtain ⟨r', hr', hcrosses⟩ := exists_crosses inside hs (by simp only [List.length_nil]; omega)
    have hrun := Building.run_crosses hcrosses (b := Building.empty.step r) (by rw [hstep])
    have hstart : (ofBytes depth input).next.valueStart = before.bytes.length := hm.valueStart
    have hsteps := inside.steps_le_length
    obtain ⟨f, hf⟩ : ∃ f, input.length + 2 = f + 1 + inside.steps + 1 := by
      refine ⟨input.length - inside.steps, ?_⟩
      simp only [input, List.length_append, List.length_cons]
      omega
    have hall : Building.run (input.length + 2) (ofBytes depth input) .empty =
        (⟨1 + inside.count, [], some ((Spelling.nested k inside).node before.bytes.length 0)⟩,
          none) := by
      rw [hf, Building.run_next (hm.event ▸ startEvent_not_last k), hrun,
        Building.run_eof (next_eof after hr'), hstep]
      simp [Building.closed, Building.place, OpenNode.close, Node.group, Spelling.node, c, r,
        Reader.span, hstart, Nat.add_assoc, Nat.add_comm 1]
    have htext : Page.text ⟨before, .nested k inside, after⟩ = input := by
      simp [Page.text, Spelling.text, input]
    rw [htext]
    exact read_of_run hall

theorem read_page (p : Page) (h : p.value.nesting ≤ depth) :
    ∃ n, read depth p.text = .ok ⟨depth, some n⟩ ∧ n.Written p.text depth ∧
      n.content = p.value.content :=
  ⟨_, read_value p h, p.value.written_node h 0, p.value.content_node _ 0⟩

/-- A text that is read is made of spaces, or holds one value that is not nested too deep. -/
theorem read_cases {input : Bytes} {d : Document} (h : read depth input = .ok d) :
    (∃ sp : Space, input = sp.bytes) ∨ ∃ p : Page, input = p.text ∧ p.value.nesting ≤ depth := by
  have hc : (ofBytes depth input).completes (fuelFor input) = true := by
    refine Building.completes_of_run (b := .empty) ?_
    rw [read, parse] at h
    split at h
    · rename_i d' hd
      exact (Prod.mk.inj hd).2
    · simp at h
  exact page_of_completes hc

/-- What a document held before does not matter for what is read into it. -/
theorem parse_of_read {input : Bytes} {d d' : Document} (h : read d.maxDepth input = .ok d') :
    d.parse input = (d', none) := by
  unfold read at h
  split at h
  · rename_i hparse
    cases h
    exact hparse
  · cases h

theorem read_of_parse {input : Bytes} {d d' : Document} (h : d.parse input = (d', none)) :
    read d.maxDepth input = .ok d' := by
  have hempty : (empty d.maxDepth).parse input = (d', none) := h
  rw [read, hempty]

/-- What is read from a text. -/
theorem read_ok {input : Bytes} {d : Document} (h : read depth input = .ok d) :
    (∃ sp : Space, input = sp.bytes ∧ d.root = none) ∨
      ∃ (p : Page) (n : Node), input = p.text ∧ p.value.nesting ≤ depth ∧ d = ⟨depth, some n⟩ ∧
        n.Written input depth ∧ n.content = p.value.content := by
  rcases read_cases h with ⟨sp, rfl⟩ | ⟨p, rfl, hp⟩
  · rw [read_space] at h
    obtain rfl := Except.ok.inj h
    exact .inl ⟨sp, rfl, rfl⟩
  · obtain ⟨n, hn, hw, hc⟩ := read_page p hp
    rw [hn] at h
    obtain rfl := Except.ok.inj h
    exact .inr ⟨p, n, rfl, hp, rfl, hw, hc⟩

/-- What a pointer leads to has the text of a value, nested no deeper than was allowed. -/
theorem spelled_of_pointer? {input : Bytes} {d : Document} {q : List String} {n : Node}
    (h : read depth input = .ok d) (hq : d.pointer? q = some n) :
    ∃ v : Spelling, v.text = n.span.of input ∧ v.nesting ≤ depth := by
  rcases read_ok h with ⟨sp, -, hroot⟩ | ⟨p, root, -, -, rfl, hw, -⟩
  · rw [Document.pointer?, hroot] at hq
    cases hq
  · cases hw.pointer? hq with
    | make v text content fits all => exact ⟨v, text.symm, fits⟩

end Document

/-- A text that is read as some value, at every depth that is enough for it. -/
def Holds (bs : Bytes) (c : Content) : Prop :=
  ∀ depth, c.nesting ≤ depth → ∃ n, Document.read depth bs = .ok ⟨depth, some n⟩ ∧ n.content = c

theorem holds_page (p : Page) : Holds p.text p.value.content := by
  intro depth hd
  rw [Spelling.nesting_content] at hd
  obtain ⟨n, hn, -, hc⟩ := Document.read_page p hd
  exact ⟨n, hn, hc⟩

/-- A value with no space around it. -/
def Json.Spelling.page (v : Spelling) : Page := ⟨Space.none, v, Space.none⟩

theorem Json.Spelling.text_page (v : Spelling) : v.page.text = v.text := by
  simp [page, Page.text, Space.none]

theorem holds_text (v : Spelling) : Holds v.text v.content := by
  rw [← v.text_page]
  exact holds_page v.page

end Quarry
