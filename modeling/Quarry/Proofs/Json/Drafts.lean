import Quarry.Proofs.Json.Driving
import Quarry.Proofs.Patch.Member

/-!
Values that a writer puts down call by call, and what a reader makes of the text.
-/

namespace Quarry.Json

open Text Reader

/-! ### The spans that a reader reports -/

/-- A part of an input: where it stands, and its text. -/
structure Piece where
  span : Span
  text : Bytes
deriving DecidableEq

namespace Piece

def cut (s : Span) (input : Bytes) : Piece := ⟨s, s.of input⟩

/-- A text that begins behind `start` bytes. -/
def placed (start : Nat) (text : Bytes) : Piece := ⟨⟨start, start + text.length⟩, text⟩

theorem cut_eq {start stop : Nat} {a b c : Bytes} (hs : start = a.length)
    (he : stop = start + b.length) : cut ⟨start, stop⟩ (a ++ (b ++ c)) = placed a.length b := by
  rw [cut, Span.of_parts hs he, he, hs]
  rfl

end Piece

/-- For every token up to the end of a container that stands behind `start` bytes, the value that
begins with it. -/
def Passage.pieces : {o s : Bool} → Passage o s → (start : Nat) → List (Option Piece)
  | _, _, .close _, _ => [none]
  | _, _, .token l t rest, start =>
    let first := start + l.text.length
    some (.placed first t.text) :: rest.pieces (first + t.text.length)
  | _, _, .nested l k inside rest, start =>
    let first := start + l.text.length
    some (.placed first (openByte k :: inside.text)) ::
      (inside.pieces (first + 1) ++ rest.pieces (first + (openByte k :: inside.text).length))

def Spelling.pieces (start : Nat) : Spelling → List (Option Piece)
  | .token t => [some (.placed start t.text)]
  | .nested k inside =>
    some (.placed start (openByte k :: inside.text)) :: inside.pieces (start + 1)

theorem Passage.pieces_cons {o s : Bool} (l : Lead o s) (v : Spelling) (rest : Passage o true)
    (start : Nat) : (cons l v rest).pieces start =
      v.pieces (start + l.text.length) ++
        rest.pieces (start + l.text.length + v.text.length) := by
  cases v <;> rfl

namespace Reader

/-- The value that begins with the token a reader stands on. -/
def piece? (r : Reader) : Option Piece :=
  -- The reader knows where a container ends only when it has passed over it.
  if r.event.isStart then r.skip.1.toOption.map fun s => .cut s r.input
  else if r.event.isValue then some (.cut r.span r.input)
  else none

/-- Reads on up to the last token, and looks at the value that begins with each. -/
def pieces : Nat → Reader → List (Option Piece)
  | 0, _ => []
  | fuel + 1, r => r.next.piece? :: if r.next.event.isLast then [] else pieces fuel r.next

variable {r : Reader} {depth fuel : Nat} {read rest : Bytes} {frames outer : List Frame}
  {o s : Bool}

theorem pieces_next (h : r.next.event.isLast = false) :
    r.pieces (fuel + 1) = r.next.piece? :: r.next.pieces fuel := by
  rw [pieces, h]
  rfl

theorem piece?_onValue {v : Spelling} (h : r.OnValue depth read rest frames v) :
    r.piece? = some (.placed read.length v.text) := by
  cases h with
  | token t stands event start =>
    have hvalue : t.event.isValue = true := by
      simp [Event.isValue, t.event_not_end, t.event_not_last]
    have hspan : r.span = ⟨read.length, read.length + t.text.length⟩ := by
      simp [span, start, position, stands.cursor]
    have hinput : r.input = read ++ (t.text ++ rest) := by simp [stands.input]
    rw [piece?, event, t.event_not_start, hvalue, hspan, hinput]
    exact congrArg some (Piece.cut_eq rfl rfl)
  | nested k inside stands event start fits =>
    obtain ⟨r', -, hskip⟩ := skip_nested stands event start fits
    have hinput : r.input = read ++ (openByte k :: inside.text ++ rest) := by simp [stands.input]
    rw [piece?, event, isStart_startEvent, if_pos rfl, hskip, hinput]
    exact congrArg some (Piece.cut_eq rfl List.length_append)

theorem piece?_end (h : r.event = endEvent o) : r.piece? = none := by
  rw [piece?, h]
  cases o <;> rfl

theorem pieces_eof (sp : Space) (h : r.Stands depth read sp.bytes []) (hf : 0 < fuel) :
    r.pieces fuel = [none] := by
  obtain ⟨fuel, rfl⟩ : ∃ n, fuel = n + 1 := ⟨fuel - 1, by omega⟩
  have heof := next_eof sp h
  rw [pieces, piece?, heof]
  rfl

theorem pieces_crosses {p : Passage o s} {r' : Reader} (h : Crosses depth p read rest outer r r')
    (fuel : Nat) : r.pieces (fuel + p.steps) = p.pieces read.length ++ r'.pieces fuel := by
  induction h generalizing fuel with
  | close sp stands event =>
    rw [Passage.steps, pieces_next (event ▸ endEvent_not_last _), piece?_end event]
    rfl
  | token l t tail stands meets onward ih =>
    rw [Passage.steps, ← Nat.add_assoc, pieces_next (meets.event ▸ t.event_not_last), ih,
      piece?_onValue (onValue_token stands meets), Passage.pieces]
    simp only [List.length_append, Nat.add_assoc, List.cons_append, Spelling.text]
  | nested l k inside tail stands meets fits within onward ih1 ih2 =>
    -- What is inside comes first, so its steps are taken off last.
    have hfuel : fuel + (inside.steps + tail.steps + 1) =
        fuel + tail.steps + inside.steps + 1 := by omega
    have hvalue := onValue_open stands meets (by simp only [List.length_cons]; omega)
    rw [Passage.steps, hfuel, pieces_next (meets.event ▸ startEvent_not_last k), ih1, ih2,
      piece?_onValue hvalue, Passage.pieces]
    simp only [List.length_append, List.length_cons, List.length_nil, Nat.add_assoc,
      List.cons_append, List.append_assoc, Nat.zero_add, Spelling.text]

theorem pieces_page (p : Page) (hd : p.value.nesting ≤ depth)
    (hf : (p.value.tree.events none).length < fuel) :
    (ofBytes depth p.text).pieces fuel = p.value.pieces p.before.bytes.length ++ [none] := by
  obtain ⟨before, value, after⟩ := p
  cases value with
  | token t =>
    obtain ⟨hs, hm⟩ := next_first_token depth before t (stops_space after)
    have hevents : (Spelling.token t).tree.events none = [(t.event, none)] := t.events_tree none
    simp only [hevents, List.length_singleton] at hf
    obtain ⟨fuel, rfl⟩ : ∃ n, fuel = n + 1 := ⟨fuel - 1, by omega⟩
    have hpiece := piece?_onValue (.token t hs hm.event hm.valueStart)
    show (ofBytes depth (before.bytes ++ (t.text ++ after.bytes))).pieces (fuel + 1) = _
    rw [pieces_next (hm.event ▸ t.event_not_last), hpiece, pieces_eof after hs (by omega)]
    rfl
  | nested k inside =>
    have hd : inside.nesting + 1 ≤ depth := hd
    obtain ⟨hs, hm⟩ := next_first_open depth before k (inside.text ++ after.bytes) (by omega)
    have hpiece := piece?_onValue
      (.nested k inside hs hm.event hm.valueStart (by simp only [List.length_nil]; omega))
    obtain ⟨r', hr', hcrosses⟩ := exists_crosses inside hs (by simp only [List.length_nil]; omega)
    have hlen : ((Spelling.nested k inside).tree.events none).length = inside.steps + 1 := by
      rw [Spelling.tree, Tree.events, inside.steps_eq]
      simp
    obtain ⟨f, rfl, hpos⟩ : ∃ f, fuel = f + inside.steps + 1 ∧ 0 < f := by
      have hf : ((Spelling.nested k inside).tree.events none).length < fuel := hf
      exact ⟨fuel - inside.steps - 1, by omega, by omega⟩
    have hpage : Page.text ⟨before, .nested k inside, after⟩ =
        before.bytes ++ openByte k :: (inside.text ++ after.bytes) := by
      simp [Page.text, Spelling.text]
    rw [hpage, pieces_next (hm.event ▸ startEvent_not_last k), pieces_crosses hcrosses,
      pieces_eof after hr' hpos, hpiece, List.length_append]
    rfl

end Reader

/-! ### Writing a value call by call -/

/-- A value to be written: a string, a text that is JSON already, or a container. An element has no
name, whatever is given here. -/
inductive Draft where
  | string (s : String)
  | raw (value : Spelling)
  | group (isObject : Bool) (parts : List (String × Draft))

namespace Draft

mutual

/-- The calls that write a value. -/
def write (key : Option String) : Draft → Writer → Writer
  | .string s, w => w.string key s
  | .raw v, w => w.raw key v.text
  | .group o ps, w =>
    let w := writeAll o ps (if o then w.objectStart key else w.arrayStart key)
    if o then w.objectEnd else w.arrayEnd

def writeAll (o : Bool) : List (String × Draft) → Writer → Writer
  | [], w => w
  | (k, d) :: ps, w => writeAll o ps (d.write (Patch.keyFor o k) w)

end

/-- What comes before a member or an element. -/
def lead (isObject started : Bool) (k : String) : Bytes :=
  (if started then [byte ','] else []) ++ if isObject then stringBytes k ++ [byte ':'] else []

mutual

/-- The value as JSON text without spaces; only a raw text keeps its own. -/
def text : Draft → Bytes
  | .string s => stringBytes s
  | .raw v => v.text
  | .group o ps => openByte o :: (textAll o false ps ++ [closeByte o])

def textAll (o : Bool) : Bool → List (String × Draft) → Bytes
  | _, [] => []
  | started, (k, d) :: ps => lead o started k ++ (d.text ++ textAll o true ps)

end

mutual

def tree : Draft → Tree
  | .string s => .string s
  | .raw v => v.tree
  | .group o ps => .group o (treeAll o ps)

def treeAll (o : Bool) : List (String × Draft) → List (Option String × Tree)
  | [] => []
  | (k, d) :: ps => (Patch.keyFor o k, d.tree) :: treeAll o ps

end

mutual

/-- For every token of a value that stands behind `start` bytes, the value that begins with it. -/
def pieces (start : Nat) : Draft → List (Option Piece)
  | .string s => [some (.placed start (stringBytes s))]
  | .raw v => v.pieces start
  | .group o ps =>
    some (.placed start (group o ps).text) :: (piecesAll o false (start + 1) ps ++ [none])

def piecesAll (o : Bool) : Bool → Nat → List (String × Draft) → List (Option Piece)
  | _, _, [] => []
  | started, start, (k, d) :: ps =>
    let first := start + (lead o started k).length
    d.pieces first ++ piecesAll o true (first + d.text.length) ps

end

mutual

/-- The value cut into the pieces that a reader meets. -/
def spelling : Draft → Spelling
  | .string s => .token ⟨_, _, .string (escaping_writer.quoted s)⟩
  | .raw v => v
  | .group o ps => .nested o (Passage.ofParts false (spellingAll ps))

def spellingAll : List (String × Draft) → List (String × Spelling)
  | [] => []
  | (k, d) :: ps => (k, d.spelling) :: spellingAll ps

end

theorem leadFor_eq (o s : Bool) (k : String) : (leadFor o s k).text = lead o s k :=
  text_leadFor o s k

mutual

theorem text_spelling : (d : Draft) → d.spelling.text = d.text
  | .string s => text_quoted_writer s
  | .raw _ => rfl
  | .group o ps => by
    rw [spelling, Spelling.text, text_spellingAll o ps false, text]

theorem text_spellingAll (o : Bool) : (ps : List (String × Draft)) → ∀ started,
    (Passage.ofParts started (spellingAll ps) : Passage o started).text =
      textAll o started ps ++ [closeByte o]
  | [], _ => rfl
  | (k, d) :: ps, started => by
    rw [spellingAll, Passage.ofParts, Passage.text_cons, leadFor_eq, text_spelling d,
      text_spellingAll o ps true, textAll]
    simp only [List.append_assoc]

end

mutual

theorem tree_spelling : (d : Draft) → d.spelling.tree = d.tree
  | .string _ => rfl
  | .raw _ => rfl
  | .group o ps => by
    rw [spelling, Spelling.tree, parts_spellingAll o ps false, tree]

theorem parts_spellingAll (o : Bool) : (ps : List (String × Draft)) → ∀ started,
    (Passage.ofParts started (spellingAll ps) : Passage o started).parts = treeAll o ps
  | [], _ => rfl
  | (k, d) :: ps, started => by
    rw [spellingAll, Passage.ofParts, Passage.parts_cons, Patch.key_leadFor, tree_spelling d,
      parts_spellingAll o ps true, treeAll]

end

mutual

theorem pieces_spelling (start : Nat) : (d : Draft) → d.spelling.pieces start = d.pieces start
  | .string s => congrArg (fun t => [some (Piece.placed start t)]) (text_quoted_writer s)
  | .raw _ => rfl
  | .group o ps => by
    rw [spelling, Spelling.pieces, text_spellingAll o ps false,
      pieces_spellingAll o ps false (start + 1), pieces, text]

theorem pieces_spellingAll (o : Bool) : (ps : List (String × Draft)) → ∀ started start,
    (Passage.ofParts started (spellingAll ps) : Passage o started).pieces start =
      piecesAll o started start ps ++ [none]
  | [], _, _ => rfl
  | (k, d) :: ps, started, start => by
    rw [spellingAll, Passage.ofParts, Passage.pieces_cons, leadFor_eq, text_spelling d,
      pieces_spelling _ d, pieces_spellingAll o ps true, piecesAll, List.append_assoc]

end

mutual

/-- In a container a value is put down behind its comma and its name. -/
theorem write_eq : (d : Draft) → ∀ {w : Writer} {st : Bool} {ws : List Bool},
    w.started = st :: ws → ∀ (o : Bool) (k : String),
      d.write (Patch.keyFor o k) w = ⟨w.output ++ ((leadFor o st k).text ++ d.text), true :: ws⟩
  | .string s, _, _, _, h, o, k => Patch.raw_eq h o k (stringBytes s)
  | .raw v, _, _, _, h, o, k => Patch.raw_eq h o k v.text
  | .group kind ps, w, st, ws, h, o, k => by
    rw [write, Patch.start_eq h, writeAll_eq kind ps rfl, Patch.finish_eq rfl, text]
    simp

theorem writeAll_eq (o : Bool) : (ps : List (String × Draft)) →
    ∀ {w : Writer} {st : Bool} {ws : List Bool}, w.started = st :: ws →
      writeAll o ps w = ⟨w.output ++ textAll o st ps, (st || !ps.isEmpty) :: ws⟩
  | [], w, st, ws, h => by
    obtain ⟨output, started⟩ := w
    obtain rfl : started = st :: ws := h
    simp [writeAll, textAll]
  | (k, d) :: ps, w, st, ws, h => by
    rw [writeAll, write_eq d h, writeAll_eq o ps rfl, textAll, leadFor_eq]
    simp

end

/-- Outside all containers a value is put down as it is. -/
theorem write_root (d : Draft) : d.write none .empty = ⟨d.text, []⟩ := by
  cases d with
  | string s => rfl
  | raw v => rfl
  | group o ps =>
    have hstart : (if o then Writer.objectStart none .empty else Writer.arrayStart none .empty) =
        ⟨[openByte o], [false]⟩ := by
      cases o <;> rfl
    rw [write, hstart, writeAll_eq o ps rfl, Patch.finish_eq rfl, text]
    rfl

/-- A reader accepts what a writer has put down, if the value is not nested deeper than the reader
goes, and meets the value: its tokens in their order, under the names and with the strings that were
given, and at each value the span where the text stands that was put down for it. Every text of one
JSON value may be given raw. -/
theorem drive_written :
    (∀ {t : Tree} {bs : Bytes}, ValueText Hex4 t bs → ∃ v : Spelling, v.text = bs ∧ v.tree = t) ∧
    ∀ (d : Draft) {depth fuel : Nat}, d.tree.nesting ≤ depth →
      (d.tree.events none).length < fuel →
      let r := Reader.ofBytes depth (d.write none .empty).output
      r.input = d.text ∧ r.drive fuel = d.tree.events none ++ [(.eof, none)] ∧
        r.pieces fuel = d.pieces 0 ++ [none] := by
  constructor
  · intro t bs h
    exact (h.mono (covers_plain bs)).exists_spelling
  · intro d depth fuel hdepth hfuel r
    let p : Page := ⟨Space.none, d.spelling, Space.none⟩
    have hpage : p.text = d.text := by simp [p, Page.text, Space.none, text_spelling]
    have hr : r = Reader.ofBytes depth p.text := by rw [hpage]; simp only [r, write_root]
    have htree : p.value.tree = d.tree := tree_spelling d
    have hnesting : p.value.nesting ≤ depth := by rwa [← Spelling.nesting_tree, htree]
    rw [← htree] at hfuel ⊢
    refine ⟨by rw [hr]; exact hpage, by rw [hr]; exact drive_page p hnesting hfuel, ?_⟩
    rw [hr, pieces_page p hnesting hfuel]
    exact congrArg (· ++ [none]) (pieces_spelling 0 d)

/-- A name with a quote and a control character beyond ASCII, a string that is not ASCII, and a
number that keeps its spelling. -/
theorem drive_written_escapes :
    let number : Spelling := .token ⟨_, _, .number (.make (.inr rfl) .zero .none .none)⟩
    let d : Draft := .group true [("\"\u0085", .group false []), ("", .string "\n\u00e9"),
      ("r", .raw number)]
    let r := Reader.ofBytes 2 (d.write none .empty).output
    r.input = bytes "\x7b\"\\\"\\u0085\":[],\"\":\"\\n\u00e9\",\"r\":-0\x7d" ∧
      r.drive 7 = [(.objectStart, none), (.arrayStart, some "\"\u0085"), (.arrayEnd, none),
        (.string "\n\u00e9", some ""), (.number "-0" true, some "r"), (.objectEnd, none),
        (.eof, none)] ∧
      r.pieces 7 = [some ⟨⟨0, 32⟩, r.input⟩, some ⟨⟨12, 14⟩, bytes "[]"⟩, none,
        some ⟨⟨18, 24⟩, bytes "\"\\n\u00e9\""⟩, some ⟨⟨29, 31⟩, bytes "-0"⟩, none, none] := by
  intro number d r
  have hlimits : d.tree.nesting ≤ 2 ∧ (d.tree.events none).length < 7 := by decide
  obtain ⟨hinput, hdrive, hpieces⟩ := drive_written.2 d hlimits.1 hlimits.2
  have htext : d.text =
      bytes "\x7b\"\\\"\\u0085\":[],\"\":\"\\n\u00e9\",\"r\":-0\x7d" := by decide
  refine ⟨hinput.trans htext, hdrive, hpieces.trans ?_⟩
  rw [show r.input = d.text from hinput]
  decide

end Draft

end Quarry.Json
