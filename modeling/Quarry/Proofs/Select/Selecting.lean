import Quarry.Proofs.Json.Utf8
import Quarry.Proofs.Select.Calls
import Quarry.Proofs.Select.Collecting

/-!
One pass finds for every path what the path meets on its own.
-/

namespace Quarry

open Json Json.Reader Text

/-! ### Paths that were read -/

namespace Path

theorem brackets_ne_nil {read cs : List Char} {p : Path} (h : brackets read cs = .ok p) :
    p ≠ [] := by
  induction cs generalizing read with
  | nil =>
    rw [brackets] at h
    cases h
  | cons c cs ih =>
    rw [brackets] at h
    split at h
    · rintro rfl
      cases hs : bracketed read.reverse with
      | error e => simp [hs, Bind.bind, Except.bind] at h
      | ok s =>
        cases hp : steps cs with
        | error e => simp [hs, hp, Bind.bind, Except.bind] at h
        | ok p => simp [hs, hp, Bind.bind, Except.bind, Pure.pure, Except.pure] at h
    · exact ih h

theorem named_ne_nil {read : List Char} {steps : Except Fault Path} {p : Path}
    (h : named read steps = .ok p) : p ≠ [] := by
  rw [named] at h
  split at h
  · cases h
  · rintro rfl
    cases steps with
    | error e => cases h
    | ok q => simp [Except.map] at h

theorem name_ne_nil {read cs : List Char} {p : Path} (h : name read cs = .ok p) : p ≠ [] := by
  induction cs generalizing read with
  | nil =>
    rw [name] at h
    exact named_ne_nil h
  | cons c cs ih =>
    rw [name] at h
    split at h
    · exact named_ne_nil h
    · split at h
      · exact named_ne_nil h
      · exact ih h

theorem parse_ne_nil {text : String} {p : Path} (h : parse text = .ok p) : p ≠ [] := by
  rw [parse] at h
  split at h
  · rename_i q hq
    obtain rfl := Except.ok.inj h
    cases hc : text.toList with
    | nil =>
      rw [hc, parseChars] at hq
      cases hq
    | cons c cs =>
      rw [hc, parseChars] at hq
      split at hq
      · cases hq
      · split at hq
        · exact brackets_ne_nil hq
        · exact name_ne_nil hq
  · cases h

/-- A path has an index where another, the same up to there, has a wildcard. -/
def Shadowed (paths : List Path) (path : Path) : Prop :=
  ∃ p i rest, path = p ++ .index i :: rest ∧ ∃ other ∈ paths, p ++ [.wildcard] <+: other

end Path

/-! ### The tree of a list of paths -/

namespace Selector

/-- The numbers of the paths in a list that are this one. -/
def numbersOf (path : Path) (first : Nat) (paths : List Path) : List Nat :=
  ((paths.zipIdx first).filter fun e => path = e.1).map Prod.snd

theorem numbersOf_cons (path q : Path) (first : Nat) (paths : List Path) :
    numbersOf path first (q :: paths) =
      (if path = q then [first] else []) ++ numbersOf path (first + 1) paths := by
  rw [numbersOf, List.zipIdx_cons, List.filter_cons]
  by_cases h : path = q <;> simp [h, numbersOf]

theorem mem_numbersOf {path : Path} {paths : List Path} {j : Nat} :
    j ∈ numbersOf path 0 paths ↔ paths[j]? = some path := by
  rw [numbersOf, List.mem_map]
  constructor
  · rintro ⟨⟨q, i⟩, hmem, rfl⟩
    obtain ⟨hmem, hq⟩ := List.mem_filter.1 hmem
    have hq : path = q := of_decide_eq_true hq
    rw [hq]
    exact List.mk_mem_zipIdx_iff_getElem?.1 hmem
  · intro h
    refine ⟨(path, j), List.mem_filter.2 ⟨?_, by simp⟩, rfl⟩
    exact List.mk_mem_zipIdx_iff_getElem?.2 h

theorem nodup_numbersOf (path : Path) (first : Nat) (paths : List Path) :
    (numbersOf path first paths).Nodup := by
  have hsub : List.Sublist (numbersOf path first paths) ((paths.zipIdx first).map Prod.snd) :=
    List.filter_sublist.map Prod.snd
  apply hsub.nodup
  rw [List.zipIdx_map_snd]
  exact List.nodup_range'

/-- What adding well-formed paths does to the tree. -/
theorem addPaths_tree {texts : List String} {s s' : Selector}
    (h : addPaths texts s = (.ok (), s')) :
    ∃ paths : List Path, texts.map Path.parse = paths.map .ok ∧ s'.paths = s.paths ++ texts ∧
      s'.maxDepth = s.maxDepth ∧
      (∀ path, s'.tree.root.collected path =
        s.tree.root.collected path ++ numbersOf path s.paths.length paths) ∧
      ∀ path, (s'.tree.root.at? path).isSome ↔
        (s.tree.root.at? path).isSome ∨ ∃ q ∈ paths, path <+: q := by
  induction texts generalizing s with
  | nil =>
    cases h
    exact ⟨[], rfl, by simp, rfl, by simp [numbersOf], by simp⟩
  | cons text texts ih =>
    rw [addPaths] at h
    split at h
    · cases h
    · rename_i q hq
      obtain ⟨paths, hparse, hpaths, hdepth, hcollected, hat⟩ := ih h
      refine ⟨q :: paths, by simp [hq, hparse], by simp [hpaths], hdepth, ?_, ?_⟩
      · intro path
        rw [hcollected, numbersOf_cons, ← List.append_assoc, List.length_append]
        congr 1
        exact PathNode.collected_insert _ path q _ _
      · intro path
        rw [hat]
        show ((PathNode.insert _ q _ s.tree.root).1.at? path).isSome ∨ _ ↔ _
        rw [PathNode.isSome_at?_insert]
        simp [or_assoc]

/-- The tree of well-formed paths: at the end of each are the numbers it has in the list. -/
theorem setPaths_tree {texts : List String} {s s' : Selector}
    (h : s.setPaths texts = (.ok (), s')) :
    ∃ paths : List Path, texts.map Path.parse = paths.map .ok ∧
      s'.results.length = texts.length ∧
      (∀ path, s'.tree.root.collected path = numbersOf path 0 paths) ∧
      ∀ path, path ≠ [] → ((s'.tree.root.at? path).isSome ↔ ∃ q ∈ paths, path <+: q) := by
  rw [setPaths] at h
  split at h
  · cases h
  · rename_i t ht
    cases h
    obtain ⟨paths, hparse, hpaths, -, hcollected, hat⟩ := addPaths_tree ht
    refine ⟨paths, hparse, by simp [hpaths, reset, empty], ?_, ?_⟩
    · intro path
      rw [hcollected]
      show (PathNode.leaf 0 : Walk.Tree).collected path ++ _ = _
      rw [PathNode.collected_leaf]
      rfl
    · intro path hne
      rw [hat]
      obtain ⟨u, path, rfl⟩ := List.exists_cons_of_ne_nil hne
      show ((PathNode.leaf 0 : Walk.Tree).at? (u :: path)).isSome ∨ _ ↔ _
      rw [PathNode.at?_leaf_cons]
      simp

end Selector

/-! ### A whole document -/

namespace Walk

variable {depth : Nat} {root : Tree} {input read rest : Bytes}

/-- Behind the value there are only spaces, and nothing is added to the results. -/
theorem document_of_value {r : Reader} {rs : List Matches} {w : Walk}
    (hl : r.next.event.isLast = false)
    (hpass : (if r.next.event.isStart then
        if root.hasChildren then
          inside (r.next.input.length + 2) root (r.next.event == .objectStart) 0 ⟨r.next, rs⟩
        else passOver (fun _ w => w) ⟨r.next, rs⟩
      else (.ok (), ⟨r.next, rs⟩)) = (.ok (), w))
    (hend : w.reader.next.event = .eof) :
    document root ⟨r, rs⟩ = (.ok (), { w with reader := w.reader.next }) := by
  rw [document_eq]
  simp only
  rw [if_neg (by intro he; simp [he, Event.isLast] at hl),
    if_neg (by intro he; simp [he, Event.isLast] at hl), hpass]
  simp only [andThen, hend, reduceCtorEq, ↓reduceIte]

/-- The container that a text is made of is gone through, or passed over if nothing is to be found
in it. -/
theorem exists_pass {r : Reader} {k : Bool} {p : Passage k false} (rs : List Matches)
    (hi : input = read ++ [openByte k] ++ (p.text ++ rest))
    (h : r.Stands depth (read ++ [openByte k]) (p.text ++ rest) [⟨k, false⟩])
    (he : r.event = startEvent k) (hv : r.valueStart = read.length) (hd : p.nesting + 1 ≤ depth)
    (hn : ∀ path, (root.collected path).Nodup) :
    ∃ w : Walk,
      (if root.hasChildren then
        inside (r.input.length + 2) root (r.event == .objectStart) 0 ⟨r, rs⟩
        else passOver (fun _ w => w) ⟨r, rs⟩) = (.ok (), w) ∧
      w.reader.Stands depth (read ++ openByte k :: p.text) rest [] ∧
      Grows input (p.hits root 0 (read.length + 1) 1) rs w.results := by
  have hobj : (startEvent k == Event.objectStart) = k := by cases k <;> rfl
  rw [he, hobj]
  split
  · have hfuel : p.steps ≤ r.input.length + 2 := by
      have hsteps := p.steps_le_length
      rw [h.input]
      simp only [List.length_append]
      omega
    obtain ⟨w, hw, hs, hgrows⟩ := inside_passage (w := ⟨r, rs⟩) p hi h
      (by simp only [List.length_nil]; omega) hn hfuel 0 1
    rw [show (read ++ [openByte k]).length = read.length + 1 from List.length_append] at hgrows
    exact ⟨w, hw, by simpa using hs, hgrows⟩
  · rename_i hleaf
    rw [Bool.not_eq_true] at hleaf
    obtain ⟨r', hr', hpass⟩ := passOver_nested (w := ⟨r, rs⟩) (fun _ w => w) h he hv
      (by simp only [List.length_nil]; omega)
    refine ⟨_, hpass, hr', ?_⟩
    rw [hits_of_not_hasChildren p hleaf]
    exact .refl

/-- A pass adds to the result of every collector what it meets below the root. -/
theorem document_page (p : Page) (hd : p.value.nesting ≤ depth)
    (hn : ∀ path, (root.collected path).Nodup) (rs : List Matches) :
    ∃ w : Walk, document root ⟨.ofBytes depth p.text, rs⟩ = (.ok (), w) ∧
      ∀ j target, Aims j target root → w.results[j]? = rs[j]?.map fun m => m.append
        (.found p.text ((p.value.node p.before.bytes.length 0).entries.flatMap
          (reach root · target))) := by
  obtain ⟨before, value, after⟩ := p
  cases value with
  | token t =>
    obtain ⟨hs, hm⟩ := next_first_token depth before t (stops_space after)
    let r := ofBytes depth (before.bytes ++ (t.text ++ after.bytes))
    have hstart : ¬r.next.event.isStart = true := by
      rw [hm.event, t.event_not_start]
      simp
    refine ⟨⟨r.next.next, rs⟩, ?_, ?_⟩
    · exact document_of_value (r := r) (w := ⟨r.next, rs⟩) (hm.event ▸ t.event_not_last)
        (if_neg hstart) (next_eof after hs)
    · intro j target _
      show rs[j]? = rs[j]?.map fun m : Matches => m.append (.found _ [])
      simp only [Matches.append_found_nil, Option.map_id']
  | nested k inside =>
    let r := ofBytes depth (before.bytes ++ openByte k :: (inside.text ++ after.bytes))
    have htext : Page.text ⟨before, .nested k inside, after⟩ =
        before.bytes ++ openByte k :: (inside.text ++ after.bytes) := by
      simp [Page.text, Spelling.text]
    have hd : inside.nesting + 1 ≤ depth := hd
    obtain ⟨hs, hm⟩ := next_first_open depth before k (inside.text ++ after.bytes) (by omega)
    obtain ⟨w, hpass, hs', hgrows⟩ :=
      exists_pass rs (List.append_cons _ _ _) hs hm.event hm.valueStart hd hn
    have hstart : r.next.event.isStart = true := hm.event ▸ isStart_startEvent k
    refine ⟨{ w with reader := w.reader.next }, ?_, ?_⟩
    · rw [htext]
      exact document_of_value (hm.event ▸ startEvent_not_last k) ((if_pos hstart).trans hpass)
        (next_eof after hs')
    · intro j target haims
      rw [htext, Spelling.node, Node.entries_group, ← hitsOf_hits inside haims hn]
      exact hgrows j

end Walk

namespace Selector

/-- What is found for a path in a document: what the path meets there on its own, or nothing when
another path of the selection shadows it. -/
def Finds (paths : List Path) (path : Path) (d : Document) (input : Bytes) (m : Matches) : Prop :=
  (Path.Shadowed paths path → m = .empty) ∧
    (¬Path.Shadowed paths path →
      let nodes := (d.root.map (Node.matched path)).getD []
      m.values = nodes.map Node.scalar ∧
        m.json.map bytes = nodes.map fun n => n.span.of input)

/-- Earlier selections leave nothing behind that a later one depends on. -/
theorem foldl_select (earlier : List Bytes) (s : Selector) :
    let t := earlier.foldl (fun t text => (t.select text).2) s
    t.tree = s.tree ∧ t.depthLimit = s.depthLimit ∧ t.results.length = s.results.length := by
  induction earlier generalizing s with
  | nil => exact ⟨rfl, rfl, rfl⟩
  | cons text earlier ih =>
    obtain ⟨htree, hdepth, hlen⟩ := ih (s.select text).2
    obtain ⟨-, htree', hdepth'⟩ := select_keeps text s
    refine ⟨htree.trans htree', hdepth.trans ?_, hlen.trans (length_select text s)⟩
    rw [depthLimit, depthLimit, hdepth']

theorem covered_iff {paths : List Path} {root : Walk.Tree} {path : Path}
    (h : ∀ path, path ≠ [] → ((root.at? path).isSome ↔ ∃ q ∈ paths, path <+: q)) :
    root.Covered path ↔ path.Shadowed paths := by
  constructor
  · rintro ⟨p, i, rest, rfl, hw⟩
    exact ⟨p, i, rest, rfl, (h _ (by simp)).1 hw⟩
  · rintro ⟨p, i, rest, rfl, hw⟩
    exact ⟨p, i, rest, rfl, (h _ (by simp)).2 hw⟩

theorem finds_found {paths : List Path} {path : Path} {root : Walk.Tree} {p : Page} {depth : Nat}
    (hp : p.value.nesting ≤ depth) (hmem : path ∈ paths) (hne : path ≠ [])
    (hat : ∀ path, path ≠ [] → ((root.at? path).isSome ↔ ∃ q ∈ paths, path <+: q)) :
    let n := p.value.node p.before.bytes.length 0
    Finds paths path ⟨depth, some n⟩ p.text
      (.found p.text (n.entries.flatMap (Walk.reach root · (some path)))) := by
  intro n
  have hfollow : n.entries.flatMap (Walk.reach root · (some path)) = root.followed path n := by
    obtain ⟨u, path, rfl⟩ := List.exists_cons_of_ne_nil hne
    rfl
  rw [hfollow]
  constructor
  · intro hshadow
    rw [PathNode.followed_covered ((covered_iff hat).2 hshadow)]
    rfl
  · intro hclear nodes
    have hisSome : (root.at? path).isSome := (hat path hne).2 ⟨path, hmem, List.prefix_rfl⟩
    have hnodes : nodes = n.matched path := rfl
    rw [PathNode.followed_eq_matched (fun hc => hclear ((covered_iff hat).1 hc)) hisSome, ← hnodes]
    refine ⟨rfl, ?_⟩
    rw [Matches.found, List.map_map]
    apply List.map_congr_left
    intro m hm
    have hwritten : n.Written p.text depth := p.value.written_node hp 0
    obtain ⟨v, htext, -, -, -⟩ := hwritten.matched path m hm
    rw [Function.comp_apply, htext]
    exact bytes_ofBytes v.isUtf8

theorem select_of_document {s : Selector} {input : Bytes} {w : Walk}
    (h : Walk.document s.tree.root ⟨.ofBytes s.depthLimit input, s.cleared⟩ = (.ok (), w)) :
    (s.select input).1 = .ok () ∧ (s.select input).2.results = w.results := by
  rw [select, h]
  exact ⟨rfl, rfl⟩

/-- A selection finds for every path what the path meets, whatever was selected before. -/
theorem select_finds (earlier : List Bytes) {s s' : Selector} {texts : List String}
    {input : Bytes} {d : Document} (hs : s.setPaths texts = (.ok (), s'))
    (hd : Document.read s'.depthLimit input = .ok d) :
    let t := earlier.foldl (fun t text => (t.select text).2) s'
    ∃ paths : List Path, texts.map Path.parse = paths.map .ok ∧
      (t.select input).1 = .ok () ∧ (t.select input).2.results.length = texts.length ∧
      ∀ (i : Nat) (path : Path), paths[i]? = some path →
        ∃ m, (t.select input).2.results[i]? = some m ∧ Finds paths path d input m := by
  intro t
  obtain ⟨paths, hparse, hlen, hcollected, hat⟩ := setPaths_tree hs
  obtain ⟨htree, hdepth, hresults⟩ := foldl_select earlier s'
  have hnum : paths.length = texts.length := by simpa using congrArg List.length hparse.symm
  have hcleared : ∀ i < texts.length, t.cleared[i]? = some .empty := by
    intro i hi
    rw [cleared, List.getElem?_map, List.getElem?_eq_getElem (by rw [hresults, hlen]; exact hi)]
    rfl
  have hnodup : ∀ path, (t.tree.root.collected path).Nodup := by
    intro path
    rw [htree, hcollected]
    exact nodup_numbersOf path 0 paths
  have haims : ∀ i path, paths[i]? = some path → Walk.Aims i (some path) t.tree.root := by
    intro i path hi q
    rw [htree, hcollected, mem_numbersOf, hi]
  rw [← hdepth] at hd
  have hfinal : ∀ w : Walk,
      Walk.document t.tree.root ⟨.ofBytes t.depthLimit input, t.cleared⟩ = (.ok (), w) →
      (∀ (i : Nat) (path : Path), paths[i]? = some path →
        ∃ m, w.results[i]? = some m ∧ Finds paths path d input m) →
      ∃ paths : List Path, texts.map Path.parse = paths.map .ok ∧
        (t.select input).1 = .ok () ∧ (t.select input).2.results.length = texts.length ∧
        ∀ (i : Nat) (path : Path), paths[i]? = some path →
          ∃ m, (t.select input).2.results[i]? = some m ∧ Finds paths path d input m := by
    intro w hw hfinds
    obtain ⟨hok, hres⟩ := select_of_document hw
    refine ⟨paths, hparse, hok, by rw [length_select, hresults, hlen], ?_⟩
    rw [hres]
    exact hfinds
  rcases Document.read_cases hd with ⟨sp, rfl⟩ | ⟨p, rfl, hp⟩
  · rw [Document.read_space] at hd
    obtain rfl := Except.ok.inj hd
    have heof : (Reader.ofBytes t.depthLimit sp.bytes).next.event = .eof := next_empty sp
    apply hfinal ⟨(Reader.ofBytes t.depthLimit sp.bytes).next, t.cleared⟩
    · rw [Walk.document_eq]
      simp only [heof, ↓reduceIte]
    · intro i path hi
      obtain ⟨hlt, -⟩ := List.getElem?_eq_some_iff.1 hi
      exact ⟨.empty, hcleared i (hnum ▸ hlt), fun _ => rfl, fun _ => ⟨rfl, rfl⟩⟩
  · rw [Document.read_value p hp] at hd
    obtain rfl := Except.ok.inj hd
    obtain ⟨w, hw, hgrows⟩ := Walk.document_page p hp hnodup t.cleared
    apply hfinal w hw
    intro i path hi
    obtain ⟨hlt, hget⟩ := List.getElem?_eq_some_iff.1 hi
    have hmem : path ∈ paths := hget ▸ List.getElem_mem hlt
    have hne : path ≠ [] := by
      have hparsed : Except.ok path ∈ texts.map Path.parse := hparse ▸ List.mem_map_of_mem hmem
      obtain ⟨text, -, htext⟩ := List.mem_map.1 hparsed
      exact Path.parse_ne_nil htext
    rw [← htree] at hat
    refine ⟨_, ?_, finds_found hp hmem hne hat⟩
    rw [hgrows i (some path) (haims i path hi), hcleared i (hnum ▸ hlt)]
    rfl

/-- The value of a member is found through its name. -/
theorem select_finds_member : ∃ s' m, (empty 0).setPaths ["a"] = (.ok (), s') ∧
    (s'.select (bytes "\x7b\"a\":1\x7d")).2.results[0]? = some m ∧ m.values = [.long 1] := by
  have ha : Path.parse "a" = .ok [.key "a"] := by decide
  let s' : Selector := ⟨["a"], ⟨.make 0 0 [] [(.key "a", .make 1 0 [0] [])], 2⟩, [.empty],
    none, 0, 0, 0⟩
  have hs : (empty 0).setPaths ["a"] = (.ok (), s') := by
    simp only [setPaths, addPaths, ha]
    rfl
  have hd : Document.read s'.depthLimit (bytes "\x7b\"a\":1\x7d") =
      .ok ⟨512, some (.object ⟨0, ⟨0, 7⟩⟩ [("a", .atom ⟨1, ⟨5, 6⟩⟩ (.long 1))])⟩ := by
    have hlimit : s'.depthLimit = 512 := rfl
    rw [hlimit]
    rfl
  obtain ⟨paths, hparse, -, -, hfinds⟩ := select_finds [] hs hd
  have hpaths : paths = [[.key "a"]] := by
    apply List.map_injective_iff.2 (fun _ _ => Except.ok.inj)
    rw [← hparse, List.map_singleton, ha]
    rfl
  subst hpaths
  obtain ⟨m, hm, -, hclear⟩ := hfinds 0 [.key "a"] rfl
  have hshadow : ¬Path.Shadowed [[.key "a"]] [.key "a"] := by
    rintro ⟨p, i, rest, hp, -⟩
    cases p with
    | nil => cases hp
    | cons u p =>
      obtain ⟨-, hp⟩ := List.cons.inj hp
      simp at hp
  obtain ⟨hvalues, -⟩ := hclear hshadow
  rw [List.foldl_nil] at hm
  refine ⟨s', m, hs, hm, ?_⟩
  simpa [Node.matched, Node.entries, Node.behind, Segment.leads, Node.scalar, Atom.toScalar]
    using hvalues

end Selector

end Quarry
