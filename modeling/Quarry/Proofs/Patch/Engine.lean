import Quarry.Proofs.Patch.Stacked

/-!
A patcher with its arena, its output and its stack. After a patch, also one that broke off, all this
stays as it is until the next patch, and nothing but a reset comes between them.
-/

namespace Quarry.Patch

open Json Text

namespace Arena

/-- The tree of edits that an arena stands for. -/
structure Holds (a : Arena) (t : Tree) : Prop where
  shows : a.Shows t.root.family
  numbered : t.root.Numbered a.length
  root : t.root.id = 0
  size : t.size = a.length

variable {a : Arena} {t t' : Tree} {e : Edit} {err : Error} {tokens : List String} {stop : Nat}

theorem holds_empty : empty.Holds .empty where
  shows := List.forall_mem_singleton.2 rfl
  numbered := Node.numbered_leaf 0
  root := rfl
  size := rfl

theorem clear_eq (h : a ≠ []) : a.clear = empty := by
  cases a with
  | nil => exact absurd rfl h
  | cons s a => rfl

theorem Holds.ne_nil (h : a.Holds t) : a ≠ [] := by
  have hshows := h.shows
  rw [Node.family_eq, shows_cons] at hshows
  rintro rfl
  cases hshows.1

theorem Holds.insert (h : a.Holds t) (hok : t.insert tokens e = .ok (stop, t')) :
    (a.insert e tokens 0).1 = .ok stop ∧ (a.insert e tokens 0).2.Holds t' := by
  rw [Tree.insert, h.size] at hok
  cases hinsert : t.root.insert e tokens a.length with
  | none =>
    rw [hinsert] at hok
    cases hok
  | some p =>
    obtain ⟨root, size, last⟩ := p
    rw [hinsert] at hok
    cases hok
    have hadded := insert_added h.shows h.numbered hinsert
    rw [h.root] at hadded
    refine ⟨hadded.answer, hadded.shows, ?_, ?_, hadded.length.symm⟩
    · rw [hadded.length]
      exact h.numbered.insert hinsert
    · exact (Node.count_insert hinsert).1.trans h.root

theorem Holds.insert_error (h : a.Holds t) (herr : t.insert tokens e = .error err) :
    a.insert e tokens 0 = (.error err, a) := by
  rw [Tree.insert, h.size] at herr
  cases hinsert : t.root.insert e tokens a.length with
  | none =>
    rw [hinsert] at herr
    cases herr
    rw [← h.root]
    exact insert_refused h.shows h.numbered hinsert
  | some p =>
    rw [hinsert] at herr
    cases herr

/-- Merges edits into the arena. What has been merged before one that does not fit in stays. -/
def merge : List Target → Bytes → Arena → Except Error Bytes × Arena
  | [], source, a => (.ok source, a)
  | t :: ts, source, a =>
    if t.tokens.isEmpty then
      if t.edit.kind = .remove then (.error (.unsupported t.edit.path t.edit.kind.name), a)
      else merge ts t.edit.payload a.clear
    else
      match a.insert t.edit t.tokens 0 with
      | (.ok _, a) => merge ts source a
      | (.error e, a) => (.error e, a)

variable {ts : List Target} {source source' : Bytes}

theorem Holds.merge (h : a.Holds t) (hok : Patcher.merge ts source t = .ok (source', t')) :
    (a.merge ts source).1 = .ok source' ∧ (a.merge ts source).2.Holds t' := by
  induction ts generalizing a t source with
  | nil =>
    cases hok
    exact ⟨rfl, h⟩
  | cons target ts ih =>
    rw [Patcher.merge] at hok
    rw [Arena.merge]
    split at hok
    · rename_i hwhole
      rw [if_pos hwhole]
      split at hok
      · cases hok
      · rename_i hkind
        rw [if_neg hkind, clear_eq h.ne_nil]
        exact ih holds_empty hok
    · rename_i hwithin
      rw [if_neg hwithin]
      cases hinsert : t.insert target.tokens target.edit with
      | error err =>
        rw [hinsert] at hok
        cases hok
      | ok p =>
        obtain ⟨last, t''⟩ := p
        rw [hinsert] at hok
        obtain ⟨hanswer, hholds⟩ := h.insert hinsert
        generalize a.insert target.edit target.tokens 0 = q at hanswer hholds
        obtain ⟨answer, a'⟩ := q
        obtain rfl : answer = .ok last := hanswer
        exact ih hholds hok

theorem Holds.merge_error (h : a.Holds t) (herr : Patcher.merge ts source t = .error err) :
    (a.merge ts source).1 = .error err ∧ (a.merge ts source).2 ≠ [] := by
  induction ts generalizing a t source with
  | nil => cases herr
  | cons target ts ih =>
    rw [Patcher.merge] at herr
    rw [Arena.merge]
    split at herr
    · rename_i hwhole
      rw [if_pos hwhole]
      split at herr
      · rename_i hkind
        cases herr
        rw [if_pos hkind]
        exact ⟨rfl, h.ne_nil⟩
      · rename_i hkind
        rw [if_neg hkind, clear_eq h.ne_nil]
        exact ih holds_empty herr
    · rename_i hwithin
      rw [if_neg hwithin]
      cases hinsert : t.insert target.tokens target.edit with
      | error err' =>
        rw [hinsert] at herr
        cases herr
        rw [h.insert_error hinsert]
        exact ⟨rfl, h.ne_nil⟩
      | ok p =>
        obtain ⟨last, t''⟩ := p
        rw [hinsert] at herr
        obtain ⟨hanswer, hholds⟩ := h.insert hinsert
        generalize a.insert target.edit target.tokens 0 = q at hanswer hholds
        obtain ⟨answer, a'⟩ := q
        obtain rfl : answer = .ok last := hanswer
        exact ih hholds herr

end Arena

namespace Patcher

structure Engine where
  maxDepth : Nat
  arena : Arena
  writer : Writer
  stack : List Splice.Level
  document : Option Document

namespace Engine

def make (config : Config) : Engine := ⟨config.maxDepth, .empty, .empty, [], none⟩

def reset (e : Engine) : Engine := ⟨e.maxDepth, e.arena.clear, .empty, [], none⟩

/-- Makes the edits of the arena in a source text. -/
def splice (source : Bytes) (e : Engine) : Except Error Bytes × Engine :=
  if (e.arena.slot 0).children.isEmpty then (.ok source, e)
  else
    match Splice.documentOnStack (e.stack, e.arena, ⟨.ofBytes e.maxDepth source, e.writer⟩) with
    | (.ok _, stack, arena, s) =>
      (.ok s.writer.output, { e with arena := arena, writer := s.writer, stack := stack })
    | (.error err, stack, arena, s) =>
      (.error err, { e with arena := arena, writer := s.writer, stack := stack })

def apply (input : Bytes) (ops : List Operation) (e : Engine) : Except Error Bytes × Engine :=
  let e := e.reset
  match Resolving.operations input e.maxDepth ops ⟨e.document, []⟩ with
  | (.error err, r) => (.error err, { e with document := r.document })
  | (.ok _, r) =>
    let e := { e with document := r.document }
    match e.arena.merge r.targets.reverse input with
    | (.error err, a) => (.error err, { e with arena := a })
    | (.ok source, a) => { e with arena := a }.splice source

/-- Applies a patch that is given as JSON. -/
def applyText (input : Bytes) (patch : String) (e : Engine) : Except Error Bytes × Engine :=
  match parse patch with
  | .ok ops => e.apply input ops
  | .error err => (.error (.decode err), e)

/-- What a reset does not bring about. -/
structure Usable (depth : Nat) (e : Engine) : Prop where
  maxDepth : e.maxDepth = depth
  filled : e.arena ≠ []

variable {e : Engine} {p : Patcher} {tree : Tree} {depth : Nat}

theorem usable_make (config : Config) : (make config).Usable config.maxDepth :=
  ⟨rfl, List.cons_ne_nil _ _⟩

theorem Usable.reset (h : e.Usable depth) : e.reset.Usable depth := by
  refine ⟨h.maxDepth, ?_⟩
  rw [Engine.reset, Arena.clear_eq h.filled]
  exact List.cons_ne_nil _ _

theorem splice_agrees (h : e.arena.Holds tree) (hstack : e.stack = [])
    (hdepth : e.maxDepth = p.maxDepth) (hwriter : e.writer = p.writer) (source : Bytes) :
    (e.splice source).1 = (p.splice source tree).1 ∧ (e.splice source).2.Usable p.maxDepth := by
  have hempty : (e.arena.slot 0).children.isEmpty = tree.isEmpty := by
    rw [← h.root, h.shows.slot, Node.slot, childIds, List.isEmpty_map]
    rfl
  rw [splice, hempty, hstack, hwriter, hdepth]
  unfold Patcher.splice
  simp only
  split
  · exact ⟨rfl, hdepth, h.ne_nil⟩
  have hagrees := Splice.documentOnStack_agrees h.shows h.numbered.nodup h.root p.maxDepth source
    p.writer
  generalize Splice.documentOnStack ([], e.arena, ⟨.ofBytes p.maxDepth source, p.writer⟩) = x
    at hagrees
  generalize Splice.document tree.root ⟨.ofBytes p.maxDepth source, p.writer⟩ = y at hagrees
  obtain ⟨answer, stack, a, s⟩ := x
  obtain ⟨answer', s'⟩ := y
  obtain ⟨hanswer, hfilled, hsplice⟩ := hagrees
  obtain rfl : answer = answer' := hanswer
  obtain rfl : s = s' := hsplice
  cases answer with
  | ok _ => exact ⟨rfl, rfl, hfilled⟩
  | error err => exact ⟨rfl, rfl, hfilled⟩

/-- Whatever was left behind, the answer is that of a patcher by recursion. -/
theorem apply_answers (h : e.Usable p.maxDepth) (input : Bytes) (ops : List Operation) :
    (e.apply input ops).1 = (p.apply input ops).1 ∧ (e.apply input ops).2.Usable p.maxDepth := by
  have hreset : e.reset = ⟨p.maxDepth, .empty, .empty, [], none⟩ := by
    rw [reset, h.maxDepth, Arena.clear_eq h.filled]
  rw [Patcher.apply_eq, apply, hreset]
  simp only
  generalize Resolving.operations input p.maxDepth ops ⟨none, []⟩ = q
  obtain ⟨answer, r⟩ := q
  cases answer with
  | error err => exact ⟨rfl, rfl, List.cons_ne_nil _ _⟩
  | ok _ =>
    simp only
    cases hmerge : Patcher.merge r.targets.reverse input .empty with
    | error err =>
      obtain ⟨hanswer, hfilled⟩ := Arena.holds_empty.merge_error hmerge
      generalize Arena.empty.merge r.targets.reverse input = x at hanswer hfilled
      obtain ⟨answer, a⟩ := x
      obtain rfl : answer = .error err := hanswer
      exact ⟨rfl, rfl, hfilled⟩
    | ok m =>
      obtain ⟨source, tree⟩ := m
      obtain ⟨hanswer, hholds⟩ := Arena.holds_empty.merge hmerge
      generalize Arena.empty.merge r.targets.reverse input = x at hanswer hholds
      obtain ⟨answer, a⟩ := x
      obtain rfl : answer = .ok source := hanswer
      exact splice_agrees (p := p.reset) hholds rfl rfl rfl source

theorem applyText_answers (h : e.Usable p.maxDepth) (input : Bytes) (patch : String) :
    (e.applyText input patch).1 = (p.applyText input patch).1 ∧
      (e.applyText input patch).2.Usable p.maxDepth := by
  rw [applyText, Patcher.applyText]
  cases parse patch with
  | ok ops => exact apply_answers h input ops
  | error err => exact ⟨rfl, h⟩

end Engine

end Patcher

end Quarry.Patch
