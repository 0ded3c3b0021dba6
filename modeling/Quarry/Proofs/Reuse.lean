import Quarry.Proofs.Lambda
import Quarry.Proofs.Patch.Engine
import Quarry.Proofs.Select.Stacked

/-!
Engines are used again and again, after failures too. Whatever calls came before, the next one
answers as it would on an engine that was just made.
-/

namespace Quarry

open Text

namespace Lambda

/-- What can be asked of a lambda. -/
inductive Call
  | eval (input : Bytes)
  | evalResult (input : Bytes)
  | reset

def call (l : Lambda) : Call → Lambda
  | .eval input => (l.eval input).2
  | .evalResult input => (l.evalResult input).2
  | .reset => l.reset

/-- The document and the bindings may differ. -/
structure Alike (l l' : Lambda) : Prop where
  arg : l'.arg = l.arg
  body : l'.body = l.body
  maxDepth : l'.document.maxDepth = l.document.maxDepth

variable {l l' : Lambda} {input : Bytes}

theorem Alike.trans {l'' : Lambda} (h : l.Alike l') (h' : l'.Alike l'') : l.Alike l'' :=
  ⟨h'.arg.trans h.arg, h'.body.trans h.body, h'.maxDepth.trans h.maxDepth⟩

theorem alike_load (input : Bytes) (l : Lambda) : l.Alike (l.load input).2 := by
  unfold load
  split
  · rename_i d e hparse
    exact ⟨rfl, rfl, congrArg (fun p => p.1.maxDepth) hparse.symm⟩
  · rename_i d hparse
    have hdepth : d.maxDepth = l.document.maxDepth := congrArg (fun p => p.1.maxDepth) hparse.symm
    split
    · exact ⟨rfl, rfl, hdepth⟩
    · exact ⟨rfl, rfl, hdepth⟩

theorem evalResult_snd (input : Bytes) (l : Lambda) :
    (l.evalResult input).2 = (l.load input).2 := by
  unfold evalResult
  split
  · rename_i hload
    rw [hload]
  · rename_i hload
    rw [hload]

theorem eval_snd (input : Bytes) (l : Lambda) : (l.eval input).2 = (l.load input).2 := by
  unfold eval
  split
  · rename_i hload
    rw [hload]
  · rename_i hload
    rw [hload]
    split
    · rfl
    · simp only
      split <;> rfl

theorem alike_call (c : Call) (l : Lambda) : l.Alike (l.call c) := by
  cases c with
  | eval input =>
    rw [call, eval_snd]
    exact alike_load input l
  | evalResult input =>
    rw [call, evalResult_snd]
    exact alike_load input l
  | reset => exact ⟨rfl, rfl, rfl⟩

theorem alike_calls (calls : List Call) (l : Lambda) : l.Alike (calls.foldl call l) := by
  apply List.foldlRecOn calls call ⟨rfl, rfl, rfl⟩
  intro l' h c _
  exact h.trans (alike_call c l')

/-- Reading replaces all that may differ. -/
theorem Alike.load_eq (h : l.Alike l') (input : Bytes) : l'.load input = l.load input := by
  obtain ⟨arg, body, document, bindings⟩ := l
  obtain ⟨arg', body', document', bindings'⟩ := l'
  obtain ⟨rfl, rfl, hdepth⟩ := h
  have hparse : document'.parse input = document.parse input := by
    unfold Document.parse
    rw [show document'.maxDepth = document.maxDepth from hdepth]
  unfold load
  rw [hparse]

theorem Alike.eval_eq (h : l.Alike l') (input : Bytes) : l'.eval input = l.eval input := by
  unfold eval
  rw [h.load_eq]

theorem Alike.evalResult_eq (h : l.Alike l') (input : Bytes) :
    l'.evalResult input = l.evalResult input := by
  unfold evalResult
  rw [h.load_eq]

namespace Engine

def call (e : Engine) : Call → Engine
  | .eval input => (e.eval input).2
  | .evalResult input => (e.evalResult input).2
  | .reset => e.reset

theorem Runs.call {e : Engine} (h : e.Runs l) (c : Call) : (e.call c).Runs l := by
  cases c with
  | eval input => exact (h.eval input).2
  | evalResult input => exact (h.evalResult input).2
  | reset => exact h.reset

theorem Runs.calls {e : Engine} (h : e.Runs l) (calls : List Call) :
    (calls.foldl Engine.call e).Runs l :=
  List.foldlRecOn calls Engine.call h fun _ h c _ => h.call c

end Engine

end Lambda

namespace Filter

/-- What can be asked of a filter. -/
inductive Call
  | filter (input : Bytes)
  | eval (input : Bytes)
  | reset

def call (f : Filter) : Call → Filter
  | .filter input => (f.filter input).2
  | .eval input => (f.eval input).2
  | .reset => f.reset

variable {f f' : Filter} {input : Bytes}

theorem filter_snd (input : Bytes) (f : Filter) :
    (f.filter input).2 = f ∨ (f.filter input).2 = ⟨(f.lambda.evalResult input).2⟩ := by
  unfold filter
  split
  · exact .inl rfl
  · split
    · rename_i hresult
      exact .inr (by rw [hresult])
    · rename_i hresult
      exact .inr (by rw [hresult])

theorem alike_call (c : Call) (f : Filter) : f.lambda.Alike (f.call c).lambda := by
  cases c with
  | filter input =>
    rw [call]
    rcases filter_snd input f with h | h
    · rw [h]
      exact ⟨rfl, rfl, rfl⟩
    · rw [h]
      exact f.lambda.alike_call (.evalResult input)
  | eval input => exact f.lambda.alike_call (.eval input)
  | reset => exact f.lambda.alike_call .reset

theorem alike_calls (calls : List Call) (f : Filter) :
    f.lambda.Alike (calls.foldl call f).lambda := by
  refine List.foldlRecOn (motive := fun f' => f.lambda.Alike f'.lambda) calls call ?_ ?_
  · exact ⟨rfl, rfl, rfl⟩
  · intro f' h c _
    exact h.trans (alike_call c f')

theorem filter_eq_of_alike (h : f.lambda.Alike f'.lambda) (input : Bytes) :
    (f'.filter input).1 = (f.filter input).1 := by
  have hkind : f'.kind = f.kind := by rw [kind, kind, h.body]
  unfold filter
  rw [hkind, h.evalResult_eq]
  cases f.kind with
  | constant b => rfl
  | lambda => rfl

namespace Engine

def call (e : Engine) : Call → Engine
  | .filter input => (e.filter input).2
  | .eval input => (e.eval input).2
  | .reset => e.reset

theorem Runs.call {e : Engine} (h : e.Runs f) (c : Call) : (e.call c).Runs f := by
  cases c with
  | filter input => exact (h.filter input).2
  | eval input => exact (h.eval input).2
  | reset => exact h.reset

theorem Runs.calls {e : Engine} (h : e.Runs f) (calls : List Call) :
    (calls.foldl Engine.call e).Runs f :=
  List.foldlRecOn calls Engine.call h fun _ h c _ => h.call c

end Engine

end Filter

namespace Selector

/-- The paths a selector asks for, unless the last that were set were not taken. -/
def Call.asks (asked : Option (List String)) : Call → Option (List String)
  | .setPaths paths => if (Call.setPaths paths).leaves false then none else some paths
  | .reset => some []
  | .select _ => asked

/-- What the last document left behind may differ. -/
structure Alike (s s' : Selector) : Prop where
  paths : s'.paths = s.paths
  tree : s'.tree = s.tree
  maxDepth : s'.maxDepth = s.maxDepth
  results : s'.results.length = s.results.length

variable {s s' : Selector} {config : Config} {paths : List String}

theorem alike_select (input : Bytes) (s : Selector) : s.Alike (s.select input).2 := by
  obtain ⟨hpaths, htree, hdepth⟩ := select_keeps input s
  exact ⟨hpaths, htree, hdepth, length_select input s⟩

theorem Alike.trans {s'' : Selector} (h : s.Alike s') (h' : s'.Alike s'') : s.Alike s'' :=
  ⟨h'.paths.trans h.paths, h'.tree.trans h.tree, h'.maxDepth.trans h.maxDepth,
    h'.results.trans h.results⟩

/-- A selection replaces all that may differ. -/
theorem Alike.select_eq (h : s.Alike s') (input : Bytes) : s'.select input = s.select input := by
  obtain ⟨paths, tree, results, failure, maxDepth, skipped, eventsRead⟩ := s
  obtain ⟨paths', tree', results', failure', maxDepth', skipped', eventsRead'⟩ := s'
  obtain ⟨rfl, rfl, rfl, hlength⟩ := h
  have hcleared : results'.map (fun _ => Matches.empty) = results.map fun _ => Matches.empty := by
    rw [List.map_const', List.map_const', hlength]
  unfold select
  simp only [cleared, depthLimit, hcleared]

theorem maxDepth_addPaths (texts : List String) (s : Selector) :
    (addPaths texts s).2.maxDepth = s.maxDepth := by
  induction texts generalizing s with
  | nil => rfl
  | cons text texts ih =>
    rw [addPaths]
    split
    · rfl
    · exact ih _

theorem maxDepth_call (c : Call) (s : Selector) : (s.call c).maxDepth = s.maxDepth := by
  cases c with
  | setPaths paths =>
    have hadd := maxDepth_addPaths paths s.reset
    rw [call, setPaths]
    split
    · rename_i hpaths
      exact (congrArg (fun p => p.2.maxDepth) hpaths.symm).trans hadd
    · rename_i hpaths
      exact (congrArg (fun p => p.2.maxDepth) hpaths.symm).trans hadd
  | reset => rfl
  | select input => exact (select_keeps input s).2.2

/-- Setting paths makes a selector anew. -/
theorem make_of_setPaths (hdepth : s.maxDepth = config.maxDepth)
    (hpaths : (Call.setPaths paths).leaves false = false) :
    make paths config = .ok (s.setPaths paths).2 := by
  have hreset : (empty config.maxDepth).setPaths paths = s.setPaths paths := by
    rw [setPaths, setPaths, reset, reset, hdepth]
    rfl
  have hanswer := addPaths_answer paths s.reset
  rw [make, hreset, setPaths]
  rw [show (paths.any fun text => (Path.parse text).toOption.isNone) = false from hpaths] at hanswer
  generalize addPaths paths s.reset = p at hanswer
  obtain ⟨answer, t⟩ := p
  cases answer with
  | error e => simp [Except.toOption] at hanswer
  | ok _ => rfl

theorem asks_call {asked : Option (List String)} (c : Call) (hdepth : s.maxDepth = config.maxDepth)
    (h : ∀ paths, asked = some paths → ∃ t, make paths config = .ok t ∧ t.Alike s) :
    ∀ paths, c.asks asked = some paths →
      ∃ t, make paths config = .ok t ∧ t.Alike (s.call c) := by
  intro paths hasks
  cases c with
  | setPaths texts =>
    rw [Call.asks] at hasks
    split at hasks
    · exact absurd hasks (by simp)
    · rename_i htaken
      obtain rfl : texts = paths := by simpa using hasks
      refine ⟨_, make_of_setPaths hdepth (by simpa using htaken), ?_⟩
      exact ⟨rfl, rfl, rfl, rfl⟩
  | reset =>
    obtain rfl : [] = paths := by simpa [Call.asks] using hasks
    refine ⟨_, make_of_setPaths (s := s) hdepth rfl, ?_⟩
    exact ⟨rfl, rfl, rfl, rfl⟩
  | select input =>
    obtain ⟨t, ht, halike⟩ := h paths hasks
    exact ⟨t, ht, halike.trans (alike_select input s)⟩

/-- A selector is like one that was just made with the paths that it asks for. -/
theorem asks_calls (calls : List Call) {asked : Option (List String)}
    (hdepth : s.maxDepth = config.maxDepth)
    (h : ∀ paths, asked = some paths → ∃ t, make paths config = .ok t ∧ t.Alike s) :
    ∀ paths, calls.foldl Call.asks asked = some paths →
      ∃ t, make paths config = .ok t ∧ t.Alike (calls.foldl call s) := by
  induction calls generalizing s asked with
  | nil => exact h
  | cons c calls ih =>
    exact ih ((maxDepth_call c s).trans hdepth) (asks_call c hdepth h)

theorem asks_new (calls : List Call) (h : calls.foldl Call.asks (some []) = some paths) :
    ∃ t, make paths config = .ok t ∧ t.Alike (calls.foldl call (empty config.maxDepth)) := by
  refine asks_calls calls rfl ?_ paths h
  intro paths hnone
  cases hnone
  exact ⟨_, rfl, rfl, rfl, rfl, rfl⟩

end Selector

namespace Patch.Patcher

/-- What can be asked of a patcher. -/
inductive Call
  | apply (input : Bytes) (ops : List Operation)
  | applyText (input : Bytes) (patch : String)
  | reset

def call (p : Patcher) : Call → Patcher
  | .apply input ops => (p.apply input ops).2
  | .applyText input patch => (p.applyText input patch).2
  | .reset => p.reset

theorem maxDepth_splice (source : Bytes) (tree : Tree) (p : Patcher) :
    (p.splice source tree).2.maxDepth = p.maxDepth := by
  unfold splice
  simp only
  split
  · rfl
  · split <;> rfl

theorem maxDepth_apply (input : Bytes) (ops : List Operation) (p : Patcher) :
    (p.apply input ops).2.maxDepth = p.maxDepth := by
  unfold apply
  simp only
  split
  · rfl
  · split
    · rfl
    · exact maxDepth_splice _ _ _

theorem maxDepth_call (c : Call) (p : Patcher) : (p.call c).maxDepth = p.maxDepth := by
  cases c with
  | apply input ops => exact maxDepth_apply input ops p
  | applyText input patch =>
    rw [call, applyText]
    split
    · exact maxDepth_apply input _ p
    · rfl
  | reset => rfl

theorem maxDepth_calls (calls : List Call) (p : Patcher) :
    (calls.foldl call p).maxDepth = p.maxDepth := by
  refine List.foldlRecOn (motive := fun p' => p'.maxDepth = p.maxDepth) calls call rfl ?_
  intro p' h c _
  exact (maxDepth_call c p').trans h

/-- A patch begins with everything forgotten. -/
theorem apply_eq_of_maxDepth {p p' : Patcher} (h : p'.maxDepth = p.maxDepth) (input : Bytes)
    (ops : List Operation) : p'.apply input ops = p.apply input ops := by
  have hreset : p'.reset = p.reset := by rw [reset, reset, h]
  unfold apply
  rw [hreset]

theorem applyText_eq_of_maxDepth {p p' : Patcher} (h : p'.maxDepth = p.maxDepth) (input : Bytes)
    (patch : String) : (p'.applyText input patch).1 = (p.applyText input patch).1 := by
  unfold applyText
  split
  · rw [apply_eq_of_maxDepth h]
  · rfl

namespace Engine

def call (e : Engine) : Call → Engine
  | .apply input ops => (e.apply input ops).2
  | .applyText input patch => (e.applyText input patch).2
  | .reset => e.reset

theorem Usable.call {e : Engine} {p : Patcher} (h : e.Usable p.maxDepth) (c : Call) :
    (e.call c).Usable p.maxDepth := by
  cases c with
  | apply input ops => exact (apply_answers h input ops).2
  | applyText input patch => exact (applyText_answers h input patch).2
  | reset => exact h.reset

theorem Usable.calls {e : Engine} {p : Patcher} (h : e.Usable p.maxDepth) (calls : List Call) :
    (calls.foldl Engine.call e).Usable p.maxDepth :=
  List.foldlRecOn calls Engine.call h fun _ h c _ => h.call c

end Engine

end Patch.Patcher

open Patch in
/-- Whatever was asked before, with whatever success, the next answer is that of a new instance,
also where documents, stacks and arenas are kept from one call to the next. A selector goes by the
paths that were set last, if they were taken. -/
theorem answers_after_calls (config : Config) :
    (∀ (l : Lambda) (calls : List Lambda.Call) (input : Bytes),
      (((calls.foldl Lambda.call l).eval input).1 = (l.eval input).1 ∧
        ((calls.foldl Lambda.call l).evalResult input).1 = (l.evalResult input).1) ∧
      ((calls.foldl Lambda.Engine.call (.new l)).eval input).1 = (l.eval input).1 ∧
        ((calls.foldl Lambda.Engine.call (.new l)).evalResult input).1 = (l.evalResult input).1) ∧
    (∀ (f : Filter) (calls : List Filter.Call) (input : Bytes),
      ((calls.foldl Filter.call f).filter input).1 = (f.filter input).1 ∧
        ((calls.foldl Filter.Engine.call (.new f)).filter input).1 = (f.filter input).1) ∧
    (∀ (calls : List Selector.Call) (paths : List String),
      calls.foldl Selector.Call.asks (some []) = some paths →
        ∃ s, Selector.make paths config = .ok s ∧ ∀ input,
          (calls.foldl Selector.call (.empty config.maxDepth)).select input = s.select input ∧
          ((calls.foldl Selector.Engine.call (.empty config.maxDepth)).select input).1 =
              (s.select input).1 ∧
            ((calls.foldl Selector.Engine.call (.empty config.maxDepth)).select input).2.plain =
              (s.select input).2) ∧
    (∀ (calls : List Patcher.Call) (input : Bytes) (ops : List Operation) (patch : String),
      (((calls.foldl Patcher.call (.make config)).apply input ops).1 =
          ((Patcher.make config).apply input ops).1 ∧
        ((calls.foldl Patcher.call (.make config)).applyText input patch).1 =
          ((Patcher.make config).applyText input patch).1) ∧
      ((calls.foldl Patcher.Engine.call (.make config)).apply input ops).1 =
          ((Patcher.make config).apply input ops).1 ∧
        ((calls.foldl Patcher.Engine.call (.make config)).applyText input patch).1 =
          ((Patcher.make config).applyText input patch).1) := by
  refine ⟨?_, ?_, ?_, ?_⟩
  · intro l calls input
    have halike := l.alike_calls calls
    have hruns := (Lambda.Engine.runs_new l).calls calls
    rw [halike.eval_eq, halike.evalResult_eq]
    exact ⟨⟨rfl, rfl⟩, (hruns.eval input).1, (hruns.evalResult input).1⟩
  · intro f calls input
    have hruns := (Filter.Engine.runs_new f).calls calls
    exact ⟨Filter.filter_eq_of_alike (f.alike_calls calls) input, (hruns.filter input).1⟩
  · intro calls paths hasks
    obtain ⟨s, hmake, halike⟩ := Selector.asks_new calls hasks
    refine ⟨s, hmake, ?_⟩
    intro input
    obtain ⟨hnumbered, hplain⟩ := Selector.Engine.calls_agree
      (e := .empty config.maxDepth) PathTree.numbered_empty calls
    have hagrees := Selector.Engine.select_agrees hnumbered input
    have hnew : (Selector.Engine.empty config.maxDepth).plain = .empty config.maxDepth := rfl
    rw [hplain, hnew, halike.select_eq] at hagrees
    exact ⟨halike.select_eq input, hagrees⟩
  · intro calls input ops patch
    have hdepth := Patcher.maxDepth_calls calls (.make config)
    have husable := Patcher.Engine.Usable.calls (p := .make config)
      (Patcher.Engine.usable_make config) calls
    exact ⟨⟨congrArg Prod.fst (Patcher.apply_eq_of_maxDepth hdepth input ops),
        Patcher.applyText_eq_of_maxDepth hdepth input patch⟩,
      (Patcher.Engine.apply_answers husable input ops).1,
      (Patcher.Engine.applyText_answers husable input patch).1⟩

/-- Two documents that break off and paths that are not taken come before the paths that count. -/
theorem answers_after_failures :
    let calls : List Selector.Call := [.setPaths ["a"], .select (bytes "\x7b\"a\":"),
      .setPaths ["b", ""], .setPaths ["a[0]"], .select (bytes "\x7b\"a\":[1")]
    calls.foldl Selector.Call.asks (some []) = some ["a[0]"] ∧
      ∃ s, Selector.make ["a[0]"] {} = .ok s ∧ ∀ input,
        (calls.foldl Selector.call (.empty 512)).select input = s.select input ∧
        ((calls.foldl Selector.Engine.call (.empty 512)).select input).1 = (s.select input).1 ∧
          ((calls.foldl Selector.Engine.call (.empty 512)).select input).2.plain =
            (s.select input).2 := by
  intro calls
  have hasks : calls.foldl Selector.Call.asks (some []) = some ["a[0]"] := by decide
  exact ⟨hasks, (answers_after_calls {}).2.2.1 calls _ hasks⟩

end Quarry
