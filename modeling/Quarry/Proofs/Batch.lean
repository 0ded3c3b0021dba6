import Quarry.Command
import Quarry.Proofs.Expr.Compiled
import Quarry.Proofs.Reuse

/-!
Filtering in chunks gives what asking about every line alone gives, whichever instances the chunks
borrow, and whether they come one after another or take turns.
-/

namespace Quarry

open Text

namespace Pool

variable {α : Type} {P : α → Prop} {p : Pool α}

/-- Whatever is lent has a property that resetting keeps. -/
structure Keeps (P : α → Prop) (p : Pool α) : Prop where
  make : ∀ n, P (p.make n)
  reset : ∀ a, P a → P (p.reset a)
  idle : ∀ a ∈ p.idle, P a

theorem keeps_empty {make : Nat → α} {reset : α → α} (capacity : Nat) (hmake : ∀ n, P (make n))
    (hreset : ∀ a, P a → P (reset a)) : (empty capacity make reset).Keeps P :=
  ⟨hmake, hreset, nofun⟩

theorem Keeps.lend (h : p.Keeps P) : P p.lend.1 ∧ p.lend.2.Keeps P := by
  unfold Pool.lend
  split
  · exact ⟨h.make p.made, h.make, h.reset, h.idle⟩
  · rename_i a as hidle
    refine ⟨h.idle a (by simp [hidle]), h.make, h.reset, ?_⟩
    intro b hb
    exact h.idle b (by simp [hidle, hb])

theorem Keeps.giveBack (h : p.Keeps P) {a : α} (ha : P a) : (p.giveBack a).Keeps P := by
  unfold Pool.giveBack
  split
  · refine ⟨h.make, h.reset, ?_⟩
    intro b hb
    rcases List.mem_cons.1 hb with rfl | hb
    · exact h.reset a ha
    · exact h.idle b hb
  · exact h

end Pool

namespace Batch

/-- What comes out when each line is asked about on its own. -/
def ofAnswers (answer : String → Except RunError Bool) (lines : List String) : Batch :=
  ⟨lines.filter fun line => answer line matches .ok true,
    lines.countP fun line => answer line matches .error _⟩

theorem ofAnswers_cons (answer : String → Except RunError Bool) (line : String)
    (lines : List String) :
    ofAnswers answer (line :: lines) =
      (ofLine line (answer line)).append (ofAnswers answer lines) := by
  unfold ofAnswers
  cases hanswer : answer line with
  | error e => simp [append, ofLine, hanswer, Nat.add_comm]
  | ok b => cases b <;> simp [append, ofLine, empty, hanswer]

theorem ofAnswers_append (answer : String → Except RunError Bool) (lines more : List String) :
    ofAnswers answer (lines ++ more) = (ofAnswers answer lines).append (ofAnswers answer more) := by
  simp [ofAnswers, append]

/-- The answer of a filter that nothing else was asked of. -/
def answer (f : Filter) (line : String) : Except RunError Bool := (f.filter (bytes line)).1

/-! ### Chunks -/

section Chunks

variable {α : Type}

theorem le_mul_chunkSize {workers : Nat} (hworkers : 0 < workers) (count : Nat) :
    count ≤ workers * chunkSize workers count := by
  unfold chunkSize
  have hdiv := Nat.div_add_mod (count + workers - 1) workers
  have hmod := Nat.mod_lt (count + workers - 1) hworkers
  omega

theorem length_chunks {size : Nat} {xs : List α} (n : Nat) (h : xs.length ≤ n * size) :
    (chunks size xs).length ≤ n := by
  fun_induction chunks size xs generalizing n with
  | case1 => exact Nat.zero_le n
  | case2 x xs ih =>
    cases n with
    | zero => simp at h
    | succ n =>
      rw [List.length_cons, Nat.add_one_mul] at h
      have hdrop := ih n (by rw [List.length_drop]; omega)
      rw [List.length_cons]
      omega

end Chunks

/-- The chunks that a text is filtered in. -/
def portions (poolCapacity workers : Nat) (lines : List String) : List (List String) :=
  chunks (chunkSize (min workers (max 1 poolCapacity)) lines.length) lines

theorem length_portions (poolCapacity : Nat) {workers : Nat} (hworkers : 0 < workers)
    (lines : List String) : (portions poolCapacity workers lines).length ≤ workers := by
  have hpositive : 0 < min workers (max 1 poolCapacity) := by omega
  exact (length_chunks _ (le_mul_chunkSize hpositive lines.length)).trans (Nat.min_le_left _ _)

/-! ### One chunk after another -/

variable {f : Filter}

/-- What an instance decided before does not matter. -/
theorem run_eq {f' : Filter} (h : f.lambda.Alike f'.lambda) (lines : List String) :
    (run f' lines).1 = ofAnswers (answer f) lines ∧ f.lambda.Alike (run f' lines).2.lambda := by
  induction lines generalizing f' with
  | nil => exact ⟨rfl, h⟩
  | cons line lines ih =>
    have hanswer : (f'.filter (bytes line)).1 = answer f line :=
      Filter.filter_eq_of_alike h (bytes line)
    -- Asking changes only what was decided last, so the next line is asked of a filter alike.
    have hnext := h.trans (f'.alike_call (.filter (bytes line)))
    obtain ⟨hrest, hlast⟩ := ih hnext
    rw [ofAnswers_cons, ← hanswer, ← hrest]
    exact ⟨rfl, hlast⟩

theorem runChunks_eq {pool : Pool Filter} (h : pool.Keeps fun f' => f.lambda.Alike f'.lambda)
    (parts : List (List String)) :
    (runChunks pool parts).1 = ofAnswers (answer f) parts.flatten := by
  induction parts generalizing pool with
  | nil => rfl
  | cons part parts ih =>
    obtain ⟨hlent, hpool⟩ := h.lend
    obtain ⟨hbatch, hlast⟩ := run_eq hlent part
    rw [List.flatten_cons, ofAnswers_append, ← hbatch, ← ih (hpool.giveBack hlast)]
    rfl

theorem filter_eq (f : Filter) (poolCapacity workers : Nat) (text : String) :
    filter f poolCapacity workers text = ofAnswers (answer f) (documents text) := by
  have hpool : (Pool.empty poolCapacity (fun _ => f) Filter.reset).Keeps
      fun f' => f.lambda.Alike f'.lambda := by
    refine Pool.keeps_empty poolCapacity (fun _ => ⟨rfl, rfl, rfl⟩) ?_
    intro f' h
    exact h.trans (f'.alike_call .reset)
  rw [filter, runChunks_eq hpool, flatten_chunks]

/-! ### Chunks that take turns -/

/-- How far a chunk is: it borrows an engine, asks about line after line, and gives the engine
back. -/
inductive Job
  | waiting (lines : List String)
  | running (e : Filter.Engine) (lines : List String) (done : Batch)
  | finished (done : Batch)

namespace Job

def step (pool : Pool Filter.Engine) : Job → Job × Pool Filter.Engine
  | waiting lines => (running pool.lend.1 lines empty, pool.lend.2)
  | running e (line :: lines) done =>
    let (answer, e) := e.filter (bytes line)
    (running e lines (done.append (ofLine line answer)), pool)
  | running e [] done => (finished done, pool.giveBack e)
  | finished done => (finished done, pool)

def outcome? : Job → Option Batch
  | finished done => some done
  | _ => none

def left : Job → Nat
  -- One turn borrows, one gives back, and each line takes one between them.
  | waiting lines => lines.length + 2
  | running _ lines _ => lines.length + 1
  | finished _ => 0

def comesTo (f : Filter) : Job → Batch
  | waiting lines => ofAnswers (answer f) lines
  | running _ lines done => done.append (ofAnswers (answer f) lines)
  | finished done => done

/-- A job for lines that has had some turns. -/
structure Serves (f : Filter) (lines : List String) (turns : Nat) (job : Job) : Prop where
  engine : ∀ {e rest done}, job = running e rest done → e.Runs f
  comesTo : job.comesTo f = ofAnswers (answer f) lines
  left : job.left = lines.length + 2 - turns

variable {job : Job} {lines : List String} {turns : Nat} {pool : Pool Filter.Engine}

theorem serves_waiting (f : Filter) (lines : List String) : (waiting lines).Serves f lines 0 :=
  ⟨nofun, rfl, rfl⟩

theorem Serves.step (h : job.Serves f lines turns) (hpool : pool.Keeps (·.Runs f)) :
    (job.step pool).1.Serves f lines (turns + 1) ∧ (job.step pool).2.Keeps (·.Runs f) := by
  obtain ⟨hengine, hcomesTo, hleft⟩ := h
  cases job with
  | waiting rest =>
    obtain ⟨hlent, hpool⟩ := hpool.lend
    refine ⟨⟨?_, ?_, ?_⟩, hpool⟩
    · rintro e rest done ⟨⟩
      exact hlent
    · rw [← hcomesTo]
      exact empty_append _
    · simp only [Job.step, Job.left] at hleft ⊢
      omega
  | running e rest done =>
    have hruns : e.Runs f := hengine rfl
    cases rest with
    | nil =>
      refine ⟨⟨nofun, ?_, ?_⟩, hpool.giveBack hruns⟩
      · rw [← hcomesTo]
        exact (append_empty done).symm
      · simp only [Job.step, Job.left, List.length_nil] at hleft ⊢
        omega
    | cons line rest =>
      obtain ⟨hanswer, hruns⟩ := hruns.filter (bytes line)
      refine ⟨⟨?_, ?_, ?_⟩, hpool⟩
      · rintro e rest done ⟨⟩
        exact hruns
      · rw [← hcomesTo, Job.comesTo, ofAnswers_cons, answer, ← hanswer, ← append_assoc]
        rfl
      · simp only [Job.step, Job.left, List.length_cons] at hleft ⊢
        omega
  | finished done =>
    refine ⟨⟨nofun, hcomesTo, ?_⟩, hpool⟩
    simp only [Job.step, Job.left] at hleft ⊢
    omega

theorem outcome?_eq (h : job.left = 0) : job.outcome? = some (job.comesTo f) := by
  cases job with
  | waiting lines => simp [left] at h
  | running e lines done => simp [left] at h
  | finished done => rfl

theorem outcome?_eq_none (h : job.left ≠ 0) : job.outcome? = none := by
  cases job with
  | waiting lines => rfl
  | running e lines done => rfl
  | finished done => exact absurd rfl h

end Job

/-- The jobs of one text with the pool that they share. -/
structure Crew where
  pool : Pool Filter.Engine
  jobs : List Job

namespace Crew

def start (f : Filter) (poolCapacity : Nat) (parts : List (List String)) : Crew :=
  ⟨.empty poolCapacity (fun _ => .new f) Filter.Engine.reset, parts.map .waiting⟩

def step (c : Crew) (i : Nat) : Crew :=
  match c.jobs[i]? with
  -- A turn of nobody changes nothing.
  | none => c
  | some job => ⟨(job.step c.pool).2, c.jobs.set i (job.step c.pool).1⟩

/-- The jobs take steps in any order. -/
def run (schedule : List Nat) (c : Crew) : Crew := schedule.foldl step c

/-- The outcomes of all jobs, in the order of the text. -/
def gather : List Job → Option Batch
  | [] => some empty
  | job :: jobs => do return (← job.outcome?).append (← gather jobs)

def outcome? (c : Crew) : Option Batch := gather c.jobs

/-- How far the crew is after each job has had some turns. -/
structure Serves (f : Filter) (parts : List (List String)) (turns : Nat → Nat) (c : Crew) :
    Prop where
  pool : c.pool.Keeps (·.Runs f)
  length : c.jobs.length = parts.length
  job : ∀ i (hi : i < parts.length) (hi' : i < c.jobs.length), c.jobs[i].Serves f parts[i] (turns i)

variable {c : Crew} {parts : List (List String)} {turns : Nat → Nat}

theorem serves_start (f : Filter) (poolCapacity : Nat) (parts : List (List String)) :
    (start f poolCapacity parts).Serves f parts (fun _ => 0) := by
  refine ⟨?_, List.length_map _, ?_⟩
  · exact Pool.keeps_empty poolCapacity (fun _ => Filter.Engine.runs_new f) fun _ h => h.reset
  · intro i hi hi'
    simp only [start, List.getElem_map]
    exact Job.serves_waiting f parts[i]

theorem Serves.step (h : c.Serves f parts turns) (i : Nat) :
    (c.step i).Serves f parts (fun j => turns j + [i].count j) := by
  have hother : ∀ j, i ≠ j → [i].count j = 0 := fun j hj =>
    List.count_singleton.trans (by simp [hj])
  unfold Crew.step
  split
  · rename_i hnone
    rw [List.getElem?_eq_none_iff] at hnone
    refine ⟨h.pool, h.length, ?_⟩
    intro j hj hj'
    rw [hother j (by omega)]
    exact h.job j hj hj'
  · rename_i job hjob
    obtain ⟨hi, rfl⟩ := List.getElem?_eq_some_iff.1 hjob
    obtain ⟨hserves, hpool⟩ := (h.job i (h.length ▸ hi) hi).step h.pool
    refine ⟨hpool, (List.length_set).trans h.length, ?_⟩
    intro j hj hj'
    rw [List.getElem_set]
    split
    · subst j
      rw [List.count_singleton_self]
      exact hserves
    · rename_i hne
      rw [hother j hne]
      exact h.job j hj (h.length.symm ▸ hj)

theorem Serves.run (h : c.Serves f parts turns) (schedule : List Nat) :
    (c.run schedule).Serves f parts (fun i => turns i + schedule.count i) := by
  induction schedule generalizing c turns with
  | nil => exact h
  | cons i schedule ih =>
    have hrun := ih (h.step i)
    simp only [Nat.add_assoc, ← List.count_append] at hrun
    exact hrun

theorem Serves.comesTo (h : c.Serves f parts turns) :
    (c.jobs.map (Job.comesTo f)).foldr append empty = ofAnswers (answer f) parts.flatten := by
  have hjobs : c.jobs.map (Job.comesTo f) = parts.map (ofAnswers (answer f)) := by
    refine List.ext_getElem (by simp [h.length]) ?_
    intro i hi hi'
    rw [List.length_map] at hi hi'
    rw [List.getElem_map, List.getElem_map]
    exact (h.job i hi' hi).comesTo
  rw [hjobs]
  -- Only the parts are left to speak of, and their answers are put together from the back.
  clear h hjobs
  induction parts with
  | nil => rfl
  | cons part parts ih =>
    rw [List.map_cons, List.foldr_cons, ih, List.flatten_cons, ofAnswers_append]

theorem gather_eq_some (f : Filter) {jobs : List Job} {b : Batch} :
    gather jobs = some b ↔
      (∀ job ∈ jobs, job.left = 0) ∧ b = (jobs.map (Job.comesTo f)).foldr append empty := by
  induction jobs generalizing b with
  | nil => simp [gather, eq_comm]
  | cons job jobs ih =>
    by_cases hjob : job.left = 0
    · have hgather : gather (job :: jobs) = (gather jobs).map (job.comesTo f).append := by
        rw [gather, Job.outcome?_eq hjob]
        cases gather jobs <;> rfl
      rw [hgather, Option.map_eq_some_iff]
      constructor
      · rintro ⟨rest, hrest, rfl⟩
        obtain ⟨hleft, rfl⟩ := ih.1 hrest
        exact ⟨List.forall_mem_cons.2 ⟨hjob, hleft⟩, rfl⟩
      · rintro ⟨hleft, rfl⟩
        exact ⟨_, ih.2 ⟨(List.forall_mem_cons.1 hleft).2, rfl⟩, rfl⟩
    · -- One job that is not done keeps all from an outcome.
      have hgather : gather (job :: jobs) = none := by
        rw [gather, Job.outcome?_eq_none hjob]
        rfl
      rw [hgather]
      refine ⟨nofun, ?_⟩
      rintro ⟨hleft, -⟩
      exact absurd (hleft job List.mem_cons_self) hjob

theorem Serves.left (h : c.Serves f parts turns) :
    (∀ job ∈ c.jobs, job.left = 0) ↔
      ∀ i (hi : i < parts.length), parts[i].length + 2 ≤ turns i := by
  constructor
  · intro hleft i hi
    have hserves := h.job i hi (h.length.symm ▸ hi)
    have hzero := hleft _ (List.getElem_mem (h.length.symm ▸ hi))
    have hturns := hserves.left
    omega
  · intro hturns job hjob
    obtain ⟨i, hi, rfl⟩ := List.mem_iff_getElem.1 hjob
    have hserves := h.job i (h.length ▸ hi) hi
    have henough := hturns i (h.length ▸ hi)
    rw [hserves.left]
    omega

/-- The crew is done when each job had a turn for each of its lines, one to borrow and one to give
back. -/
theorem outcome?_run (f : Filter) (poolCapacity : Nat) (parts : List (List String))
    (schedule : List Nat) {b : Batch} :
    ((start f poolCapacity parts).run schedule).outcome? = some b ↔
      (∀ i (hi : i < parts.length), parts[i].length + 2 ≤ schedule.count i) ∧
        b = ofAnswers (answer f) parts.flatten := by
  have hserves := (serves_start f poolCapacity parts).run schedule
  simp only [Nat.zero_add] at hserves
  rw [outcome?, gather_eq_some f, hserves.left, hserves.comesTo]

end Crew

end Batch

namespace Command.Query

open Batch

/-- The lines that hold anything are filtered as if each had a filter of its own, which nothing else
was asked of: those that pass come out as they are, in their order, and those that fail are counted.
No worker gets more than one chunk, and the chunks may also take turns in any order. -/
theorem filterLines_asks_each_alone {q : Query} {f : Filter} {text : String} {workers : Nat}
    (hf : q.compileFilter = .ok f) (htext : q.input = some text) (hworkers : 0 < workers) :
    let lines := documents text
    let answer := fun line => (f.filter (bytes line)).1
    let batch : Batch := ⟨lines.filter fun line => answer line matches .ok true,
      lines.countP fun line => answer line matches .error _⟩
    let parts := portions q.config.poolCapacity workers lines
    q.filterLines workers = .ok batch ∧
      q.filterLines workers =
        .ok (runChunks (.empty q.config.poolCapacity (fun _ => f) Filter.reset) parts).1 ∧
      parts.flatten = lines ∧ parts.length ≤ workers ∧
      ∀ schedule b, ((Crew.start f q.config.poolCapacity parts).run schedule).outcome? = some b ↔
        (∀ i (hi : i < parts.length), parts[i].length + 2 ≤ schedule.count i) ∧ b = batch := by
  intro lines answer batch parts
  have hfilter :
      q.filterLines workers = .ok (Batch.filter f q.config.poolCapacity workers text) := by
    rw [filterLines, hf, htext]
    rfl
  have hflatten : parts.flatten = lines := flatten_chunks _ lines
  refine ⟨?_, hfilter, hflatten, length_portions _ hworkers lines, ?_⟩
  · rw [hfilter, filter_eq]
    rfl
  · intro schedule b
    rw [Crew.outcome?_run, hflatten]
    rfl

/-- Two chunks, of which the second starts with a line that breaks off, and an order of turns in
which both hold an engine at the same time. -/
theorem filterLines_of_two_chunks :
    let text := "\x7b\"a\":1\x7d\n\n\x7b\"a\":\"\"\x7d\n\x7b\"a\"\n\x7b\"a\":0\x7d\n\x7b\"a\":2\x7d"
    let q : Query := { expr := "o.a < 2", input := some text, config := { poolCapacity := 2 } }
    let parts := [["\x7b\"a\":1\x7d", "\x7b\"a\":\"\"\x7d", "\x7b\"a\""],
      ["\x7b\"a\":0\x7d", "\x7b\"a\":2\x7d"]]
    let batch : Batch := ⟨["\x7b\"a\":1\x7d", "\x7b\"a\":0\x7d"], 2⟩
    ∃ f, q.compileFilter = .ok f ∧ portions 2 3 (documents text) = parts ∧
      q.filterLines 3 = .ok batch ∧
      ((Crew.start f 2 parts).run [1, 0, 0, 1, 0, 1, 1, 0, 0]).outcome? = some batch := by
  intro text q parts batch
  let body : Expr :=
    .binary .lessThan (.field "o.a" (some [.key "o", .key "a"])) (.literal (.long 2))
  let f : Filter := ⟨⟨"o", body, .empty 512, []⟩⟩
  have hL : Expr.tokenize "o.a < 2" = .ok [⟨.identifier "o", 0⟩, ⟨.dot, 1⟩, ⟨.identifier "a", 2⟩,
      ⟨.less, 4⟩, ⟨.integer 2, 6⟩, ⟨.eof, 7⟩] := by
    decide +kernel
  have hparse : Lambda.parse "o.a < 2" q.config = .ok f.lambda := Lambda.parse_of_tokens hL rfl rfl
  have hf : q.compileFilter = .ok f := by
    rw [compileFilter, Filter.parse, hparse]
    rfl
  have hparts : portions 2 3 (documents text) = parts := by decide +kernel
  obtain ⟨hbatch, -, -, -, hturns⟩ := filterLines_asks_each_alone hf rfl (by decide : 0 < 3)
  have halone : (⟨(documents text).filter fun line => (f.filter (bytes line)).1 matches .ok true,
      (documents text).countP fun line => (f.filter (bytes line)).1 matches .error _⟩ : Batch) =
      batch := by
    decide +kernel
  rw [hparts, halone] at hturns
  exact ⟨f, hf, hparts, hbatch.trans (congrArg _ halone), (hturns _ _).2 ⟨by decide, rfl⟩⟩

end Command.Query

end Quarry
