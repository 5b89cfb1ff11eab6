import Cse344.Lib.CString
import Cse344.Lib.Machine
import Cse344.Lib.Totals

/-!
# Collecting the workers' matches

Model of the fork loop of `create_workers` and of `parent_process` (`HW2/src/processes.c` 8-117)
against the workers (`close_child_pipes`, `record_match_and_file`, `HW2/src/utils.c`), as a machine
whose actions are the steps of the parent and of each worker.

* A pipe is a FIFO of whole records: its writer blocks when it holds as many as its capacity, its
  reader blocks when it is empty and some process holds a write end, and reads end-of-file when none
  does.
* A child inherits the write ends the parent still has: those of its own pipes and of the later
  workers' pipes. It holds the latter until `close_child_pipes` (`forked`).
* A worker writes the records of its matches one by one, closes its match pipe, and writes its one
  results record. What the search finds does not depend on the pipes, so a worker's search is given
  as a `Job`.
* A `Stage` is how far the parent is with one worker; `SlotOk` says by the stage what the worker's
  pipes and the collected records are.

Results:
* `workerMove_of_step`, `parentMove_of_step`: the cases of a step.
* **`slotsOk_reachable`**: every reachable state has every worker where the parent's progress says.

Out of scope: signals, failing `pipe` and `fork` calls, the printed lines. `int` counters are
natural numbers.
-/

namespace Cse344.HW2

open Cse344.Lib

/-- `t_match`. -/
structure Match where
  path : CStr
  workerPid : ℤ
  size : ℤ
  deriving DecidableEq, Repr

/-- What a worker's searches produce: the records written to its match pipe, and the two integers
of its results record. -/
structure Job where
  written : List Match
  matchCount : ℕ
  filesScanned : ℕ
  deriving DecidableEq, Repr

/-- The capacities of a pipe of `g_pipes` and of one of `g_match_pipes`, in records. -/
structure Capacities where
  resultPipe : ℕ
  matchPipe : ℕ
  resultPipe_pos : 0 < resultPipe
  matchPipe_pos : 0 < matchPipe

/-- Where a worker is. -/
inductive WorkerPc
  /-- not forked -/
  | unborn
  /-- forked, before `close_child_pipes` -/
  | forked
  /-- in `search_directory`, with these records to write -/
  | writing (rest : List Match)
  /-- has closed its match pipe -/
  | reporting
  /-- has written its results and exited -/
  | exited
  deriving DecidableEq, Repr

/-- Where the parent is. -/
inductive ParentPc
  /-- before forking worker `i` -/
  | forking (i : ℕ)
  /-- reading the results of worker `i` -/
  | readingResults (i : ℕ)
  /-- reading the matches of worker `i` -/
  | readingMatches (i : ℕ)
  /-- in `waitpid` for worker `i` -/
  | waiting (i : ℕ)
  /-- has returned from `parent_process` -/
  | done
  deriving DecidableEq, Repr

structure Collect (n : ℕ) where
  parent : ParentPc
  workers : Fin n → WorkerPc
  pipes : Fin n → List (ℕ × ℕ)
  matchPipes : Fin n → List Match
  workerMatches : Fin n → ℕ
  workerFiles : Fin n → ℕ
  allMatches : List Match

inductive Act (n : ℕ)
  | parent
  | worker (i : Fin n)
  deriving DecidableEq, Repr

/-- The size of `g_all_matches`. -/
def maxMatches : ℕ := 1024

variable {n : ℕ}

/-! ## Write ends -/

/-- The parent has not closed its write ends of worker `i`'s pipes. -/
def ParentPc.holdsEnds : ParentPc → ℕ → Bool
  | .forking k, i => decide (k ≤ i)
  | _, _ => false

/-- Worker `j` holds a write end of worker `i`'s match pipe. -/
def WorkerPc.holdsMatchEnd : WorkerPc → Fin n → Fin n → Bool
  | .forked, j, i => decide (j ≤ i)
  | .writing _, j, i => decide (j = i)
  | _, _, _ => false

/-- Worker `j` holds a write end of worker `i`'s results pipe. -/
def WorkerPc.holdsResultEnd : WorkerPc → Fin n → Fin n → Bool
  | .forked, j, i => decide (j ≤ i)
  | .writing _, j, i => decide (j = i)
  | .reporting, j, i => decide (j = i)
  | _, _, _ => false

def Collect.matchPipeOpen (s : Collect n) (i : Fin n) : Bool :=
  s.parent.holdsEnds i || decide (∃ j, (s.workers j).holdsMatchEnd j i = true)

def Collect.resultPipeOpen (s : Collect n) (i : Fin n) : Bool :=
  s.parent.holdsEnds i || decide (∃ j, (s.workers j).holdsResultEnd j i = true)

/-! ## Steps -/

/-- The next step of worker `i`, `none` where it is blocked or over. -/
def workerStep (cap : Capacities) (jobs : Fin n → Job) (s : Collect n) (i : Fin n) :
    Option (Collect n) :=
  match s.workers i with
  | .unborn => none
  | .forked => some { s with workers := Function.update s.workers i (.writing (jobs i).written) }
  | .writing (m :: rest) =>
    if (s.matchPipes i).length < cap.matchPipe then
      some { s with
        workers := Function.update s.workers i (.writing rest)
        matchPipes := Function.update s.matchPipes i (s.matchPipes i ++ [m]) }
    else none
  | .writing [] => some { s with workers := Function.update s.workers i .reporting }
  | .reporting =>
    if (s.pipes i).length < cap.resultPipe then
      some { s with
        workers := Function.update s.workers i .exited
        pipes := Function.update s.pipes i
          (s.pipes i ++ [((jobs i).matchCount, (jobs i).filesScanned)]) }
    else none
  | .exited => none

/-- The next step of the parent. -/
def parentStep (s : Collect n) : Option (Collect n) :=
  match s.parent with
  | .forking k =>
    if h : k < n then
      some { s with
        parent := .forking (k + 1)
        workers := Function.update s.workers ⟨k, h⟩ .forked }
    else some { s with parent := .readingResults 0 }
  | .readingResults k =>
    if h : k < n then
      match s.pipes ⟨k, h⟩ with
      | r :: rest =>
        some { s with
          parent := .readingResults (k + 1)
          pipes := Function.update s.pipes ⟨k, h⟩ rest
          workerMatches := Function.update s.workerMatches ⟨k, h⟩ r.1
          workerFiles := Function.update s.workerFiles ⟨k, h⟩ r.2 }
      | [] =>
        if s.resultPipeOpen ⟨k, h⟩ then none
        else
          some { s with
            parent := .readingResults (k + 1)
            workerMatches := Function.update s.workerMatches ⟨k, h⟩ 0
            workerFiles := Function.update s.workerFiles ⟨k, h⟩ 0 }
    else some { s with parent := .readingMatches 0 }
  | .readingMatches k =>
    if h : k < n then
      match s.matchPipes ⟨k, h⟩ with
      | m :: rest =>
        some { s with
          matchPipes := Function.update s.matchPipes ⟨k, h⟩ rest
          allMatches := if s.allMatches.length < maxMatches then s.allMatches ++ [m]
                        else s.allMatches }
      | [] =>
        if s.matchPipeOpen ⟨k, h⟩ then none else some { s with parent := .readingMatches (k + 1) }
    else some { s with parent := .waiting 0 }
  | .waiting k =>
    if h : k < n then
      if s.workers ⟨k, h⟩ = .exited then some { s with parent := .waiting (k + 1) } else none
    else some { s with parent := .done }
  | .done => none

def step (cap : Capacities) (jobs : Fin n → Job) (s : Collect n) : Act n → Option (Collect n)
  | .parent => parentStep s
  | .worker i => workerStep cap jobs s i

/-- The parent and its `n` workers, from before the first `fork`. -/
def collect (cap : Capacities) (jobs : Fin n → Job) : Machine (Collect n) (Act n) where
  init :=
    { parent := .forking 0
      workers := fun _ => .unborn
      pipes := fun _ => []
      matchPipes := fun _ => []
      workerMatches := fun _ => 0
      workerFiles := fun _ => 0
      allMatches := [] }
  step := step cap jobs

/-! ## The moves -/

/-- The moves of worker `i`. -/
inductive WorkerMove (cap : Capacities) (jobs : Fin n → Job) (s : Collect n) (i : Fin n) :
    Collect n → Prop
  | closeOthers (hpc : s.workers i = .forked) :
      WorkerMove cap jobs s i
        { s with workers := Function.update s.workers i (.writing (jobs i).written) }
  | writeMatch (m : Match) (rest : List Match) (hpc : s.workers i = .writing (m :: rest))
      (hroom : (s.matchPipes i).length < cap.matchPipe) :
      WorkerMove cap jobs s i { s with
        workers := Function.update s.workers i (.writing rest)
        matchPipes := Function.update s.matchPipes i (s.matchPipes i ++ [m]) }
  | closeMatches (hpc : s.workers i = .writing []) :
      WorkerMove cap jobs s i { s with workers := Function.update s.workers i .reporting }
  | writeResults (hpc : s.workers i = .reporting) (hroom : (s.pipes i).length < cap.resultPipe) :
      WorkerMove cap jobs s i { s with
        workers := Function.update s.workers i .exited
        pipes := Function.update s.pipes i
          (s.pipes i ++ [((jobs i).matchCount, (jobs i).filesScanned)]) }

/-- The moves of the parent. -/
inductive ParentMove (s : Collect n) : Collect n → Prop
  | fork (k : ℕ) (hk : k < n) (hpc : s.parent = .forking k) :
      ParentMove s { s with
        parent := .forking (k + 1)
        workers := Function.update s.workers ⟨k, hk⟩ .forked }
  | forked (k : ℕ) (hk : n ≤ k) (hpc : s.parent = .forking k) :
      ParentMove s { s with parent := .readingResults 0 }
  | readResults (k : ℕ) (hk : k < n) (r : ℕ × ℕ) (rest : List (ℕ × ℕ))
      (hpc : s.parent = .readingResults k) (hr : s.pipes ⟨k, hk⟩ = r :: rest) :
      ParentMove s { s with
        parent := .readingResults (k + 1)
        pipes := Function.update s.pipes ⟨k, hk⟩ rest
        workerMatches := Function.update s.workerMatches ⟨k, hk⟩ r.1
        workerFiles := Function.update s.workerFiles ⟨k, hk⟩ r.2 }
  | endOfResults (k : ℕ) (hk : k < n) (hpc : s.parent = .readingResults k)
      (hr : s.pipes ⟨k, hk⟩ = []) (hopen : s.resultPipeOpen ⟨k, hk⟩ = false) :
      ParentMove s { s with
        parent := .readingResults (k + 1)
        workerMatches := Function.update s.workerMatches ⟨k, hk⟩ 0
        workerFiles := Function.update s.workerFiles ⟨k, hk⟩ 0 }
  | resultsRead (k : ℕ) (hk : n ≤ k) (hpc : s.parent = .readingResults k) :
      ParentMove s { s with parent := .readingMatches 0 }
  | readMatch (k : ℕ) (hk : k < n) (m : Match) (rest : List Match)
      (hpc : s.parent = .readingMatches k) (hm : s.matchPipes ⟨k, hk⟩ = m :: rest) :
      ParentMove s { s with
        matchPipes := Function.update s.matchPipes ⟨k, hk⟩ rest
        allMatches := if s.allMatches.length < maxMatches then s.allMatches ++ [m]
                      else s.allMatches }
  | endOfMatches (k : ℕ) (hk : k < n) (hpc : s.parent = .readingMatches k)
      (hm : s.matchPipes ⟨k, hk⟩ = []) (hopen : s.matchPipeOpen ⟨k, hk⟩ = false) :
      ParentMove s { s with parent := .readingMatches (k + 1) }
  | matchesRead (k : ℕ) (hk : n ≤ k) (hpc : s.parent = .readingMatches k) :
      ParentMove s { s with parent := .waiting 0 }
  | reap (k : ℕ) (hk : k < n) (hpc : s.parent = .waiting k) (hw : s.workers ⟨k, hk⟩ = .exited) :
      ParentMove s { s with parent := .waiting (k + 1) }
  | reaped (k : ℕ) (hk : n ≤ k) (hpc : s.parent = .waiting k) :
      ParentMove s { s with parent := .done }

theorem workerMove_of_step {cap : Capacities} {jobs : Fin n → Job} {s s' : Collect n} {i : Fin n}
    (h : workerStep cap jobs s i = some s') : WorkerMove cap jobs s i s' := by
  unfold workerStep at h
  split at h
  · cases h
  · rename_i hpc
    obtain rfl := Option.some.inj h
    exact .closeOthers hpc
  · rename_i m rest hpc
    split at h
    · rename_i hroom
      obtain rfl := Option.some.inj h
      exact .writeMatch m rest hpc hroom
    · cases h
  · rename_i hpc
    obtain rfl := Option.some.inj h
    exact .closeMatches hpc
  · rename_i hpc
    split at h
    · rename_i hroom
      obtain rfl := Option.some.inj h
      exact .writeResults hpc hroom
    · cases h
  · cases h

theorem parentMove_of_step {s s' : Collect n} (h : parentStep s = some s') : ParentMove s s' := by
  unfold parentStep at h
  split at h
  · rename_i k hpc
    split at h <;> rename_i hk <;> obtain rfl := Option.some.inj h
    · exact .fork k hk hpc
    · exact .forked k (not_lt.mp hk) hpc
  · rename_i k hpc
    split at h <;> rename_i hk
    · split at h
      · rename_i r rest hr
        obtain rfl := Option.some.inj h
        exact .readResults k hk r rest hpc hr
      · rename_i hr
        split at h <;> rename_i hopen
        · cases h
        · obtain rfl := Option.some.inj h
          exact .endOfResults k hk hpc hr (Bool.not_eq_true _ ▸ hopen)
    · obtain rfl := Option.some.inj h
      exact .resultsRead k (not_lt.mp hk) hpc
  · rename_i k hpc
    split at h <;> rename_i hk
    · split at h
      · rename_i m rest hm
        obtain rfl := Option.some.inj h
        exact .readMatch k hk m rest hpc hm
      · rename_i hm
        split at h <;> rename_i hopen
        · cases h
        · obtain rfl := Option.some.inj h
          exact .endOfMatches k hk hpc hm (Bool.not_eq_true _ ▸ hopen)
    · obtain rfl := Option.some.inj h
      exact .matchesRead k (not_lt.mp hk) hpc
  · rename_i k hpc
    split at h <;> rename_i hk
    · split at h
      · rename_i hw
        obtain rfl := Option.some.inj h
        exact .reap k hk hpc hw
      · cases h
    · obtain rfl := Option.some.inj h
      exact .reaped k (not_lt.mp hk) hpc
  · cases h

/-! ## How far the parent is with a worker -/

/-- How far the parent has got with one worker. -/
inductive Stage
  | unforked
  | awaited
  | reported
  | collected
  deriving DecidableEq, Repr

def ParentPc.stage : ParentPc → ℕ → Stage
  | .forking k, i => if i < k then .awaited else .unforked
  | .readingResults k, i => if i < k then .reported else .awaited
  | .readingMatches k, i => if i < k then .collected else .reported
  | .waiting _, _ => .collected
  | .done, _ => .collected

/-- One worker as the machine sees it: the parent's progress with it, its position, its two pipes
and what the parent has stored of its results. -/
structure Slot where
  stage : Stage
  worker : WorkerPc
  pipe : List (ℕ × ℕ)
  matchPipe : List Match
  stored : ℕ × ℕ

def Collect.slot (s : Collect n) (i : Fin n) : Slot where
  stage := s.parent.stage i
  worker := s.workers i
  pipe := s.pipes i
  matchPipe := s.matchPipes i
  stored := (s.workerMatches i, s.workerFiles i)

/-- The two integers a worker reports. -/
def Job.results (job : Job) : ℕ × ℕ := (job.matchCount, job.filesScanned)

/-- What can be of one worker. Its match pipe is not read before its results are, so a worker whose
results the parent has read had room for all its matches in its pipe. -/
def SlotOk (cap : Capacities) (job : Job) (c : Slot) : Prop :=
  match c.stage, c.worker with
  | .unforked, .unborn => c.pipe = [] ∧ c.matchPipe = []
  | .awaited, .forked => c.pipe = [] ∧ c.matchPipe = []
  | .awaited, .writing rest =>
    c.pipe = [] ∧ c.matchPipe ++ rest = job.written ∧ c.matchPipe.length ≤ cap.matchPipe
  | .awaited, .reporting =>
    c.pipe = [] ∧ c.matchPipe = job.written ∧ job.written.length ≤ cap.matchPipe
  | .awaited, .exited =>
    c.pipe = [job.results] ∧ c.matchPipe = job.written ∧ job.written.length ≤ cap.matchPipe
  | .reported, .exited =>
    c.pipe = [] ∧ c.stored = job.results ∧ job.written.length ≤ cap.matchPipe
  | .collected, .exited =>
    c.matchPipe = [] ∧ c.stored = job.results ∧ job.written.length ≤ cap.matchPipe
  | _, _ => False

def SlotsOk (cap : Capacities) (jobs : Fin n → Job) (s : Collect n) : Prop :=
  ∀ i, SlotOk cap (jobs i) (s.slot i)

variable {cap : Capacities} {jobs : Fin n → Job}

/-- A step that concerns worker `i` alone. -/
theorem SlotsOk.of_slot {s s' : Collect n} {i : Fin n} (h : SlotsOk cap jobs s)
    (hother : ∀ j, j ≠ i → s'.slot j = s.slot j) (hi : SlotOk cap (jobs i) (s'.slot i)) :
    SlotsOk cap jobs s' := by
  intro j
  by_cases hji : j = i
  · rw [hji]
    exact hi
  · rw [hother j hji]
    exact h j

theorem SlotOk.of_forked {job : Job} {c : Slot} (h : SlotOk cap job c)
    (hw : c.worker = .forked) : c.stage = .awaited ∧ c.pipe = [] ∧ c.matchPipe = [] := by
  unfold SlotOk at h
  split at h <;> simp_all

theorem SlotOk.of_writing {job : Job} {c : Slot} {rest : List Match} (h : SlotOk cap job c)
    (hw : c.worker = .writing rest) : c.stage = .awaited ∧ c.pipe = [] ∧
      c.matchPipe ++ rest = job.written ∧ c.matchPipe.length ≤ cap.matchPipe := by
  unfold SlotOk at h
  split at h <;> simp_all

theorem SlotOk.of_reporting {job : Job} {c : Slot} (h : SlotOk cap job c)
    (hw : c.worker = .reporting) : c.stage = .awaited ∧ c.pipe = [] ∧
      c.matchPipe = job.written ∧ job.written.length ≤ cap.matchPipe := by
  unfold SlotOk at h
  split at h <;> simp_all

theorem SlotOk.of_unforked {job : Job} {c : Slot} (h : SlotOk cap job c)
    (hst : c.stage = .unforked) : c.worker = .unborn ∧ c.pipe = [] ∧ c.matchPipe = [] := by
  unfold SlotOk at h
  split at h <;> simp_all

theorem SlotOk.of_awaited {job : Job} {c : Slot} (h : SlotOk cap job c) (hst : c.stage = .awaited) :
    c.worker ≠ .unborn ∧ (c.pipe = [] ∧ c.worker ≠ .exited ∨
      c.worker = .exited ∧ c.pipe = [job.results] ∧ c.matchPipe = job.written ∧
        job.written.length ≤ cap.matchPipe) := by
  unfold SlotOk at h
  split at h <;> simp_all

theorem SlotOk.of_reported {job : Job} {c : Slot} (h : SlotOk cap job c)
    (hst : c.stage = .reported) : c.worker = .exited ∧ c.pipe = [] ∧ c.stored = job.results ∧
      job.written.length ≤ cap.matchPipe := by
  unfold SlotOk at h
  split at h <;> simp_all

theorem SlotOk.of_collected {job : Job} {c : Slot} (h : SlotOk cap job c)
    (hst : c.stage = .collected) : c.worker = .exited ∧ c.matchPipe = [] ∧
      c.stored = job.results ∧ job.written.length ≤ cap.matchPipe := by
  unfold SlotOk at h
  split at h <;> simp_all

theorem slotsOk_workerStep {s s' : Collect n} {i : Fin n} (h : SlotsOk cap jobs s)
    (hs : workerStep cap jobs s i = some s') : SlotsOk cap jobs s' := by
  cases workerMove_of_step hs with
  | closeOthers hpc =>
    obtain ⟨hst, hp, hm⟩ := (h i).of_forked hpc
    refine h.of_slot (i := i) (fun j hj => by simp [Collect.slot, hj]) ?_
    simp only [Collect.slot] at hst hp hm
    simp [SlotOk, Collect.slot, hst, hp, hm]
  | writeMatch m rest hpc hroom =>
    obtain ⟨hst, hp, hm, -⟩ := (h i).of_writing hpc
    refine h.of_slot (i := i) (fun j hj => by simp [Collect.slot, hj]) ?_
    simp only [Collect.slot] at hst hp hm
    simp only [SlotOk, Collect.slot, hst, Function.update_self, hp, true_and]
    exact ⟨by rw [List.append_assoc]; exact hm, by simpa using Nat.succ_le_of_lt hroom⟩
  | closeMatches hpc =>
    obtain ⟨hst, hp, hm, hlen⟩ := (h i).of_writing hpc
    refine h.of_slot (i := i) (fun j hj => by simp [Collect.slot, hj]) ?_
    rw [List.append_nil] at hm
    simp only [Collect.slot] at hst hp hm hlen
    simp [SlotOk, Collect.slot, hst, hp, hm, hm ▸ hlen]
  | writeResults hpc hroom =>
    obtain ⟨hst, hp, hm, hlen⟩ := (h i).of_reporting hpc
    refine h.of_slot (i := i) (fun j hj => by simp [Collect.slot, hj]) ?_
    simp only [Collect.slot] at hst hp hm
    simp [SlotOk, Collect.slot, hst, hp, hm, hlen, Job.results]

/-- The parent moves on to the next worker: no other worker's stage changes. -/
theorem stage_forking {k j : ℕ} (h : j ≠ k) :
    (ParentPc.forking (k + 1)).stage j = (ParentPc.forking k).stage j := by
  simp only [ParentPc.stage, show j < k + 1 ↔ j < k by omega]

theorem stage_readingResults {k j : ℕ} (h : j ≠ k) :
    (ParentPc.readingResults (k + 1)).stage j = (ParentPc.readingResults k).stage j := by
  simp only [ParentPc.stage, show j < k + 1 ↔ j < k by omega]

theorem stage_readingMatches {k j : ℕ} (h : j ≠ k) :
    (ParentPc.readingMatches (k + 1)).stage j = (ParentPc.readingMatches k).stage j := by
  simp only [ParentPc.stage, show j < k + 1 ↔ j < k by omega]

/-- The parent moves on to its next loop: every worker's stage is the one the last loop left. -/
theorem SlotsOk.of_parent {s : Collect n} {pc : ParentPc} (h : SlotsOk cap jobs s)
    (hst : ∀ i : Fin n, pc.stage i = s.parent.stage i) :
    SlotsOk cap jobs { s with parent := pc } := by
  intro i
  have := h i
  unfold Collect.slot at this ⊢
  rw [hst i]
  exact this

/-- No results pipe reads as end-of-file before its worker has written. -/
theorem resultPipeOpen_of_awaited {s : Collect n} {i : Fin n} (h : SlotOk cap (jobs i) (s.slot i))
    (hst : s.parent.stage i = .awaited) (hp : s.pipes i = []) : s.resultPipeOpen i = true := by
  unfold Collect.resultPipeOpen
  rw [Bool.or_eq_true, decide_eq_true_eq]
  right
  refine ⟨i, ?_⟩
  rcases h.of_awaited hst with ⟨hu, ⟨-, he⟩ | ⟨-, he, -⟩⟩
  · simp only [Collect.slot] at hu he
    cases hpc : s.workers i with
    | unborn => exact absurd hpc hu
    | forked => simp [WorkerPc.holdsResultEnd]
    | writing rest => simp [WorkerPc.holdsResultEnd]
    | reporting => simp [WorkerPc.holdsResultEnd]
    | exited => exact absurd hpc he
  · simp [Collect.slot, hp] at he

theorem slotsOk_parentStep {s s' : Collect n} (h : SlotsOk cap jobs s)
    (hs : parentStep s = some s') : SlotsOk cap jobs s' := by
  cases parentMove_of_step hs with
  | fork k hk hpc =>
    have hst : s.parent.stage k = .unforked := by simp [hpc, ParentPc.stage]
    obtain ⟨-, hp, hm⟩ := (h ⟨k, hk⟩).of_unforked hst
    refine h.of_slot (i := ⟨k, hk⟩) (fun j hj => ?_) ?_
    · simp only [Collect.slot, hpc, stage_forking (Fin.val_ne_of_ne hj), Function.update_of_ne hj]
    · simp only [Collect.slot] at hp hm
      simp [SlotOk, Collect.slot, ParentPc.stage, hp, hm]
  | forked k hk hpc =>
    exact h.of_parent fun i => by simp [hpc, ParentPc.stage, show (i : ℕ) < k by omega]
  | readResults k hk r rest hpc hr =>
    have hst : s.parent.stage k = .awaited := by simp [hpc, ParentPc.stage]
    rcases (h ⟨k, hk⟩).of_awaited hst with ⟨-, ⟨hp, -⟩ | ⟨hw, hp, hm, hlen⟩⟩
    · simp [Collect.slot, hr] at hp
    · refine h.of_slot (i := ⟨k, hk⟩) (fun j hj => ?_) ?_
      · simp only [Collect.slot, hpc, stage_readingResults (Fin.val_ne_of_ne hj),
          Function.update_of_ne hj]
      · simp only [Collect.slot, hr, List.cons.injEq] at hw hp
        simp [SlotOk, Collect.slot, ParentPc.stage, hw, hp, hlen]
  | endOfResults k hk hpc hr hopen =>
    have hst : s.parent.stage k = .awaited := by simp [hpc, ParentPc.stage]
    rw [resultPipeOpen_of_awaited (h ⟨k, hk⟩) hst hr] at hopen
    cases hopen
  | resultsRead k hk hpc =>
    exact h.of_parent fun i => by simp [hpc, ParentPc.stage, show (i : ℕ) < k by omega]
  | readMatch k hk m rest hpc hm =>
    have hst : s.parent.stage k = .reported := by simp [hpc, ParentPc.stage]
    obtain ⟨hw, hp, hres, hlen⟩ := (h ⟨k, hk⟩).of_reported hst
    simp only [Collect.slot] at hw hp hres
    refine h.of_slot (i := ⟨k, hk⟩) (fun j hj => ?_) ?_
    · simp only [Collect.slot, Function.update_of_ne hj]
    · simp [SlotOk, Collect.slot, hst, hw, hp, hres, hlen]
  | endOfMatches k hk hpc hm hopen =>
    have hst : s.parent.stage k = .reported := by simp [hpc, ParentPc.stage]
    obtain ⟨hw, hp, hres, hlen⟩ := (h ⟨k, hk⟩).of_reported hst
    simp only [Collect.slot] at hw hres
    refine h.of_slot (i := ⟨k, hk⟩) (fun j hj => ?_) ?_
    · simp only [Collect.slot, hpc, stage_readingMatches (Fin.val_ne_of_ne hj)]
    · simp [SlotOk, Collect.slot, ParentPc.stage, hm, hw, hres, hlen]
  | matchesRead k hk hpc =>
    exact h.of_parent fun i => by simp [hpc, ParentPc.stage, show (i : ℕ) < k by omega]
  | reap k hk hpc hw => exact h.of_parent fun i => by simp [hpc, ParentPc.stage]
  | reaped k hk hpc => exact h.of_parent fun i => by simp [hpc, ParentPc.stage]

/-- **Every step leaves every worker where the parent's progress says.** -/
theorem slotsOk_step {s s' : Collect n} {a : Act n} (h : SlotsOk cap jobs s)
    (hs : step cap jobs s a = some s') : SlotsOk cap jobs s' := by
  cases a with
  | parent => exact slotsOk_parentStep h hs
  | worker i => exact slotsOk_workerStep h hs

theorem slotsOk_init : SlotsOk cap jobs (collect cap jobs).init := fun _ => ⟨rfl, rfl⟩

theorem slotsOk_reachable {s : Collect n} (h : (collect cap jobs).Reachable s) :
    SlotsOk cap jobs s :=
  h.induct slotsOk_init fun _ _ _ => slotsOk_step

end Cse344.HW2
