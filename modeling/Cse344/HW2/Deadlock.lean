import Cse344.HW2.Collect

/-!
# When the collection protocol deadlocks

`parent_process` (`HW2/src/processes.c` 8-27) reads every results pipe before any match pipe, and a
worker writes all its matches before its results. A worker with more matches than its match pipe
holds therefore waits for the parent, which waits for its results.

* `DeadlockFree` says that every run ends, and where no process can move all have exited (`Final`).
* `Fits` is the condition: the matches of every worker fit in its match pipe.

Results:
* `progress`: when they fit, some process can move in every reachable state that is not final.
* `work_step`: the steps that are left, at most, drop at every step, so that every run ends
  (`collect_terminates`); and where it ends in the final state every worker's results have been
  read, whose matches then fit.
* **`deadlockFree_iff`**: the protocol is deadlock free exactly when every worker's matches fit in
  its match pipe.

Out of scope: what a pipe of the kernel holds in bytes; a capacity is a number of records.
-/

namespace Cse344.HW2

open Cse344.Lib

variable {n : ℕ} {cap : Capacities} {jobs : Fin n → Job}

/-- The parent has returned and every worker has exited. -/
def Final (s : Collect n) : Prop := s.parent = .done ∧ ∀ i, s.workers i = .exited

/-- In every reachable state that is not final some process can take a step. -/
def DeadlockFree (cap : Capacities) (jobs : Fin n → Job) : Prop :=
  ∀ s, (collect cap jobs).Reachable s → ¬ Final s → ∃ a s', (collect cap jobs).step s a = some s'

/-- Every worker's matches fit in its match pipe. -/
def Fits (cap : Capacities) (jobs : Fin n → Job) : Prop :=
  ∀ i, (jobs i).written.length ≤ cap.matchPipe

/-! ## Progress -/

/-- A worker that the parent awaits can move when its matches fit in its pipe. -/
theorem worker_progress (hfit : Fits cap jobs) {s : Collect n} (h : SlotsOk cap jobs s) {i : Fin n}
    (hu : s.workers i ≠ .unborn) (he : s.workers i ≠ .exited) :
    ∃ s', workerStep cap jobs s i = some s' := by
  unfold workerStep
  cases hpc : s.workers i with
  | unborn => exact absurd hpc hu
  | forked => exact ⟨_, rfl⟩
  | writing rest =>
    cases rest with
    | nil => exact ⟨_, rfl⟩
    | cons m rest =>
      obtain ⟨-, -, hw, -⟩ := (h i).of_writing hpc
      have hroom : (s.matchPipes i).length < cap.matchPipe := by
        have hlen := congrArg List.length hw
        rw [List.length_append, List.length_cons] at hlen
        have := hfit i
        simp only [Collect.slot] at hlen
        omega
      exact ⟨_, if_pos hroom⟩
  | reporting =>
    obtain ⟨-, hp, -⟩ := (h i).of_reporting hpc
    have hroom : (s.pipes i).length < cap.resultPipe := by
      rw [show s.pipes i = [] from hp]
      exact cap.resultPipe_pos
    exact ⟨_, if_pos hroom⟩
  | exited => exact absurd hpc he

/-- Once every worker has exited, its match pipe reads as end-of-file when it is empty. -/
theorem matchPipeOpen_of_exited {s : Collect n} {k : ℕ} (hpc : s.parent = .readingMatches k)
    (he : ∀ i, s.workers i = .exited) (i : Fin n) : s.matchPipeOpen i = false := by
  simp [Collect.matchPipeOpen, hpc, ParentPc.holdsEnds, he, WorkerPc.holdsMatchEnd]

/-- The parent can move once every worker has exited. -/
theorem parent_progress {s : Collect n} (h : SlotsOk cap jobs s) (he : ∀ i, s.workers i = .exited)
    (hd : s.parent ≠ .done) : ∃ s', parentStep s = some s' := by
  unfold parentStep
  cases hpc : s.parent with
  | forking k =>
    dsimp only
    split <;> exact ⟨_, rfl⟩
  | readingResults k =>
    dsimp only
    split
    · rename_i hk
      have hst : s.parent.stage k = .awaited := by simp [hpc, ParentPc.stage]
      rcases (h ⟨k, hk⟩).of_awaited hst with ⟨-, ⟨-, hne⟩ | ⟨-, hp, -⟩⟩
      · exact absurd (he ⟨k, hk⟩) hne
      · rw [show s.pipes ⟨k, hk⟩ = _ from hp]
        exact ⟨_, rfl⟩
    · exact ⟨_, rfl⟩
  | readingMatches k =>
    dsimp only
    split
    · rename_i hk
      rw [matchPipeOpen_of_exited hpc he ⟨k, hk⟩]
      cases s.matchPipes ⟨k, hk⟩ with
      | nil => exact ⟨_, rfl⟩
      | cons m rest => exact ⟨_, rfl⟩
    · exact ⟨_, rfl⟩
  | waiting k =>
    dsimp only
    split
    · rename_i hk
      rw [if_pos (he ⟨k, hk⟩)]
      exact ⟨_, rfl⟩
    · exact ⟨_, rfl⟩
  | done => exact absurd hpc hd

/-- The parent can fork, or go on, while it is in its fork loop. -/
theorem forking_progress {s : Collect n} {k : ℕ} (hpc : s.parent = .forking k) :
    ∃ s', parentStep s = some s' := by
  unfold parentStep
  rw [hpc]
  dsimp only
  split <;> exact ⟨_, rfl⟩

/-- A worker is unborn only while the parent is in its fork loop. -/
theorem forking_of_unborn {s : Collect n} (h : SlotsOk cap jobs s) {i : Fin n}
    (hu : s.workers i = .unborn) : ∃ k, s.parent = .forking k := by
  have hi := h i
  unfold SlotOk at hi
  have hw : (s.slot i).worker = .unborn := hu
  have hst : (s.slot i).stage = .unforked := by
    rw [hw] at hi
    split at hi <;> simp_all
  cases hpc : s.parent with
  | forking k => exact ⟨k, rfl⟩
  | readingResults k =>
    simp only [Collect.slot, hpc, ParentPc.stage] at hst
    split at hst <;> cases hst
  | readingMatches k =>
    simp only [Collect.slot, hpc, ParentPc.stage] at hst
    split at hst <;> cases hst
  | waiting k => simp [Collect.slot, hpc, ParentPc.stage] at hst
  | done => simp [Collect.slot, hpc, ParentPc.stage] at hst

/-- The parent returns only after every worker has exited with matches that fit. -/
theorem exited_of_done {s : Collect n} (h : SlotsOk cap jobs s) (hd : s.parent = .done)
    (i : Fin n) :
    s.workers i = .exited ∧ (jobs i).written.length ≤ cap.matchPipe := by
  obtain ⟨hw, -, -, hlen⟩ := (h i).of_collected (by simp [Collect.slot, hd, ParentPc.stage])
  exact ⟨hw, hlen⟩

theorem progress (hfit : Fits cap jobs) {s : Collect n} (h : SlotsOk cap jobs s)
    (hf : ¬ Final s) : ∃ a s', step cap jobs s a = some s' := by
  by_cases hall : ∀ i, s.workers i = .exited
  · obtain ⟨s', hs⟩ := parent_progress h hall fun hd => hf ⟨hd, hall⟩
    exact ⟨.parent, s', hs⟩
  · obtain ⟨i, he⟩ := not_forall.mp hall
    by_cases hu : s.workers i = .unborn
    · obtain ⟨k, hk⟩ := forking_of_unborn h hu
      obtain ⟨s', hs⟩ := forking_progress hk
      exact ⟨.parent, s', hs⟩
    · obtain ⟨s', hs⟩ := worker_progress hfit h hu he
      exact ⟨.worker i, s', hs⟩

/-! ## Every run ends -/

/-- The steps a worker has left. -/
def WorkerPc.left (job : Job) : WorkerPc → ℕ
  | .unborn => 2 * job.written.length + 5
  | .forked => 2 * job.written.length + 4
  | .writing rest => 2 * rest.length + 3
  | .reporting => 2
  | .exited => 0

/-- The parent's loops yet to run, and the workers left in this one. -/
def ParentPc.left (n : ℕ) : ParentPc → ℕ
  | .forking k => 4 * (n + 1) + (n - k)
  | .readingResults k => 3 * (n + 1) + (n - k)
  | .readingMatches k => 2 * (n + 1) + (n - k)
  | .waiting k => (n + 1) + (n - k)
  | .done => 0

/-- What is left to do: a record counts twice while it is to be written, and once while it is in
the pipe. -/
def work (jobs : Fin n → Job) (s : Collect n) : ℕ :=
  s.parent.left n + ∑ i, (s.workers i).left (jobs i) + ∑ i, (s.matchPipes i).length

theorem work_workerStep {s s' : Collect n} {i : Fin n} (hs : workerStep cap jobs s i = some s') :
    work jobs s' < work jobs s := by
  have hw := fun w => sum_update_add' (fun j => WorkerPc.left (jobs j)) s.workers i w
  have hm := fun ms => sum_update_add List.length s.matchPipes i ms
  unfold work
  cases workerMove_of_step hs with
  | closeOthers hpc =>
    have := hw (.writing (jobs i).written)
    simp only [hpc, WorkerPc.left] at this ⊢
    omega
  | writeMatch m rest hpc hroom =>
    have := hw (.writing rest)
    have := hm (s.matchPipes i ++ [m])
    simp only [hpc, WorkerPc.left, List.length_cons, List.length_append, List.length_nil] at *
    omega
  | closeMatches hpc =>
    have := hw .reporting
    simp only [hpc, WorkerPc.left, List.length_nil] at this ⊢
    omega
  | writeResults hpc hroom =>
    have := hw .exited
    simp only [hpc, WorkerPc.left] at this ⊢
    omega

/-- A move of the parent that leaves the workers and the match pipes alone. -/
theorem work_lt_of_parent {s s' : Collect n} (hw : s'.workers = s.workers)
    (hm : s'.matchPipes = s.matchPipes) (hp : s'.parent.left n < s.parent.left n) :
    work jobs s' < work jobs s := by
  unfold work
  rw [hw, hm]
  omega

theorem work_parentStep {s s' : Collect n} (h : SlotsOk cap jobs s)
    (hs : parentStep s = some s') : work jobs s' < work jobs s := by
  cases parentMove_of_step hs with
  | fork k hk hpc =>
    have hst : s.parent.stage k = .unforked := by simp [hpc, ParentPc.stage]
    obtain ⟨hu, -, -⟩ := (h ⟨k, hk⟩).of_unforked hst
    have := sum_update_add' (fun j => WorkerPc.left (jobs j)) s.workers ⟨k, hk⟩ .forked
    simp only [work, show s.workers ⟨k, hk⟩ = .unborn from hu, hpc, WorkerPc.left,
      ParentPc.left] at this ⊢
    omega
  | forked k hk hpc => exact work_lt_of_parent rfl rfl (by simp only [hpc, ParentPc.left]; omega)
  | readResults k hk r rest hpc hr =>
    exact work_lt_of_parent rfl rfl (by simp only [hpc, ParentPc.left]; omega)
  | endOfResults k hk hpc hr hopen =>
    exact work_lt_of_parent rfl rfl (by simp only [hpc, ParentPc.left]; omega)
  | resultsRead k hk hpc =>
    exact work_lt_of_parent rfl rfl (by simp only [hpc, ParentPc.left]; omega)
  | readMatch k hk m rest hpc hm =>
    have := sum_update_add List.length s.matchPipes ⟨k, hk⟩ rest
    rw [hm, List.length_cons] at this
    simp only [work]
    omega
  | endOfMatches k hk hpc hm hopen =>
    exact work_lt_of_parent rfl rfl (by simp only [hpc, ParentPc.left]; omega)
  | matchesRead k hk hpc =>
    exact work_lt_of_parent rfl rfl (by simp only [hpc, ParentPc.left]; omega)
  | reap k hk hpc hw => exact work_lt_of_parent rfl rfl (by simp only [hpc, ParentPc.left]; omega)
  | reaped k hk hpc => exact work_lt_of_parent rfl rfl (by simp only [hpc, ParentPc.left]; omega)

theorem work_step {s s' : Collect n} {a : Act n} (h : SlotsOk cap jobs s)
    (hs : step cap jobs s a = some s') : work jobs s' < work jobs s := by
  cases a with
  | parent => exact work_parentStep h hs
  | worker i => exact work_workerStep hs

theorem collect_terminates (cap : Capacities) (jobs : Fin n → Job) :
    (collect cap jobs).Terminates :=
  Machine.terminates_of_measure (work jobs) slotsOk_init fun _ _ _ (h : SlotsOk cap jobs _) hs =>
    ⟨slotsOk_step h hs, work_step h hs⟩

/-- Some run reaches a state where no process can move. -/
theorem exists_stuck (cap : Capacities) (jobs : Fin n → Job) :
    ∃ t, (collect cap jobs).Reachable t ∧ (collect cap jobs).Stuck t :=
  Machine.exists_stuck (work jobs) (fun _ _ _ (h : SlotsOk cap jobs _) hs =>
    ⟨slotsOk_step h hs, work_step h hs⟩) slotsOk_init

/-- **The protocol is deadlock free exactly when every worker's matches fit in its match pipe.** -/
theorem deadlockFree_iff (cap : Capacities) (jobs : Fin n → Job) :
    DeadlockFree cap jobs ↔ Fits cap jobs := by
  constructor
  · intro hfree i
    obtain ⟨t, ht, hstuck⟩ := exists_stuck cap jobs
    have hfinal : Final t := by
      by_contra hf
      obtain ⟨a, s', hs⟩ := hfree t ht hf
      rw [hstuck a] at hs
      cases hs
    exact (exited_of_done (slotsOk_reachable ht) hfinal.1 i).2
  · intro hfit s hs hf
    exact progress hfit (slotsOk_reachable hs) hf

/-- One worker with two matches, and pipes of one record. -/
def oneRecordPipes : Capacities where
  resultPipe := 1
  matchPipe := 1
  resultPipe_pos := Nat.one_pos
  matchPipe_pos := Nat.one_pos

def twoMatches : Fin 1 → Job := fun _ =>
  { written := [⟨cstr "r/d/a", 2, 0⟩, ⟨cstr "r/d/b", 2, 0⟩], matchCount := 2, filesScanned := 2 }

/-- The worker writes its first match and waits for room; the parent waits for its results. -/
theorem not_deadlockFree_twoMatches : ¬ DeadlockFree oneRecordPipes twoMatches := by
  have hrun : ((collect oneRecordPipes twoMatches).runs (collect oneRecordPipes twoMatches).init
      [.parent, .parent, .worker 0, .worker 0]).map (fun s =>
        (s.parent, decide ((parentStep s).isNone ∧
          ∀ i, (workerStep oneRecordPipes twoMatches s i).isNone))) =
      some (.readingResults 0, true) := by decide +kernel
  obtain ⟨s, hs, he⟩ := Option.map_eq_some_iff.mp hrun
  rw [Prod.mk.injEq, decide_eq_true_eq] at he
  obtain ⟨hm, hp, hw⟩ := he
  intro hfree
  have hnf : ¬ Final s := by
    rintro ⟨hd, -⟩
    rw [hm] at hd
    cases hd
  obtain ⟨a, s', hstep⟩ := hfree s (Machine.runs_reachable hs) hnf
  cases a with
  | parent =>
    rw [show (collect oneRecordPipes twoMatches).step s .parent = parentStep s from rfl,
      Option.isNone_iff_eq_none.mp hp] at hstep
    cases hstep
  | worker i =>
    rw [show (collect oneRecordPipes twoMatches).step s (.worker i) =
      workerStep oneRecordPipes twoMatches s i from rfl,
      Option.isNone_iff_eq_none.mp (hw i)] at hstep
    cases hstep

end Cse344.HW2
