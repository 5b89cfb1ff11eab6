import Cse344.HW2.Deadlock
import Mathlib.Tactic.Abel

/-!
# What the parent prints

The totals of `print_summary` (`HW2/src/signal.c` 54-104) and the records `parent_process` has
collected, once it has returned.

* `Account` follows the match records: each is still to be written, in a match pipe, or collected,
  as long as `g_all_matches` has room for all of them (`maxMatches`).

Results:
* `account_reachable`: it holds in every reachable state.
* **`summary_of_done`**: when the parent has returned, the totals are those of the workers' jobs,
  and the collected matches are the written ones.

Out of scope: the order of the collected matches, and a `malloc` that fails.
-/

namespace Cse344.HW2

open Cse344.Lib

variable {n : ℕ} {cap : Capacities} {jobs : Fin n → Job}

/-- The figures of `print_summary`, and the matches `print_tree` is given. -/
structure Summary where
  totalMatches : ℕ
  totalFiles : ℕ
  collected : List Match

def Collect.summary (s : Collect n) : Summary where
  totalMatches := ∑ i, s.workerMatches i
  totalFiles := ∑ i, s.workerFiles i
  collected := s.allMatches

/-- The records a worker has still to write. -/
def WorkerPc.unwritten (job : Job) : WorkerPc → List Match
  | .unborn => job.written
  | .forked => job.written
  | .writing rest => rest
  | .reporting => []
  | .exited => []

/-- Every record is collected, in a pipe, or to be written. -/
def Account (jobs : Fin n → Job) (s : Collect n) : Prop :=
  (s.allMatches : Multiset Match) + ∑ i, (s.matchPipes i : Multiset Match) +
    ∑ i, ((s.workers i).unwritten (jobs i) : Multiset Match) =
      ∑ i, ((jobs i).written : Multiset Match)

/-- A worker moves: what it writes goes to its pipe. -/
theorem Account.of_worker {s s' : Collect n} {i : Fin n} {w : WorkerPc} {ms : List Match}
    (h : Account jobs s) (hall : s'.allMatches = s.allMatches)
    (hw : s'.workers = Function.update s.workers i w)
    (hm : s'.matchPipes = Function.update s.matchPipes i ms)
    (hshare : (ms : Multiset Match) + w.unwritten (jobs i) =
      s.matchPipes i + (s.workers i).unwritten (jobs i)) : Account jobs s' := by
  have h1 := sum_update_add' (fun j (w : WorkerPc) => (w.unwritten (jobs j) : Multiset Match))
    s.workers i w
  have h2 := sum_update_add (fun l : List Match => (l : Multiset Match)) s.matchPipes i ms
  unfold Account at h ⊢
  rw [hall, hw, hm]
  apply add_right_cancel (b := (s.matchPipes i : Multiset Match) + (s.workers i).unwritten (jobs i))
  calc _ = (s.allMatches : Multiset Match) +
        ((∑ j, (Function.update s.matchPipes i ms j : Multiset Match)) + s.matchPipes i) +
        ((∑ j, ((Function.update s.workers i w j).unwritten (jobs j) : Multiset Match)) +
          (s.workers i).unwritten (jobs i)) := by abel
    _ = ((s.allMatches : Multiset Match) + ∑ j, (s.matchPipes j : Multiset Match) +
        ∑ j, ((s.workers j).unwritten (jobs j) : Multiset Match)) +
        (ms + w.unwritten (jobs i)) := by rw [h1, h2]; abel
    _ = _ := by rw [h, hshare]

theorem account_workerStep {s s' : Collect n} {i : Fin n} (h : Account jobs s)
    (hs : workerStep cap jobs s i = some s') : Account jobs s' := by
  have hkeep : Function.update s.matchPipes i (s.matchPipes i) = s.matchPipes :=
    Function.update_eq_self i _
  cases workerMove_of_step hs with
  | closeOthers hpc =>
    exact h.of_worker rfl rfl hkeep.symm (by simp [hpc, WorkerPc.unwritten])
  | writeMatch m rest hpc hroom =>
    refine h.of_worker rfl rfl rfl ?_
    simp only [hpc, WorkerPc.unwritten, ← Multiset.coe_add, ← Multiset.cons_coe,
      ← Multiset.singleton_add, Multiset.coe_nil]
    abel
  | closeMatches hpc =>
    exact h.of_worker rfl rfl hkeep.symm (by simp [hpc, WorkerPc.unwritten])
  | writeResults hpc hroom =>
    exact h.of_worker rfl rfl hkeep.symm (by simp [hpc, WorkerPc.unwritten])

/-- There is room in `g_all_matches` while a record is in a pipe. -/
theorem Account.room {s : Collect n} {i : Fin n} {m : Match} {rest : List Match}
    (h : Account jobs s) (hmax : ∑ i, (jobs i).written.length ≤ maxMatches)
    (hm : s.matchPipes i = m :: rest) : s.allMatches.length < maxMatches := by
  have hcard := congrArg Multiset.card h
  simp only [Multiset.card_add, Multiset.card_sum, Multiset.coe_card] at hcard
  have hle := Finset.single_le_sum (f := fun j => (s.matchPipes j).length)
    (fun _ _ => Nat.zero_le _) (Finset.mem_univ i)
  simp only [hm, List.length_cons] at hle
  omega

theorem account_parentStep {s s' : Collect n} (hslots : SlotsOk cap jobs s) (h : Account jobs s)
    (hmax : ∑ i, (jobs i).written.length ≤ maxMatches) (hs : parentStep s = some s') :
    Account jobs s' := by
  cases parentMove_of_step hs with
  | fork k hk hpc =>
    have hst : s.parent.stage k = .unforked := by simp [hpc, ParentPc.stage]
    obtain ⟨hu, -, -⟩ := (hslots ⟨k, hk⟩).of_unforked hst
    refine h.of_worker (i := ⟨k, hk⟩) rfl rfl
      (Function.update_eq_self ⟨k, hk⟩ s.matchPipes).symm ?_
    rw [show s.workers ⟨k, hk⟩ = .unborn from hu]
    rfl
  | readMatch k hk m rest hpc hm =>
    have hsum := sum_update_add (fun l : List Match => (l : Multiset Match)) s.matchPipes ⟨k, hk⟩
      rest
    have hroom := h.room hmax hm
    unfold Account at h ⊢
    dsimp only
    rw [if_pos hroom, ← h, ← Multiset.coe_add]
    rw [hm, ← Multiset.cons_coe, ← Multiset.singleton_add] at hsum
    apply add_right_cancel (b := (rest : Multiset Match))
    calc _ = (s.allMatches : Multiset Match) +
          ((∑ j, (Function.update s.matchPipes ⟨k, hk⟩ rest j : Multiset Match)) +
            ({m} + (rest : Multiset Match))) +
          ∑ j, ((s.workers j).unwritten (jobs j) : Multiset Match) := by
            rw [Multiset.coe_singleton]; abel
      _ = _ := by rw [hsum]; abel
  | _ => exact h

theorem account_reachable (hmax : ∑ i, (jobs i).written.length ≤ maxMatches) {s : Collect n}
    (h : (collect cap jobs).Reachable s) : Account jobs s := by
  refine h.induct_reachable (by simp [Account, collect, WorkerPc.unwritten]) ?_
  intro s a s' hr hacc hs
  cases a with
  | parent => exact account_parentStep (slotsOk_reachable hr) hacc hmax hs
  | worker i => exact account_workerStep hacc hs

/-- **What the parent prints**: the totals of the jobs, and the records the workers wrote. -/
theorem summary_of_done (hmax : ∑ i, (jobs i).written.length ≤ maxMatches) {s : Collect n}
    (h : (collect cap jobs).Reachable s) (hd : s.parent = .done) :
    s.summary.totalMatches = ∑ i, (jobs i).matchCount ∧
      s.summary.totalFiles = ∑ i, (jobs i).filesScanned ∧
      (s.summary.collected : Multiset Match) = ∑ i, ((jobs i).written : Multiset Match) := by
  have hslot := fun i => (slotsOk_reachable h i).of_collected
    (by simp [Collect.slot, hd, ParentPc.stage])
  simp only [Collect.slot, Job.results, Prod.mk.injEq] at hslot
  have hmatches : s.workerMatches = fun i => (jobs i).matchCount :=
    funext fun i => (hslot i).2.2.1.1
  have hfiles : s.workerFiles = fun i => (jobs i).filesScanned :=
    funext fun i => (hslot i).2.2.1.2
  refine ⟨by rw [Collect.summary, hmatches], by rw [Collect.summary, hfiles], ?_⟩
  have hacc := account_reachable hmax h
  have hpipes : ∑ i, (s.matchPipes i : Multiset Match) = 0 :=
    Finset.sum_eq_zero fun i _ => by rw [(hslot i).2.1]; rfl
  have hleft : ∑ i, ((s.workers i).unwritten (jobs i) : Multiset Match) = 0 :=
    Finset.sum_eq_zero fun i _ => by rw [(hslot i).1]; rfl
  unfold Account at hacc
  rw [hpipes, hleft, add_zero, add_zero] at hacc
  exact hacc

end Cse344.HW2
