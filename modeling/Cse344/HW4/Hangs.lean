import Cse344.HW4.Broken

/-!
# The program of HW4 hangs

The workers of a level wait for each other at a barrier that counts all of them, the main thread of
`run_analyzer` (`HW4/src/processes/analyzer.c` 191-277) joins its workers whatever has failed, and
the parent waits for all its children (`HW4/src/main.c` 11-52), none of them with a timeout.

* `Waited` says that an analyzer that has returned, or has given up, has joined all the workers it
  had created.
* A worker that has come to its loop is `running` until its destructor has run, which is after the
  barrier.

Results:
* `waited_reachable`: it holds in every reachable state.
* **`broken_hangs`**: once a level has a worker missing and another one in its loop, that worker
  stays at the barrier, its analyzer never exits, and the parent never comes to its summary.

Out of scope: SIGINT, at which the parent kills the analyzer.
-/

namespace Cse344.HW4

open Cse344.Lib

variable {R W : ℕ} {u : RunSetup R W} {s s' : Run R W} {act : RunAct R W}

/-- The number of workers an analyzer that gives up has joined. -/
def AnalyzerPc.leftCount : AnalyzerPc → ℕ
  | .abandoning _ k => k
  | .gaveUp n => n
  | _ => 0

/-- The parent prints its summary after the analyzers, and an analyzer that gives up has joined the
workers it had created. -/
structure Waited (s : Run R W) : Prop where
  left : ∀ lv (w : Fin W), w < (s.analyzers lv).leftCount → (s.threads lv w).ended = true
  summarized : s.summary.isSome = true →
    ∀ lv, s.analyzers lv = .returned ∨ ∃ n, s.analyzers lv = .gaveUp n

theorem left_setThread (h : Waited s) {lv : Level} {w : Fin W} {pc : ThreadPc}
    (hw : (s.threads lv w).ended = true → pc.ended = true) (lv' : Level) (w' : Fin W)
    (hlt : w' < (s.analyzers lv').leftCount) :
    ((s.setThread lv w pc).threads lv' w').ended = true :=
  forall_setThread (P := fun lv' w' pc => w' < (s.analyzers lv').leftCount → pc.ended = true)
    (fun hlt => hw (h.left lv w hlt)) (fun lv' w' _ => h.left lv' w') lv' w' hlt

/-- The main thread of an analyzer that has not ended goes on. -/
theorem Waited.setAnalyzer (h : Waited s) {lv : Level} {pc : AnalyzerPc}
    (ht : s'.threads = s.threads) (ha : s'.analyzers = Function.update s.analyzers lv pc)
    (hsum : s'.summary = s.summary) (hret : s.analyzers lv ≠ .returned)
    (hgu : ∀ n, s.analyzers lv ≠ .gaveUp n)
    (hpc : ∀ w : Fin W, w < pc.leftCount → (s.threads lv w).ended = true) : Waited s' where
  left := fun lv' w hlt => by
    rw [ht]
    rw [ha] at hlt
    by_cases hlv : lv' = lv
    · subst hlv
      rw [Function.update_self] at hlt
      exact hpc w hlt
    · rw [Function.update_of_ne hlv] at hlt
      exact h.left lv' w hlt
  summarized := fun hsome => by
    rw [hsum] at hsome
    rcases h.summarized hsome lv with hr | ⟨n, hg⟩
    · exact absurd hr hret
    · exact absurd hg (hgu n)

theorem waited_analyzerStep (h : Waited s) {lv : Level} (hs : analyzerStep s lv = some s') :
    Waited s' := by
  have hnone : ∀ w : Fin W, (w : ℕ) < 0 → (s.threads lv w).ended = true :=
    fun w hlt => absurd hlt (Nat.not_lt_zero _)
  unfold analyzerStep at hs
  split at hs <;> rename_i hpc
  · obtain rfl := Option.some.inj hs
    exact h.setAnalyzer rfl rfl rfl (by simp [hpc]) (by simp [hpc]) hnone
  · split_ifs at hs with hk <;> obtain rfl := Option.some.inj hs <;>
      exact h.setAnalyzer rfl rfl rfl (by simp [hpc]) (by simp [hpc]) hnone
  · split_ifs at hs with hk hended <;> obtain rfl := Option.some.inj hs <;>
      exact h.setAnalyzer rfl rfl rfl (by simp [hpc]) (by simp [hpc]) hnone
  · rename_i n k
    have hjoined : ∀ w : Fin W, (w : ℕ) < k → (s.threads lv w).ended = true :=
      fun w hlt => h.left lv w (by rw [hpc]; exact hlt)
    split_ifs at hs with hlt hW hended
    · obtain rfl := Option.some.inj hs
      refine h.setAnalyzer rfl rfl rfl (by simp [hpc]) (by simp [hpc]) fun w hw => ?_
      rcases Nat.lt_succ_iff_lt_or_eq.mp hw with hw | heq
      · exact hjoined w hw
      · rw [show w = ⟨k, hW⟩ from Fin.ext heq]
        exact hended
    · obtain rfl := Option.some.inj hs
      refine h.setAnalyzer rfl rfl rfl (by simp [hpc]) (by simp [hpc]) fun w hw => ?_
      exact hjoined w (Nat.lt_of_lt_of_le hw (Nat.le_of_not_lt hlt))
  · obtain rfl := Option.some.inj hs
    exact h.setAnalyzer rfl rfl rfl (by simp [hpc]) (by simp [hpc]) hnone
  · obtain rfl := Option.some.inj hs
    exact h.setAnalyzer rfl rfl rfl (by simp [hpc]) (by simp [hpc]) hnone
  · cases hs
  · cases hs

theorem waited_step (h : Waited s) (hs : runStep u s act = some s') : Waited s' := by
  by_cases hact : ∃ lv, act = .analyzer lv
  · obtain ⟨lv, rfl⟩ := hact
    exact waited_analyzerStep h hs
  have hno : ∀ lv, act ≠ .analyzer lv := fun lv heq => hact ⟨lv, heq⟩
  cases runMove_of_step hs with
  | start lv w hf => exact ⟨left_setThread h (by simp [hf, ThreadPc.ended]), h.summarized⟩
  | callocFails lv w hf => exact ⟨left_setThread h (by simp [ThreadPc.ended]), h.summarized⟩
  | merge lv w hr => exact ⟨left_setThread h (by simp [ThreadPc.ended]), h.summarized⟩
  | fail lv k hpc =>
    exact h.setAnalyzer rfl rfl rfl (by simp [hpc]) (by simp [hpc])
      fun w hlt => absurd hlt (Nat.not_lt_zero _)
  | clear lv => exact absurd rfl (hno lv)
  | main lv => exact absurd rfl (hno lv)
  | publish lv => exact absurd rfl (hno lv)
  | post lv => exact absurd rfl (hno lv)
  | summarize hall =>
    refine ⟨h.left, fun _ lv => ?_⟩
    simp only [Run.allExited, Bool.and_eq_true] at hall
    have hlv := List.all_eq_true.mp hall.1.2 lv lv.mem_all
    show s.analyzers lv = .returned ∨ ∃ n, s.analyzers lv = .gaveUp n
    cases hpc : s.analyzers lv with
    | returned => exact .inl rfl
    | gaveUp n => exact .inr ⟨n, rfl⟩
    | _ =>
      rw [hpc] at hlv
      cases hlv
  | _ => exact ⟨h.left, h.summarized⟩

theorem waited_reachable (h : (program u).Reachable s) : Waited s :=
  h.induct ⟨fun _ _ hlt => absurd hlt (Nat.not_lt_zero _), fun h => by cases h⟩
    fun _ _ _ hI hs => waited_step hI hs

/-- As long as a worker has not ended, its analyzer has not, and the parent waits for it. -/
theorem open_of_running (h : (program u).Reachable s) {lv : Level} {w : Fin W}
    (hw : s.threads lv w = .running) :
    s.analyzers lv ≠ .returned ∧ (∀ n, s.analyzers lv ≠ .gaveUp n) ∧ s.summary = none := by
  have hwait := waited_reachable h
  have hrep := reported_reachable h
  have hret : s.analyzers lv ≠ .returned := by
    intro hpc
    have hended := hrep.published.joined lv w (by rw [hpc]; exact w.isLt)
    rw [hw] at hended
    cases hended
  have hgu : ∀ n, s.analyzers lv ≠ .gaveUp n := by
    intro n hpc
    have hlt := hrep.workers.created lv w (by simp [hw])
    rw [hpc] at hlt
    have hended := hwait.left lv w (by rw [hpc]; exact hlt)
    rw [hw] at hended
    cases hended
  refine ⟨hret, hgu, ?_⟩
  cases hsum : s.summary with
  | none => rfl
  | some x =>
    rcases hwait.summarized (by rw [hsum]; rfl) lv with hpc | ⟨n, hpc⟩
    · exact absurd hpc hret
    · exact absurd hpc (hgu n)

/-- A worker of a broken level does not come past the barrier. -/
theorem running_step (h : Workers u s) {lv : Level} (hb : Broken s lv) {w : Fin W}
    (hw : s.threads lv w = .running) (hs : runStep u s act = some s') :
    s'.threads lv w = .running := by
  have hset : ∀ {lv' : Level} {w' : Fin W} {pc : ThreadPc},
      (lv = lv' → w = w' → pc = .running) → (s.setThread lv' w' pc).threads lv w = .running := by
    intro lv' w' pc hpc
    refine forall_setThread (P := fun lv'' w'' pc => lv = lv'' → w = w'' → pc = .running) hpc
      (fun lv'' w'' _ hlv hww => ?_) lv w rfl rfl
    rw [← hlv, ← hww]
    exact hw
  cases runMove_of_step hs with
  | start lv' w' hf => exact hset fun _ _ => rfl
  | callocFails lv' w' hf =>
    refine hset fun hlv hww => ?_
    rw [← hlv, ← hww, hw] at hf
    cases hf
  | merge lv' w' hr hx =>
    refine hset fun hlv hww => ?_
    obtain ⟨v, hv⟩ := hb.idle h
    rw [← hlv, ← hww] at hx
    exact absurd (h.idle lv v hv).1 (h.barrier lv w hx v)
  | _ => exact hw

/-- **One missing worker hangs the program.** Once a level has a worker missing and another one that
has come to its loop, that worker never comes past the barrier, the analyzer never exits, and the
parent, which waits for it, never prints its summary. -/
theorem broken_hangs (u : RunSetup R W) {s t : Run R W} (hr : (program u).Reachable s)
    (hst : (program u).Steps s t) {lv : Level} (hb : Broken s lv) {w : Fin W}
    (hw : s.threads lv w = .running) :
    t.threads lv w = .running ∧ t.analyzers lv ≠ .returned ∧ (∀ n, t.analyzers lv ≠ .gaveUp n) ∧
      t.summary = none := by
  have hkeep : Broken t lv ∧ t.threads lv w = .running := by
    induction hst with
    | refl => exact ⟨hb, hw⟩
    | tail hmid hlast ih =>
      obtain ⟨a, ha⟩ := hlast
      have hrep := reported_reachable (Relation.ReflTransGen.trans hr hmid)
      exact ⟨broken_step ih.1 ha, running_step hrep.workers ih.1 ih.2 ha⟩
  exact ⟨hkeep.2, open_of_running (Relation.ReflTransGen.trans hr hst) hkeep.2⟩

theorem broken_hangs_twoThreads :
    ∃ s t, (program twoThreads).runs (firstState twoThreads) twoThreadsStart = some s ∧
      (program twoThreads).runs s twoThreadsRest = some t ∧
      t.threads .error ⟨0, by decide⟩ = .running ∧ t.analyzers .error ≠ .returned ∧
        (∀ n, t.analyzers .error ≠ .gaveUp n) ∧ t.summary = none := by
  have h : ((program twoThreads).runs (firstState twoThreads) twoThreadsStart).map (fun s =>
      (s.threads .error ⟨0, by decide⟩, s.threads .error ⟨1, by decide⟩,
        ((program twoThreads).runs s twoThreadsRest).isSome)) =
      some (.running, .failed, true) := by decide +kernel
  obtain ⟨s, hs, h⟩ := Option.map_eq_some_iff.mp h
  obtain ⟨hrun, h⟩ := Prod.mk.inj h
  obtain ⟨hfailed, ht⟩ := Prod.mk.inj h
  obtain ⟨t, ht⟩ := Option.isSome_iff_exists.mp ht
  exact ⟨s, t, hs, ht, broken_hangs twoThreads (Machine.runs_reachable hs)
    (Machine.steps_of_runs ht) (.failed _ hfailed) hrun⟩

end Cse344.HW4
