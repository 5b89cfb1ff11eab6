import Cse344.HW4.Results

/-!
# A level with a worker missing

A worker of `worker_thread_func` (`HW4/src/processes/analyzer.c` 113-189) whose `calloc` fails
returns at once, and a `pthread_create` of `run_analyzer` (191-277) that fails leaves the worker
out; the barrier still waits for as many workers as there should be. The others of the level stay
there, so what they have counted is never merged.

* `Broken` says of a level that a worker of it is missing for one of the two reasons.

Results:
* `broken_step`: a broken level stays broken.
* `Broken.idle`, `Broken.mergeOrder`: none of its workers ever merges.
* **`broken_zero`**: the report shows nothing of such a level, whatever the others have popped.

Out of scope: what it means for the rest of the program, which is `Cse344.HW4.Hangs`.
-/

namespace Cse344.HW4

open Cse344.Lib

variable {R W : ℕ} {u : RunSetup R W} {s s' : Run R W} {act : RunAct R W}

/-- One worker of the level will never come to the barrier. -/
inductive Broken (s : Run R W) (lv : Level) : Prop
  | failed (w : Fin W) (h : s.threads lv w = .failed)
  | abandoned (n k : ℕ) (h : s.analyzers lv = .abandoning n k) (hn : n < W)
  | gaveUp (n : ℕ) (h : s.analyzers lv = .gaveUp n) (hn : n < W)

theorem Broken.of_thread {lv : Level} {t : Run R W} (h : Broken s lv)
    (ht : ∀ w, s.threads lv w = .failed → t.threads lv w = .failed)
    (ha : t.analyzers = s.analyzers) : Broken t lv := by
  cases h with
  | failed w h => exact .failed w (ht w h)
  | abandoned n k h hn => exact .abandoned n k (by rw [ha, h]) hn
  | gaveUp n h hn => exact .gaveUp n (by rw [ha, h]) hn

/-- The main thread of an analyzer moves on; it does not come back from giving up. -/
theorem Broken.of_analyzer {lv lv' : Level} {pc : AnalyzerPc} {t : Run R W} (h : Broken s lv)
    (ht : t.threads = s.threads) (ha : t.analyzers = Function.update s.analyzers lv' pc)
    (hab : ∀ n k, s.analyzers lv' = .abandoning n k →
      (∃ k', pc = .abandoning n k') ∨ pc = .gaveUp n)
    (hgu : ∀ n, s.analyzers lv' ≠ .gaveUp n) : Broken t lv := by
  cases h with
  | failed w h => exact .failed w (by rw [ht, h])
  | abandoned n k h hn =>
    by_cases hlv : lv = lv'
    · subst hlv
      rcases hab n k h with ⟨k', rfl⟩ | rfl
      · exact .abandoned n k' (by rw [ha, Function.update_self]) hn
      · exact .gaveUp n (by rw [ha, Function.update_self]) hn
    · exact .abandoned n k (by rw [ha, Function.update_of_ne hlv, h]) hn
  | gaveUp n h hn =>
    by_cases hlv : lv = lv'
    · subst hlv
      exact absurd h (hgu n)
    · exact .gaveUp n (by rw [ha, Function.update_of_ne hlv, h]) hn

theorem broken_step {lv : Level} (h : Broken s lv) (hs : runStep u s act = some s') :
    Broken s' lv := by
  have hset : ∀ {lv' : Level} {w' : Fin W} {pc : ThreadPc}, s.threads lv' w' ≠ .failed →
      ∀ w, s.threads lv w = .failed → (s.setThread lv' w' pc).threads lv w = .failed := by
    intro lv' w' pc hne w hw
    by_cases hlv : lv = lv'
    · subst hlv
      simpa [Run.setThread, show w ≠ w' from fun heq => hne (heq ▸ hw)] using hw
    · simpa [Run.setThread, hlv] using hw
  cases runMove_of_step hs with
  | start lv' w hf => exact h.of_thread (hset (by simp [hf])) rfl
  | callocFails lv' w hf => exact h.of_thread (hset (by simp [hf])) rfl
  | merge lv' w hr => exact h.of_thread (hset (by simp [hr])) rfl
  | clear lv' hpc => exact h.of_analyzer rfl rfl (by simp [hpc]) (by simp [hpc])
  | fail lv' k hpc => exact h.of_analyzer rfl rfl (by simp [hpc]) (by simp [hpc])
  | publish lv' hpc => exact h.of_analyzer rfl rfl (by simp [hpc]) (by simp [hpc])
  | post lv' hpc => exact h.of_analyzer rfl rfl (by simp [hpc]) (by simp [hpc])
  | main lv' pc hgo =>
    refine h.of_analyzer rfl rfl (fun n k hpc => ?_) (fun n hpc => ?_)
    · cases hgo with
      | abandon n' k' h' =>
        obtain ⟨rfl, rfl⟩ := AnalyzerPc.abandoning.inj (h'.symm.trans hpc)
        exact .inl ⟨_, rfl⟩
      | giveUp n' k' h' =>
        obtain ⟨rfl, rfl⟩ := AnalyzerPc.abandoning.inj (h'.symm.trans hpc)
        exact .inr rfl
      | _ => simp_all
    · cases hgo <;> simp_all
  | _ => exact h.of_thread (fun _ => id) rfl

/-- One worker of a broken level is still where it started. -/
theorem Broken.idle {lv : Level} (hb : Broken s lv) (h : Workers u s) :
    ∃ w, s.threads lv w = .fresh ∨ s.threads lv w = .failed := by
  -- the worker that was not created is fresh
  have hfresh : ∀ n (hn : n < W), (s.analyzers lv).created W = n →
      ∃ w, s.threads lv w = .fresh ∨ s.threads lv w = .failed := by
    intro n hn hc
    refine ⟨⟨n, hn⟩, .inl ?_⟩
    by_contra hw
    have hlt := h.created lv ⟨n, hn⟩ hw
    rw [hc] at hlt
    exact absurd hlt (Nat.lt_irrefl n)
  cases hb with
  | failed w hw => exact ⟨w, .inr hw⟩
  | abandoned n k hpc hn => exact hfresh n hn (by rw [hpc]; rfl)
  | gaveUp n hpc hn => exact hfresh n hn (by rw [hpc]; rfl)

/-- No worker of a broken level has merged. -/
theorem Broken.mergeOrder {lv : Level} (hb : Broken s lv) (h : Reported u s) :
    s.mergeOrder lv = [] := by
  obtain ⟨w, hw⟩ := hb.idle h.workers
  refine List.eq_nil_iff_forall_not_mem.mpr fun v hv => ?_
  rcases h.workers.idle_or_merged lv with hnone | hran
  · exact hnone v ((h.merges.merged lv v).mp hv)
  · exact hw.elim (hran w).1 (hran w).2

/-- As long as no worker of a level has merged, the aggregator has found nothing there. -/
theorem seen_noResult (h : (program u).Reachable s) (lv : Level) (hnil : s.mergeOrder lv = []) :
    ∀ x ∈ s.seen, x.2 lv = noResult := by
  refine h.induct_reachable (I := fun s => s.mergeOrder lv = [] → ∀ x ∈ s.seen, x.2 lv = noResult)
    (by simp [program, firstState]) (fun s a s' hr hI hs => ?_) hnil
  cases runMove_of_step hs with
  | merge lv' w =>
    intro hnil
    by_cases hlv : lv = lv'
    · subst hlv
      simp at hnil
    · exact hI (by simpa [hlv] using hnil)
  | read r rest =>
    intro hnil x hx
    rcases List.mem_append.mp hx with hx | hx
    · exact hI hnil x hx
    · rw [List.mem_singleton.mp hx]
      show s.results lv = noResult
      rw [(reported_reachable hr).merges.result lv, show s.mergeOrder lv = [] from hnil]
      rfl
  | _ => exact hI

/-- **One missing worker voids its level.** Once a `calloc` of a level's workers has failed, or a
`pthread_create`, whatever the other workers have counted is never merged: the aggregator finds
nothing at the level, and it has given up waiting for it unless every `calloc` has failed. -/
theorem broken_zero (u : RunSetup R W) {s t : Run R W} (hr : (program u).Reachable s)
    (hst : (program u).Steps s t) {lv : Level} (hb : Broken s lv) :
    t.results lv = noResult ∧ (∀ x ∈ t.seen, x.2 lv = noResult) ∧
      (t.received lv = true → ∀ w, t.threads lv w = .failed) := by
  have hbt : Broken t lv := by
    induction hst with
    | refl => exact hb
    | tail hmid hlast ih =>
      obtain ⟨a, ha⟩ := hlast
      exact broken_step ih ha
  have hrt := Relation.ReflTransGen.trans hr hst
  have ht := reported_reachable hrt
  have hnil := hbt.mergeOrder ht
  refine ⟨by rw [ht.merges.result, hnil]; rfl, seen_noResult hrt lv hnil, fun hrec => ?_⟩
  refine (ht.merged_or_failed hrec).resolve_left fun hall => ?_
  have hmem := (ht.merges.merged lv ⟨0, u.workers_pos⟩).mpr (hall _)
  rw [hnil] at hmem
  cases hmem

/-- The same log file, and two workers for each level. -/
def twoThreads : RunSetup 1 2 where
  files := oneFile.files
  prioritySources := oneFile.prioritySources
  capA := oneFile.capA
  capB := oneFile.capB
  capD := oneFile.capD
  files_parsed := oneFile.files_parsed
  four_le_capA := oneFile.four_le_capA
  four_le_capB := oneFile.four_le_capB
  two_le_capD := oneFile.two_le_capD
  workers_pos := Nat.two_pos
  args := oneRun.args
  keywords_ne := oneRun.keywords_ne
  workers_le := by decide

/-- The second worker of the level fails. -/
def twoThreadsStart : List (RunAct 1 2) :=
  [.analyzer .error, .analyzer .error, .analyzer .error, .start .error ⟨0, Nat.two_pos⟩,
    .callocFails .error ⟨1, Nat.one_lt_two⟩]

/-- The first one pops the only entry. -/
def twoThreadsRest : List (RunAct 1 2) :=
  (List.replicate 5 (Act.parser ⟨0, Nat.one_pos⟩) ++ dispatcherSteps 5 ++
    [Act.worker .error ⟨0, Nat.two_pos⟩]).map RunAct.pipeline

theorem broken_zero_twoThreads :
    ∃ s t, (program twoThreads).runs (firstState twoThreads) twoThreadsStart = some s ∧
      (program twoThreads).runs s twoThreadsRest = some t ∧
      t.pipeline.poppedBy .error ⟨0, by decide⟩ = [oneError] ∧
      t.results .error = noResult ∧ (∀ x ∈ t.seen, x.2 .error = noResult) ∧
        (t.received .error = true → ∀ w, t.threads .error w = .failed) := by
  have h : ((program twoThreads).runs (firstState twoThreads) twoThreadsStart).map (fun s =>
      (s.threads .error ⟨1, by decide⟩, ((program twoThreads).runs s twoThreadsRest).map
        fun t => t.pipeline.poppedBy .error ⟨0, by decide⟩)) =
      some (.failed, some [oneError]) := by decide +kernel
  obtain ⟨s, hs, h⟩ := Option.map_eq_some_iff.mp h
  obtain ⟨hfailed, ht⟩ := Prod.mk.inj h
  obtain ⟨t, ht, hpop⟩ := Option.map_eq_some_iff.mp ht
  exact ⟨s, t, hs, ht, hpop, broken_zero twoThreads (Machine.runs_reachable hs)
    (Machine.steps_of_runs ht) (.failed _ hfailed)⟩

end Cse344.HW4
