import Cse344.HW4.Merges

/-!
# What the aggregator finds in Region C

The main thread of `run_analyzer` (`HW4/src/processes/analyzer.c` 191-277) joins its workers before
it posts, and `run_aggregator` (`HW4/src/processes/aggregator.c` 194-242) reads after its wait.
Nothing else orders the two: the readings take no lock.

* `Published` says that who has posted has joined all its workers, and who was waited for has
  posted.
* `Reported` are all invariants of a run together.

Results:
* `reported_reachable`: they hold in every reachable state.
* `received_step`: no step changes the result of a level that was received.
* **`received_final`**: in every run, where the wait for a level did not expire, every reading of
  the aggregator finds what the level's result is for the rest of the run; all its workers have
  merged there, or all have failed.

Out of scope: levels whose wait expired; see `Cse344.HW4.Analysis`.
-/

namespace Cse344.HW4

open Cse344.Lib

variable {R W : ℕ} {u : RunSetup R W} {s s' : Run R W} {act : RunAct R W}

/-! ## Joining and posting -/

/-- The number of workers the main thread of an analyzer has joined on its way to post. -/
def AnalyzerPc.joinedCount (W : ℕ) : AnalyzerPc → ℕ
  | .joining k => k
  | .publishing => W
  | .posting => W
  | .returned => W
  | _ => 0

structure Published (s : Run R W) : Prop where
  joined : ∀ lv (w : Fin W), w < (s.analyzers lv).joinedCount W → (s.threads lv w).ended = true
  posted : ∀ lv, 0 < s.sem lv ∨ s.received lv = true → s.analyzers lv = .returned
  quiet : ∀ rest, s.aggregator = .waiting rest → s.seen = []
  found : ∀ x ∈ s.seen, ∀ lv, s.received lv = true → x.2 lv = s.results lv

/-- All workers of a level that has posted have ended. -/
theorem Published.ended (h : Published s) {lv : Level} (hr : s.received lv = true) (w : Fin W) :
    (s.threads lv w).ended = true := by
  refine h.joined lv w ?_
  rw [h.posted lv (.inr hr)]
  exact w.isLt

/-- A thread that goes on ends no other and takes no end back. -/
theorem joined_setThread (h : Published s) {lv : Level} {w : Fin W} {pc : ThreadPc}
    (hw : (s.threads lv w).ended = true → pc.ended = true) (lv' : Level) (w' : Fin W)
    (hlt : w' < (s.analyzers lv').joinedCount W) :
    ((s.setThread lv w pc).threads lv' w').ended = true :=
  forall_setThread (P := fun lv' w' pc => w' < (s.analyzers lv').joinedCount W → pc.ended = true)
    (fun hlt => hw (h.joined lv w hlt)) (fun lv' w' _ => h.joined lv' w') lv' w' hlt

/-- The main thread of analyzer `lv` moves. -/
theorem joined_setAnalyzer (h : Published s) {lv : Level} {pc : AnalyzerPc}
    (hpc : ∀ w : Fin W, w < pc.joinedCount W → (s.threads lv w).ended = true) (lv' : Level)
    (w : Fin W) (hlt : w < (Function.update s.analyzers lv pc lv').joinedCount W) :
    (s.threads lv' w).ended = true := by
  by_cases hlv : lv' = lv
  · subst hlv
    rw [Function.update_self] at hlt
    exact hpc w hlt
  · rw [Function.update_of_ne hlv] at hlt
    exact h.joined lv' w hlt

theorem AnalyzerGoes.hasJoined {lv : Level} {pc : AnalyzerPc} (hg : AnalyzerGoes s lv pc)
    (h : Published s) (w : Fin W) (hlt : w < pc.joinedCount W) : (s.threads lv w).ended = true := by
  cases hg with
  | join k hpc hk hended =>
    rcases Nat.lt_succ_iff_lt_or_eq.mp hlt with hlt | heq
    · exact h.joined lv w (by rw [hpc]; exact hlt)
    · rw [show w = ⟨k, hk⟩ from Fin.ext heq]
      exact hended
  | joined k hpc hk => exact h.joined lv w (by rw [hpc]; exact Nat.lt_of_lt_of_le w.isLt hk)
  | create => exact absurd hlt (Nat.not_lt_zero _)
  | created => exact absurd hlt (Nat.not_lt_zero _)
  | abandon => exact absurd hlt (Nat.not_lt_zero _)
  | giveUp => exact absurd hlt (Nat.not_lt_zero _)

/-- An analyzer that has not returned has not posted. -/
theorem posted_setAnalyzer (h : Published s) {lv : Level} {pc : AnalyzerPc}
    (hpc : s.analyzers lv ≠ .returned) (lv' : Level)
    (hsem : 0 < s.sem lv' ∨ s.received lv' = true) :
    Function.update s.analyzers lv pc lv' = .returned := by
  have hret := h.posted lv' hsem
  rw [Function.update_of_ne fun hlv : lv' = lv => hpc (hlv ▸ hret)]
  exact hret

theorem AnalyzerGoes.not_returned {lv : Level} {pc : AnalyzerPc} (hg : AnalyzerGoes s lv pc) :
    s.analyzers lv ≠ .returned := by
  cases hg <;> simp_all

/-- The main thread of an analyzer goes on, and the results stay. -/
theorem Published.of_analyzer (h : Published s) {lv : Level} {pc : AnalyzerPc}
    (hne : s.analyzers lv ≠ .returned)
    (hpc : ∀ w : Fin W, w < pc.joinedCount W → (s.threads lv w).ended = true)
    (ready : Level → Bool) : Published { s.setAnalyzer lv pc with ready := ready } where
  joined := joined_setAnalyzer h hpc
  posted := posted_setAnalyzer h hne
  quiet := h.quiet
  found := h.found

theorem published_move (h : Published s) (hm : RunMove u s act s') : Published s' := by
  cases hm with
  | flow act p hs hrun => exact ⟨h.joined, h.posted, h.quiet, h.found⟩
  | start lv w hf hc =>
    exact ⟨joined_setThread h (by simp [hf, ThreadPc.ended]), h.posted, h.quiet, h.found⟩
  | callocFails lv w hf hc =>
    exact ⟨joined_setThread h (by simp [ThreadPc.ended]), h.posted, h.quiet, h.found⟩
  | merge lv w hr hx =>
    refine ⟨joined_setThread h (by simp [ThreadPc.ended]), h.posted, h.quiet, ?_⟩
    intro x hx lv' hrec
    -- this level still has a worker that runs
    have hlv : lv' ≠ lv := by
      rintro rfl
      have := h.ended hrec w
      rw [hr] at this
      cases this
    rw [h.found x hx lv' hrec]
    exact (Function.update_of_ne hlv ..).symm
  | clear lv hpc =>
    have hne : s.analyzers lv ≠ .returned := by simp [hpc]
    refine ⟨joined_setAnalyzer h fun w hlt => absurd hlt (Nat.not_lt_zero _),
      posted_setAnalyzer h hne, h.quiet, ?_⟩
    intro x hx lv' hrec
    have hlv : lv' ≠ lv := fun hlv => hne (hlv ▸ h.posted lv' (.inr hrec))
    rw [h.found x hx lv' hrec]
    exact (Function.update_of_ne hlv ..).symm
  | main lv pc hgo => exact h.of_analyzer hgo.not_returned (hgo.hasJoined h) s.ready
  | fail lv k hpc =>
    exact h.of_analyzer (by simp [hpc]) (fun w hlt => absurd hlt (Nat.not_lt_zero _)) s.ready
  | publish lv hpc =>
    refine h.of_analyzer (by simp [hpc]) (fun w hlt => h.joined lv w ?_) _
    rw [hpc]
    exact hlt
  | post lv hpc =>
    have hended : ∀ w : Fin W, w < AnalyzerPc.returned.joinedCount W →
        (s.threads lv w).ended = true := fun w hlt => h.joined lv w (by rw [hpc]; exact hlt)
    refine ⟨joined_setAnalyzer h hended, fun lv' hsem => ?_, h.quiet, h.found⟩
    by_cases hlv : lv' = lv
    · rw [hlv]
      exact Function.update_self ..
    · refine (Function.update_of_ne hlv ..).trans (h.posted lv' ?_)
      simpa [Run.setAnalyzer, hlv] using hsem
  | receive lv rest hpc hsem =>
    have hseen : s.seen = [] := h.quiet _ hpc
    refine ⟨h.joined, fun lv' hlv' => h.posted lv' ?_, fun _ _ => hseen, ?_⟩
    · by_cases hlv : lv' = lv
      · rw [hlv]
        exact .inl hsem
      · simpa [hlv] using hlv'
    · intro x hx
      rw [show s.seen = [] from hseen] at hx
      cases hx
  | waited hpc => exact ⟨h.joined, h.posted, by simp, h.found⟩
  | expire lv rest hpc hsem => exact ⟨h.joined, h.posted, fun _ _ => h.quiet _ hpc, h.found⟩
  | highPriority hpc hstop => exact ⟨h.joined, h.posted, by simp, h.found⟩
  | read r rest hpc =>
    refine ⟨h.joined, h.posted, by simp, fun x hx lv hrec => ?_⟩
    rcases List.mem_append.mp hx with hx | hx
    · exact h.found x hx lv hrec
    · rw [List.mem_singleton.mp hx]
  | written hpc => exact ⟨h.joined, h.posted, by simp, h.found⟩
  | summarize hall => exact ⟨h.joined, h.posted, h.quiet, h.found⟩

theorem published_first : Published (firstState u) where
  joined := fun lv w hlt => absurd hlt (Nat.not_lt_zero _)
  posted := fun lv hlv => by rcases hlv with hlv | hlv <;> cases hlv
  quiet := fun _ _ => rfl
  found := fun x hx => by cases hx

/-! ## Every run -/

/-- What holds of the analyzers and of the aggregator in every reachable state. -/
structure Reported (u : RunSetup R W) (s : Run R W) : Prop where
  workers : Workers u s
  merges : Merges u s
  published : Published s

theorem reported_step (h : Reported u s) (hs : runStep u s act = some s') : Reported u s' := by
  have hm : RunMove u s act s' := runMove_of_step hs
  exact ⟨workers_move h.workers hm, merges_move h.workers h.merges hm,
    published_move h.published hm⟩

theorem reported_reachable (h : (program u).Reachable s) : Reported u s :=
  h.induct ⟨workers_first, merges_first, published_first⟩ fun _ _ _ => reported_step

/-- All workers of a level that was received have merged, or all have failed. -/
theorem Reported.merged_or_failed (h : Reported u s) {lv : Level} (hr : s.received lv = true) :
    (∀ w, s.threads lv w = .merged) ∨ ∀ w, s.threads lv w = .failed := by
  have hended := h.published.ended hr
  rcases h.workers.idle_or_merged lv with hnone | hran
  · refine .inr fun w => ?_
    have := hended w
    cases hw : s.threads lv w with
    | failed => rfl
    | merged => exact absurd hw (hnone w)
    | fresh => rw [hw] at this; cases this
    | running => rw [hw] at this; cases this
  · refine .inl fun w => ?_
    have := hended w
    cases hw : s.threads lv w with
    | merged => rfl
    | failed => exact absurd hw (hran w).2
    | fresh => rw [hw] at this; cases this
    | running => rw [hw] at this; cases this

/-- A step leaves a level alone that was received. -/
theorem received_step (h : Reported u s) (hs : runStep u s act = some s') {lv : Level}
    (hr : s.received lv = true) :
    s'.received lv = true ∧ s'.results lv = s.results lv ∧ s'.threads lv = s.threads lv := by
  have hended := h.published.ended hr
  have hret := h.published.posted lv (.inr hr)
  have hother : ∀ {lv' : Level} {w : Fin W}, (s.threads lv' w).ended = false → lv ≠ lv' := by
    rintro lv' w hw rfl
    rw [hended w] at hw
    cases hw
  cases runMove_of_step hs with
  | start lv' w hf =>
    refine ⟨hr, rfl, Function.update_of_ne (hother (w := w) ?_) ..⟩
    rw [hf]
    rfl
  | callocFails lv' w hf =>
    refine ⟨hr, rfl, Function.update_of_ne (hother (w := w) ?_) ..⟩
    rw [hf]
    rfl
  | merge lv' w hrun =>
    have hne : lv ≠ lv' := hother (w := w) (by rw [hrun]; rfl)
    exact ⟨hr, Function.update_of_ne hne .., Function.update_of_ne hne ..⟩
  | clear lv' hpc =>
    have hne : lv ≠ lv' := by
      rintro rfl
      rw [hret] at hpc
      cases hpc
    exact ⟨hr, Function.update_of_ne hne .., rfl⟩
  | receive lv' rest hpc hsem =>
    refine ⟨?_, rfl, rfl⟩
    by_cases hlv : lv = lv'
    · rw [hlv]
      exact Function.update_self ..
    · exact (Function.update_of_ne hlv ..).trans hr
  | _ => exact ⟨hr, rfl, rfl⟩

/-- **What was waited for is final.** Where the aggregator's wait for a level did not expire, every
reading it makes finds what the level's result is for the rest of the run, which is what all its
workers have merged (or nothing, where every `calloc` failed). -/
theorem received_final (u : RunSetup R W) {s t : Run R W} (hr : (program u).Reachable s)
    (hst : (program u).Steps s t) {lv : Level} (hrec : s.received lv = true) :
    t.results lv = s.results lv ∧ (∀ x ∈ t.seen, x.2 lv = s.results lv) ∧
      ((∀ w, w ∈ s.mergeOrder lv) ∨ ∀ w, s.threads lv w = .failed) := by
  have hs := reported_reachable hr
  have hkeep : t.received lv = true ∧ t.results lv = s.results lv := by
    induction hst with
    | refl => exact ⟨hrec, rfl⟩
    | tail hmid hlast ih =>
      obtain ⟨a, ha⟩ := hlast
      have hmid := reported_reachable (Relation.ReflTransGen.trans hr hmid)
      obtain ⟨hrec', hres, -⟩ := received_step hmid ha ih.1
      exact ⟨hrec', hres.trans ih.2⟩
  have ht := reported_reachable (Relation.ReflTransGen.trans hr hst)
  refine ⟨hkeep.2, fun x hx => (ht.published.found x hx lv hkeep.1).trans hkeep.2, ?_⟩
  refine (hs.merged_or_failed hrec).imp_left fun hall w => ?_
  exact (hs.merges.merged lv w).mpr (hall w)

theorem received_final_oneRun :
    ∃ s t, (program oneRun).runs (firstState oneRun) oneRunStart = some s ∧
      (program oneRun).runs s oneRunEnd = some t ∧ t.seen.length = 19 ∧
      t.results .error = s.results .error ∧ (∀ x ∈ t.seen, x.2 .error = s.results .error) ∧
      ((∀ w, w ∈ s.mergeOrder .error) ∨ ∀ w, s.threads .error w = .failed) := by
  have h : ((program oneRun).runs (firstState oneRun) oneRunStart).map (fun s =>
      (s.received .error, ((program oneRun).runs s oneRunEnd).map fun t => t.seen.length)) =
      some (true, some 19) := by decide +kernel
  obtain ⟨s, hs, h⟩ := Option.map_eq_some_iff.mp h
  obtain ⟨hrec, ht⟩ := Prod.mk.inj h
  obtain ⟨t, ht, hlen⟩ := Option.map_eq_some_iff.mp ht
  exact ⟨s, t, hs, ht, hlen, received_final oneRun (Machine.runs_reachable hs)
    (Machine.steps_of_runs ht) hrec⟩

end Cse344.HW4
