import Cse344.HW4.Report

/-!
# What the workers of HW4 merge

The data of a worker (`worker_thread_func`, `HW4/src/processes/analyzer.c` 113-189) is that of the
entries it has popped, and the result of a level is what the destructors that have run
(`tls_destructor`, 52-111) make of their workers' data.

* `Workers` relates each worker's data to what it has popped; `Merges` the result of a level to the
  order of its destructors (`mergeOrder`).
* The workers of a level wait for each other at a barrier before they return, and destructors run
  after that: so a worker that never comes to its loop keeps all others of its level from merging.

Results:
* `poppedBy_step`: what a worker has popped after a step.
* **`workers_move`**, **`merges_move`**: every step of a run keeps the two.
* `Workers.idle_or_merged`: where a worker of a level has not come to its loop, none has merged.

Out of scope: who reads the results, which is `Cse344.HW4.Results`.
-/

namespace Cse344.HW4

open Cse344.Lib

variable {R W : ℕ}

/-! ## What a step of the pipeline does to the workers -/

section Pipeline

variable {u : Setup R W} {s s' : Pipeline R W} {act : Act R W}

/-- Only workers pop from the Regions B. -/
theorem workers_of_not_worker (hs : pipelineStep u s act = some s')
    (h : ∀ lv w, act ≠ .worker lv w) : s'.poppedB = s.poppedB ∧ s'.workers = s.workers := by
  cases pipelineStep_move hs with
  | popB lv w => exact absurd rfl (h lv w)
  | drained lv w => exact absurd rfl (h lv w)
  | passed lv w => exact absurd rfl (h lv w)
  | _ => exact ⟨rfl, rfl⟩

/-- What a worker's step does. -/
structure WorkerStepped (s s' : Pipeline R W) (lv : Level) (w : Fin W) : Prop where
  popped : s'.poppedB = Function.update s.poppedB lv
    (s.poppedB lv ++ (s.nextPop lv w).toList.map fun e => (w, e))
  workers : ∃ pc, s'.workers =
    Function.update s.workers lv (Function.update (s.workers lv) w pc) ∧
    s.workers lv w ≠ .exited ∧ (pc = .popping → s.workers lv w = .popping) ∧
    (pc = .exited → ∀ v, s.workers lv v ≠ .popping)

theorem workerStep_spec {lv : Level} {w : Fin W} (hs : workerStep s lv w = some s') :
    WorkerStepped s s' lv w := by
  unfold workerStep at hs
  split at hs <;> rename_i hpc
  · split at hs <;> rename_i hpop
    · split_ifs at hs
      obtain rfl := Option.some.inj hs
      refine ⟨?_, .barrier, rfl, by simp [hpc], by simp, by simp⟩
      simp [Pipeline.nextPop, hpc, hpop, Pipeline.setWorker]
    · obtain rfl := Option.some.inj hs
      refine ⟨?_, _, rfl, by simp [hpc], fun _ => hpc, ?_⟩
      · simp [Pipeline.nextPop, hpc, hpop]
      · split <;> simp
  · split_ifs at hs with hall
    obtain rfl := Option.some.inj hs
    refine ⟨?_, .exited, rfl, by simp [hpc], by simp, fun _ => hall⟩
    simp [Pipeline.nextPop, hpc, Pipeline.setWorker]
  · cases hs

/-- **What a worker has popped after a step.** -/
theorem poppedBy_step (hs : pipelineStep u s act = some s') (lv : Level) (w : Fin W) :
    s'.poppedBy lv w =
      s.poppedBy lv w ++ if act = .worker lv w then (s.nextPop lv w).toList else [] := by
  cases act with
  | worker lv' w' =>
    have hpop := (workerStep_spec hs).popped
    by_cases hlv : lv' = lv
    · subst hlv
      by_cases hw : w' = w
      · subst hw
        cases hn : s.nextPop lv' w' <;> simp [Pipeline.poppedBy, hpop, hn]
      · cases hn : s.nextPop lv' w' <;> simp [Pipeline.poppedBy, hpop, hn, hw]
    · simp [Pipeline.poppedBy, hpop, hlv, Ne.symm hlv]
  | _ =>
    obtain ⟨hpop, -⟩ := workers_of_not_worker hs fun _ _ h => by cases h
    simp [Pipeline.poppedBy, hpop]

/-- A worker that does not step stays where it is. -/
theorem workers_step (hs : pipelineStep u s act = some s') {lv : Level} {w : Fin W}
    (h : act ≠ .worker lv w) : s'.workers lv w = s.workers lv w := by
  cases act with
  | worker lv' w' =>
    obtain ⟨pc, hw, -⟩ := (workerStep_spec hs).workers
    rw [hw]
    by_cases hlv : lv = lv'
    · subst hlv
      rw [Function.update_self, Function.update_of_ne fun hw : w = w' => h (by rw [hw])]
    · rw [Function.update_of_ne hlv]
  | _ => rw [(workers_of_not_worker hs fun _ _ h => by cases h).2]

/-- A worker passes the barrier when all have come to it. -/
def BarrierHolds (s : Pipeline R W) : Prop :=
  ∀ lv w, s.workers lv w = .exited → ∀ v, s.workers lv v ≠ .popping

theorem barrierHolds_step (h : BarrierHolds s) (hs : pipelineStep u s act = some s') :
    BarrierHolds s' := by
  intro lv w hw v hv
  cases act with
  | worker lv' w' =>
    obtain ⟨pc, hws, hne, hback, hexit⟩ := (workerStep_spec hs).workers
    by_cases hlv : lv = lv'
    · subst hlv
      rw [hws, Function.update_self] at hw hv
      -- whoever is in its loop now was in it before
      have hloop : s.workers lv v = .popping := by
        by_cases hvw : v = w'
        · subst hvw
          rw [Function.update_self] at hv
          exact hback hv
        · rwa [Function.update_of_ne hvw] at hv
      by_cases hww : w = w'
      · subst hww
        rw [Function.update_self] at hw
        exact hexit hw v hloop
      · rw [Function.update_of_ne hww] at hw
        exact h lv w hw v hloop
    · rw [hws, Function.update_of_ne hlv] at hw hv
      exact h lv w hw v hv
  | _ =>
    rw [(workers_of_not_worker hs fun _ _ h => by cases h).2] at hw hv
    exact h lv w hw v hv

end Pipeline

variable {u : RunSetup R W} {s s' : Run R W} {act : RunAct R W}

/-! ## The workers -/

/-- The data of a worker that has popped `popped`. -/
def tlsOf (u : RunSetup R W) (lv : Level) (w : Fin W) (popped : List LogEntry) : TlsData :=
  workerLoop u.args (getLevelWeight lv) (newTls w) popped

/-- One more entry, popped in the loop. -/
theorem workerLoop_concat (args : Args) (lv : Level) (entry : LogEntry) :
    ∀ (popped : List LogEntry) (tls : TlsData), (∀ e ∈ popped, e.isEof = false) →
      workerLoop args (getLevelWeight lv) tls (popped ++ [entry]) =
        scoreEntry args lv (workerLoop args (getLevelWeight lv) tls popped) entry
  | [], tls, _ => by
    cases he : entry.isEof <;> simp [workerLoop, scoreEntry, he]
  | e :: popped, tls, h => by
    rw [List.forall_mem_cons] at h
    rw [List.cons_append, workerLoop, workerLoop, h.1]
    exact workerLoop_concat args lv entry popped _ h.2

structure Workers (u : RunSetup R W) (s : Run R W) : Prop where
  looping : Looping s.pipeline
  barrier : BarrierHolds s.pipeline
  /-- A thread that does not run has not left where it started. -/
  idle : ∀ lv w, s.threads lv w = .fresh ∨ s.threads lv w = .failed →
    s.pipeline.workers lv w = .popping ∧ s.pipeline.poppedBy lv w = []
  scored : ∀ lv w, s.threads lv w = .running ∨ s.threads lv w = .merged →
    s.tls lv w = tlsOf u lv w (s.pipeline.poppedBy lv w)
  gone : ∀ lv w, s.threads lv w = .merged → s.pipeline.workers lv w = .exited
  created : ∀ lv w, s.threads lv w ≠ .fresh → w < (s.analyzers lv).created W

/-- Going on, an analyzer has created no fewer workers. -/
theorem AnalyzerGoes.created_lt {lv : Level} {pc : AnalyzerPc} (h : AnalyzerGoes s lv pc)
    {w : Fin W} (hw : w < (s.analyzers lv).created W) : w < pc.created W := by
  cases h with
  | create k h =>
    rw [h] at hw
    exact Nat.lt_succ_of_lt hw
  | created k h hk => exact w.isLt
  | join k h => rw [h] at hw; exact hw
  | joined k h => rw [h] at hw; exact hw
  | abandon n k h => rw [h] at hw; exact hw
  | giveUp n k h => rw [h] at hw; exact hw

/-- The main thread of an analyzer moves. -/
theorem created_setAnalyzer (h : Workers u s) {lv : Level} {pc : AnalyzerPc}
    (hpc : ∀ w : Fin W, w < (s.analyzers lv).created W → w < pc.created W) (lv' : Level)
    (w : Fin W) (hw : s.threads lv' w ≠ .fresh) :
    w < (Function.update s.analyzers lv pc lv').created W := by
  have hcreated := h.created lv' w hw
  by_cases hlv : lv' = lv
  · subst hlv
    rw [Function.update_self]
    exact hpc w hcreated
  · rw [Function.update_of_ne hlv]
    exact hcreated

theorem Workers.of_analyzer (h : Workers u s) {lv : Level} {pc : AnalyzerPc}
    (hp : s'.pipeline = s.pipeline) (ht : s'.threads = s.threads) (htls : s'.tls = s.tls)
    (ha : s'.analyzers = Function.update s.analyzers lv pc)
    (hpc : ∀ w : Fin W, w < (s.analyzers lv).created W → w < pc.created W) : Workers u s' where
  looping := hp ▸ h.looping
  barrier := hp ▸ h.barrier
  idle := by rw [hp, ht]; exact h.idle
  scored := by rw [hp, ht, htls]; exact h.scored
  gone := by rw [hp, ht]; exact h.gone
  created := by rw [ht, ha]; exact created_setAnalyzer h hpc

/-- Only a step of the aggregator or of the parent. -/
theorem Workers.of_same (h : Workers u s) (hp : s'.pipeline = s.pipeline)
    (ht : s'.threads = s.threads) (htls : s'.tls = s.tls) (ha : s'.analyzers = s.analyzers) :
    Workers u s' where
  looping := hp ▸ h.looping
  barrier := hp ▸ h.barrier
  idle := by rw [hp, ht]; exact h.idle
  scored := by rw [hp, ht, htls]; exact h.scored
  gone := by rw [hp, ht]; exact h.gone
  created := by rw [ht, ha]; exact h.created

/-- What holds of every thread of `s` but one, and of that one after its step. -/
theorem forall_setThread {lv : Level} {w : Fin W} {pc : ThreadPc}
    {P : Level → Fin W → ThreadPc → Prop} (hself : P lv w pc)
    (h : ∀ lv' w', ¬ (lv' = lv ∧ w' = w) → P lv' w' (s.threads lv' w')) (lv' : Level) (w' : Fin W) :
    P lv' w' ((s.setThread lv w pc).threads lv' w') := by
  by_cases hlv : lv' = lv
  · subst hlv
    by_cases hw : w' = w
    · subst hw
      simpa [Run.setThread] using hself
    · simpa [Run.setThread, hw] using h lv' w' fun hboth => hw hboth.2
  · simpa [Run.setThread, hlv] using h lv' w' fun hboth => hlv hboth.1

/-- A step of the pipeline, seen from the workers. -/
theorem workers_flow {act : Act R W} {p : Pipeline R W} (h : Workers u s)
    (hs : pipelineStep u.toSetup s.pipeline act = some p)
    (hrun : ∀ lv w, act = .worker lv w → s.threads lv w = .running) :
    Workers u { s with pipeline := p, tls := scored u s act } where
  looping := looping_step h.looping (pipelineStep_move hs)
  barrier := barrierHolds_step h.barrier hs
  idle := fun lv w hw => by
    have hact : act ≠ .worker lv w := fun heq => by
      rw [show s.threads lv w = .running from hrun lv w heq] at hw
      rcases hw with hw | hw <;> cases hw
    obtain ⟨hpop, hnil⟩ := h.idle lv w hw
    refine ⟨(workers_step hs hact).trans hpop, ?_⟩
    show p.poppedBy lv w = []
    rw [poppedBy_step hs, if_neg hact, hnil, List.append_nil]
  scored := fun lv w hw => by
    show scored u s act lv w = tlsOf u lv w (p.poppedBy lv w)
    have htls := h.scored lv w hw
    rw [poppedBy_step hs]
    by_cases hact : act = .worker lv w
    · simp only [scored, if_pos hact]
      cases hn : s.pipeline.nextPop lv w with
      | none => simpa using htls
      | some e =>
        -- a worker that pops is in its loop, so it has popped data alone
        have hpc : s.pipeline.workers lv w = .popping := by
          by_contra hpc
          rw [Pipeline.nextPop, if_neg hpc] at hn
          cases hn
        show scoreEntry u.args lv (s.tls lv w) e = _
        rw [htls, tlsOf, tlsOf, Option.toList_some,
          workerLoop_concat u.args lv e _ _ (h.looping.data lv w hpc)]
    · simpa only [scored, if_neg hact, List.append_nil] using htls
  gone := fun lv w hw => by
    have hact : act ≠ .worker lv w := fun heq => by
      rw [show s.threads lv w = .running from hrun lv w heq] at hw
      cases hw
    exact (workers_step hs hact).trans (h.gone lv w hw)
  created := h.created

theorem workers_move (h : Workers u s) (hm : RunMove u s act s') : Workers u s' := by
  cases hm with
  | flow act p hs hrun => exact workers_flow h hs hrun
  | start lv w hf hc =>
    have hidle := h.idle lv w (.inl hf)
    refine ⟨h.looping, h.barrier, ?_, ?_, ?_, ?_⟩
    · exact forall_setThread (P := fun lv' w' pc => pc = .fresh ∨ pc = .failed →
        s.pipeline.workers lv' w' = .popping ∧ s.pipeline.poppedBy lv' w' = [])
        (by simp) fun lv' w' _ => h.idle lv' w'
    · refine forall_setThread (s := s) (P := fun lv' w' pc => pc = .running ∨ pc = .merged →
        (s.setTls lv w (newTls w)).tls lv' w' = tlsOf u lv' w' (s.pipeline.poppedBy lv' w'))
        (fun _ => ?_) fun lv' w' hne hpc => ?_
      · simp [Run.setTls, tlsOf, hidle.2, workerLoop]
      · have hsame : (s.setTls lv w (newTls w)).tls lv' w' = s.tls lv' w' := by
          by_cases hlv : lv' = lv
          · subst hlv
            simp [Run.setTls, show w' ≠ w from fun hw => hne ⟨rfl, hw⟩]
          · simp [Run.setTls, hlv]
        rw [hsame]
        exact h.scored lv' w' hpc
    · exact forall_setThread (P := fun lv' w' pc => pc = .merged →
        s.pipeline.workers lv' w' = .exited) (by simp) fun lv' w' _ => h.gone lv' w'
    · exact forall_setThread (P := fun lv' w' pc => pc ≠ .fresh →
        w' < (s.analyzers lv').created W) (fun _ => hc) fun lv' w' _ => h.created lv' w'
  | callocFails lv w hf hc =>
    have hidle := h.idle lv w (.inl hf)
    refine ⟨h.looping, h.barrier, ?_, ?_, ?_, ?_⟩
    · exact forall_setThread (P := fun lv' w' pc => pc = .fresh ∨ pc = .failed →
        s.pipeline.workers lv' w' = .popping ∧ s.pipeline.poppedBy lv' w' = [])
        (fun _ => hidle) fun lv' w' _ => h.idle lv' w'
    · exact forall_setThread (P := fun lv' w' pc => pc = .running ∨ pc = .merged →
        s.tls lv' w' = tlsOf u lv' w' (s.pipeline.poppedBy lv' w'))
        (by simp) fun lv' w' _ => h.scored lv' w'
    · exact forall_setThread (P := fun lv' w' pc => pc = .merged →
        s.pipeline.workers lv' w' = .exited) (by simp) fun lv' w' _ => h.gone lv' w'
    · exact forall_setThread (P := fun lv' w' pc => pc ≠ .fresh →
        w' < (s.analyzers lv').created W) (fun _ => hc) fun lv' w' _ => h.created lv' w'
  | merge lv w hr hw =>
    refine ⟨h.looping, h.barrier, ?_, ?_, ?_, ?_⟩
    · exact forall_setThread (P := fun lv' w' pc => pc = .fresh ∨ pc = .failed →
        s.pipeline.workers lv' w' = .popping ∧ s.pipeline.poppedBy lv' w' = [])
        (by simp) fun lv' w' _ => h.idle lv' w'
    · exact forall_setThread (P := fun lv' w' pc => pc = .running ∨ pc = .merged →
        s.tls lv' w' = tlsOf u lv' w' (s.pipeline.poppedBy lv' w'))
        (fun _ => h.scored lv w (.inl hr)) fun lv' w' _ => h.scored lv' w'
    · exact forall_setThread (P := fun lv' w' pc => pc = .merged →
        s.pipeline.workers lv' w' = .exited) (fun _ => hw) fun lv' w' _ => h.gone lv' w'
    · exact forall_setThread (P := fun lv' w' pc => pc ≠ .fresh →
        w' < (s.analyzers lv').created W)
        (fun _ => h.created lv w (by simp [hr])) fun lv' w' _ => h.created lv' w'
  | clear lv hpc =>
    exact h.of_analyzer rfl rfl rfl rfl fun w hw => by rw [hpc] at hw; exact hw
  | main lv pc hgo => exact h.of_analyzer rfl rfl rfl rfl fun w => hgo.created_lt
  | fail lv k hpc =>
    exact h.of_analyzer rfl rfl rfl rfl fun w hw => by rw [hpc] at hw; exact hw
  | publish lv hpc => exact h.of_analyzer rfl rfl rfl rfl fun w _ => w.isLt
  | post lv hpc => exact h.of_analyzer rfl rfl rfl rfl fun w _ => w.isLt
  | _ => exact h.of_same rfl rfl rfl rfl

theorem workers_first : Workers u (firstState u) where
  looping := looping_init
  barrier := fun lv w hw => by cases hw
  idle := fun _ _ _ => ⟨rfl, rfl⟩
  scored := fun lv w hw => by rcases hw with hw | hw <;> cases hw
  gone := fun lv w hw => by cases hw
  created := fun lv w hw => absurd rfl hw

/-- Where a worker never ran, no worker of its level gets past the barrier. -/
theorem Workers.idle_or_merged (h : Workers u s) (lv : Level) :
    (∀ w, s.threads lv w ≠ .merged) ∨ ∀ w, s.threads lv w ≠ .fresh ∧ s.threads lv w ≠ .failed := by
  by_cases hmerged : ∃ w, s.threads lv w = .merged
  · obtain ⟨v, hv⟩ := hmerged
    have hall := h.barrier lv v (h.gone lv v hv)
    exact .inr fun w => ⟨fun hw => hall w (h.idle lv w (.inl hw)).1,
      fun hw => hall w (h.idle lv w (.inr hw)).1⟩
  · exact .inl fun w hw => hmerged ⟨w, hw⟩

/-! ## The merges -/

/-- What the destructors of the workers `ws` of level `lv` make, in this order. -/
def mergedResult (u : RunSetup R W) (tls : Fin W → TlsData) (ws : List (Fin W)) : LevelResult :=
  ws.foldl (fun r w => tlsDestructor u.args r (tls w)) noResult

theorem mergedResult_congr {tls tls' : Fin W → TlsData} {ws : List (Fin W)}
    (h : ∀ w ∈ ws, tls' w = tls w) : mergedResult u tls' ws = mergedResult u tls ws :=
  List.foldl_ext _ _ _ fun r w hw => by rw [h w hw]

structure Merges (u : RunSetup R W) (s : Run R W) : Prop where
  result : ∀ lv, s.results lv = mergedResult u (s.tls lv) (s.mergeOrder lv)
  nodup : ∀ lv, (s.mergeOrder lv).Nodup
  merged : ∀ lv w, w ∈ s.mergeOrder lv ↔ s.threads lv w = .merged

/-- A step that merges nothing and leaves the data of the workers that have merged. -/
theorem Merges.of_keep (h : Merges u s) (hr : s'.results = s.results)
    (ho : s'.mergeOrder = s.mergeOrder)
    (ht : ∀ lv w, s'.threads lv w = .merged ↔ s.threads lv w = .merged)
    (htls : ∀ lv w, s.threads lv w = .merged → s'.tls lv w = s.tls lv w) : Merges u s' where
  result := fun lv => by
    rw [hr, ho, h.result lv]
    exact (mergedResult_congr fun w hw => htls lv w ((h.merged lv w).mp hw)).symm
  nodup := ho ▸ h.nodup
  merged := fun lv w => by rw [ho, h.merged, ht]

theorem merged_setThread {lv : Level} {w : Fin W} {pc : ThreadPc} (hpc : pc ≠ .merged)
    (hw : s.threads lv w ≠ .merged) (lv' : Level) (w' : Fin W) :
    (s.setThread lv w pc).threads lv' w' = .merged ↔ s.threads lv' w' = .merged :=
  forall_setThread (P := fun lv' w' pc => pc = .merged ↔ s.threads lv' w' = .merged)
    ⟨fun heq => absurd heq hpc, fun heq => absurd heq hw⟩ (fun _ _ _ => Iff.rfl) lv' w'

/-- Before the `memset` of an analyzer no worker of its level has merged. -/
theorem mergeOrder_clearing (hw : Workers u s) (h : Merges u s) {lv : Level}
    (hpc : s.analyzers lv = .clearing) : s.mergeOrder lv = [] := by
  refine List.eq_nil_iff_forall_not_mem.mpr fun w hmem => ?_
  have hlt := hw.created lv w (by rw [(h.merged lv w).mp hmem]; simp)
  rw [hpc] at hlt
  exact absurd hlt (Nat.not_lt_zero _)

theorem merges_move (hw : Workers u s) (h : Merges u s) (hm : RunMove u s act s') :
    Merges u s' := by
  cases hm with
  | flow act p hs hrun =>
    refine h.of_keep rfl rfl (fun _ _ => Iff.rfl) fun lv w hmerged => if_neg fun hact => ?_
    rw [hrun lv w hact] at hmerged
    cases hmerged
  | start lv w hf hc =>
    refine h.of_keep rfl rfl (fun lv' w' => ?_) fun lv' w' hmerged => ?_
    · refine merged_setThread (s := s.setTls lv w (newTls w)) (by simp) (fun heq => ?_) lv' w'
      rw [show s.threads lv w = .merged from heq] at hf
      cases hf
    · have hne : ¬ (lv' = lv ∧ w' = w) := by
        rintro ⟨rfl, rfl⟩
        rw [hf] at hmerged
        cases hmerged
      by_cases hlv : lv' = lv
      · subst hlv
        simp [Run.setTls, Run.setThread, show w' ≠ w from fun hw => hne ⟨rfl, hw⟩]
      · simp [Run.setTls, Run.setThread, hlv]
  | callocFails lv w hf hc =>
    exact h.of_keep rfl rfl (merged_setThread (by simp) (by simp [hf])) fun _ _ _ => rfl
  | merge lv w hr hx =>
    have hnot : w ∉ s.mergeOrder lv := fun hmem => by
      rw [(h.merged lv w).mp hmem] at hr
      cases hr
    refine ⟨fun lv' => ?_, fun lv' => ?_, fun lv' w' => ?_⟩
    · by_cases hlv : lv' = lv
      · subst hlv
        simp only [Run.setThread, Function.update_self]
        rw [mergedResult, List.foldl_append, h.result lv']
        rfl
      · simp only [Run.setThread, Function.update_of_ne hlv]
        exact h.result lv'
    · by_cases hlv : lv' = lv
      · subst hlv
        simp only [Function.update_self]
        exact List.nodup_append.mpr ⟨h.nodup lv', List.nodup_singleton w, fun a ha b hb hab =>
          hnot (by rw [← List.mem_singleton.mp hb, ← hab]; exact ha)⟩
      · simp only [Function.update_of_ne hlv]
        exact h.nodup lv'
    · by_cases hlv : lv' = lv
      · subst hlv
        by_cases hww : w' = w
        · subst hww
          simp [Run.setThread]
        · simpa [Run.setThread, hww] using h.merged lv' w'
      · simpa [Run.setThread, hlv] using h.merged lv' w'
  | clear lv hpc =>
    have hnil := mergeOrder_clearing hw h hpc
    have hres : s.results lv = noResult := by rw [h.result lv, hnil]; rfl
    have hkeep : Function.update s.results lv noResult = s.results := by
      rw [← hres, Function.update_eq_self]
    exact h.of_keep hkeep rfl (fun _ _ => Iff.rfl) fun _ _ _ => rfl
  | _ => exact h.of_keep rfl rfl (fun _ _ => Iff.rfl) fun _ _ _ => rfl

theorem merges_first : Merges u (firstState u) where
  result := fun _ => rfl
  nodup := fun _ => List.nodup_nil
  merged := fun lv w => ⟨fun hw => absurd hw List.not_mem_nil, fun hw => by cases hw⟩

end Cse344.HW4
