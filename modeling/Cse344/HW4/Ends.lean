import Cse344.HW4.Broken
import Cse344.HW4.Work

/-!
# The program of HW4 ends

The parent waits for all its children (`wait_for_children`, `HW4/src/main.c` 11-52), so the program
ends when the readers, the dispatcher, the analyzers and the aggregator have all exited. Some of
their waits are timed and some are not: a parser thread waits for room in Region A, the dispatcher
for room for an EOF marker, a worker for entries, the workers of a level for each other, and the
main thread of an analyzer for its workers.

* `Pending` says where the EOF entries of a level are as long as it is not closed, so that the
  dispatcher never waits for one that does not come.
* `Blocked` are the threads that cannot take a step; `Halted` goes from thread to thread to see that
  each has come to its end where nothing can happen any more.
* The reader processes begin with their parser threads, so that they have opened their files.

Results:
* `closed_of_parsed`: once all parser threads have exited and Region A is empty, all levels are
  closed.
* `exists_advance`: before the end there is a step, unless a level has a worker missing.
* **`run_ends`**: a run takes a bounded number of steps that are not polls, and before the end one
  of them can always be taken that is no failing call, or else a level has a worker missing.

Out of scope: SIGINT, which ends the children early, and a failing `fopen` or `malloc` of a reader.
-/

namespace Cse344.HW4

open Cse344.Lib

variable {R W : ℕ}

section Pipeline

variable {u : Setup R W} {s s' : Pipeline R W} {act : Act R W}

/-! ## Where the EOF markers are -/

/-- Level `lv` is closed, or one of its EOF entries is still to come to the dispatcher. -/
inductive Pending (s : Pipeline R W) (lv : Level) : Prop
  | closed (h : s.eofForwarded lv = true)
  | unpushed (r : Fin R) (h : (s.parsers r).hasClosed lv = false)
  | inA (h : eofEntry lv ∈ s.a.toList)
  | popped (h : s.dispatcher = .popped (eofEntry lv))
  | sending (h : s.dispatcher = .sendingEof lv)

/-- A parser thread goes on, and has its EOF entry of the level in Region A once it is pushed. -/
theorem Pending.of_parser {lv : Level} (h : Pending s lv) {r : Fin R} {pc : ParserPc} {a : RegionA}
    {pushedA : List LogEntry} (hkeep : ∀ e ∈ s.a.toList, e ∈ a.toList)
    (hpc : (s.parsers r).hasClosed lv = false → pc.hasClosed lv = false ∨ eofEntry lv ∈ a.toList) :
    Pending { s.setParser r pc with a := a, pushedA := pushedA } lv := by
  cases h with
  | closed h => exact .closed h
  | inA h => exact .inA (hkeep _ h)
  | popped h => exact .popped h
  | sending h => exact .sending h
  | unpushed r' h =>
    by_cases hr : r' = r
    · subst hr
      rcases hpc h with hpc | ha
      · refine .unpushed r' ?_
        rwa [show Pipeline.parsers _ = _ from setParser_parsers s r' pc, Function.update_self]
      · exact .inA ha
    · refine .unpushed r' ?_
      rwa [show Pipeline.parsers _ = _ from setParser_parsers s r pc, Function.update_of_ne hr]

/-- A step that the markers do not see. -/
theorem Pending.of_same {lv : Level} (h : Pending s lv) (hf : s'.eofForwarded = s.eofForwarded)
    (hp : s'.parsers = s.parsers) (ha : s'.a = s.a)
    (hpopped : s.dispatcher = .popped (eofEntry lv) → Pending s' lv)
    (hsend : s.dispatcher = .sendingEof lv → Pending s' lv) : Pending s' lv := by
  cases h with
  | closed h => exact .closed (by rw [hf, h])
  | unpushed r h => exact .unpushed r (by rw [hp, h])
  | inA h => exact .inA (by rw [ha]; exact h)
  | popped h => exact hpopped h
  | sending h => exact hsend h

/-- The dispatcher passes over an EOF entry of a closed level, or of one whose other EOF entries
are not all pushed. -/
theorem skip_spec {entry : LogEntry} (hs : dispatcherStep u s = some s')
    (hpc : s.dispatcher = .popped entry) (he : entry.isEof = true) :
    s'.dispatcher = .sendingEof entry.level ∨ s.eofForwarded entry.level = true ∨
      s.a.eofCountPerLevel entry.level < R := by
  simp only [dispatcherStep, hpc, he, if_true] at hs
  split_ifs at hs with hclose
  · obtain rfl := Option.some.inj hs
    exact .inl rfl
  · rw [Bool.and_eq_true, Bool.not_eq_true', decide_eq_true_eq, not_and_or, Bool.not_eq_false,
      Nat.not_le] at hclose
    exact .inr hclose

/-- When not all threads have pushed their EOF entry, one has not. -/
theorem exists_unpushed (hb : Books s) {lv : Level} (h : s.a.eofCountPerLevel lv < R) :
    ∃ r, (s.parsers r).hasClosed lv = false := by
  by_contra hno
  have hall : ∀ r, (s.parsers r).hasClosed lv = true := fun r =>
    Bool.not_eq_false _ ▸ fun hr => hno ⟨r, hr⟩
  rw [hb.counted, Pipeline.closedCount, Finset.sum_congr rfl fun r _ => if_pos (hall r)] at h
  simp at h

theorem pending_dispatcher (hb : Books s) {lv : Level} (h : Pending s lv)
    (hs : dispatcherStep u s = some s') : Pending s' lv := by
  have hother : (∀ e, s.dispatcher ≠ .popped e) → (∀ lv, s.dispatcher ≠ .sendingEof lv) →
      s'.eofForwarded = s.eofForwarded → s'.parsers = s.parsers → s'.a = s.a → Pending s' lv :=
    fun hpop hsend hf hp ha =>
      h.of_same hf hp ha (fun h => absurd h (hpop _)) (fun h => absurd h (hsend _))
  have hm : Move u s .dispatcher s' := dispatcherStep_move hs
  cases hm with
  | go _ pc hg =>
    cases hg with
    | close entry hpc he =>
      refine h.of_same rfl rfl rfl (fun h => .sending ?_) (fun h => ?_)
      · rw [hpc] at h
        rw [DispatcherPc.popped.inj h]
        rfl
      · rw [hpc] at h
        cases h
    | skip entry hpc he =>
      refine h.of_same rfl rfl rfl (fun h => ?_) (fun h => ?_)
      · obtain rfl : entry = eofEntry lv := DispatcherPc.popped.inj (hpc.symm.trans h)
        rcases skip_spec hs hpc he with hsend | hf | hc
        · cases hsend
        · exact .closed hf
        · obtain ⟨r, hr⟩ := exists_unpushed hb hc
          exact .unpushed r hr
      · rw [hpc] at h
        cases h
    | routeD entry hpc he | routeB entry hpc he =>
      refine h.of_same rfl rfl rfl (fun h => ?_) (fun h => ?_)
      · rw [DispatcherPc.popped.inj (hpc.symm.trans h)] at he
        cases he
      · rw [hpc] at h
        cases h
    | _ => exact hother (by simp [*]) (by simp [*]) rfl rfl rfl
  | popA entry a hpc ha =>
    cases h with
    | closed h => exact .closed h
    | unpushed r h => exact .unpushed r h
    | inA h =>
      rw [ha] at h
      rcases List.mem_cons.mp h with rfl | h
      · exact .popped rfl
      · exact .inA h
    | popped h => rw [hpc] at h; cases h
    | sending h => rw [hpc] at h; cases h
  | sendEof lv' b hpc =>
    by_cases hlv : lv = lv'
    · exact .closed (by rw [hlv]; exact Function.update_self ..)
    · cases h with
      | closed h => exact .closed ((Function.update_of_ne hlv ..).trans h)
      | unpushed r h => exact .unpushed r h
      | inA h => exact .inA h
      | popped h => rw [hpc] at h; cases h
      | sending h => exact absurd (DispatcherPc.sendingEof.inj (h.symm.trans hpc)) hlv
  | aggregate _ g h => rcases h with h | h <;> cases h
  | _ => exact hother (by simp [*]) (by simp [*]) rfl rfl rfl

theorem pending_step (hb : Books s) {lv : Level} (h : Pending s lv)
    (hs : pipelineStep u s act = some s') : Pending s' lv := by
  by_cases hact : act = .dispatcher
  · subst hact
    exact pending_dispatcher hb h hs
  have hm : Move u s act s' := pipelineStep_move hs
  cases hm with
  | push r entry rest a hpc ha =>
    exact h.of_parser (fun e he => by rw [ha]; exact List.mem_append_left _ he) fun _ => .inl rfl
  | pushed r hpc =>
    exact h.of_parser (fun _ => id) fun _ => .inl (by simp [ParserPc.hasClosed, Level.mem_all])
  | close r lv' rest a hpc ha =>
    refine h.of_parser (fun e he => by rw [ha]; exact List.mem_append_left _ he) fun hc => ?_
    by_cases hlv : lv = lv'
    · refine .inr ?_
      rw [ha, hlv]
      exact List.mem_append_right _ (List.mem_singleton.mpr rfl)
    · refine .inl ?_
      rw [hpc] at hc
      simpa [ParserPc.hasClosed, hlv] using hc
  | parsed r hpc =>
    refine h.of_parser (fun _ => id) fun hc => ?_
    rw [hpc] at hc
    simp [ParserPc.hasClosed] at hc
  | go _ pc hg =>
    cases hg with
    | expire hpc => exact h.of_same rfl rfl rfl (by simp [hpc]) (by simp [hpc])
    | dropD entry hpc => exact h.of_same rfl rfl rfl (by simp [hpc]) (by simp [hpc])
    | _ => exact absurd rfl hact
  | recheck => exact h
  | giveUp entry hpc => exact h.of_same rfl rfl rfl (by simp [hpc]) (by simp [hpc])
  | popB | drained | passed | popD | aggregate =>
    exact h.of_same rfl rfl rfl (fun h => .popped h) (fun h => .sending h)
  | _ => exact absurd rfl hact

/-- What brings the threads of the pipeline to their ends. -/
structure Ending (s : Pipeline R W) : Prop where
  books : Books s
  popped : ∀ lv, s.pushedB lv = (s.poppedB lv).map Prod.snd ++ (s.b lv).toList
  pending : ∀ lv, Pending s lv
  /-- A worker leaves its loop only once its level is closed. -/
  left : ∀ lv w, s.workers lv w ≠ .popping → s.eofForwarded lv = true

/-- A worker that leaves its loop has found the marker, or that it was posted. -/
theorem Ending.left_step (h : Ending s) (hm : Move u s act s') (lv : Level) (w : Fin W)
    (hw : s'.workers lv w ≠ .popping) : s'.eofForwarded lv = true := by
  have hset : ∀ {lv' : Level} {w' : Fin W} {pc : WorkerPc},
      (pc ≠ .popping → s.eofForwarded lv' = true) →
      (s.setWorker lv' w' pc).workers lv w ≠ .popping → s.eofForwarded lv = true := by
    intro lv' w' pc hpc hw
    by_cases hlv : lv = lv'
    · subst hlv
      by_cases hww : w = w'
      · subst hww
        simp only [setWorker_workers, Function.update_self] at hw
        exact hpc hw
      · exact h.left lv w (by simpa [hww] using hw)
    · exact h.left lv w (by simpa [hlv] using hw)
  cases hm with
  | popB lv' w' entry b hpc hb =>
    refine hset (fun hleft => ?_) hw
    have he : entry.isEof = true := by
      by_contra he
      rw [Bool.not_eq_true] at he
      simp [he] at hleft
    refine (h.books.marked lv').mpr ⟨entry, ?_, he⟩
    rw [h.popped, hb]
    exact List.mem_append_right _ List.mem_cons_self
  | drained lv' w' hpc hb hp => exact hset (fun _ => by rw [← h.books.posted, hp]) hw
  | passed lv' w' hpc => exact hset (fun _ => h.left lv' w' (by simp [hpc])) hw
  | sendEof lv' b hpc =>
    have hf := h.left lv w hw
    by_cases hlv : lv = lv'
    · rw [hlv]
      exact Function.update_self ..
    · exact (Function.update_of_ne hlv ..).trans hf
  | _ => exact h.left lv w hw

theorem ending_reachable (hR : 0 < R) (h : (pipeline u).Reachable s) : Ending s := by
  refine h.induct ⟨books_init, fun _ => rfl, fun lv => .unpushed ⟨0, hR⟩ rfl,
    fun lv w hw => absurd rfl hw⟩ fun s a s' hI hs => ?_
  have hm : Move u s a s' := pipelineStep_move hs
  exact ⟨books_step hI.books hm, popped_step hI.books hI.popped hm,
    fun lv => pending_step hI.books (hI.pending lv) hs, hI.left_step hm⟩

/-- **No marker is missing**: once all parser threads have exited and the dispatcher has emptied
Region A, all levels are closed. -/
theorem closed_of_parsed (h : Ending s) (hp : ∀ r, s.parsers r = .exited) (ha : s.a.toList = [])
    (hd : s.dispatcher = .popping) (lv : Level) : s.eofForwarded lv = true := by
  cases h.pending lv with
  | closed h => exact h
  | unpushed r h => rw [hp r] at h; cases h
  | inA h => rw [ha] at h; cases h
  | popped h => rw [hd] at h; cases h
  | sending h => rw [hd] at h; cases h

end Pipeline

variable {u : RunSetup R W} {s s' : Run R W} {act : RunAct R W}

/-! ## Before the end something can happen -/

/-- Nothing can happen but polls and failing calls. -/
def Blocked (u : RunSetup R W) (s : Run R W) : Prop :=
  ∀ act, advances s act = true → act.fails = false → runStep u s act = none

theorem Blocked.pipeline (h : Blocked u s) {a : Act R W} (ha : ∀ lv w, a ≠ .worker lv w)
    (hp : s.pipeline.polls a = false) : pipelineStep u.toSetup s.pipeline a = none := by
  have hnone : pipelineAct u s a = none := h (.pipeline a) (by simp [advances, Run.polls, hp]) rfl
  unfold pipelineAct at hnone
  split at hnone
  · exact absurd rfl (ha _ _)
  · exact Option.map_eq_none_iff.mp hnone

theorem Blocked.worker (h : Blocked u s) {lv : Level} {w : Fin W}
    (hw : s.threads lv w = .running) : workerStep s.pipeline lv w = none := by
  have hnone : pipelineAct u s (.worker lv w) = none := h (.pipeline (.worker lv w)) rfl rfl
  simp only [pipelineAct, if_pos hw] at hnone
  exact Option.map_eq_none_iff.mp hnone

/-- The main thread of an analyzer that cannot go on joins a worker, or has returned. -/
theorem Blocked.analyzer (h : Blocked u s) (lv : Level) :
    (∃ n k, s.analyzers lv = .abandoning n k) ∨ (∃ n, s.analyzers lv = .gaveUp n) ∨
      (∃ k, ∃ hk : k < W, s.analyzers lv = .joining k ∧
        (s.threads lv ⟨k, hk⟩).ended = false) ∨ s.analyzers lv = .returned := by
  have hnone : analyzerStep s lv = none := h (.analyzer lv) rfl rfl
  cases hpc : s.analyzers lv with
  | clearing => simp [analyzerStep, hpc] at hnone
  | creating k =>
    simp only [analyzerStep, hpc] at hnone
    split_ifs at hnone
  | joining k =>
    simp only [analyzerStep, hpc] at hnone
    split_ifs at hnone with hk hended
    exact .inr (.inr (.inl ⟨k, hk, rfl, by simpa using hended⟩))
  | abandoning n k => exact .inl ⟨n, k, rfl⟩
  | publishing => simp [analyzerStep, hpc] at hnone
  | posting => simp [analyzerStep, hpc] at hnone
  | returned => exact .inr (.inr (.inr rfl))
  | gaveUp n => exact .inr (.inl ⟨n, rfl⟩)

/-- An analyzer that gives up has a worker missing. -/
structure Abandons (s : Run R W) : Prop where
  abandoning : ∀ lv n k, s.analyzers lv = .abandoning n k → n < W
  gaveUp : ∀ lv n, s.analyzers lv = .gaveUp n → n < W

theorem Abandons.setAnalyzer (h : Abandons s) {lv : Level} {pc : AnalyzerPc}
    (ha : s'.analyzers = Function.update s.analyzers lv pc)
    (hab : ∀ n k, pc = .abandoning n k → n < W) (hgu : ∀ n, pc = .gaveUp n → n < W) :
    Abandons s' where
  abandoning := fun lv' n k hpc => by
    rw [ha] at hpc
    by_cases hlv : lv' = lv
    · rw [hlv, Function.update_self] at hpc
      exact hab n k hpc
    · rw [Function.update_of_ne hlv] at hpc
      exact h.abandoning lv' n k hpc
  gaveUp := fun lv' n hpc => by
    rw [ha] at hpc
    by_cases hlv : lv' = lv
    · rw [hlv, Function.update_self] at hpc
      exact hgu n hpc
    · rw [Function.update_of_ne hlv] at hpc
      exact h.gaveUp lv' n hpc

theorem abandons_reachable (h : (program u).Reachable s) : Abandons s := by
  refine h.induct ⟨fun _ _ _ h => (by cases h), fun _ _ h => (by cases h)⟩ fun s a s' hI hs => ?_
  cases runMove_of_step hs with
  | clear lv hpc => exact hI.setAnalyzer rfl (by simp) (by simp)
  | publish lv hpc => exact hI.setAnalyzer rfl (by simp) (by simp)
  | post lv hpc => exact hI.setAnalyzer rfl (by simp) (by simp)
  | fail lv k hpc hk =>
    refine hI.setAnalyzer rfl (fun n k' h => ?_) (by simp)
    rw [← (AnalyzerPc.abandoning.inj h).1]
    exact hk
  | main lv pc hg =>
    cases hg with
    | abandon n k hpc =>
      refine hI.setAnalyzer rfl (fun n' k' h => ?_) (by simp)
      rw [← (AnalyzerPc.abandoning.inj h).1]
      exact hI.abandoning lv n k hpc
    | giveUp n k hpc =>
      refine hI.setAnalyzer rfl (by simp) fun n' h => ?_
      rw [← AnalyzerPc.gaveUp.inj h]
      exact hI.abandoning lv n k hpc
    | _ => exact hI.setAnalyzer rfl (by simp) (by simp)
  | _ => exact ⟨hI.abandoning, hI.gaveUp⟩

/-- A reachable state in which nothing can happen, and no level has a worker missing. -/
structure Halted (u : RunSetup R W) (s : Run R W) : Prop where
  blocked : Blocked u s
  reported : Reported u s
  ending : Ending s.pipeline
  abandons : Abandons s
  unbroken : ∀ lv, ¬ Broken s lv

/-- The main thread of an analyzer joins a worker, or has returned. -/
theorem Halted.analyzer (h : Halted u s) (lv : Level) :
    (∃ k, ∃ hk : k < W, s.analyzers lv = .joining k ∧
      (s.threads lv ⟨k, hk⟩).ended = false) ∨ s.analyzers lv = .returned := by
  rcases h.blocked.analyzer lv with ⟨n, k, hpc⟩ | ⟨n, hpc⟩ | hjoin | hret
  · exact absurd (.abandoned n k hpc (h.abandons.abandoning lv n k hpc)) (h.unbroken lv)
  · exact absurd (.gaveUp n hpc (h.abandons.gaveUp lv n hpc)) (h.unbroken lv)
  · exact .inl hjoin
  · exact .inr hret

/-- Every worker has come to its loop. -/
theorem Halted.thread (h : Halted u s) (lv : Level) (w : Fin W) :
    s.threads lv w = .running ∨ s.threads lv w = .merged := by
  cases hpc : s.threads lv w with
  | running => exact .inl rfl
  | merged => exact .inr rfl
  | failed => exact absurd (.failed w hpc) (h.unbroken lv)
  | fresh =>
    have hc : (s.analyzers lv).created W = W := by
      rcases h.analyzer lv with ⟨k, hk, hpc, -⟩ | hpc <;> rw [hpc] <;> rfl
    have hnone : startStep s lv w = none := h.blocked (.start lv w) rfl rfl
    rw [startStep, if_pos ⟨hpc, by rw [hc]; exact w.isLt⟩] at hnone
    cases hnone

/-- The workers of a closed level have all merged. -/
theorem Halted.merged (h : Halted u s) {lv : Level} (hf : s.pipeline.eofForwarded lv = true)
    (w : Fin W) : s.threads lv w = .merged := by
  have hgone : ∀ v, s.pipeline.workers lv v ≠ .popping := by
    intro v hv
    rcases h.thread lv v with hrun | hmerged
    · have hnone := h.blocked.worker hrun
      simp only [workerStep, hv] at hnone
      split at hnone
      · rw [if_pos (by rw [h.ending.books.posted, hf])] at hnone
        cases hnone
      · cases hnone
    · rw [h.reported.workers.gone lv v hmerged] at hv
      cases hv
  refine (h.thread lv w).resolve_left fun hrun => ?_
  cases hpc : s.pipeline.workers lv w with
  | popping => exact hgone w hpc
  | barrier =>
    have hnone := h.blocked.worker hrun
    simp only [workerStep, hpc, if_pos hgone] at hnone
    cases hnone
  | exited =>
    have hnone : destructorStep u s lv w = none := h.blocked (.destructor lv w) rfl rfl
    rw [destructorStep, if_pos ⟨hrun, hpc⟩] at hnone
    cases hnone

/-- The workers of a level that is not closed have emptied its Region B. -/
theorem Halted.emptied (h : Halted u s) {lv : Level} (hf : s.pipeline.eofForwarded lv = false) :
    (s.pipeline.b lv).toList = [] := by
  have hpop : s.pipeline.workers lv ⟨0, u.workers_pos⟩ = .popping := by
    by_contra hpop
    rw [h.ending.left lv _ hpop] at hf
    cases hf
  rcases h.thread lv ⟨0, u.workers_pos⟩ with hrun | hmerged
  · have hnone := h.blocked.worker hrun
    simp only [workerStep, hpop] at hnone
    split at hnone
    · rename_i hb
      exact regionBPop_eq_none hb
    · cases hnone
  · rw [h.reported.workers.gone lv _ hmerged] at hpop
    cases hpop

theorem push_of_empty {α : Type*} {q : RingBuffer α} (h : q.toList = []) (x : α) :
    ∃ q', q.push x = some q' := by
  have hcount : q.count = 0 := by rw [← RingBuffer.length_toList, h, List.length_nil]
  have hne : q.count ≠ q.capacity := by
    have := q.head_lt
    omega
  rw [RingBuffer.push, dif_neg hne]
  exact ⟨_, rfl⟩

/-- The dispatcher waits on an empty Region A, or has returned. -/
theorem Halted.dispatcher (h : Halted u s) :
    (s.pipeline.dispatcher = .popping ∧ s.pipeline.a.toList = []) ∨
      s.pipeline.dispatcher = .returned := by
  have hnone : dispatcherStep u.toSetup s.pipeline = none :=
    h.blocked.pipeline (a := .dispatcher) (by simp) rfl
  cases hpc : s.pipeline.dispatcher with
  | looping =>
    simp only [dispatcherStep, hpc] at hnone
    split_ifs at hnone
  | popping =>
    simp only [dispatcherStep, hpc] at hnone
    split at hnone
    · rename_i ha
      exact .inl ⟨rfl, RingBuffer.pop_eq_none_iff.mp (Option.map_eq_none_iff.mp ha)⟩
    · cases hnone
  | popped entry =>
    simp only [dispatcherStep, hpc] at hnone
    split_ifs at hnone
  | sendingEof lv =>
    obtain ⟨q, hq⟩ := push_of_empty (h.emptied (h.ending.books.sending lv hpc).1)
      (eofEntry .error)
    simp [dispatcherStep, hpc, regionBPush, hq] at hnone
  | pushingD entry waited =>
    cases waited with
    | false =>
      simp only [dispatcherStep, hpc] at hnone
      split at hnone <;> cases hnone
    | true =>
      have hexp := h.blocked.pipeline (a := .dTimeout) (by simp) rfl
      simp [pipelineStep, dTimeoutStep, hpc] at hexp
  | pushingB entry waited =>
    cases waited with
    | false =>
      simp only [dispatcherStep, hpc] at hnone
      split at hnone <;> cases hnone
    | true =>
      have hexp := h.blocked.pipeline (a := .bTimeout) (by simp) rfl
      simp [pipelineStep, bTimeoutStep, hpc] at hexp
  | forcing rest =>
    cases rest with
    | nil => simp [dispatcherStep, hpc] at hnone
    | cons lv rest =>
      simp only [dispatcherStep, hpc] at hnone
      split_ifs at hnone
  | forcedEof lv rest => exact absurd hpc (h.ending.books.unforced lv rest)
  | finishing => simp [dispatcherStep, hpc] at hnone
  | returned => exact .inr rfl

/-- Every parser thread has exited: Region A has room, or the dispatcher has seen all its EOF
entries. -/
theorem Halted.parser (h : Halted u s) (r : Fin R) : s.pipeline.parsers r = .exited := by
  have hnone : parserStep s.pipeline r = none :=
    h.blocked.pipeline (a := .parser r) (by simp) rfl
  have hroom : s.pipeline.a.toList = [] ∨ ∀ lv, (s.pipeline.parsers r).hasClosed lv = true := by
    rcases h.dispatcher with ⟨-, ha⟩ | hret
    · exact .inl ha
    · exact .inr fun lv => h.ending.books.closed lv
        (h.ending.books.left (by rw [hret]; rfl) lv) r
  cases hpc : s.pipeline.parsers r with
  | exited => rfl
  | pushing rest =>
    cases rest with
    | nil => simp [parserStep, hpc] at hnone
    | cons entry rest =>
      rcases hroom with ha | hclosed
      · obtain ⟨q, hq⟩ := push_of_empty ha entry
        simp [parserStep, hpc, regionAPush, hq] at hnone
      · have := hclosed .error
        rw [hpc] at this
        cases this
  | closing rest =>
    cases rest with
    | nil => simp [parserStep, hpc] at hnone
    | cons lv rest =>
      rcases hroom with ha | hclosed
      · obtain ⟨q, hq⟩ := push_of_empty ha (eofEntry lv)
        simp [parserStep, hpc, regionAPush, hq] at hnone
      · have := hclosed lv
        rw [hpc] at this
        simp [ParserPc.hasClosed] at this

/-- The dispatcher has returned: otherwise it waits for a marker that does not come. -/
theorem Halted.returned (h : Halted u s) : s.pipeline.dispatcher = .returned := by
  refine h.dispatcher.resolve_left fun ⟨hpc, ha⟩ => ?_
  have hall := closed_of_parsed h.ending h.parser ha hpc
  have hclosed : Level.all.all s.pipeline.eofForwarded = true :=
    List.all_eq_true.mpr fun lv _ => hall lv
  have hcount : s.pipeline.a.count = 0 := by rw [← RingBuffer.length_toList, ha, List.length_nil]
  have hexp := h.blocked.pipeline (a := .aTimeout) (by simp) (by rw [Pipeline.polls, hclosed]; rfl)
  simp [pipelineStep, aTimeoutStep, hpc, hcount, hclosed] at hexp

/-- The aggregator has exited: none of its waits is for ever. -/
theorem Halted.aggregator (h : Halted u s) : s.aggregator = .exited := by
  have hstop : s.pipeline.aggregator = .stopped := by
    cases hpc : s.pipeline.aggregator with
    | stopped => rfl
    | scoring waited =>
      cases waited with
      | true =>
        have hexp := h.blocked.pipeline (a := .aggregatorTimeout) (by simp) rfl
        simp [pipelineStep, aggregatorTimeoutStep, hpc] at hexp
      | false =>
        have hnone := h.blocked.pipeline (a := .aggregator) (by simp) rfl
        simp only [pipelineStep, aggregatorStep, hpc] at hnone
        split at hnone
        · split_ifs at hnone
          contradiction
        · cases hnone
  have hnone : aggregatorMainStep u s = none := h.blocked .aggregator rfl rfl
  cases hpc : s.aggregator with
  | exited => rfl
  | joiningHp => simp [aggregatorMainStep, hpc, hstop] at hnone
  | writing rest => cases rest <;> simp [aggregatorMainStep, hpc] at hnone
  | waiting rest =>
    cases rest with
    | nil => simp [aggregatorMainStep, hpc] at hnone
    | cons lv rest =>
      have hexp : semTimeoutStep s = none := h.blocked .semTimeout rfl rfl
      simp only [aggregatorMainStep, hpc] at hnone
      simp only [semTimeoutStep, hpc] at hexp
      split_ifs at hnone hexp with hpos hzero
      exact absurd (Nat.pos_of_ne_zero hzero) hpos

/-- **Nothing is left but the end.** -/
theorem Halted.summarized (h : Halted u s) : s.summary.isSome = true := by
  have hclosed := h.ending.books.left (by rw [h.returned]; rfl)
  have hret : ∀ lv, s.analyzers lv = .returned := by
    intro lv
    refine (h.analyzer lv).resolve_left ?_
    rintro ⟨k, hk, -, hended⟩
    rw [h.merged (hclosed lv)] at hended
    cases hended
  have hexited : s.allExited = true := by
    simp only [Run.allExited, Bool.and_eq_true, decide_eq_true_eq]
    refine ⟨⟨⟨h.parser, h.returned⟩, List.all_eq_true.mpr fun lv _ => ?_⟩, h.aggregator⟩
    rw [hret lv]
  have hnone : parentStep s = none := h.blocked .parent rfl rfl
  rw [parentStep, hexited, Bool.true_and] at hnone
  cases hsum : s.summary with
  | some x => rfl
  | none =>
    rw [hsum] at hnone
    cases hnone

/-- Something can happen that is not a poll and no failing call. -/
def CanAdvance (u : RunSetup R W) (s : Run R W) : Prop :=
  ∃ act s', advances s act = true ∧ act.fails = false ∧ runStep u s act = some s'

theorem blocked_of_not (h : ¬ CanAdvance u s) : Blocked u s := by
  intro act hadv hok
  by_contra hs
  obtain ⟨s', hs'⟩ := Option.ne_none_iff_exists'.mp hs
  exact h ⟨act, s', hadv, hok, hs'⟩

/-- **No deadlock**, unless a level has a worker missing. -/
theorem exists_advance (hR : 0 < R) (h : (program u).Reachable s) :
    s.summary.isSome = true ∨ CanAdvance u s ∨ ∃ lv, Broken s lv := by
  by_contra hno
  simp only [not_or, not_exists] at hno
  obtain ⟨hsum, hadv, hbroken⟩ := hno
  have hh : Halted u s :=
    ⟨blocked_of_not hadv, reported_reachable h, ending_reachable hR (pipeline_reachable h),
      abandons_reachable h, hbroken⟩
  exact hsum hh.summarized

/-- Where no call fails, every worker has one to wait for. -/
theorem unbroken_of_undisturbed (h : (program u).ReachableIf (fun _ act => act.fails = false) s)
    (lv : Level) : ¬ Broken s lv := by
  have hI : (∀ lv w, s.threads lv w ≠ .failed) ∧
      ∀ lv, (∀ n k, s.analyzers lv ≠ .abandoning n k) ∧ ∀ n, s.analyzers lv ≠ .gaveUp n := by
    refine h.induct (I := fun s => (∀ lv w, s.threads lv w ≠ .failed) ∧
      ∀ lv, (∀ n k, s.analyzers lv ≠ .abandoning n k) ∧ ∀ n, s.analyzers lv ≠ .gaveUp n)
      ⟨fun _ _ h => (by cases h), fun _ => ⟨fun _ _ h => (by cases h), fun _ h => (by cases h)⟩⟩
      fun s a s' ⟨hthreads, hanalyzers⟩ hok hs => ?_
    have hset : ∀ {lv : Level} {pc : AnalyzerPc}, (∀ n k, pc ≠ .abandoning n k) →
        (∀ n, pc ≠ .gaveUp n) → ∀ lv', (∀ n k, Function.update s.analyzers lv pc lv' ≠
          .abandoning n k) ∧ ∀ n, Function.update s.analyzers lv pc lv' ≠ .gaveUp n := by
      intro lv pc hab hgu lv'
      by_cases hlv : lv' = lv
      · rw [hlv, Function.update_self]
        exact ⟨hab, hgu⟩
      · rw [Function.update_of_ne hlv]
        exact hanalyzers lv'
    cases runMove_of_step hs with
    | start lv w =>
      exact ⟨forall_setThread (P := fun _ _ pc => pc ≠ .failed) (by simp)
        fun lv w _ => hthreads lv w, hanalyzers⟩
    | merge lv w =>
      exact ⟨forall_setThread (P := fun _ _ pc => pc ≠ .failed) (by simp)
        fun lv w _ => hthreads lv w, hanalyzers⟩
    | callocFails => cases hok
    | fail => cases hok
    | clear lv hpc => exact ⟨hthreads, hset (by simp) (by simp)⟩
    | publish lv hpc => exact ⟨hthreads, hset (by simp) (by simp)⟩
    | post lv hpc => exact ⟨hthreads, hset (by simp) (by simp)⟩
    | main lv pc hg =>
      refine ⟨hthreads, ?_⟩
      cases hg with
      | abandon n k hpc => exact absurd hpc ((hanalyzers lv).1 n k)
      | giveUp n k hpc => exact absurd hpc ((hanalyzers lv).1 n k)
      | _ => exact hset (by simp) (by simp)
    | _ => exact ⟨hthreads, hanalyzers⟩
  intro hb
  cases hb with
  | failed w h => exact hI.1 lv w h
  | abandoned n k h => exact (hI.2 lv).1 n k h
  | gaveUp n h => exact (hI.2 lv).2 n h

/-- Where no call fails, the threads can go on to the summary without one. -/
theorem undisturbed_ends (hR : 0 < R)
    (h : (program u).ReachableIf (fun _ act => act.fails = false) s) :
    ∃ t, Relation.ReflTransGen ((program u).StepIf fun _ act => act.fails = false) s t ∧
      t.summary.isSome = true := by
  have hnext : ∀ s, (program u).ReachableIf (fun _ act => act.fails = false) s →
      s.summary.isSome = true ∨ ∃ act s', act.fails = false ∧ (program u).step s act = some s' ∧
        (program u).ReachableIf (fun _ act => act.fails = false) s' ∧ s'.work < s.work := by
    intro s hs
    rcases exists_advance hR hs.reachable with hsum | ⟨act, s', hadv, hok, hs'⟩ | ⟨lv, hb⟩
    · exact .inl hsum
    · refine .inr ⟨act, s', hok, hs', Relation.ReflTransGen.tail hs ⟨act, hok, hs'⟩, ?_⟩
      rcases work_step hs' with ⟨hpoll, -⟩ | hlt
      · rw [advances, hpoll] at hadv
        cases hadv
      · exact hlt
    · exact absurd hb (unbroken_of_undisturbed hs lv)
  exact Machine.exists_done Run.work hnext h

/-- **The program ends.** A run takes at most so many steps that are not polls of the dispatcher,
whatever times out and whatever fails. In every state before the parent's summary such a step can
be taken that is no failing call, or else a level has a worker missing; so where no call has failed
the threads can go on to the summary. -/
theorem run_ends (u : RunSetup R W) (hR : 0 < R) :
    (∀ as s, (program u).runs (firstState u) as = some s →
      (program u).count advances (firstState u) as ≤
        11 * ∑ r, (u.files r).length + 46 * R + 24 * W + 70) ∧
    (∀ s, (program u).Reachable s →
      s.summary.isSome = true ∨ CanAdvance u s ∨ ∃ lv, Broken s lv) ∧
    ∀ s, (program u).ReachableIf (fun _ act => act.fails = false) s →
      ∃ t, Relation.ReflTransGen ((program u).StepIf fun _ act => act.fails = false) s t ∧
        t.summary.isSome = true := by
  refine ⟨fun as s hrun => ?_, fun s h => exists_advance hR h, fun s h => undisturbed_ends hR h⟩
  have hle := Machine.count_add_le_of_lowers (p := advances) (J := fun _ => True) Run.work
    (fun _ _ _ _ _ => trivial) (fun s a s' _ hs => by
      rcases work_step hs with ⟨hpoll, heq⟩ | hlt
      · rw [show advances s a = false from by rw [advances, hpoll]; rfl, heq]
        exact Nat.le_of_eq (Nat.zero_add _)
      · split_ifs <;> omega) hrun trivial
  rw [work_first] at hle
  exact Nat.le_of_add_right_le hle

theorem run_ends_oneRun :
    (∀ as s, (program oneRun).runs (firstState oneRun) as = some s →
      (program oneRun).count advances (firstState oneRun) as ≤ 151) ∧
    CanAdvance oneRun (firstState oneRun) ∧
    ∃ t, (program oneRun).Reachable t ∧ t.summary.isSome = true := by
  obtain ⟨hle, hadv, hend⟩ := run_ends oneRun Nat.one_pos
  refine ⟨hle, ?_, ?_⟩
  · rcases hadv _ Machine.Reachable.init with hsum | hadv | ⟨lv, hb⟩
    · cases hsum
    · exact hadv
    · cases hb with
      | failed w h => cases h
      | abandoned n k h => cases h
      | gaveUp n h => cases h
  · obtain ⟨t, ht, hsum⟩ := hend _ Relation.ReflTransGen.refl
    exact ⟨t, Machine.ReachableIf.reachable ht, hsum⟩

end Cse344.HW4
