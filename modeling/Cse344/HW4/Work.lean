import Cse344.HW4.Report
import Cse344.Lib.Totals

/-!
# The steps a run of HW4 has yet to take

A measure of the machine of `Cse344.HW4.Report`, by which every run ends.

* `Run.polls` is the one step of a run that changes nothing, a wait of the dispatcher on an empty
  Region A that expires before all levels are closed (`HW4/src/processes/dispatcher.c` 71-161).
* `Run.work` is what is left to do, at most; an entry that is still to be pushed counts for the
  steps it causes at every thread it passes.

Results:
* `work_pipelineStep`: every step of the pipeline that is not a poll lowers the work.
* **`work_step`**: so does every step of a run, whatever expires and whatever fails, and a poll
  leaves it.
* `work_first`: the work of a whole run.

Out of scope: how long a step takes.
-/

namespace Cse344.HW4

open Cse344.Lib

variable {R W : ℕ}

/-! ## The work of the pipeline -/

section Pipeline

variable {u : Setup R W} {s s' : Pipeline R W} {act : Act R W}

/-- An entry to push costs a step, and ten more once it is in Region A. -/
def ParserPc.work : ParserPc → ℕ
  | .pushing rest => 11 * rest.length + 46
  | .closing rest => 11 * rest.length + 1
  | .exited => 0

/-- The steps to come, and those of the entries the dispatcher may yet push: one for an entry in a
Region B, two for one in Region D. -/
def DispatcherPc.work : DispatcherPc → ℕ
  | .looping => 16
  | .popping => 15
  | .popped _ => 24
  | .sendingEof _ => 18
  | .pushingD _ waited => if waited then 22 else 23
  | .pushingB _ waited => if waited then 18 else 19
  | .forcing rest => 3 * rest.length + 2
  | .forcedEof _ rest => 3 * rest.length + 4
  | .finishing => 1
  | .returned => 0

def WorkerPc.work : WorkerPc → ℕ
  | .popping => 2
  | .barrier => 1
  | .exited => 0

def AggregatorPc.work : AggregatorPc → ℕ
  | .scoring waited => if waited then 1 else 2
  | .stopped => 0

/-- An upper bound on the steps to come. -/
def Pipeline.work (s : Pipeline R W) : ℕ :=
  ∑ r, (s.parsers r).work + 10 * s.a.toList.length + s.dispatcher.work +
    ∑ lv, (s.b lv).toList.length + 2 * s.d.toList.length + ∑ lv, ∑ w, (s.workers lv w).work +
    s.aggregator.work

/-- A parser thread moves, and may push. -/
theorem work_setParser {r : Fin R} {pc : ParserPc} {a : RegionA} {pushedA : List LogEntry}
    (h : pc.work + 10 * a.toList.length < (s.parsers r).work + 10 * s.a.toList.length) :
    Pipeline.work { s.setParser r pc with a := a, pushedA := pushedA } < s.work := by
  have hsum := sum_update_add ParserPc.work s.parsers r pc
  simp only [Pipeline.work, setParser_parsers] at *
  dsimp only [Pipeline.setParser]
  omega

/-- The dispatcher moves, and nothing is pushed. -/
theorem work_setDispatcher {pc : DispatcherPc} (h : pc.work < s.dispatcher.work) :
    Pipeline.work { s with dispatcher := pc } < s.work := by
  simp only [Pipeline.work]
  omega

/-- The dispatcher pushes to a Region B. -/
theorem work_pushB {lv : Level} {b : RegionB} {entry : LogEntry} {pc : DispatcherPc}
    {forwarded : Level → Bool} {n : ℕ} (hb : b.toList = (s.b lv).toList ++ [entry])
    (h : pc.work + 1 < s.dispatcher.work) :
    Pipeline.work { s.pushB lv b entry with
      eofForwarded := forwarded, finishedLevels := n, dispatcher := pc } < s.work := by
  have hsum := sum_update_add (fun b : RegionB => b.toList.length) s.b lv b
  rw [hb, List.length_append, List.length_singleton] at hsum
  simp only [Pipeline.work, pushB_b] at *
  dsimp only [Pipeline.pushB]
  omega

theorem work_parserStep {r : Fin R} (hs : parserStep s r = some s') : s'.work < s.work := by
  unfold parserStep at hs
  split at hs <;> rename_i hpc
  · obtain rfl := Option.some.inj hs
    refine work_setParser ?_
    rw [hpc]
    simp only [ParserPc.work, Level.all, List.length_nil, List.length_cons]
    omega
  · split at hs
    · cases hs
    · rename_i a ha
      obtain rfl := Option.some.inj hs
      refine work_setParser ?_
      rw [hpc, (regionAPush_spec ha).1]
      simp only [ParserPc.work, List.length_append, List.length_cons, List.length_nil]
      omega
  · obtain rfl := Option.some.inj hs
    refine work_setParser ?_
    rw [hpc]
    simp only [ParserPc.work, List.length_nil]
    omega
  · split at hs
    · cases hs
    · rename_i a ha
      obtain rfl := Option.some.inj hs
      refine work_setParser ?_
      rw [hpc]
      dsimp only
      rw [(regionAPush_spec ha).1]
      simp only [ParserPc.work, List.length_append, List.length_cons, List.length_nil]
      omega
  · cases hs

theorem work_dispatcherStep (hs : dispatcherStep u s = some s') : s'.work < s.work := by
  unfold dispatcherStep at hs
  split at hs <;> rename_i hpc
  · split at hs <;> obtain rfl := Option.some.inj hs
    · exact work_setDispatcher (by rw [hpc]; decide)
    · exact work_setDispatcher (by rw [hpc]; decide)
  · split at hs
    · cases hs
    · rename_i entry a ha
      obtain rfl := Option.some.inj hs
      have hlen := congrArg List.length (regionAPop_spec ha).1
      rw [List.length_cons] at hlen
      simp only [Pipeline.work, hpc, DispatcherPc.work, hlen]
      omega
  · split at hs
    · split at hs <;> obtain rfl := Option.some.inj hs
      · exact work_setDispatcher (by rw [hpc]; simp only [DispatcherPc.work]; omega)
      · exact work_setDispatcher (by rw [hpc]; simp only [DispatcherPc.work]; omega)
    · split at hs <;> obtain rfl := Option.some.inj hs
      · exact work_setDispatcher (by rw [hpc]; simp [DispatcherPc.work])
      · exact work_setDispatcher (by rw [hpc]; simp [DispatcherPc.work])
  · split at hs
    · cases hs
    · rename_i b hb
      obtain rfl := Option.some.inj hs
      exact work_pushB (regionBPush_spec hb).1 (by rw [hpc]; simp only [DispatcherPc.work]; omega)
  · split at hs
    · split_ifs at hs with hw
      obtain rfl := Option.some.inj hs
      exact work_setDispatcher (by rw [hpc, Bool.eq_false_iff.mpr hw]; simp [DispatcherPc.work])
    · rename_i waited _ d hd
      obtain rfl := Option.some.inj hs
      have hlen := congrArg List.length (regionDPush_spec hd)
      rw [List.length_append, List.length_singleton] at hlen
      simp only [Pipeline.work, hpc, DispatcherPc.work, hlen]
      cases waited <;> simp only [if_true, if_false, Bool.false_eq_true] <;> omega
  · split at hs
    · split_ifs at hs with hw
      obtain rfl := Option.some.inj hs
      exact work_setDispatcher (by rw [hpc, Bool.eq_false_iff.mpr hw]; simp [DispatcherPc.work])
    · rename_i waited _ b hb
      obtain rfl := Option.some.inj hs
      refine work_pushB (regionBPush_spec hb).1 ?_
      rw [hpc]
      cases waited <;> simp [DispatcherPc.work]
  · obtain rfl := Option.some.inj hs
    exact work_setDispatcher (by rw [hpc]; decide)
  · split at hs <;> obtain rfl := Option.some.inj hs <;> refine work_setDispatcher ?_ <;>
      rw [hpc] <;> simp only [DispatcherPc.work, List.length_cons] <;> omega
  · split at hs
    · cases hs
    · rename_i b hb
      obtain rfl := Option.some.inj hs
      exact work_pushB (regionBPush_spec hb).1 (by rw [hpc]; simp only [DispatcherPc.work]; omega)
  · obtain rfl := Option.some.inj hs
    simp only [Pipeline.work, hpc, DispatcherPc.work]
    omega
  · cases hs

/-- A worker moves. -/
theorem work_setWorker {lv : Level} {w : Fin W} {pc : WorkerPc} {b : RegionB}
    {poppedB : Level → List (Fin W × LogEntry)}
    (h : pc.work + b.toList.length < (s.workers lv w).work + (s.b lv).toList.length) :
    Pipeline.work { s.setWorker lv w pc with
      b := Function.update s.b lv b, poppedB := poppedB } < s.work := by
  have hsum := sum_update_add (fun b : RegionB => b.toList.length) s.b lv b
  have hrow := sum_update_add WorkerPc.work (s.workers lv) w pc
  have hall := sum_update_add (fun row : Fin W → WorkerPc => ∑ w, (row w).work) s.workers lv
    (Function.update (s.workers lv) w pc)
  simp only [Pipeline.work, setWorker_workers] at *
  dsimp only [Pipeline.setWorker]
  omega

theorem work_workerStep {lv : Level} {w : Fin W} (hs : workerStep s lv w = some s') :
    s'.work < s.work := by
  have hstay : ∀ {pc : WorkerPc}, pc.work < (s.workers lv w).work →
      (s.setWorker lv w pc).work < s.work := by
    intro pc hpc
    have := @work_setWorker _ _ s lv w pc (s.b lv) s.poppedB (Nat.add_lt_add_right hpc _)
    rwa [Function.update_eq_self] at this
  unfold workerStep at hs
  split at hs <;> rename_i hpc
  · split at hs
    · split_ifs at hs
      obtain rfl := Option.some.inj hs
      exact hstay (by rw [hpc]; decide)
    · rename_i entry b hb
      obtain rfl := Option.some.inj hs
      refine work_setWorker ?_
      rw [hpc, (regionBPop_spec hb).1, List.length_cons]
      cases entry.isEof
      · simp [WorkerPc.work]
      · simp only [if_true, WorkerPc.work]
        omega
  · split_ifs at hs
    obtain rfl := Option.some.inj hs
    exact hstay (by rw [hpc]; decide)
  · cases hs

theorem work_aggregatorStep (hs : aggregatorStep s = some s') : s'.work < s.work := by
  unfold aggregatorStep at hs
  split at hs <;> rename_i hpc
  · rename_i waited
    split at hs
    · split_ifs at hs with hdone hw
      · obtain rfl := Option.some.inj hs
        simp only [Pipeline.work, hpc, AggregatorPc.work]
        cases waited <;> simp
      · obtain rfl := Option.some.inj hs
        simp only [Pipeline.work, hpc, AggregatorPc.work, Bool.eq_false_iff.mpr hw]
        simp
    · rename_i entry d hd
      obtain rfl := Option.some.inj hs
      have hlen := congrArg List.length (regionDPop_spec hd)
      rw [List.length_cons] at hlen
      simp only [Pipeline.work, hpc, AggregatorPc.work, hlen]
      cases waited
      · simp
      · simp only [if_true, Bool.false_eq_true, if_false]
        omega
  · cases hs

/-- The dispatcher waits again on an empty Region A. -/
def Pipeline.polls (s : Pipeline R W) : Act R W → Bool
  | .aTimeout => !Level.all.all s.eofForwarded
  | _ => false

/-- **Every step of the pipeline that is not a poll lowers the work.** -/
theorem work_pipelineStep (hs : pipelineStep u s act = some s') :
    (s.polls act = true ∧ s' = s) ∨ s'.work < s.work := by
  cases act with
  | parser r => exact .inr (work_parserStep hs)
  | dispatcher => exact .inr (work_dispatcherStep hs)
  | worker lv w => exact .inr (work_workerStep hs)
  | aggregator => exact .inr (work_aggregatorStep hs)
  | aTimeout =>
    simp only [pipelineStep, aTimeoutStep] at hs
    split at hs <;> rename_i hpc
    · split_ifs at hs with hempty hall
      · obtain rfl := Option.some.inj hs
        exact .inr (work_setDispatcher (by rw [hpc]; decide))
      · obtain rfl := Option.some.inj hs
        refine .inl ⟨?_, rfl⟩
        rw [Pipeline.polls, Bool.eq_false_iff.mpr hall]
        rfl
    · cases hs
  | dTimeout =>
    simp only [pipelineStep, dTimeoutStep] at hs
    split at hs <;> rename_i hpc
    · obtain rfl := Option.some.inj hs
      exact .inr (work_setDispatcher (by rw [hpc]; simp [DispatcherPc.work]))
    · cases hs
  | bTimeout =>
    simp only [pipelineStep, bTimeoutStep] at hs
    split at hs <;> rename_i hpc
    · obtain rfl := Option.some.inj hs
      exact .inr (work_setDispatcher (by rw [hpc]; simp [DispatcherPc.work]))
    · cases hs
  | aggregatorTimeout =>
    simp only [pipelineStep, aggregatorTimeoutStep] at hs
    split at hs <;> rename_i hpc
    · obtain rfl := Option.some.inj hs
      refine .inr ?_
      simp only [Pipeline.work, hpc, AggregatorPc.work]
      simp
    · cases hs

end Pipeline

/-! ## The work of a run -/

variable {u : RunSetup R W} {s s' : Run R W} {act : RunAct R W}

def ThreadPc.work : ThreadPc → ℕ
  | .fresh => 2
  | .running => 1
  | .failed => 0
  | .merged => 0

def AnalyzerPc.work (W : ℕ) : AnalyzerPc → ℕ
  | .clearing => 2 * W + 6
  | .creating k => (W - k) + W + 5
  | .joining k => (W - k) + 4
  | .abandoning n k => (n - k) + 1
  | .publishing => 2
  | .posting => 1
  | .returned => 0
  | .gaveUp _ => 0

def AggregatorMain.work : AggregatorMain → ℕ
  | .waiting rest => rest.length + 23
  | .joiningHp => 22
  | .writing rest => rest.length + 1
  | .exited => 0

def Run.work (s : Run R W) : ℕ :=
  s.pipeline.work + ∑ lv, ∑ w, (s.threads lv w).work + ∑ lv, (s.analyzers lv).work W +
    s.aggregator.work + if s.summary.isNone then 1 else 0

/-- The dispatcher waits again on an empty Region A. -/
def Run.polls (s : Run R W) : RunAct R W → Bool
  | .pipeline act => s.pipeline.polls act
  | _ => false

/-- A step that is not a poll. -/
def advances (s : Run R W) (act : RunAct R W) : Bool := !s.polls act

/-- A `calloc` or a `pthread_create` fails. -/
def RunAct.fails : RunAct R W → Bool
  | .callocFails _ _ => true
  | .createFails _ => true
  | _ => false

theorem work_setThread {lv : Level} {w : Fin W} {pc : ThreadPc}
    (h : pc.work < (s.threads lv w).work) (hp : s'.pipeline = s.pipeline)
    (ht : s'.threads = (s.setThread lv w pc).threads) (ha : s'.analyzers = s.analyzers)
    (hag : s'.aggregator = s.aggregator) (hsum : s'.summary = s.summary) : s'.work < s.work := by
  have hrow := sum_update_add ThreadPc.work (s.threads lv) w pc
  have hall := sum_update_add (fun row : Fin W → ThreadPc => ∑ w, (row w).work) s.threads lv
    (Function.update (s.threads lv) w pc)
  simp only [Run.work, hp, ht, ha, hag, hsum, Run.setThread] at *
  omega

theorem work_setAnalyzer {lv : Level} {pc : AnalyzerPc} (h : pc.work W < (s.analyzers lv).work W)
    (hp : s'.pipeline = s.pipeline) (ht : s'.threads = s.threads)
    (ha : s'.analyzers = Function.update s.analyzers lv pc) (hag : s'.aggregator = s.aggregator)
    (hsum : s'.summary = s.summary) : s'.work < s.work := by
  have hall := sum_update_add (AnalyzerPc.work W) s.analyzers lv pc
  simp only [Run.work, hp, ht, ha, hag, hsum] at *
  omega

theorem work_analyzerStep {lv : Level} (hs : analyzerStep s lv = some s') : s'.work < s.work := by
  unfold analyzerStep at hs
  split at hs <;> rename_i hpc
  · obtain rfl := Option.some.inj hs
    refine work_setAnalyzer ?_ rfl rfl rfl rfl rfl
    rw [hpc]
    simp only [AnalyzerPc.work]
    omega
  · split_ifs at hs with hk <;> obtain rfl := Option.some.inj hs <;>
      refine work_setAnalyzer ?_ rfl rfl rfl rfl rfl <;> rw [hpc] <;>
      simp only [AnalyzerPc.work] <;> omega
  · split_ifs at hs with hk hended <;> obtain rfl := Option.some.inj hs <;>
      refine work_setAnalyzer ?_ rfl rfl rfl rfl rfl <;> rw [hpc] <;>
      simp only [AnalyzerPc.work] <;> omega
  · split_ifs at hs with hk hk' hended <;> obtain rfl := Option.some.inj hs <;>
      refine work_setAnalyzer ?_ rfl rfl rfl rfl rfl <;> rw [hpc] <;>
      simp only [AnalyzerPc.work] <;> omega
  · obtain rfl := Option.some.inj hs
    exact work_setAnalyzer (by rw [hpc]; exact Nat.one_lt_two) rfl rfl rfl rfl rfl
  · obtain rfl := Option.some.inj hs
    exact work_setAnalyzer (by rw [hpc]; exact Nat.one_pos) rfl rfl rfl rfl rfl
  · cases hs
  · cases hs

theorem readings_length : readings.length = 19 := by decide

theorem work_aggregatorMainStep (hs : aggregatorMainStep u s = some s') : s'.work < s.work := by
  unfold aggregatorMainStep at hs
  split at hs <;> rename_i hpc
  · obtain rfl := Option.some.inj hs
    simp [Run.work, hpc, AggregatorMain.work]
  · split_ifs at hs
    obtain rfl := Option.some.inj hs
    simp [Run.work, hpc, AggregatorMain.work]
  · split_ifs at hs
    obtain rfl := Option.some.inj hs
    simp [Run.work, hpc, AggregatorMain.work, readings_length]
  · obtain rfl := Option.some.inj hs
    simp [Run.work, hpc, AggregatorMain.work]
  · obtain rfl := Option.some.inj hs
    simp [Run.work, hpc, AggregatorMain.work]
  · cases hs

theorem work_pipelineAct {a : Act R W} (hs : pipelineAct u s a = some s') :
    (s.pipeline.polls a = true ∧ s'.work = s.work) ∨ s'.work < s.work := by
  obtain ⟨p, hp, hpipe, ht, ha, hag, hsum⟩ : ∃ p, pipelineStep u.toSetup s.pipeline a = some p ∧
      s'.pipeline = p ∧ s'.threads = s.threads ∧ s'.analyzers = s.analyzers ∧
      s'.aggregator = s.aggregator ∧ s'.summary = s.summary := by
    unfold pipelineAct at hs
    split at hs
    · split_ifs at hs
      obtain ⟨p, hp, rfl⟩ := Option.map_eq_some_iff.mp hs
      exact ⟨p, hp, rfl, rfl, rfl, rfl, rfl⟩
    · obtain ⟨p, hp, rfl⟩ := Option.map_eq_some_iff.mp hs
      exact ⟨p, hp, rfl, rfl, rfl, rfl, rfl⟩
  simp only [Run.work, hpipe, ht, ha, hag, hsum]
  rcases work_pipelineStep hp with ⟨hpoll, rfl⟩ | hlt
  · exact .inl ⟨hpoll, rfl⟩
  · exact .inr (by omega)

/-- **Every step that is not a poll lowers the work**, and a poll leaves it. -/
theorem work_step (hs : runStep u s act = some s') :
    (s.polls act = true ∧ s'.work = s.work) ∨ s'.work < s.work := by
  cases act with
  | pipeline a => exact work_pipelineAct hs
  | start lv w =>
    simp only [runStep, startStep] at hs
    split_ifs at hs with hf
    obtain rfl := Option.some.inj hs
    exact .inr (work_setThread (by rw [hf.1]; decide) rfl rfl rfl rfl rfl)
  | callocFails lv w =>
    simp only [runStep, callocFailsStep] at hs
    split_ifs at hs with hf
    obtain rfl := Option.some.inj hs
    exact .inr (work_setThread (by rw [hf.1]; decide) rfl rfl rfl rfl rfl)
  | destructor lv w =>
    simp only [runStep, destructorStep] at hs
    split_ifs at hs with hr
    obtain rfl := Option.some.inj hs
    exact .inr (work_setThread (by rw [hr.1]; decide) rfl rfl rfl rfl rfl)
  | analyzer lv => exact .inr (work_analyzerStep hs)
  | createFails lv =>
    simp only [runStep, createFailsStep] at hs
    split at hs <;> rename_i hpc
    · split_ifs at hs with hk
      obtain rfl := Option.some.inj hs
      refine .inr (work_setAnalyzer ?_ rfl rfl rfl rfl rfl)
      rw [hpc]
      simp only [AnalyzerPc.work]
      omega
    · cases hs
  | aggregator => exact .inr (work_aggregatorMainStep hs)
  | semTimeout =>
    simp only [runStep, semTimeoutStep] at hs
    split at hs <;> rename_i hpc
    · split_ifs at hs
      obtain rfl := Option.some.inj hs
      refine .inr ?_
      simp [Run.work, hpc, AggregatorMain.work]
    · cases hs
  | parent =>
    simp only [runStep, parentStep] at hs
    split_ifs at hs with h
    obtain rfl := Option.some.inj hs
    rw [Bool.and_eq_true] at h
    refine .inr ?_
    simp [Run.work, h.2]

theorem work_first (u : RunSetup R W) :
    (firstState u).work = 11 * ∑ r, (u.files r).length + 46 * R + 24 * W + 70 := by
  have hcard : Fintype.card Level = 4 := by decide
  simp only [Run.work, firstState, Pipeline.work, initial, ParserPc.work, DispatcherPc.work,
    WorkerPc.work, AggregatorPc.work, ThreadPc.work, AnalyzerPc.work, AggregatorMain.work,
    Finset.sum_add_distrib, ← Finset.mul_sum, Finset.sum_const, Finset.card_univ, Fintype.card_fin,
    hcard, smul_eq_mul, RingBuffer.length_toList, RingBuffer.empty, Level.all, List.length_cons,
    List.length_nil, Option.isNone_none, if_true, Bool.false_eq_true, if_false]
  omega

end Cse344.HW4
