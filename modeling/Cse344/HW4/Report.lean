import Cse344.HW4.HighPriority

/-!
# The analyzers, the aggregator and the parent of HW4

Model of `run_analyzer`, `worker_thread_func` and `tls_destructor` (`HW4/src/processes/analyzer.c`
52-277), of `run_aggregator` (`HW4/src/processes/aggregator.c` 194-242) and of `wait_for_children`
and `print_final_summary` (`HW4/src/main.c` 11-91), around the pipeline: a machine whose state holds
that of the pipeline and whose actions are those of the pipeline, by workers that have started, and
the steps of the threads around it.

* A worker's `tls_destructor` is one step, under the mutex of Region C. It runs when the worker has
  exited, so after the barrier.
* A worker whose `calloc` fails returns at once. It never comes to the barrier, and in the pipeline
  it stays where it started. `createFails` is a `pthread_create` that fails; at worker 0 it also
  stands for the failures of `run_analyzer` before its first worker.
* `sem_timedwait` only expires while the semaphore is 0.
* After its four waits the aggregator joins the thread that empties Region D, and reads Region C
  without the mutex: `sort_results`, the sum of the totals, and each line and record it writes are
  one step each (`Reading`), though the code reads them field by field. Of a level that was not
  received, a destructor may run in between, so that of such a reading only single fields are meant.
  The log `seen` holds what each of them found.
* The readers begin where they have opened their files and started their threads.
* `ready` is set and written, and nothing tests it. The `level` of a result is its index.

Results:
* `runMove_of_step`: what a step of a run does.
* `pipeline_reachableIf`: what holds of the pipeline's runs holds of the pipeline in a run.

Out of scope: SIGINT, on which `wait_for_children` kills the children and goes on to the summary
(17-38); the failures of `run_reader` (`fopen`, `ibuf_init`, `malloc`, its `pthread_create`s), which
are in `Cse344.HW4.Readers`; a failing `pthread_create` of the aggregator; and the printed lines.
-/

namespace Cse344.HW4

open Cse344.Lib

/-- The arguments of a whole run, as `parse_arguments` accepts them. -/
structure RunSetup (R W : ℕ) extends Setup R W where
  args : Args
  keywords_ne : ∀ word ∈ args.keywords, word ≠ []
  workers_le : W ≤ maxWorkers

/-- Where a worker thread is, around its loop. -/
inductive ThreadPc
  /-- before its `calloc` -/
  | fresh
  | running
  /-- its `calloc` has failed -/
  | failed
  /-- its `tls_destructor` has run -/
  | merged
  deriving DecidableEq, Repr

/-- Where the main thread of an analyzer is. -/
inductive AnalyzerPc
  /-- before the `memset` -/
  | clearing
  /-- has created `k` workers -/
  | creating (k : ℕ)
  /-- has joined `k` workers -/
  | joining (k : ℕ)
  /-- could not create worker `n`, and has joined `k` of those before it -/
  | abandoning (n k : ℕ)
  /-- before setting `ready` -/
  | publishing
  /-- before `sem_post` -/
  | posting
  /-- has posted -/
  | returned
  /-- has returned without posting, with `n` workers created -/
  | gaveUp (n : ℕ)
  deriving DecidableEq, Repr

/-- What the aggregator computes or writes from Region C. -/
inductive Reading
  /-- `sort_results` -/
  | order
  /-- `total_weighted` of `run_aggregator` -/
  | total
  /-- `TOTAL_WEIGHTED_SCORE` of the text file -/
  | txtTotal
  /-- the line of the `si`-th level of `order` in each part of the text file -/
  | txtScores (si : Fin 4)
  | txtSources (si : Fin 4)
  | txtThreads (si : Fin 4)
  /-- the record of a level in the binary file -/
  | binLevel (lv : Level)
  deriving DecidableEq, Repr

/-- The readings of `run_aggregator`, in order. -/
def readings : List Reading :=
  [.order, .total, .txtTotal] ++ (List.finRange 4).map .txtScores ++
    (List.finRange 4).map .txtSources ++ (List.finRange 4).map .txtThreads ++
    Level.all.map .binLevel

/-- Where the main thread of the aggregator is. -/
inductive AggregatorMain
  /-- has these levels to wait for -/
  | waiting (rest : List Level)
  /-- in `pthread_join` of the thread that empties Region D -/
  | joiningHp
  | writing (rest : List Reading)
  | exited
  deriving DecidableEq, Repr

/-- The state of a run. -/
structure Run (R W : ℕ) where
  pipeline : Pipeline R W
  threads : Level → Fin W → ThreadPc
  tls : Level → Fin W → TlsData
  analyzers : Level → AnalyzerPc
  results : Level → LevelResult
  ready : Level → Bool
  sem : Level → ℕ
  aggregator : AggregatorMain
  /-- The aggregator's wait for the level has not expired. -/
  received : Level → Bool
  highPriorityScore : ℕ
  /-- What each reading of the aggregator found in Region C. -/
  seen : List (Reading × (Level → LevelResult))
  /-- What `print_final_summary` found there, once it has run. -/
  summary : Option (Level → LevelResult)
  /-- The workers of each level whose destructors have run, in order. -/
  mergeOrder : Level → List (Fin W)

/-- The steps of a run whose readers have opened their files and started their threads. -/
inductive RunAct (R W : ℕ)
  | pipeline (act : Act R W)
  /-- A worker's `calloc` succeeds. -/
  | start (lv : Level) (w : Fin W)
  | callocFails (lv : Level) (w : Fin W)
  | destructor (lv : Level) (w : Fin W)
  /-- The next step of the main thread of an analyzer. -/
  | analyzer (lv : Level)
  | createFails (lv : Level)
  /-- The next step of the main thread of the aggregator. -/
  | aggregator
  | semTimeout
  /-- The parent has waited for all its children. -/
  | parent
  deriving DecidableEq, Repr

variable {R W : ℕ}

/-- The number of workers an analyzer has created. -/
def AnalyzerPc.created (W : ℕ) : AnalyzerPc → ℕ
  | .clearing => 0
  | .creating k => k
  | .abandoning n _ => n
  | .gaveUp n => n
  | _ => W

/-- The thread has ended. -/
def ThreadPc.ended : ThreadPc → Bool
  | .failed => true
  | .merged => true
  | _ => false

def Run.setThread (s : Run R W) (lv : Level) (w : Fin W) (pc : ThreadPc) : Run R W :=
  { s with threads := Function.update s.threads lv (Function.update (s.threads lv) w pc) }

def Run.setTls (s : Run R W) (lv : Level) (w : Fin W) (tls : TlsData) : Run R W :=
  { s with tls := Function.update s.tls lv (Function.update (s.tls lv) w tls) }

def Run.setAnalyzer (s : Run R W) (lv : Level) (pc : AnalyzerPc) : Run R W :=
  { s with analyzers := Function.update s.analyzers lv pc }

/-! ## Steps -/

/-- The entry a worker pops with its next step. -/
def Pipeline.nextPop (s : Pipeline R W) (lv : Level) (w : Fin W) : Option LogEntry :=
  if s.workers lv w = .popping then (regionBPop (s.b lv)).map Prod.fst else none

/-- What a worker does with the entry it pops. -/
def scoreEntry (args : Args) (lv : Level) (tls : TlsData) (entry : LogEntry) : TlsData :=
  if entry.isEof then tls else processEntry args (getLevelWeight lv) tls entry

/-- A step of the pipeline. -/
def pipelineAct (u : RunSetup R W) (s : Run R W) (act : Act R W) : Option (Run R W) :=
  match act with
  | .worker lv w =>
    if s.threads lv w = .running then
      (pipelineStep u.toSetup s.pipeline act).map fun p =>
        { s.setTls lv w (((s.pipeline.nextPop lv w).map (scoreEntry u.args lv (s.tls lv w))).getD
            (s.tls lv w)) with
          pipeline := p }
    else none
  | _ => (pipelineStep u.toSetup s.pipeline act).map fun p => { s with pipeline := p }

/-- A thread that was created comes to its `calloc`. -/
def startStep (s : Run R W) (lv : Level) (w : Fin W) : Option (Run R W) :=
  if s.threads lv w = .fresh ∧ w < (s.analyzers lv).created W then
    some ((s.setTls lv w (newTls w)).setThread lv w .running)
  else none

def callocFailsStep (s : Run R W) (lv : Level) (w : Fin W) : Option (Run R W) :=
  if s.threads lv w = .fresh ∧ w < (s.analyzers lv).created W then
    some (s.setThread lv w .failed)
  else none

/-- `tls_destructor` of a worker that has returned, as if nobody read Region C meanwhile. -/
def destructorStep (u : RunSetup R W) (s : Run R W) (lv : Level) (w : Fin W) : Option (Run R W) :=
  if s.threads lv w = .running ∧ s.pipeline.workers lv w = .exited then
    some { s.setThread lv w .merged with
      results := Function.update s.results lv
        (tlsDestructor u.args (s.results lv) (s.tls lv w))
      mergeOrder := Function.update s.mergeOrder lv (s.mergeOrder lv ++ [w]) }
  else none

/-- The next step of `run_analyzer`. -/
def analyzerStep (s : Run R W) (lv : Level) : Option (Run R W) :=
  match s.analyzers lv with
  | .clearing =>
    some { s.setAnalyzer lv (.creating 0) with
      results := Function.update s.results lv noResult
      ready := Function.update s.ready lv false }
  | .creating k =>
    if k < W then some (s.setAnalyzer lv (.creating (k + 1)))
    else some (s.setAnalyzer lv (.joining 0))
  | .joining k =>
    if hk : k < W then
      if (s.threads lv ⟨k, hk⟩).ended then some (s.setAnalyzer lv (.joining (k + 1))) else none
    else some (s.setAnalyzer lv .publishing)
  | .abandoning n k =>
    if k < n then
      if hk : k < W then
        if (s.threads lv ⟨k, hk⟩).ended then some (s.setAnalyzer lv (.abandoning n (k + 1)))
        else none
      else none
    else some (s.setAnalyzer lv (.gaveUp n))
  | .publishing =>
    some { s.setAnalyzer lv .posting with ready := Function.update s.ready lv true }
  | .posting =>
    some { s.setAnalyzer lv .returned with sem := Function.update s.sem lv (s.sem lv + 1) }
  | .returned => none
  | .gaveUp _ => none

def createFailsStep (s : Run R W) (lv : Level) : Option (Run R W) :=
  match s.analyzers lv with
  | .creating k => if k < W then some (s.setAnalyzer lv (.abandoning k 0)) else none
  | _ => none

/-- The next step of `run_aggregator`. -/
def aggregatorMainStep (u : RunSetup R W) (s : Run R W) : Option (Run R W) :=
  match s.aggregator with
  | .waiting [] => some { s with aggregator := .joiningHp }
  | .waiting (lv :: rest) =>
    if 0 < s.sem lv then
      some { s with
        sem := Function.update s.sem lv (s.sem lv - 1)
        received := Function.update s.received lv true
        aggregator := .waiting rest }
    else none
  | .joiningHp =>
    if s.pipeline.aggregator = .stopped then
      some { s with
        highPriorityScore := calcHighPriorityScore u.args s.pipeline.poppedD
        aggregator := .writing readings }
    else none
  | .writing [] => some { s with aggregator := .exited }
  | .writing (r :: rest) =>
    some { s with seen := s.seen ++ [(r, s.results)], aggregator := .writing rest }
  | .exited => none

/-- The aggregator's `sem_timedwait` expires. -/
def semTimeoutStep (s : Run R W) : Option (Run R W) :=
  match s.aggregator with
  | .waiting (lv :: rest) =>
    if s.sem lv = 0 then some { s with aggregator := .waiting rest } else none
  | _ => none

/-- All processes have exited. -/
def Run.allExited (s : Run R W) : Bool :=
  decide (∀ r, s.pipeline.parsers r = .exited) && decide (s.pipeline.dispatcher = .returned) &&
    Level.all.all (fun lv => match s.analyzers lv with
      | .returned => true
      | .gaveUp _ => true
      | _ => false) &&
    decide (s.aggregator = .exited)

/-- `print_final_summary`, after a `wait_for_children` without a signal. -/
def parentStep (s : Run R W) : Option (Run R W) :=
  if s.allExited && s.summary.isNone then some { s with summary := some s.results } else none

def runStep (u : RunSetup R W) (s : Run R W) : RunAct R W → Option (Run R W)
  | .pipeline act => pipelineAct u s act
  | .start lv w => startStep s lv w
  | .callocFails lv w => callocFailsStep s lv w
  | .destructor lv w => destructorStep u s lv w
  | .analyzer lv => analyzerStep s lv
  | .createFails lv => createFailsStep s lv
  | .aggregator => aggregatorMainStep u s
  | .semTimeout => semTimeoutStep s
  | .parent => parentStep s

/-- Everything as `shm_init` and the forks leave it. -/
def firstState (u : RunSetup R W) : Run R W where
  pipeline := initial u.toSetup
  threads := fun _ _ => .fresh
  tls := fun _ w => newTls w
  analyzers := fun _ => .clearing
  results := fun _ => noResult
  ready := fun _ => false
  sem := fun _ => 0
  aggregator := .waiting Level.all
  received := fun _ => false
  highPriorityScore := 0
  seen := []
  summary := none
  mergeOrder := fun _ => []

def program (u : RunSetup R W) : Machine (Run R W) (RunAct R W) where
  init := firstState u
  step := runStep u

/-! ## What a step does -/

variable {u : RunSetup R W} {s s' : Run R W} {act : RunAct R W}

/-- The workers' data after a step of the pipeline. -/
def scored (u : RunSetup R W) (s : Run R W) (act : Act R W) (lv : Level) (w : Fin W) : TlsData :=
  if act = .worker lv w then
    ((s.pipeline.nextPop lv w).map (scoreEntry u.args lv (s.tls lv w))).getD (s.tls lv w)
  else s.tls lv w

/-- The main thread of analyzer `lv` goes to `pc`, touching nothing that is shared. -/
inductive AnalyzerGoes (s : Run R W) (lv : Level) : AnalyzerPc → Prop
  | create (k : ℕ) (h : s.analyzers lv = .creating k) (hk : k < W) :
      AnalyzerGoes s lv (.creating (k + 1))
  | created (k : ℕ) (h : s.analyzers lv = .creating k) (hk : W ≤ k) : AnalyzerGoes s lv (.joining 0)
  | join (k : ℕ) (h : s.analyzers lv = .joining k) (hk : k < W)
      (hended : (s.threads lv ⟨k, hk⟩).ended = true) : AnalyzerGoes s lv (.joining (k + 1))
  | joined (k : ℕ) (h : s.analyzers lv = .joining k) (hk : W ≤ k) : AnalyzerGoes s lv .publishing
  | abandon (n k : ℕ) (h : s.analyzers lv = .abandoning n k) :
      AnalyzerGoes s lv (.abandoning n (k + 1))
  | giveUp (n k : ℕ) (h : s.analyzers lv = .abandoning n k) : AnalyzerGoes s lv (.gaveUp n)

inductive RunMove (u : RunSetup R W) (s : Run R W) : RunAct R W → Run R W → Prop
  | flow (act : Act R W) (p : Pipeline R W) (h : pipelineStep u.toSetup s.pipeline act = some p)
      (hrun : ∀ lv w, act = .worker lv w → s.threads lv w = .running) :
      RunMove u s (.pipeline act) { s with pipeline := p, tls := scored u s act }
  | start (lv : Level) (w : Fin W) (h : s.threads lv w = .fresh)
      (hc : w < (s.analyzers lv).created W) :
      RunMove u s (.start lv w) ((s.setTls lv w (newTls w)).setThread lv w .running)
  | callocFails (lv : Level) (w : Fin W) (h : s.threads lv w = .fresh)
      (hc : w < (s.analyzers lv).created W) :
      RunMove u s (.callocFails lv w) (s.setThread lv w .failed)
  | merge (lv : Level) (w : Fin W) (h : s.threads lv w = .running)
      (hw : s.pipeline.workers lv w = .exited) :
      RunMove u s (.destructor lv w)
        { s.setThread lv w .merged with
          results := Function.update s.results lv
            (tlsDestructor u.args (s.results lv) (s.tls lv w))
          mergeOrder := Function.update s.mergeOrder lv (s.mergeOrder lv ++ [w]) }
  | clear (lv : Level) (h : s.analyzers lv = .clearing) :
      RunMove u s (.analyzer lv)
        { s.setAnalyzer lv (.creating 0) with
          results := Function.update s.results lv noResult
          ready := Function.update s.ready lv false }
  | main (lv : Level) (pc : AnalyzerPc) (h : AnalyzerGoes s lv pc) :
      RunMove u s (.analyzer lv) (s.setAnalyzer lv pc)
  | fail (lv : Level) (k : ℕ) (h : s.analyzers lv = .creating k) (hk : k < W) :
      RunMove u s (.createFails lv) (s.setAnalyzer lv (.abandoning k 0))
  | publish (lv : Level) (h : s.analyzers lv = .publishing) :
      RunMove u s (.analyzer lv)
        { s.setAnalyzer lv .posting with ready := Function.update s.ready lv true }
  | post (lv : Level) (h : s.analyzers lv = .posting) :
      RunMove u s (.analyzer lv)
        { s.setAnalyzer lv .returned with sem := Function.update s.sem lv (s.sem lv + 1) }
  | receive (lv : Level) (rest : List Level) (h : s.aggregator = .waiting (lv :: rest))
      (hsem : 0 < s.sem lv) :
      RunMove u s .aggregator
        { s with
          sem := Function.update s.sem lv (s.sem lv - 1)
          received := Function.update s.received lv true
          aggregator := .waiting rest }
  | waited (h : s.aggregator = .waiting []) :
      RunMove u s .aggregator { s with aggregator := .joiningHp }
  | expire (lv : Level) (rest : List Level) (h : s.aggregator = .waiting (lv :: rest))
      (hsem : s.sem lv = 0) : RunMove u s .semTimeout { s with aggregator := .waiting rest }
  | highPriority (h : s.aggregator = .joiningHp) (hstop : s.pipeline.aggregator = .stopped) :
      RunMove u s .aggregator
        { s with
          highPriorityScore := calcHighPriorityScore u.args s.pipeline.poppedD
          aggregator := .writing readings }
  | read (r : Reading) (rest : List Reading) (h : s.aggregator = .writing (r :: rest)) :
      RunMove u s .aggregator
        { s with seen := s.seen ++ [(r, s.results)], aggregator := .writing rest }
  | written (h : s.aggregator = .writing []) :
      RunMove u s .aggregator { s with aggregator := .exited }
  | summarize (h : s.allExited = true) :
      RunMove u s .parent { s with summary := some s.results }

/-- Only the worker that steps scores. -/
theorem scored_of_not_worker {act : Act R W} (h : ∀ lv w, act ≠ .worker lv w) :
    scored u s act = s.tls := by
  funext lv w
  exact if_neg (h lv w)

/-- The worker that steps writes its data. -/
theorem scored_worker (lv : Level) (w : Fin W) : scored u s (.worker lv w) =
    Function.update s.tls lv (Function.update (s.tls lv) w
      (((s.pipeline.nextPop lv w).map (scoreEntry u.args lv (s.tls lv w))).getD (s.tls lv w))) := by
  funext lv' w'
  by_cases hlv : lv' = lv
  · subst hlv
    by_cases hw : w' = w
    · subst hw
      simp [scored]
    · simp [scored, hw, Ne.symm hw]
  · simp [scored, hlv, Ne.symm hlv]

theorem runMove_of_analyzerStep {lv : Level} (hs : analyzerStep s lv = some s') :
    RunMove u s (.analyzer lv) s' := by
  unfold analyzerStep at hs
  split at hs <;> rename_i hpc
  · obtain rfl := Option.some.inj hs
    exact .clear lv hpc
  · split_ifs at hs with hk <;> obtain rfl := Option.some.inj hs
    · exact .main lv _ (.create _ hpc hk)
    · exact .main lv _ (.created _ hpc (Nat.le_of_not_lt hk))
  · split_ifs at hs with hk hended <;> obtain rfl := Option.some.inj hs
    · exact .main lv _ (.join _ hpc hk hended)
    · exact .main lv _ (.joined _ hpc (Nat.le_of_not_lt hk))
  · split_ifs at hs <;> obtain rfl := Option.some.inj hs
    · exact .main lv _ (.abandon _ _ hpc)
    · exact .main lv _ (.giveUp _ _ hpc)
  · obtain rfl := Option.some.inj hs
    exact .publish lv hpc
  · obtain rfl := Option.some.inj hs
    exact .post lv hpc
  · cases hs
  · cases hs

theorem runMove_of_aggregatorStep (hs : aggregatorMainStep u s = some s') :
    RunMove u s .aggregator s' := by
  unfold aggregatorMainStep at hs
  split at hs <;> rename_i hpc
  · obtain rfl := Option.some.inj hs
    exact .waited hpc
  · split_ifs at hs with hsem
    obtain rfl := Option.some.inj hs
    exact .receive _ _ hpc hsem
  · split_ifs at hs with hstop
    obtain rfl := Option.some.inj hs
    exact .highPriority hpc hstop
  · obtain rfl := Option.some.inj hs
    exact .written hpc
  · obtain rfl := Option.some.inj hs
    exact .read _ _ hpc
  · cases hs

/-- **What a step of a run does.** -/
theorem runMove_of_step (hs : runStep u s act = some s') : RunMove u s act s' := by
  cases act with
  | pipeline act =>
    cases act with
    | worker lv w =>
      simp only [runStep, pipelineAct] at hs
      split_ifs at hs with hrun
      obtain ⟨p, hp, rfl⟩ := Option.map_eq_some_iff.mp hs
      have hmove := RunMove.flow (u := u) (s := s) (.worker lv w) p hp fun lv' w' h => by
        obtain ⟨rfl, rfl⟩ := Act.worker.inj h
        exact hrun
      rw [scored_worker] at hmove
      exact hmove
    | _ =>
      obtain ⟨p, hp, rfl⟩ := Option.map_eq_some_iff.mp hs
      have hmove := RunMove.flow (u := u) (s := s) _ p hp fun lv' w' h => by cases h
      rw [scored_of_not_worker fun lv w h => by cases h] at hmove
      exact hmove
  | start lv w =>
    simp only [runStep, startStep] at hs
    split_ifs at hs with h
    obtain rfl := Option.some.inj hs
    exact .start lv w h.1 h.2
  | callocFails lv w =>
    simp only [runStep, callocFailsStep] at hs
    split_ifs at hs with h
    obtain rfl := Option.some.inj hs
    exact .callocFails lv w h.1 h.2
  | destructor lv w =>
    simp only [runStep, destructorStep] at hs
    split_ifs at hs with h
    obtain rfl := Option.some.inj hs
    exact .merge lv w h.1 h.2
  | analyzer lv => exact runMove_of_analyzerStep hs
  | createFails lv =>
    simp only [runStep, createFailsStep] at hs
    split at hs
    · rename_i hpc
      split_ifs at hs with hk
      obtain rfl := Option.some.inj hs
      exact .fail lv _ hpc hk
    · cases hs
  | aggregator => exact runMove_of_aggregatorStep hs
  | semTimeout =>
    simp only [runStep, semTimeoutStep] at hs
    split at hs
    · rename_i hpc
      split_ifs at hs with hsem
      obtain rfl := Option.some.inj hs
      exact .expire _ _ hpc hsem
    · cases hs
  | parent =>
    simp only [runStep, parentStep] at hs
    split_ifs at hs with h
    obtain rfl := Option.some.inj hs
    rw [Bool.and_eq_true] at h
    exact .summarize h.1

/-! ## The pipeline in a run -/

/-- The pipeline of a run goes through a run of the pipeline. -/
theorem pipeline_step (hs : runStep u s act = some s') :
    s'.pipeline = s.pipeline ∨ ∃ a, act = .pipeline a ∧
      pipelineStep u.toSetup s.pipeline a = some s'.pipeline := by
  cases runMove_of_step hs with
  | flow a p h hrun => exact .inr ⟨a, rfl, h⟩
  | _ => exact .inl rfl

/-- An action of the pipeline that satisfies `ok`, or another action. -/
def Lifted (ok : Pipeline R W → Act R W → Prop) (s : Run R W) : RunAct R W → Prop
  | .pipeline act => ok s.pipeline act
  | _ => True

instance (ok : Pipeline R W → Act R W → Prop) [∀ p a, Decidable (ok p a)] (s : Run R W) :
    ∀ act : RunAct R W, Decidable (Lifted ok s act)
  | .pipeline act => inferInstanceAs (Decidable (ok s.pipeline act))
  | .start _ _ => isTrue trivial
  | .callocFails _ _ => isTrue trivial
  | .destructor _ _ => isTrue trivial
  | .analyzer _ => isTrue trivial
  | .createFails _ => isTrue trivial
  | .aggregator => isTrue trivial
  | .semTimeout => isTrue trivial
  | .parent => isTrue trivial

/-- **What holds of the pipeline's runs holds of the pipeline in a run.** -/
theorem pipeline_reachableIf {ok : Pipeline R W → Act R W → Prop}
    (h : (program u).ReachableIf (Lifted ok) s) :
    (pipeline u.toSetup).ReachableIf ok s.pipeline := by
  refine h.map rfl fun s a s' hok hs => ?_
  rcases pipeline_step hs with heq | ⟨b, rfl, hb⟩
  · exact .inl heq
  · exact .inr ⟨b, hok, hb⟩

theorem pipeline_reachable (h : (program u).Reachable s) :
    (pipeline u.toSetup).Reachable s.pipeline := by
  refine h.map rfl fun s a s' hs => ?_
  rcases pipeline_step hs with heq | ⟨b, -, hb⟩
  · exact .inl heq
  · exact .inr ⟨b, hb⟩

/-! ## A run -/

/-- One worker for each level, and the keywords `disk` and `u`. -/
def oneRun : RunSetup 1 1 :=
  { oneFile with
    args := diskArgs
    keywords_ne := by decide
    workers_le := by decide }

/-- Everything until the aggregator has got its four levels. -/
def oneRunStart : List (RunAct 1 1) :=
  let w : Fin 1 := ⟨0, Nat.one_pos⟩
  (Level.all.flatMap fun lv => [.analyzer lv, .analyzer lv, .analyzer lv, .start lv w]) ++
    (oneFileRun w w ++ Act.parser w :: dispatcherSteps 6 ++
      [Act.aggregator, Act.aggregator]).map RunAct.pipeline ++
    (Level.all.flatMap fun lv => .destructor lv w :: List.replicate 4 (.analyzer lv)) ++
    List.replicate 4 .aggregator

/-- The aggregator makes its readings, and all exit. -/
def oneRunEnd : List (RunAct 1 1) := List.replicate 22 .aggregator ++ [.parent]

end Cse344.HW4
