import Cse344.HW4.Region
import Cse344.Lib.Machine

/-!
# The log pipeline of HW4

Model of `parser_thread_func` (`HW4/src/utils/reader_thread_fun.c` 64-112), `run_dispatcher`
(`HW4/src/processes/dispatcher.c` 11-161), the loop of `worker_thread_func`
(`HW4/src/processes/analyzer.c` 113-189) and the consumer of Region D in `calc_high_priority_score`
(`HW4/src/processes/aggregator.c` 13-62), as a machine whose actions are the critical sections of
the regions' mutexes.

* There is one reader, so one parser thread, for each file. What its reader threads hand it through
  the internal buffer is given: the list `files r`.
* `total_readers` is `file_count`, here `R`. `run_dispatcher` reads `eof_count_per_level` without
  the mutex, so its test is a step of its own (`popped`).
* `aTimeout`, `dTimeout` and `bTimeout` are the expiries of the dispatcher's timed waits. A wait
  begins on a full region (`waited`); when it has expired there may be a place again, and the entry
  is dropped all the same. The waits of the workers only test again when they expire.
* `pushedA`, `pushedB`, `poppedB` and `poppedD` are histories: what was pushed to a region, which
  worker popped what, and what was consumed from Region D.
* `Move` lists what a step does, with all that it changes; `Goes` are the steps of the dispatcher
  that change nothing but its place.

Results:
* **`pipelineStep_move`**: every step is one of these moves.

Out of scope: how the reader threads come to their entries, what the workers count, the watchdog,
and SIGINT.
-/

namespace Cse344.HW4

open Cse344.Lib

/-- The arguments `validate_args` accepts, and what the readers parse. -/
structure Setup (R W : ℕ) where
  files : Fin R → List LogEntry
  prioritySources : List CStr
  capA : ℕ
  capB : ℕ
  capD : ℕ
  files_parsed : ∀ r, ∀ e ∈ files r, e.Parsed
  four_le_capA : 4 ≤ capA
  four_le_capB : 4 ≤ capB
  two_le_capD : 2 ≤ capD
  workers_pos : 0 < W

/-- Where a parser thread is. -/
inductive ParserPc
  /-- these entries to push -/
  | pushing (rest : List LogEntry)
  /-- the EOF entries of these levels to push -/
  | closing (rest : List Level)
  | exited
  deriving DecidableEq, Repr

/-- Where the dispatcher is. -/
inductive DispatcherPc
  /-- before the test of `finished_levels` -/
  | looping
  /-- waiting for Region A -/
  | popping
  /-- has popped `entry` -/
  | popped (entry : LogEntry)
  /-- in `send_eof_to_region_b`, in the loop -/
  | sendingEof (lv : Level)
  /-- in `push_to_region_d`; it may have found the region full -/
  | pushingD (entry : LogEntry) (waited : Bool)
  /-- in `push_to_region_b` -/
  | pushingB (entry : LogEntry) (waited : Bool)
  /-- at `dispatcher_done`, with these levels to look at -/
  | forcing (rest : List Level)
  /-- in `send_eof_to_region_b`, at `dispatcher_done` -/
  | forcedEof (lv : Level) (rest : List Level)
  /-- before setting the `dispatcher_done` of Region D -/
  | finishing
  | returned
  deriving DecidableEq, Repr

/-- Where a worker is. -/
inductive WorkerPc
  /-- in its loop -/
  | popping
  /-- in `pthread_barrier_wait` -/
  | barrier
  | exited
  deriving DecidableEq, Repr

/-- Where the thread that empties Region D is. -/
inductive AggregatorPc
  /-- in its loop; it may have found the region empty -/
  | scoring (waited : Bool)
  | stopped
  deriving DecidableEq, Repr

/-- The state of a pipeline of `R` readers and `W` workers for each level. -/
structure Pipeline (R W : ℕ) where
  a : RegionA
  b : Level → RegionB
  d : RegionD
  parsers : Fin R → ParserPc
  dispatcher : DispatcherPc
  eofForwarded : Level → Bool
  finishedLevels : ℕ
  workers : Level → Fin W → WorkerPc
  aggregator : AggregatorPc
  pushedA : List LogEntry
  pushedB : Level → List LogEntry
  poppedB : Level → List (Fin W × LogEntry)
  poppedD : List LogEntry

inductive Act (R W : ℕ)
  | parser (r : Fin R)
  | dispatcher
  | aTimeout
  | dTimeout
  | bTimeout
  | worker (lv : Level) (w : Fin W)
  | aggregator
  | aggregatorTimeout
  deriving DecidableEq, Repr

variable {R W : ℕ}

def isPrioritySource (u : Setup R W) (source : Source) : Bool :=
  u.prioritySources.any fun s => s == source.bytes

def Pipeline.setParser (s : Pipeline R W) (r : Fin R) (pc : ParserPc) : Pipeline R W :=
  { s with parsers := Function.update s.parsers r pc }

def Pipeline.setWorker (s : Pipeline R W) (lv : Level) (w : Fin W) (pc : WorkerPc) :
    Pipeline R W :=
  { s with workers := Function.update s.workers lv (Function.update (s.workers lv) w pc) }

/-- `entry` was pushed to Region B of level `lv`, now `b`. -/
def Pipeline.pushB (s : Pipeline R W) (lv : Level) (b : RegionB) (entry : LogEntry) :
    Pipeline R W :=
  { s with
    b := Function.update s.b lv b
    pushedB := Function.update s.pushedB lv (s.pushedB lv ++ [entry]) }

@[simp] theorem setParser_parsers (s : Pipeline R W) (r : Fin R) (pc : ParserPc) :
    (s.setParser r pc).parsers = Function.update s.parsers r pc := rfl

@[simp] theorem setWorker_workers (s : Pipeline R W) (lv : Level) (w : Fin W) (pc : WorkerPc) :
    (s.setWorker lv w pc).workers =
      Function.update s.workers lv (Function.update (s.workers lv) w pc) := rfl

@[simp] theorem pushB_b (s : Pipeline R W) (lv : Level) (b : RegionB) (entry : LogEntry) :
    (s.pushB lv b entry).b = Function.update s.b lv b := rfl

@[simp] theorem pushB_pushedB (s : Pipeline R W) (lv : Level) (b : RegionB) (entry : LogEntry) :
    (s.pushB lv b entry).pushedB =
      Function.update s.pushedB lv (s.pushedB lv ++ [entry]) := rfl

/-! ## Steps -/

/-- The next step of the parser thread of reader `r`. -/
def parserStep (s : Pipeline R W) (r : Fin R) : Option (Pipeline R W) :=
  match s.parsers r with
  | .pushing [] => some (s.setParser r (.closing Level.all))
  | .pushing (entry :: rest) =>
    match regionAPush s.a entry with
    | none => none
    | some a =>
      some { s.setParser r (.pushing rest) with a := a, pushedA := s.pushedA ++ [entry] }
  | .closing [] => some (s.setParser r .exited)
  | .closing (lv :: rest) =>
    match regionAPush s.a (eofEntry lv) with
    | none => none
    | some a =>
      some { s.setParser r (.closing rest) with
        a := { a with
          eofCountPerLevel := Function.update a.eofCountPerLevel lv (a.eofCountPerLevel lv + 1) }
        pushedA := s.pushedA ++ [eofEntry lv] }
  | .exited => none

/-- The next step of the dispatcher. -/
def dispatcherStep (u : Setup R W) (s : Pipeline R W) : Option (Pipeline R W) :=
  match s.dispatcher with
  | .looping =>
    if s.finishedLevels < 4 then some { s with dispatcher := .popping }
    else some { s with dispatcher := .forcing Level.all }
  | .popping =>
    match regionAPop s.a with
    | none => none
    | some (entry, a) => some { s with a := a, dispatcher := .popped entry }
  | .popped entry =>
    if entry.isEof then
      if !s.eofForwarded entry.level && decide (R ≤ s.a.eofCountPerLevel entry.level) then
        some { s with dispatcher := .sendingEof entry.level }
      else some { s with dispatcher := .looping }
    else if isPrioritySource u entry.source then some { s with dispatcher := .pushingD entry false }
    else some { s with dispatcher := .pushingB entry false }
  | .sendingEof lv =>
    match regionBPush (s.b lv) (eofEntry .error) with
    | none => none
    | some b =>
      some { s.pushB lv { b with eofPosted := true } (eofEntry .error) with
        eofForwarded := Function.update s.eofForwarded lv true
        finishedLevels := s.finishedLevels + 1
        dispatcher := .looping }
  | .pushingD entry waited =>
    match regionDPush s.d entry with
    | none => if waited then none else some { s with dispatcher := .pushingD entry true }
    | some d => some { s with d := d, dispatcher := .pushingB entry false }
  | .pushingB entry waited =>
    match regionBPush (s.b entry.level) entry with
    | none => if waited then none else some { s with dispatcher := .pushingB entry true }
    | some b => some { s.pushB entry.level b entry with dispatcher := .looping }
  | .forcing [] => some { s with dispatcher := .finishing }
  | .forcing (lv :: rest) =>
    if s.eofForwarded lv then some { s with dispatcher := .forcing rest }
    else some { s with dispatcher := .forcedEof lv rest }
  | .forcedEof lv rest =>
    match regionBPush (s.b lv) (eofEntry .error) with
    | none => none
    | some b =>
      some { s.pushB lv { b with eofPosted := true } (eofEntry .error) with
        dispatcher := .forcing rest }
  | .finishing =>
    some { s with d := { s.d with dispatcherDone := true }, dispatcher := .returned }
  | .returned => none

/-- The dispatcher's wait on an empty Region A expires. -/
def aTimeoutStep (s : Pipeline R W) : Option (Pipeline R W) :=
  match s.dispatcher with
  | .popping =>
    if s.a.count = 0 then
      if Level.all.all s.eofForwarded then some { s with dispatcher := .forcing Level.all }
      else some s
    else none
  | _ => none

/-- The dispatcher's wait on a full Region D expires: the entry is not pushed there. -/
def dTimeoutStep (s : Pipeline R W) : Option (Pipeline R W) :=
  match s.dispatcher with
  | .pushingD entry true => some { s with dispatcher := .pushingB entry false }
  | _ => none

/-- The dispatcher's wait on a full Region B expires: the entry is dropped. -/
def bTimeoutStep (s : Pipeline R W) : Option (Pipeline R W) :=
  match s.dispatcher with
  | .pushingB _ true => some { s with dispatcher := .looping }
  | _ => none

/-- The next step of worker `w` of level `lv`. -/
def workerStep (s : Pipeline R W) (lv : Level) (w : Fin W) : Option (Pipeline R W) :=
  match s.workers lv w with
  | .popping =>
    match regionBPop (s.b lv) with
    | none => if (s.b lv).eofPosted then some (s.setWorker lv w .barrier) else none
    | some (entry, b) =>
      some { s.setWorker lv w (if entry.isEof then .barrier else .popping) with
        b := Function.update s.b lv b
        poppedB := Function.update s.poppedB lv (s.poppedB lv ++ [(w, entry)]) }
  | .barrier =>
    if ∀ v, s.workers lv v ≠ .popping then some (s.setWorker lv w .exited) else none
  | .exited => none

/-- The next step of the thread that empties Region D. -/
def aggregatorStep (s : Pipeline R W) : Option (Pipeline R W) :=
  match s.aggregator with
  | .scoring waited =>
    match regionDPop s.d with
    | none =>
      if s.d.dispatcherDone then some { s with aggregator := .stopped }
      else if waited then none
      else some { s with aggregator := .scoring true }
    | some (entry, d) =>
      some { s with d := d, aggregator := .scoring false, poppedD := s.poppedD ++ [entry] }
  | .stopped => none

/-- Its wait on an empty Region D expires. -/
def aggregatorTimeoutStep (s : Pipeline R W) : Option (Pipeline R W) :=
  match s.aggregator with
  | .scoring true => some { s with aggregator := .stopped }
  | _ => none

def pipelineStep (u : Setup R W) (s : Pipeline R W) : Act R W → Option (Pipeline R W)
  | .parser r => parserStep s r
  | .dispatcher => dispatcherStep u s
  | .aTimeout => aTimeoutStep s
  | .dTimeout => dTimeoutStep s
  | .bTimeout => bTimeoutStep s
  | .worker lv w => workerStep s lv w
  | .aggregator => aggregatorStep s
  | .aggregatorTimeout => aggregatorTimeoutStep s

/-- Every region as `shm_init` leaves it, every thread at its start. -/
def initial (u : Setup R W) : Pipeline R W where
  a := { RingBuffer.empty (eofEntry .error) u.capA (by have := u.four_le_capA; omega) with
    eofCountPerLevel := fun _ => 0 }
  b := fun _ => { RingBuffer.empty (eofEntry .error) u.capB (by have := u.four_le_capB; omega) with
    eofPosted := false }
  d := { RingBuffer.empty (eofEntry .error) u.capD (by have := u.two_le_capD; omega) with
    dispatcherDone := false }
  parsers := fun r => .pushing (u.files r)
  dispatcher := .looping
  eofForwarded := fun _ => false
  finishedLevels := 0
  workers := fun _ _ => .popping
  aggregator := .scoring false
  pushedA := []
  pushedB := fun _ => []
  poppedB := fun _ => []
  poppedD := []

def pipeline (u : Setup R W) : Machine (Pipeline R W) (Act R W) where
  init := initial u
  step := pipelineStep u

/-! ## What a step does -/

variable {u : Setup R W} {s s' : Pipeline R W} {act : Act R W}

/-- The dispatcher goes to `pc`, touching nothing that is shared. -/
inductive Goes (u : Setup R W) (s : Pipeline R W) : Act R W → DispatcherPc → Prop
  | loop (h : s.dispatcher = .looping) : Goes u s .dispatcher .popping
  | leave (h : s.dispatcher = .looping) (h4 : 4 ≤ s.finishedLevels) :
      Goes u s .dispatcher (.forcing Level.all)
  | expire (h : s.dispatcher = .popping) (hall : ∀ lv, s.eofForwarded lv = true) :
      Goes u s .aTimeout (.forcing Level.all)
  | close (entry : LogEntry) (h : s.dispatcher = .popped entry) (he : entry.isEof = true)
      (hf : s.eofForwarded entry.level = false) (hc : R ≤ s.a.eofCountPerLevel entry.level) :
      Goes u s .dispatcher (.sendingEof entry.level)
  | skip (entry : LogEntry) (h : s.dispatcher = .popped entry) (he : entry.isEof = true) :
      Goes u s .dispatcher .looping
  | routeD (entry : LogEntry) (h : s.dispatcher = .popped entry) (he : entry.isEof = false)
      (hp : isPrioritySource u entry.source = true) : Goes u s .dispatcher (.pushingD entry false)
  | routeB (entry : LogEntry) (h : s.dispatcher = .popped entry) (he : entry.isEof = false) :
      Goes u s .dispatcher (.pushingB entry false)
  | waitD (entry : LogEntry) (h : s.dispatcher = .pushingD entry false) :
      Goes u s .dispatcher (.pushingD entry true)
  | dropD (entry : LogEntry) (h : s.dispatcher = .pushingD entry true) :
      Goes u s .dTimeout (.pushingB entry false)
  | waitB (entry : LogEntry) (h : s.dispatcher = .pushingB entry false) :
      Goes u s .dispatcher (.pushingB entry true)
  | closed (lv : Level) (rest : List Level) (h : s.dispatcher = .forcing (lv :: rest)) :
      Goes u s .dispatcher (.forcing rest)
  | force (lv : Level) (rest : List Level) (h : s.dispatcher = .forcing (lv :: rest))
      (hf : s.eofForwarded lv = false) : Goes u s .dispatcher (.forcedEof lv rest)
  | forced (h : s.dispatcher = .forcing []) : Goes u s .dispatcher .finishing

/-- What a step does, told of the contents of the regions. -/
inductive Move (u : Setup R W) (s : Pipeline R W) : Act R W → Pipeline R W → Prop
  | push (r : Fin R) (entry : LogEntry) (rest : List LogEntry) (a : RegionA)
      (h : s.parsers r = .pushing (entry :: rest)) (ha : a.toList = s.a.toList ++ [entry])
      (hc : a.eofCountPerLevel = s.a.eofCountPerLevel) :
      Move u s (.parser r)
        { s.setParser r (.pushing rest) with a := a, pushedA := s.pushedA ++ [entry] }
  | pushed (r : Fin R) (h : s.parsers r = .pushing []) :
      Move u s (.parser r) (s.setParser r (.closing Level.all))
  | close (r : Fin R) (lv : Level) (rest : List Level) (a : RegionA)
      (h : s.parsers r = .closing (lv :: rest)) (ha : a.toList = s.a.toList ++ [eofEntry lv])
      (hc : a.eofCountPerLevel =
        Function.update s.a.eofCountPerLevel lv (s.a.eofCountPerLevel lv + 1)) :
      Move u s (.parser r)
        { s.setParser r (.closing rest) with a := a, pushedA := s.pushedA ++ [eofEntry lv] }
  | parsed (r : Fin R) (h : s.parsers r = .closing []) :
      Move u s (.parser r) (s.setParser r .exited)
  | go (act : Act R W) (pc : DispatcherPc) (h : Goes u s act pc) :
      Move u s act { s with dispatcher := pc }
  | recheck : Move u s .aTimeout s
  | popA (entry : LogEntry) (a : RegionA) (h : s.dispatcher = .popping)
      (ha : s.a.toList = entry :: a.toList) (hc : a.eofCountPerLevel = s.a.eofCountPerLevel) :
      Move u s .dispatcher { s with a := a, dispatcher := .popped entry }
  | sendEof (lv : Level) (b : RegionB) (h : s.dispatcher = .sendingEof lv)
      (hb : b.toList = (s.b lv).toList ++ [eofEntry .error]) (hp : b.eofPosted = true) :
      Move u s .dispatcher
        { s.pushB lv b (eofEntry .error) with
          eofForwarded := Function.update s.eofForwarded lv true
          finishedLevels := s.finishedLevels + 1
          dispatcher := .looping }
  | pushD (entry : LogEntry) (waited : Bool) (d : RegionD)
      (h : s.dispatcher = .pushingD entry waited) (hd : d.toList = s.d.toList ++ [entry]) :
      Move u s .dispatcher { s with d := d, dispatcher := .pushingB entry false }
  | pushB (entry : LogEntry) (waited : Bool) (b : RegionB)
      (h : s.dispatcher = .pushingB entry waited)
      (hb : b.toList = (s.b entry.level).toList ++ [entry])
      (hp : b.eofPosted = (s.b entry.level).eofPosted) :
      Move u s .dispatcher { s.pushB entry.level b entry with dispatcher := .looping }
  | giveUp (entry : LogEntry) (h : s.dispatcher = .pushingB entry true) :
      Move u s .bTimeout { s with dispatcher := .looping }
  | forcedEof (lv : Level) (rest : List Level) (b : RegionB)
      (h : s.dispatcher = .forcedEof lv rest) :
      Move u s .dispatcher { s.pushB lv b (eofEntry .error) with dispatcher := .forcing rest }
  | finish (h : s.dispatcher = .finishing) :
      Move u s .dispatcher
        { s with d := { s.d with dispatcherDone := true }, dispatcher := .returned }
  | popB (lv : Level) (w : Fin W) (entry : LogEntry) (b : RegionB)
      (h : s.workers lv w = .popping) (hb : (s.b lv).toList = entry :: b.toList)
      (hp : b.eofPosted = (s.b lv).eofPosted) :
      Move u s (.worker lv w)
        { s.setWorker lv w (if entry.isEof then .barrier else .popping) with
          b := Function.update s.b lv b
          poppedB := Function.update s.poppedB lv (s.poppedB lv ++ [(w, entry)]) }
  | drained (lv : Level) (w : Fin W) (h : s.workers lv w = .popping) (hb : (s.b lv).toList = [])
      (hp : (s.b lv).eofPosted = true) : Move u s (.worker lv w) (s.setWorker lv w .barrier)
  | passed (lv : Level) (w : Fin W) (h : s.workers lv w = .barrier) :
      Move u s (.worker lv w) (s.setWorker lv w .exited)
  | popD (entry : LogEntry) (d : RegionD) (hd : s.d.toList = entry :: d.toList) :
      Move u s .aggregator
        { s with d := d, aggregator := .scoring false, poppedD := s.poppedD ++ [entry] }
  | aggregate (act : Act R W) (g : AggregatorPc)
      (h : act = .aggregator ∨ act = .aggregatorTimeout) : Move u s act { s with aggregator := g }

theorem parserStep_move {r : Fin R} (h : parserStep s r = some s') : Move u s (.parser r) s' := by
  unfold parserStep at h
  split at h
  case h_1 hpc =>
    obtain rfl := Option.some.inj h
    exact .pushed r hpc
  case h_2 entry rest hpc =>
    split at h
    · cases h
    · rename_i a ha
      obtain rfl := Option.some.inj h
      obtain ⟨hl, hc⟩ := regionAPush_spec ha
      exact .push r entry rest a hpc hl hc
  case h_3 hpc =>
    obtain rfl := Option.some.inj h
    exact .parsed r hpc
  case h_4 lv rest hpc =>
    split at h
    · cases h
    · rename_i a ha
      obtain rfl := Option.some.inj h
      obtain ⟨hl, hc⟩ := regionAPush_spec ha
      exact .close r lv rest _ hpc hl (by rw [hc])
  case h_5 => cases h

theorem dispatcherStep_move (h : dispatcherStep u s = some s') : Move u s .dispatcher s' := by
  unfold dispatcherStep at h
  split at h
  case h_1 hpc =>
    split at h <;> obtain rfl := Option.some.inj h
    · exact .go _ _ (.loop hpc)
    · rename_i h4
      exact .go _ _ (.leave hpc (not_lt.mp h4))
  case h_2 hpc =>
    split at h
    · cases h
    · rename_i entry a ha
      obtain rfl := Option.some.inj h
      obtain ⟨hl, hc⟩ := regionAPop_spec ha
      exact .popA entry a hpc hl hc
  case h_3 entry hpc =>
    split at h
    · rename_i he
      split at h <;> obtain rfl := Option.some.inj h
      · rename_i hclose
        simp only [Bool.and_eq_true, Bool.not_eq_true', decide_eq_true_eq] at hclose
        exact .go _ _ (.close entry hpc he hclose.1 hclose.2)
      · exact .go _ _ (.skip entry hpc he)
    · rename_i he
      split at h <;> obtain rfl := Option.some.inj h
      · rename_i hp
        exact .go _ _ (.routeD entry hpc (Bool.eq_false_iff.mpr he) hp)
      · exact .go _ _ (.routeB entry hpc (Bool.eq_false_iff.mpr he))
  case h_4 lv hpc =>
    split at h
    · cases h
    · rename_i b hb
      obtain rfl := Option.some.inj h
      exact .sendEof lv _ hpc (regionBPush_spec hb).1 rfl
  case h_5 entry waited hpc =>
    split at h
    · split_ifs at h with hw
      obtain rfl := Option.some.inj h
      exact .go _ _ (.waitD entry (by rw [hpc, Bool.eq_false_iff.mpr hw]))
    · rename_i d hd
      obtain rfl := Option.some.inj h
      exact .pushD entry waited d hpc (regionDPush_spec hd)
  case h_6 entry waited hpc =>
    split at h
    · split_ifs at h with hw
      obtain rfl := Option.some.inj h
      exact .go _ _ (.waitB entry (by rw [hpc, Bool.eq_false_iff.mpr hw]))
    · rename_i b hb
      obtain rfl := Option.some.inj h
      obtain ⟨hl, hp⟩ := regionBPush_spec hb
      exact .pushB entry waited b hpc hl hp
  case h_7 hpc =>
    obtain rfl := Option.some.inj h
    exact .go _ _ (.forced hpc)
  case h_8 lv rest hpc =>
    split at h <;> obtain rfl := Option.some.inj h
    · exact .go _ _ (.closed lv rest hpc)
    · rename_i hf
      exact .go _ _ (.force lv rest hpc (Bool.eq_false_iff.mpr hf))
  case h_9 lv rest hpc =>
    split at h
    · cases h
    · obtain rfl := Option.some.inj h
      exact .forcedEof lv rest _ hpc
  case h_10 hpc =>
    obtain rfl := Option.some.inj h
    exact .finish hpc
  case h_11 => cases h

theorem workerStep_move {lv : Level} {w : Fin W} (h : workerStep s lv w = some s') :
    Move u s (.worker lv w) s' := by
  unfold workerStep at h
  split at h
  case h_1 hpc =>
    split at h
    · rename_i hb
      split at h
      · rename_i hp
        obtain rfl := Option.some.inj h
        exact .drained lv w hpc (regionBPop_eq_none hb) hp
      · cases h
    · rename_i entry b hb
      obtain rfl := Option.some.inj h
      obtain ⟨hl, hp⟩ := regionBPop_spec hb
      exact .popB lv w entry b hpc hl hp
  case h_2 hpc =>
    split at h
    · obtain rfl := Option.some.inj h
      exact .passed lv w hpc
    · cases h
  case h_3 => cases h

theorem timeout_move (h : aTimeoutStep s = some s') : Move u s .aTimeout s' := by
  unfold aTimeoutStep at h
  split at h
  case h_1 hpc =>
    split at h
    · split at h <;> obtain rfl := Option.some.inj h
      · rename_i hall
        exact .go _ _ (.expire hpc fun lv => List.all_eq_true.mp hall lv lv.mem_all)
      · exact .recheck
    · cases h
  case h_2 => cases h

/-- **What a step does.** -/
theorem pipelineStep_move (h : pipelineStep u s act = some s') : Move u s act s' := by
  cases act with
  | parser r => exact parserStep_move h
  | dispatcher => exact dispatcherStep_move h
  | aTimeout => exact timeout_move h
  | dTimeout =>
    simp only [pipelineStep, dTimeoutStep] at h
    split at h
    · rename_i entry hpc
      obtain rfl := Option.some.inj h
      exact .go _ _ (.dropD entry hpc)
    · cases h
  | bTimeout =>
    simp only [pipelineStep, bTimeoutStep] at h
    split at h
    · rename_i entry hpc
      obtain rfl := Option.some.inj h
      exact .giveUp entry hpc
    · cases h
  | worker lv w => exact workerStep_move h
  | aggregator =>
    simp only [pipelineStep, aggregatorStep] at h
    split at h
    · split at h
      · split_ifs at h <;> obtain rfl := Option.some.inj h
        · exact .aggregate _ .stopped (Or.inl rfl)
        · exact .aggregate _ (.scoring true) (Or.inl rfl)
      · rename_i entry d hd
        obtain rfl := Option.some.inj h
        exact .popD entry d (regionDPop_spec hd)
    · cases h
  | aggregatorTimeout =>
    simp only [pipelineStep, aggregatorTimeoutStep] at h
    split at h
    · obtain rfl := Option.some.inj h
      exact .aggregate _ .stopped (Or.inr rfl)
    · cases h

end Cse344.HW4
