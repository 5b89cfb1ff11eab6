import Cse344.Lib.Machine
import Mathlib.Data.Fintype.Basic

/-!
# SIGINT while the parent collects

Model of `sigint_handler` and `sigterm_handler` (`HW2/src/signal.c` 139-205) against
`parent_process` (`processes.c` 8-27) and the workers (`create_workers`, `record_match_and_file`,
`search_directory`), from the start of `parent_process` on. SIGINT may come before any of its steps;
`sigint_handler` does not return.

* A results pipe holds whole records. Its reader blocks while it is empty and some process holds a
  write end; with no write end, or on a descriptor that is closed, `read` leaves `{0, 0}`. A write
  to a pipe that no process can read kills the writer.
* A worker gets its SIGTERM at any time after it was sent. Before `setup_sigterm_handler` it dies of
  it, and before `set_worker_index` its handler writes nothing.
* What a worker searches is the list of its files, whether each is a match. Neither its match pipe
  nor `waitpid` delays a process here: a process that waits is one that takes no step.
* `sigint_handler` reads every pipe again, also those `parent_process` has read. `Books` is what the
  parent's figures and the pipes have to do with what the workers wrote.

Results:
* `Books.read`: what the parent reads is a record of the worker, or nothing.
* `session_step`: a step leaves the shown counts right exactly if they were and the record the
  handler reads is still there.
* **`summary_kept_iff`**: the summary shows what each worker first wrote exactly if the handler,
  whenever it reads the pipe of a worker that wrote anything but `{0, 0}`, finds it open with a
  record in it.

Out of scope: a SIGINT that reaches the workers before they ignore it.
-/

namespace Cse344.HW2.Interrupt

open Cse344.Lib

variable {n : ℕ}

/-- Where a worker is. -/
inductive WorkerPc
  /-- before `close_child_pipes` -/
  | forked
  /-- before `setup_sigterm_handler` -/
  | unhandled
  /-- before `set_worker_index` -/
  | unnumbered
  /-- in `search_directory`, with these files to go -/
  | searching (rest : List Bool)
  /-- between `g_files_scanned++` and `g_partial_matches++` -/
  | matched (rest : List Bool)
  /-- has written its results, before it closes the pipe -/
  | reported
  /-- has closed its pipe, or is dead -/
  | over
  deriving DecidableEq, Repr

/-- Where the parent is. -/
inductive ParentPc (n : ℕ)
  /-- in `parent_process`, before it reads pipe `k` -/
  | reading (k : ℕ)
  /-- before it closes pipe `k` -/
  | closing (k : Fin n) (results : ℕ × ℕ)
  /-- before it stores the matches of worker `k` -/
  | storing (k : Fin n) (results : ℕ × ℕ)
  /-- before it stores the files of worker `k` -/
  | storingFiles (k : Fin n) (results : ℕ × ℕ)
  /-- in the two other loops of `parent_process` -/
  | collecting
  /-- in `sigint_handler`, before it sends SIGTERM to worker `k` -/
  | killing (k : ℕ)
  /-- in `sigint_handler`, before it reads pipe `k` -/
  | rereading (k : ℕ)
  /-- in `sigint_handler`, before the SIGKILLs -/
  | sleeping
  /-- `sigint_handler` has printed the summary -/
  | printed
  deriving DecidableEq, Repr

structure Worker where
  pc : WorkerPc
  partialMatches : ℕ
  filesScanned : ℕ
  /-- SIGTERM was sent to it -/
  term : Bool

structure Session (n : ℕ) where
  parent : ParentPc n
  workers : Fin n → Worker
  pipes : Fin n → List (ℕ × ℕ)
  /-- The parent has not closed its read end. -/
  readOpen : Fin n → Bool
  workerMatches : Fin n → ℕ
  workerFiles : Fin n → ℕ
  /-- The records each worker has written. -/
  written : Fin n → List (ℕ × ℕ)

inductive Act (n : ℕ)
  | parent
  /-- SIGINT -/
  | interrupt
  | worker (i : Fin n)
  /-- SIGTERM is delivered to worker `i`. -/
  | sigterm (i : Fin n)
  deriving DecidableEq, Repr

/-! ## Pipes -/

/-- Worker `j` holds a write end of pipe `i`: its own, and until `close_child_pipes` those it
inherited from the parent. -/
def WorkerPc.holdsEnd : WorkerPc → Fin n → Fin n → Bool
  | .forked, j, i => decide (j ≤ i)
  | .over, _, _ => false
  | _, j, i => decide (j = i)

def Session.writeOpen (s : Session n) (i : Fin n) : Bool :=
  decide (∃ j, (s.workers j).pc.holdsEnd j i = true)

/-- A worker holds a read end of every pipe until `close_child_pipes`. -/
def Session.hasReader (s : Session n) (i : Fin n) : Bool :=
  s.readOpen i || decide (∃ j, (s.workers j).pc = .forked)

def Session.setWorker (s : Session n) (i : Fin n) (w : Worker) : Session n :=
  { s with workers := Function.update s.workers i w }

/-- `read` of the parent into `results`, `none` where it blocks. -/
def Session.read (s : Session n) (i : Fin n) : Option ((ℕ × ℕ) × Session n) :=
  if s.readOpen i then
    match s.pipes i with
    | r :: rest => some (r, { s with pipes := Function.update s.pipes i rest })
    | [] => if s.writeOpen i then none else some ((0, 0), s)
  else some ((0, 0), s)

/-- `write` of worker `i`, which is at `pc` then. -/
def Session.write (s : Session n) (i : Fin n) (results : ℕ × ℕ) (pc : WorkerPc) : Session n :=
  if s.hasReader i then
    { s.setWorker i { s.workers i with pc := pc } with
      pipes := Function.update s.pipes i (s.pipes i ++ [results])
      written := Function.update s.written i (s.written i ++ [results]) }
  else s.setWorker i { s.workers i with pc := .over }

/-! ## Steps -/

/-- The next step of worker `i`, which searches `files`. -/
def workerStep (files : List Bool) (s : Session n) (i : Fin n) : Option (Session n) :=
  let w := s.workers i
  match w.pc with
  | .forked => some (s.setWorker i { w with pc := .unhandled })
  | .unhandled => some (s.setWorker i { w with pc := .unnumbered })
  | .unnumbered => some (s.setWorker i { w with pc := .searching files })
  | .searching (isMatch :: rest) =>
    some (s.setWorker i
      { w with
        filesScanned := w.filesScanned + 1
        pc := if isMatch then .matched rest else .searching rest })
  | .matched rest =>
    some (s.setWorker i
      { w with partialMatches := w.partialMatches + 1, pc := .searching rest })
  | .searching [] => some (s.write i (files.count true, files.length) .reported)
  | .reported => some (s.setWorker i { w with pc := .over })
  | .over => none

/-- SIGTERM is delivered to worker `i`. -/
def sigtermStep (s : Session n) (i : Fin n) : Option (Session n) :=
  let w := s.workers i
  if w.term then
    match w.pc with
    | .forked => some (s.setWorker i { w with pc := .over })
    | .unhandled => some (s.setWorker i { w with pc := .over })
    | .unnumbered => some (s.setWorker i { w with pc := .over })
    | .searching _ => some (s.write i (w.partialMatches, w.filesScanned) .over)
    | .matched _ => some (s.write i (w.partialMatches, w.filesScanned) .over)
    | .reported => some (s.write i (w.partialMatches, w.filesScanned) .over)
    | .over => none
  else none

/-- The next step of the parent. -/
def parentStep (s : Session n) : Option (Session n) :=
  match s.parent with
  | .reading k =>
    if h : k < n then (s.read ⟨k, h⟩).map fun x => { x.2 with parent := .closing ⟨k, h⟩ x.1 }
    else some { s with parent := .collecting }
  | .closing k results =>
    some { s with readOpen := Function.update s.readOpen k false, parent := .storing k results }
  | .storing k results =>
    some { s with
      workerMatches := Function.update s.workerMatches k results.1
      parent := .storingFiles k results }
  | .storingFiles k results =>
    some { s with
      workerFiles := Function.update s.workerFiles k results.2
      parent := .reading (k + 1) }
  | .collecting => none
  | .killing k =>
    if h : k < n then
      some { s.setWorker ⟨k, h⟩ { s.workers ⟨k, h⟩ with term := true } with
        parent := .killing (k + 1) }
    else some { s with parent := .rereading 0 }
  | .rereading k =>
    if h : k < n then
      (s.read ⟨k, h⟩).map fun x =>
        { x.2 with
          readOpen := Function.update x.2.readOpen ⟨k, h⟩ false
          workerMatches := Function.update x.2.workerMatches ⟨k, h⟩ x.1.1
          workerFiles := Function.update x.2.workerFiles ⟨k, h⟩ x.1.2
          parent := .rereading (k + 1) }
    else some { s with parent := .sleeping }
  | .sleeping =>
    some { s with workers := fun i => { s.workers i with pc := .over }, parent := .printed }
  | .printed => none

/-- The parent is in `parent_process`. -/
def ParentPc.inParentProcess : ParentPc n → Bool
  | .reading _ => true
  | .closing _ _ => true
  | .storing _ _ => true
  | .storingFiles _ _ => true
  | .collecting => true
  | _ => false

def sessionStep (files : Fin n → List Bool) (s : Session n) : Act n → Option (Session n)
  | .parent => parentStep s
  | .interrupt => if s.parent.inParentProcess then some { s with parent := .killing 0 } else none
  | .worker i => workerStep (files i) s i
  | .sigterm i => sigtermStep s i

/-- `n` workers are forked, and the parent calls `parent_process`. -/
def session (files : Fin n → List Bool) : Machine (Session n) (Act n) where
  init :=
    { parent := .reading 0
      workers := fun _ => { pc := .forked, partialMatches := 0, filesScanned := 0, term := false }
      pipes := fun _ => []
      readOpen := fun _ => true
      workerMatches := fun _ => 0
      workerFiles := fun _ => 0
      written := fun _ => [] }
  step := sessionStep files

/-! ## What the summary shows -/

/-- The counts of worker `i` that `print_summary` prints. -/
def Session.shown (s : Session n) (i : Fin n) : ℕ × ℕ := (s.workerMatches i, s.workerFiles i)

/-- The summary shows what each worker that has written a record wrote first. -/
def Session.Kept (s : Session n) : Prop :=
  ∀ i r, (s.written i).head? = some r → s.shown i = r

/-- When `sigint_handler` reads the pipe of a worker that has written anything but `{0, 0}`, the
parent has not closed it and there is a record in it. -/
def StillThere (s : Session n) (a : Act n) : Prop :=
  a = .parent → ∀ k : Fin n, s.parent = .rereading k →
    (s.readOpen k = true ∧ s.pipes k ≠ []) ∨ s.written k = [] ∨ (s.written k).head? = some (0, 0)

instance (s : Session n) (a : Act n) : Decidable (StillThere s a) :=
  inferInstanceAs (Decidable (a = .parent → _))

/-! ## The books of a session -/

variable {files : Fin n → List Bool} {s s' : Session n} {a : Act n}

/-- What can be of one worker: its counts, and what it has written. -/
def WorkerOk (files : List Bool) (w : Worker) (written : List (ℕ × ℕ)) : Prop :=
  match w.pc with
  | .forked => written = [] ∧ w.partialMatches = 0 ∧ w.filesScanned = 0
  | .unhandled => written = [] ∧ w.partialMatches = 0 ∧ w.filesScanned = 0
  | .unnumbered => written = [] ∧ w.partialMatches = 0 ∧ w.filesScanned = 0
  | .searching rest => written = [] ∧ w.partialMatches + rest.count true = files.count true ∧
      w.filesScanned + rest.length = files.length
  | .matched rest => written = [] ∧ w.partialMatches + 1 + rest.count true = files.count true ∧
      w.filesScanned + rest.length = files.length
  | .reported => written = [(w.partialMatches, w.filesScanned)]
  | .over => ∀ x ∈ written, ∀ y ∈ written, x = y

/-- `sigint_handler` is done with pipe `i`. -/
def ParentPc.handled : ParentPc n → Fin n → Bool
  | .rereading k, i => decide (i.val < k)
  | .sleeping, _ => true
  | .printed, _ => true
  | _, _ => false

structure Books (files : Fin n → List Bool) (s : Session n) : Prop where
  workers : ∀ i, WorkerOk (files i) (s.workers i) (s.written i)
  pipes : ∀ i, ∀ r ∈ s.pipes i, r ∈ s.written i
  /-- A worker whose pipe was read before it wrote anything will write nothing. -/
  settled : ∀ i, (s.readOpen i = false ∨ ∃ r, s.parent = .closing i r) → s.written i = [] →
    (s.workers i).pc = .over
  handled : ∀ i, s.parent.handled i = true → s.readOpen i = false

/-- A worker writes the same record whenever it writes. -/
theorem WorkerOk.uniform {files : List Bool} {w : Worker} {written : List (ℕ × ℕ)}
    (h : WorkerOk files w written) : ∀ x ∈ written, ∀ y ∈ written, x = y := by
  unfold WorkerOk at h
  split at h
  case h_7 => exact h
  case h_6 =>
    subst h
    intro x hx y hy
    rw [List.mem_singleton.mp hx, List.mem_singleton.mp hy]
  all_goals
    rw [h.1]
    intro x hx
    cases hx

/-- The first record of a worker is any record of it. -/
theorem Books.head?_written (h : Books files s) {i : Fin n} {r : ℕ × ℕ} (hr : r ∈ s.written i) :
    (s.written i).head? = some r := by
  have huniform := (h.workers i).uniform
  cases hw : s.written i with
  | nil =>
    rw [hw] at hr
    cases hr
  | cons x rest =>
    rw [hw] at hr huniform
    rw [List.head?_cons, huniform x List.mem_cons_self r hr]

/-! ## The workers -/

/-- What worker `i` does, in its own steps and on SIGTERM. -/
inductive WorkerMove (files : List Bool) (s : Session n) (i : Fin n) : Session n → Prop
  | go (w : Worker) (hw : WorkerOk files w (s.written i)) (hlive : (s.workers i).pc ≠ .over) :
      WorkerMove files s i (s.setWorker i w)
  | report (w : Worker) (r : ℕ × ℕ) (hw : WorkerOk files w (s.written i ++ [r]))
      (hlive : (s.workers i).pc ≠ .over) :
      WorkerMove files s i
        { s.setWorker i w with
          pipes := Function.update s.pipes i (s.pipes i ++ [r])
          written := Function.update s.written i (s.written i ++ [r]) }

/-- A write, or the death of the writer. -/
theorem WorkerMove.of_write {files : List Bool} {i : Fin n} {r : ℕ × ℕ} {pc : WorkerPc}
    (h : WorkerOk files (s.workers i) (s.written i)) (hlive : (s.workers i).pc ≠ .over)
    (hw : WorkerOk files { s.workers i with pc := pc } (s.written i ++ [r])) :
    WorkerMove files s i (s.write i r pc) := by
  unfold Session.write
  split
  · exact .report _ r hw hlive
  · exact .go _ h.uniform hlive

theorem WorkerMove.of_worker {files : List Bool} {i : Fin n}
    (h : WorkerOk files (s.workers i) (s.written i)) (hs : workerStep files s i = some s') :
    WorkerMove files s i s' := by
  have hok := h
  unfold workerStep at hs
  dsimp only at hs
  unfold WorkerOk at h
  split at hs <;> rename_i hpc <;> rw [hpc] at h
  · obtain rfl := Option.some.inj hs
    exact .go _ h (by simp [hpc])
  · obtain rfl := Option.some.inj hs
    exact .go _ h (by simp [hpc])
  · obtain rfl := Option.some.inj hs
    obtain ⟨hw, hm, hf⟩ := h
    exact .go _ ⟨hw, by simp [hm], by simp [hf]⟩ (by simp [hpc])
  · rename_i isMatch rest
    obtain rfl := Option.some.inj hs
    obtain ⟨hw, hm, hf⟩ := h
    refine .go _ ?_ (by simp [hpc])
    rw [List.length_cons] at hf
    cases isMatch with
    | true =>
      rw [List.count_cons_self] at hm
      exact ⟨hw, by dsimp only; omega, by dsimp only; omega⟩
    | false =>
      rw [List.count_cons_of_ne (by decide)] at hm
      exact ⟨hw, hm, by dsimp only; omega⟩
  · obtain rfl := Option.some.inj hs
    obtain ⟨hw, hm, hf⟩ := h
    exact .go _ ⟨hw, hm, hf⟩ (by simp [hpc])
  · obtain rfl := Option.some.inj hs
    obtain ⟨hw, hm, hf⟩ := h
    refine .of_write hok (by simp [hpc]) ?_
    rw [List.count_nil, Nat.add_zero] at hm
    rw [List.length_nil, Nat.add_zero] at hf
    show s.written i ++ [_] = [_]
    rw [hw, hm, hf]
    rfl
  · obtain rfl := Option.some.inj hs
    exact .go _ hok.uniform (by simp [hpc])
  · cases hs

/-- The handler of SIGTERM repeats what the worker has written. -/
theorem WorkerMove.of_sigterm {files : List Bool} {i : Fin n}
    (h : WorkerOk files (s.workers i) (s.written i)) (hs : sigtermStep s i = some s') :
    WorkerMove files s i s' := by
  have hok := h
  unfold sigtermStep at hs
  dsimp only at hs
  unfold WorkerOk at h
  have hfirst : s.written i = [] → ∀ r, WorkerOk files { s.workers i with pc := .over }
      (s.written i ++ [r]) := by
    intro hnil r x hx y hy
    rw [hnil] at hx hy
    rw [List.mem_singleton.mp hx, List.mem_singleton.mp hy]
  have hover : (s.workers i).pc ≠ .over → WorkerMove files s i
      (s.setWorker i { s.workers i with pc := .over }) := .go _ hok.uniform
  split at hs
  case isFalse => cases hs
  case isTrue =>
    split at hs <;> rename_i hpc <;> rw [hpc] at h
    · obtain rfl := Option.some.inj hs
      exact hover (by simp [hpc])
    · obtain rfl := Option.some.inj hs
      exact hover (by simp [hpc])
    · obtain rfl := Option.some.inj hs
      exact hover (by simp [hpc])
    · obtain rfl := Option.some.inj hs
      exact .of_write hok (by simp [hpc]) (hfirst h.1 _)
    · obtain rfl := Option.some.inj hs
      exact .of_write hok (by simp [hpc]) (hfirst h.1 _)
    · obtain rfl := Option.some.inj hs
      refine .of_write hok (by simp [hpc]) ?_
      intro x hx y hy
      rw [show s.written i = [_] from h] at hx hy
      simp only [List.cons_append, List.nil_append, List.mem_cons, List.not_mem_nil, or_false,
        or_self] at hx hy
      rw [hx, hy]
    · cases hs

theorem Books.workerMove (h : Books files s) {i : Fin n} (hm : WorkerMove (files i) s i s') :
    Books files s' := by
  cases hm with
  | go w hw hlive =>
    refine ⟨?_, h.pipes, fun j hj hnil => ?_, h.handled⟩
    · exact (Function.forall_update_iff s.workers
        fun j w => WorkerOk (files j) w (s.written j)).mpr ⟨hw, fun j _ => h.workers j⟩
    · have hover := h.settled j hj hnil
      have hne : j ≠ i := fun heq => hlive (heq ▸ hover)
      exact (congrArg Worker.pc (Function.update_of_ne hne w s.workers)).trans hover
  | report w r hw hlive =>
    refine ⟨fun j => ?_, fun j x hx => ?_, fun j hj hnil => ?_, h.handled⟩
    · by_cases hj : j = i
      · subst hj
        simpa [Session.setWorker] using hw
      · simpa [Session.setWorker, hj] using h.workers j
    · by_cases hj : j = i
      · subst hj
        simp only [Function.update_self, List.mem_append] at hx ⊢
        exact hx.imp_left (h.pipes j x)
      · simp only [Function.update_of_ne hj] at hx ⊢
        exact h.pipes j x hx
    · by_cases hji : j = i
      · subst hji
        simp at hnil
      · have hover := h.settled j hj (by simpa [hji] using hnil)
        exact (congrArg Worker.pc (Function.update_of_ne hji w s.workers)).trans hover

/-- The counts the handler has stored are those of the first records. -/
def Session.Shown (s : Session n) : Prop :=
  ∀ i, s.parent.handled i = true → ∀ r, (s.written i).head? = some r → s.shown i = r

/-- A worker whose pipe the handler has read changes nothing of its first record. -/
theorem Books.shown_workerMove (h : Books files s) {i : Fin n}
    (hm : WorkerMove (files i) s i s') : s'.Shown ↔ s.Shown := by
  cases hm with
  | go => exact Iff.rfl
  | report w r hw hlive =>
    refine forall_congr' fun j => forall_congr' fun hj => ?_
    have hhead : (Function.update s.written i (s.written i ++ [r]) j).head? =
        (s.written j).head? := by
      by_cases hji : j = i
      · subst hji
        rw [Function.update_self]
        cases hw : s.written j with
        | nil => exact absurd (h.settled j (.inl (h.handled j hj)) hw) hlive
        | cons x rest => rfl
      · rw [Function.update_of_ne hji]
    show (∀ x, (Function.update s.written i _ j).head? = some x → _) ↔ _
    rw [hhead]
    exact Iff.rfl

/-! ## The parent -/

/-- A worker that does not hold its own pipe is over. -/
theorem over_of_not_writeOpen {i : Fin n} (h : s.writeOpen i = false) :
    (s.workers i).pc = .over := by
  by_contra hover
  have hends : (s.workers i).pc.holdsEnd i i = true := by
    cases hpc : (s.workers i).pc <;> first | exact absurd hpc hover | simp [WorkerPc.holdsEnd]
  exact of_decide_eq_false h ⟨i, hends⟩

/-- **What the parent reads**: a record of the worker, or nothing. -/
theorem Books.read (h : Books files s) {i : Fin n} {r : ℕ × ℕ} {s₁ : Session n}
    (hr : s.read i = some (r, s₁)) :
    (∃ pipes, s₁ = { s with pipes := pipes } ∧ ∀ j, ∀ x ∈ pipes j, x ∈ s.written j) ∧
      ((s.readOpen i = true ∧ s.pipes i ≠ []) ∧ r ∈ s.written i ∨
        ¬ (s.readOpen i = true ∧ s.pipes i ≠ []) ∧ r = (0, 0) ∧
          (s.written i = [] → (s.workers i).pc = .over)) := by
  unfold Session.read at hr
  split at hr
  case isTrue hopen =>
    split at hr
    case h_1 x rest hpipe =>
      obtain ⟨rfl, rfl⟩ := Prod.mk.inj (Option.some.inj hr)
      refine ⟨⟨_, rfl, fun j x hx => h.pipes j x ?_⟩,
        .inl ⟨⟨hopen, by simp [hpipe]⟩, h.pipes i _ (by simp [hpipe])⟩⟩
      by_cases hj : j = i
      · subst hj
        rw [Function.update_self] at hx
        rw [hpipe]
        exact List.mem_cons_of_mem _ hx
      · rwa [Function.update_of_ne hj] at hx
    case h_2 hpipe =>
      split_ifs at hr with hw
      obtain ⟨rfl, rfl⟩ := Prod.mk.inj (Option.some.inj hr)
      exact ⟨⟨s.pipes, rfl, h.pipes⟩, .inr ⟨fun hno => hno.2 hpipe, rfl,
        fun _ => over_of_not_writeOpen (Bool.eq_false_iff.mpr hw)⟩⟩
  case isFalse hclosed =>
    obtain ⟨rfl, rfl⟩ := Prod.mk.inj (Option.some.inj hr)
    exact ⟨⟨s.pipes, rfl, h.pipes⟩, .inr ⟨fun hno => hclosed hno.1, rfl,
      h.settled i (.inl (Bool.eq_false_iff.mpr hclosed))⟩⟩

/-- A worker whose pipe was read has written something, or will write nothing. -/
theorem Books.over_of_read (h : Books files s) {i : Fin n} {r : ℕ × ℕ} {s₁ : Session n}
    (hr : s.read i = some (r, s₁)) (hnil : s.written i = []) : (s.workers i).pc = .over := by
  rcases (h.read hr).2 with ⟨-, hmem⟩ | ⟨-, -, hover⟩
  · rw [hnil] at hmem
    cases hmem
  · exact hover hnil

/-- The parent goes to `pc`, having stored what it did. -/
theorem Books.go (h : Books files s) (pc : ParentPc n) (hclosing : ∀ i r, pc ≠ .closing i r)
    (hhandled : ∀ i, pc.handled i = true → s.readOpen i = false) (ms fs : Fin n → ℕ) :
    Books files { s with parent := pc, workerMatches := ms, workerFiles := fs } where
  workers := h.workers
  pipes := h.pipes
  settled := fun i hi hnil => by
    rcases hi with hi | ⟨r, hr⟩
    · exact h.settled i (.inl hi) hnil
    · exact absurd hr (hclosing i r)
  handled := hhandled

/-- Nothing is shown yet. -/
theorem shown_of_unhandled (h : ∀ i, s.parent.handled i = false) : s.Shown := by
  intro i hi
  rw [h i] at hi
  cases hi

theorem stillThere_of_ne (h : ∀ k : Fin n, s.parent ≠ .rereading k) (a : Act n) : StillThere s a :=
  fun _ k hk => absurd hk (h k)

/-- Before and after a step outside the handler's second loop, nothing is shown. -/
theorem shown_quiet (h : ∀ i, s.parent.handled i = false) (h' : ∀ i, s'.parent.handled i = false)
    (hne : ∀ k : Fin n, s.parent ≠ .rereading k) (a : Act n) :
    s'.Shown ↔ s.Shown ∧ StillThere s a :=
  iff_of_true (shown_of_unhandled h') ⟨shown_of_unhandled h, stillThere_of_ne hne a⟩

/-- The parent goes on, and nothing is shown before or after. -/
theorem Books.goQuiet (h : Books files s) (hnone : ∀ i, s.parent.handled i = false)
    (hne : ∀ k : Fin n, s.parent ≠ .rereading k) (pc : ParentPc n)
    (hclosing : ∀ i r, pc ≠ .closing i r) (hnone' : ∀ i, pc.handled i = false)
    (ms fs : Fin n → ℕ) (a : Act n) :
    Books files { s with parent := pc, workerMatches := ms, workerFiles := fs } ∧
      (({ s with parent := pc, workerMatches := ms, workerFiles := fs } : Session n).Shown ↔
        s.Shown ∧ StillThere s a) := by
  refine ⟨h.go pc hclosing (fun i hi => ?_) ms fs, shown_quiet hnone hnone' hne a⟩
  rw [hnone' i] at hi
  cases hi

/-- The handler reads pipe `k` and stores what it read. -/
theorem Books.reread (h : Books files s) {k : Fin n} {r : ℕ × ℕ} {s₁ : Session n}
    (hpc : s.parent = .rereading k) (hr : s.read k = some (r, s₁)) (hs' : s' =
      { s₁ with
        readOpen := Function.update s₁.readOpen k false
        workerMatches := Function.update s₁.workerMatches k r.1
        workerFiles := Function.update s₁.workerFiles k r.2
        parent := .rereading (k + 1) }) :
    Books files s' ∧ (s'.Shown ↔ s.Shown ∧ StillThere s .parent) := by
  obtain ⟨⟨pipes, rfl, hsub⟩, hread⟩ := h.read hr
  have hover := h.over_of_read hr
  subst hs'
  refine ⟨⟨h.workers, hsub, fun i hi hnil => ?_, fun i hi => ?_⟩, ?_, ?_⟩
  · rcases hi with hi | ⟨x, hx⟩
    · by_cases hik : i = k
      · exact hik ▸ hover (hik ▸ hnil)
      · exact h.settled i (.inl ((Function.update_of_ne hik false s.readOpen).symm.trans hi)) hnil
    · cases hx
  · by_cases hik : i = k
    · subst hik
      exact Function.update_self ..
    · have hlt : i.val < k.val + 1 := of_decide_eq_true hi
      have hne : i.val ≠ k.val := fun heq => hik (Fin.ext heq)
      refine (Function.update_of_ne hik false s.readOpen).trans (h.handled i ?_)
      rw [hpc]
      exact decide_eq_true (by omega)
  · intro hshown
    refine ⟨fun i hi x hx => ?_, fun _ k' hk' => ?_⟩
    · rw [hpc] at hi
      have hlt : i.val < k.val := of_decide_eq_true hi
      have hne : i ≠ k := fun heq => absurd (congrArg Fin.val heq) (by omega)
      have hsame := hshown i (decide_eq_true (by omega)) x hx
      simpa [Session.shown, hne] using hsame
    · obtain rfl : k = k' := Fin.ext (ParentPc.rereading.inj (hpc.symm.trans hk'))
      rcases hread with ⟨hthere, -⟩ | ⟨-, rfl, -⟩
      · exact .inl hthere
      · cases hw : s.written k with
        | nil => exact .inr (.inl rfl)
        | cons x rest =>
          have hx := hshown k (decide_eq_true (Nat.lt_succ_self _)) x (by simp [hw])
          refine .inr (.inr ?_)
          simpa [Session.shown] using hx.symm
  · rintro ⟨hshown, hthere⟩ i hi x hx
    by_cases hik : i = k
    · subst hik
      have hr : r = x := by
        rcases hread with ⟨-, hmem⟩ | ⟨hno, rfl, -⟩
        · exact Option.some.inj ((h.head?_written hmem).symm.trans hx)
        · rcases hthere rfl i hpc with hyes | hnil | hzero
          · exact absurd hyes hno
          · rw [show s.written i = [] from hnil] at hx
            cases hx
          · exact Option.some.inj (hzero.symm.trans hx)
      subst hr
      simp [Session.shown]
    · have hlt : i.val < k.val + 1 := of_decide_eq_true hi
      have hne : i.val ≠ k.val := fun heq => hik (Fin.ext heq)
      have hsame := hshown i (by rw [hpc]; exact decide_eq_true (by omega)) x hx
      simpa [Session.shown, hik] using hsame

/-- `parent_process` has read pipe `k`. -/
theorem Books.toClosing (h : Books files s) {k : Fin n} {r : ℕ × ℕ} {s₁ : Session n}
    (hr : s.read k = some (r, s₁)) : Books files { s₁ with parent := .closing k r } := by
  obtain ⟨⟨pipes, rfl, hsub⟩, -⟩ := h.read hr
  refine ⟨h.workers, hsub, fun i hi hnil => ?_, fun i hi => by cases hi⟩
  rcases hi with hi | ⟨x, hx⟩
  · exact h.settled i (.inl hi) hnil
  · obtain ⟨rfl, -⟩ := ParentPc.closing.inj hx
    exact h.over_of_read hr hnil

/-- `parent_process` closes its end of pipe `k`. -/
theorem Books.toStoring (h : Books files s) {k : Fin n} {r : ℕ × ℕ}
    (hpc : s.parent = .closing k r) :
    Books files
      { s with readOpen := Function.update s.readOpen k false, parent := .storing k r } := by
  refine ⟨h.workers, h.pipes, fun i hi hnil => ?_, fun i hi => by cases hi⟩
  by_cases hik : i = k
  · exact h.settled i (.inr ⟨r, hik ▸ hpc⟩) hnil
  · rcases hi with hi | ⟨x, hx⟩
    · exact h.settled i (.inl ((Function.update_of_ne hik false s.readOpen).symm.trans hi)) hnil
    · cases hx

/-- The handler sends SIGTERM to worker `k`. -/
theorem Books.toKilling (h : Books files s) (k : Fin n) (j : ℕ) :
    Books files { s.setWorker k { s.workers k with term := true } with parent := .killing j } := by
  refine ⟨fun i => ?_, h.pipes, fun i hi hnil => ?_, fun i hi => by cases hi⟩
  · by_cases hik : i = k
    · subst hik
      simpa [Session.setWorker, WorkerOk] using h.workers i
    · simpa [Session.setWorker, hik] using h.workers i
  · have hover := h.settled i (hi.imp_right fun ⟨x, hx⟩ => by cases hx) hnil
    by_cases hik : i = k
    · subst hik
      simpa [Session.setWorker] using hover
    · simpa [Session.setWorker, hik] using hover

theorem parent_step (h : Books files s) (hs : parentStep s = some s') :
    Books files s' ∧ (s'.Shown ↔ s.Shown ∧ StillThere s .parent) := by
  unfold parentStep at hs
  split at hs
  case h_1 k hpc =>
    have hnone : ∀ i, s.parent.handled i = false := fun i => by rw [hpc]; rfl
    split at hs
    case isTrue hk =>
      obtain ⟨⟨r, s₁⟩, hr, rfl⟩ := Option.map_eq_some_iff.mp hs
      exact ⟨h.toClosing hr, shown_quiet hnone (fun _ => rfl) (by simp [hpc]) _⟩
    case isFalse =>
      obtain rfl := Option.some.inj hs
      exact h.goQuiet hnone (by simp [hpc]) .collecting (by simp) (fun _ => rfl) _ _ _
  case h_2 k r hpc =>
    obtain rfl := Option.some.inj hs
    exact ⟨h.toStoring hpc,
      shown_quiet (fun i => by rw [hpc]; rfl) (fun _ => rfl) (by simp [hpc]) _⟩
  case h_3 k r hpc =>
    obtain rfl := Option.some.inj hs
    exact h.goQuiet (fun i => by rw [hpc]; rfl) (by simp [hpc]) _ (by simp) (fun _ => rfl) _ _ _
  case h_4 k r hpc =>
    obtain rfl := Option.some.inj hs
    exact h.goQuiet (fun i => by rw [hpc]; rfl) (by simp [hpc]) _ (by simp) (fun _ => rfl) _ _ _
  case h_5 => cases hs
  case h_6 k hpc =>
    have hnone : ∀ i, s.parent.handled i = false := fun i => by rw [hpc]; rfl
    split at hs
    case isTrue hk =>
      obtain rfl := Option.some.inj hs
      exact ⟨h.toKilling ⟨k, hk⟩ (k + 1), shown_quiet hnone (fun _ => rfl) (by simp [hpc]) _⟩
    case isFalse =>
      obtain rfl := Option.some.inj hs
      exact h.goQuiet hnone (by simp [hpc]) _ (by simp) (by simp [ParentPc.handled]) _ _ _
  case h_7 k hpc =>
    split at hs
    case isTrue hk =>
      obtain ⟨⟨r, s₁⟩, hr, hs'⟩ := Option.map_eq_some_iff.mp hs
      exact h.reread (k := ⟨k, hk⟩) hpc hr hs'.symm
    case isFalse hk =>
      obtain rfl := Option.some.inj hs
      have hall : ∀ i : Fin n, s.parent.handled i = true := fun i => by
        rw [hpc]
        exact decide_eq_true (i.isLt.trans_le (not_lt.mp hk))
      refine ⟨h.go _ (by simp) (fun i _ => h.handled i (hall i)) _ _, fun hshown => ?_, ?_⟩
      · refine ⟨fun i _ => hshown i rfl, fun _ k' hk' => ?_⟩
        have hkk := ParentPc.rereading.inj (hpc.symm.trans hk')
        exact absurd k'.isLt (hkk ▸ hk)
      · exact fun hshown i _ => hshown.1 i (hall i)
  case h_8 hpc =>
    obtain rfl := Option.some.inj hs
    have hall : ∀ i : Fin n, s.parent.handled i = true := fun i => by rw [hpc]; rfl
    refine ⟨⟨fun i => (h.workers i).uniform, h.pipes, fun _ _ _ => rfl,
      fun i _ => h.handled i (hall i)⟩, fun hshown => ?_, ?_⟩
    · exact ⟨fun i _ => hshown i rfl, stillThere_of_ne (by simp [hpc]) _⟩
    · exact fun hshown i _ => hshown.1 i (hall i)
  case h_9 => cases hs

/-- **One step**: it leaves the shown counts right exactly if they were and the record the handler
reads is still there. -/
theorem session_step (h : Books files s) (hs : sessionStep files s a = some s') :
    Books files s' ∧ (s'.Shown ↔ s.Shown ∧ StillThere s a) := by
  cases a with
  | parent => exact parent_step h hs
  | interrupt =>
    unfold sessionStep at hs
    dsimp only at hs
    split_ifs at hs with hin
    obtain rfl := Option.some.inj hs
    refine ⟨h.go (.killing 0) (by simp) (fun i hi => by cases hi) _ _,
      shown_quiet (fun i => ?_) (fun _ => rfl) (fun k hk => ?_) _⟩
    · cases hpc : s.parent <;> rw [hpc] at hin <;> first | rfl | cases hin
    · rw [hk] at hin
      cases hin
  | worker i =>
    have hm := WorkerMove.of_worker (h.workers i) hs
    exact ⟨h.workerMove hm, (h.shown_workerMove hm).trans ⟨fun hall => ⟨hall, nofun⟩, And.left⟩⟩
  | sigterm i =>
    have hm := WorkerMove.of_sigterm (h.workers i) hs
    exact ⟨h.workerMove hm, (h.shown_workerMove hm).trans ⟨fun hall => ⟨hall, nofun⟩, And.left⟩⟩

theorem books_init (files : Fin n → List Bool) : Books files (session files).init where
  workers := fun _ => ⟨rfl, rfl, rfl⟩
  pipes := fun _ _ hr => by cases hr
  settled := fun i hi _ => by
    rcases hi with hi | ⟨r, hr⟩
    · cases hi
    · cases hr
  handled := fun _ hi => by cases hi

/-- **The summary after SIGINT** shows the first record of every worker that wrote one, exactly if
the handler finds it in an open pipe, or it is `{0, 0}`. -/
theorem summary_kept_iff (files : Fin n → List Bool) {as : List (Act n)} {s : Session n}
    (hrun : (session files).runs (session files).init as = some s)
    (hprinted : s.parent = .printed) :
    s.Kept ↔ (session files).AllSteps StillThere (session files).init as := by
  have hiff := Machine.last_iff_allSteps (J := Books files) (P := Session.Shown)
    (fun _ _ _ h hs => (session_step h hs).1) (fun _ _ _ h hs => (session_step h hs).2)
    (books_init files) hrun
  have hinit : (session files).init.Shown := shown_of_unhandled fun _ => rfl
  have hall : ∀ i, s.parent.handled i = true := fun i => by rw [hprinted]; rfl
  have hkept : s.Kept ↔ s.Shown := ⟨fun h i _ => h i, fun h i => h i (hall i)⟩
  exact hkept.trans (hiff.trans ⟨And.right, fun h => ⟨hinit, h⟩⟩)

/-- One worker, with one file, a match. -/
def oneFile (_ : Fin 1) : List Bool := [true]

/-- The worker reports. -/
def reportRun : List (Act 1) := List.replicate 7 (.worker (Fin.last 0))

/-- SIGINT comes before the parent has read the record. -/
def earlyRun : List (Act 1) := reportRun ++ [.interrupt] ++ List.replicate 5 .parent

theorem summary_kept_early :
    ∃ s, (session oneFile).runs (session oneFile).init earlyRun = some s ∧ s.Kept := by
  have h : ((session oneFile).runs (session oneFile).init earlyRun).map Session.parent =
      some .printed := by decide +kernel
  obtain ⟨s, hrun, hprinted⟩ := Option.map_eq_some_iff.mp h
  exact ⟨s, hrun, (summary_kept_iff oneFile hrun hprinted).mpr (by decide +kernel)⟩

/-- SIGINT comes after `parent_process` has stored the record `{1, 1}`. -/
def lateRun : List (Act 1) :=
  reportRun ++ List.replicate 4 .parent ++ [.interrupt] ++ List.replicate 5 .parent

/-- The handler reads the closed pipe and stores `{0, 0}`. -/
theorem not_summary_kept :
    ¬ ∀ (n : ℕ) (files : Fin n → List Bool) (as : List (Act n)) (s : Session n),
      (session files).runs (session files).init as = some s → s.parent = .printed → s.Kept := by
  intro hclaim
  have h : ((session oneFile).runs (session oneFile).init lateRun).map
      (fun s => (s.parent, s.written 0, s.shown 0)) = some (.printed, [(1, 1)], (0, 0)) := by
    decide +kernel
  obtain ⟨s, hrun, hs⟩ := Option.map_eq_some_iff.mp h
  simp only [Prod.mk.injEq] at hs
  obtain ⟨hprinted, hwritten, hshown⟩ := hs
  have hkept := hclaim 1 oneFile lateRun s hrun hprinted 0 (1, 1) (by rw [hwritten]; rfl)
  rw [hshown] at hkept
  cases hkept

end Cse344.HW2.Interrupt
