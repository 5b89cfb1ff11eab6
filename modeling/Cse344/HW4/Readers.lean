import Cse344.HW4.Region
import Cse344.Lib.Machine
import Cse344.Lib.Totals

/-!
# The reader processes of HW4

Model of `run_reader` (`HW4/src/processes/reader.c` 41-144), of `reader_thread_func` and
`parser_thread_func` (`HW4/src/utils/reader_thread_fun.c` 14-112) and of the internal buffer between
them (`HW4/src/utils/internal_buffer.c` 43-85): `R` processes, each with a main thread, a parser
thread and `T` reader threads, and a dispatcher that takes entries from Region A at any time.

* `Resources` is what a process gets from the system: each allocation, the file and each thread may
  be refused. What a reader thread parses out of its range is given (`parsed`); it is empty where
  the thread cannot open the file.
* One section of a mutex is one step, and so is one `pthread_join`.
* A level is closed when `eof_count_per_level` has got to `total_readers`. A process signs a level
  by pushing its EOF entry, which its parser thread does, and its main thread where it leaves early.

Results:
* `mainStep_spec`, `parserThreadStep_spec`: what a step of a thread does to the counts.
* **`every_reader_signs_off_iff`**: when all processes have exited every level is signed by all of
  them, exactly if every process got as far as to create its parser thread. An empty file or a
  reader thread that is refused does no harm.

Out of scope: what the dispatcher does with the entries, which is `Cse344.HW4.Pipeline`.
-/

namespace Cse344.HW4

open Cse344.Lib

variable {R T : ℕ}

/-- What the system grants one reader process. -/
structure Resources (T : ℕ) where
  ibufInit : Bool
  /-- The size of the log file, `none` where it cannot be opened. -/
  fileSize : Option ℕ
  mallocTids : Bool
  mallocArgs : Bool
  parserCreated : Bool
  readerCreated : Fin T → Bool
  parsed : Fin T → List LogEntry

/-- `run_reader` gets as far as to create its parser thread. -/
def Resources.reachParser (e : Resources T) : Bool :=
  e.ibufInit && e.fileSize.isSome && e.mallocTids && e.mallocArgs && e.parserCreated

/-- The bounds are those of `validate_args`. -/
structure ReaderSetup (R T : ℕ) where
  resources : Fin R → Resources T
  capA : ℕ
  capB : ℕ
  four_le_capA : 4 ≤ capA
  four_le_capB : 4 ≤ capB
  threads_pos : 0 < T

theorem ReaderSetup.capA_pos (u : ReaderSetup R T) : 0 < u.capA := by
  have := u.four_le_capA
  omega

theorem ReaderSetup.capB_pos (u : ReaderSetup R T) : 0 < u.capB := by
  have := u.four_le_capB
  omega

/-- `t_internal_buffer`. -/
structure InternalBuffer extends RingBuffer LogEntry where
  done : Bool
  activeReaders : ℤ

def ibufPush (b : InternalBuffer) (entry : LogEntry) : Option InternalBuffer :=
  (b.push entry).map fun q => { b with toRingBuffer := q }

def ibufPop (b : InternalBuffer) : Option (LogEntry × InternalBuffer) :=
  b.pop.map fun r => (r.1, { b with toRingBuffer := r.2 })

def ibufReaderDone (b : InternalBuffer) : InternalBuffer :=
  { b with
    activeReaders := b.activeReaders - 1
    done := if b.activeReaders - 1 = 0 then true else b.done }

/-- Where the main thread is, in `run_reader`. -/
inductive MainPc
  /-- before `ibuf_init` -/
  | initialising
  /-- before `fopen` -/
  | opening
  /-- before the two `malloc` -/
  | allocating
  /-- before the `pthread_create` of the parser thread -/
  | creatingParser
  /-- before the `pthread_create` of reader thread `i` -/
  | creating (i : ℕ)
  /-- before joining reader thread `j` of the `n` that were created -/
  | joining (j n : ℕ)
  /-- before it sets `done` where a thread was refused -/
  | setting
  /-- before joining the parser thread -/
  | joiningParser
  | exited
  deriving DecidableEq, Repr

/-- Where a parser thread is, in `parser_thread_func`. -/
inductive ParserThread
  | notCreated
  /-- in `ibuf_pop` -/
  | popping
  /-- before it pushes `entry` to Region A -/
  | holding (entry : LogEntry)
  /-- the EOF entries of these levels to push -/
  | closing (rest : List Level)
  | exited
  deriving DecidableEq, Repr

/-- Where a reader thread is. -/
inductive ReaderThread
  | notCreated
  /-- these entries to push -/
  | pushing (rest : List LogEntry)
  | exited
  deriving DecidableEq, Repr

structure ReaderProc (T : ℕ) where
  main : MainPc
  ibuf : InternalBuffer
  parser : ParserThread
  threads : Fin T → ReaderThread

structure Readers (R T : ℕ) where
  a : RegionA
  procs : Fin R → ReaderProc T

inductive ReaderAct (R T : ℕ)
  | main (r : Fin R)
  | parser (r : Fin R)
  | thread (r : Fin R) (i : Fin T)
  /-- `region_a_pop` in `run_dispatcher` -/
  | dispatcher
  deriving DecidableEq, Repr

/-! ## Steps -/

def ReaderProc.setThread (p : ReaderProc T) (i : Fin T) (x : ReaderThread) : ReaderProc T :=
  { p with threads := Function.update p.threads i x }

/-- The next step of the main thread. -/
def mainStep (u : ReaderSetup R T) (e : Resources T) (p : ReaderProc T) : Option (ReaderProc T) :=
  match p.main with
  | .initialising =>
    if e.ibufInit then
      some { p with
        ibuf := { RingBuffer.empty (eofEntry .error) u.capB u.capB_pos with
          done := false
          activeReaders := T }
        main := .opening }
    else some { p with main := .exited }
  | .opening =>
    match e.fileSize with
    | none => some { p with main := .exited }
    | some size =>
      some { p with
        ibuf := { p.ibuf with done := if size = 0 then true else p.ibuf.done }
        main := .allocating }
  | .allocating =>
    if e.mallocTids && e.mallocArgs then some { p with main := .creatingParser }
    else some { p with main := .exited }
  | .creatingParser =>
    if e.parserCreated then some { p with parser := .popping, main := .creating 0 }
    else some { p with main := .exited }
  | .creating i =>
    if h : i < T then
      if e.readerCreated ⟨i, h⟩ then
        some { p.setThread ⟨i, h⟩ (.pushing (e.parsed ⟨i, h⟩)) with main := .creating (i + 1) }
      else some { p with main := .joining 0 i }
    else some { p with main := .joining 0 T }
  | .joining j n =>
    -- where a thread was refused, fewer than `T` were created
    if h : j < T then
      if j < n then
        if p.threads ⟨j, h⟩ = .exited then some { p with main := .joining (j + 1) n } else none
      else some { p with main := .setting }
    else some { p with main := .joiningParser }
  | .setting => some { p with ibuf := { p.ibuf with done := true }, main := .joiningParser }
  | .joiningParser => if p.parser = .exited then some { p with main := .exited } else none
  | .exited => none

/-- The next step of a parser thread: its process, and Region A. -/
def parserThreadStep (a : RegionA) (p : ReaderProc T) : Option (RegionA × ReaderProc T) :=
  match p.parser with
  | .notCreated => none
  | .popping =>
    match ibufPop p.ibuf with
    | some (entry, ibuf) => some (a, { p with ibuf := ibuf, parser := .holding entry })
    | none => if p.ibuf.done then some (a, { p with parser := .closing Level.all }) else none
  | .holding entry =>
    match regionAPush a entry with
    | none => none
    | some a => some (a, { p with parser := .popping })
  | .closing [] => some (a, { p with parser := .exited })
  | .closing (lv :: rest) =>
    match regionAPush a (eofEntry lv) with
    | none => none
    | some a =>
      some ({ a with
        eofCountPerLevel := Function.update a.eofCountPerLevel lv (a.eofCountPerLevel lv + 1) },
        { p with parser := .closing rest })
  | .exited => none

/-- The next step of reader thread `i`. -/
def readerThreadStep (p : ReaderProc T) (i : Fin T) : Option (ReaderProc T) :=
  match p.threads i with
  | .notCreated => none
  | .pushing (entry :: rest) =>
    match ibufPush p.ibuf entry with
    | none => none
    | some ibuf => some { p.setThread i (.pushing rest) with ibuf := ibuf }
  | .pushing [] => some { p.setThread i .exited with ibuf := ibufReaderDone p.ibuf }
  | .exited => none

def Readers.setProc (s : Readers R T) (r : Fin R) (p : ReaderProc T) : Readers R T :=
  { s with procs := Function.update s.procs r p }

def readersStep (u : ReaderSetup R T) (s : Readers R T) : ReaderAct R T → Option (Readers R T)
  | .main r => (mainStep u (u.resources r) (s.procs r)).map (s.setProc r)
  | .parser r => (parserThreadStep s.a (s.procs r)).map fun x => { s.setProc r x.2 with a := x.1 }
  | .thread r i => (readerThreadStep (s.procs r) i).map (s.setProc r)
  | .dispatcher => (regionAPop s.a).map fun x => { s with a := x.2 }

def readers (u : ReaderSetup R T) : Machine (Readers R T) (ReaderAct R T) where
  init :=
    { a := { RingBuffer.empty (eofEntry .error) u.capA u.capA_pos with
        eofCountPerLevel := fun _ => 0 }
      procs := fun _ =>
        { main := .initialising
          ibuf := { RingBuffer.empty (eofEntry .error) u.capB u.capB_pos with
            done := false
            activeReaders := 0 }
          parser := .notCreated
          threads := fun _ => .notCreated } }
  step := readersStep u

/-! ## What a process signs -/

variable {u : ReaderSetup R T} {s s' : Readers R T} {act : ReaderAct R T}

/-- The parser thread has pushed its EOF entry of level `lv`. -/
def ParserThread.hasSigned (lv : Level) : ParserThread → Bool
  | .notCreated => false
  | .popping => false
  | .holding _ => false
  | .closing rest => decide (lv ∉ rest)
  | .exited => true

/-- The main thread has a parser thread to join. -/
def MainPc.hasParser : MainPc → Bool
  | .creating _ => true
  | .joining _ _ => true
  | .setting => true
  | .joiningParser => true
  | _ => false

/-- What the system has granted a main thread so far. -/
def MainPc.Granted (e : Resources T) : MainPc → Prop
  | .initialising => True
  | .opening => e.ibufInit = true
  | .allocating => e.ibufInit = true ∧ e.fileSize.isSome = true
  | .creatingParser => (e.ibufInit = true ∧ e.fileSize.isSome = true) ∧
      e.mallocTids = true ∧ e.mallocArgs = true
  | .exited => True
  | _ => e.reachParser = true

/-- What one process is at, in every reachable state. -/
structure ReaderProc.Ok (e : Resources T) (p : ReaderProc T) : Prop where
  granted : p.main.Granted e
  early : p.main.hasParser = false → p.main ≠ .exited → p.parser = .notCreated
  late : p.main.hasParser = true → p.parser ≠ .notCreated
  exited : p.main = .exited → p.parser = if e.reachParser then .exited else .notCreated
  nodup : ∀ rest, p.parser = .closing rest → rest.Nodup

/-- The main thread leaves before it has a parser thread. -/
theorem ReaderProc.Ok.leave {e : Resources T} {p : ReaderProc T} (h : p.Ok e)
    (hm : p.main.hasParser = false) (hx : p.main ≠ .exited) (he : e.reachParser = false) :
    ReaderProc.Ok e { p with main := .exited } where
  granted := trivial
  early := fun _ hne => absurd rfl hne
  late := fun hp => by cases hp
  exited := fun _ => by rw [he]; exact h.early hm hx
  nodup := h.nodup

/-- The main thread goes on. -/
theorem ReaderProc.Ok.go {e : Resources T} {p : ReaderProc T} (h : p.Ok e) (pc : MainPc)
    (hx : p.main ≠ .exited) (hpc : pc ≠ .exited) (hp : pc.hasParser = p.main.hasParser)
    (hg : pc.Granted e)
    (ibuf : InternalBuffer) (threads : Fin T → ReaderThread) :
    ReaderProc.Ok e { p with main := pc, ibuf := ibuf, threads := threads } where
  granted := hg
  early := fun hno _ => h.early (hp ▸ hno) hx
  late := fun hyes => h.late (hp ▸ hyes)
  exited := fun heq => absurd heq hpc
  nodup := h.nodup

/-- **What a step of a main thread does**: it signs nothing. -/
theorem mainStep_spec {e : Resources T} {p p' : ReaderProc T} (h : p.Ok e)
    (hs : mainStep u e p = some p') :
    p'.Ok e ∧ ∀ lv, p'.parser.hasSigned lv = p.parser.hasSigned lv := by
  have hg := h.granted
  unfold mainStep at hs
  split at hs <;> rename_i hpc <;> rw [hpc] at hg
  · split_ifs at hs with hi <;> obtain rfl := Option.some.inj hs
    · exact ⟨h.go .opening (by simp [hpc]) (by simp) (by rw [hpc]; rfl) hi _ _, fun _ => rfl⟩
    · exact ⟨h.leave (by rw [hpc]; rfl) (by simp [hpc]) (by simp [Resources.reachParser, hi]),
        fun _ => rfl⟩
  · split at hs <;> rename_i hf <;> obtain rfl := Option.some.inj hs
    · exact ⟨h.leave (by rw [hpc]; rfl) (by simp [hpc]) (by simp [Resources.reachParser, hf]),
        fun _ => rfl⟩
    · exact ⟨h.go .allocating (by simp [hpc]) (by simp) (by rw [hpc]; rfl) ⟨hg, by rw [hf]; rfl⟩ _
        _, fun _ => rfl⟩
  · split_ifs at hs with ha <;> obtain rfl := Option.some.inj hs
    · exact ⟨h.go .creatingParser (by simp [hpc]) (by simp) (by rw [hpc]; rfl)
        ⟨hg, (Bool.and_eq_true _ _).mp ha⟩ _ _, fun _ => rfl⟩
    · refine ⟨h.leave (by rw [hpc]; rfl) (by simp [hpc]) ?_, fun _ => rfl⟩
      rw [Resources.reachParser, Bool.and_assoc _ e.mallocTids, Bool.eq_false_iff.mpr ha,
        Bool.and_false, Bool.false_and]
  · have hnot : p.parser = .notCreated := h.early (by rw [hpc]; rfl) (by simp [hpc])
    split_ifs at hs with hc <;> obtain rfl := Option.some.inj hs
    · obtain ⟨⟨hi, hf⟩, ht, ha⟩ := hg
      have hreach : e.reachParser = true := by simp [Resources.reachParser, hi, hf, ht, ha, hc]
      refine ⟨⟨hreach, ?_, ?_, ?_, ?_⟩, fun lv => by rw [hnot]; rfl⟩
      · rintro ⟨⟩
      · rintro - ⟨⟩
      · rintro ⟨⟩
      · rintro rest ⟨⟩
    · exact ⟨h.leave (by rw [hpc]; rfl) (by simp [hpc]) (by simp [Resources.reachParser, hc]),
        fun _ => rfl⟩
  · rename_i i
    split_ifs at hs <;> obtain rfl := Option.some.inj hs
    · exact ⟨h.go (.creating (i + 1)) (by simp [hpc]) (by simp) (by rw [hpc]; rfl) hg _ _,
        fun _ => rfl⟩
    · exact ⟨h.go (.joining 0 i) (by simp [hpc]) (by simp) (by rw [hpc]; rfl) hg _ _, fun _ => rfl⟩
    · exact ⟨h.go (.joining 0 T) (by simp [hpc]) (by simp) (by rw [hpc]; rfl) hg _ _, fun _ => rfl⟩
  · rename_i j n
    split_ifs at hs <;> obtain rfl := Option.some.inj hs
    · exact ⟨h.go (.joining (j + 1) n) (by simp [hpc]) (by simp) (by rw [hpc]; rfl) hg _ _,
        fun _ => rfl⟩
    · exact ⟨h.go .setting (by simp [hpc]) (by simp) (by rw [hpc]; rfl) hg _ _, fun _ => rfl⟩
    · exact ⟨h.go .joiningParser (by simp [hpc]) (by simp) (by rw [hpc]; rfl) hg _ _, fun _ => rfl⟩
  · obtain rfl := Option.some.inj hs
    exact ⟨h.go .joiningParser (by simp [hpc]) (by simp) (by rw [hpc]; rfl) hg _ _, fun _ => rfl⟩
  · split_ifs at hs with hx
    obtain rfl := Option.some.inj hs
    have hreach : e.reachParser = true := hg
    refine ⟨⟨trivial, ?_, ?_, fun _ => ?_, h.nodup⟩, fun _ => rfl⟩
    · exact fun _ hne => absurd rfl hne
    · rintro ⟨⟩
    · rw [hreach]
      exact hx
  · cases hs

/-- A parser thread goes on; its process has not exited then. -/
theorem ReaderProc.Ok.setParser {e : Resources T} {p : ReaderProc T} (h : p.Ok e)
    (hc : p.parser ≠ .notCreated) (hx : p.parser ≠ .exited) {pc : ParserThread}
    (hpc : pc ≠ .notCreated) (hnd : ∀ rest, pc = .closing rest → rest.Nodup)
    (ibuf : InternalBuffer) : ReaderProc.Ok e { p with parser := pc, ibuf := ibuf } where
  granted := h.granted
  early := fun hno hne => absurd (h.early hno hne) hc
  late := fun _ => hpc
  exited := fun hm => by
    have := h.exited hm
    split_ifs at this
    · exact absurd this hx
    · exact absurd this hc
  nodup := hnd

/-- **What a step of a parser thread does**: it signs at most one level, which it counts. -/
theorem parserThreadStep_spec {e : Resources T} {a a' : RegionA} {p p' : ReaderProc T}
    (h : p.Ok e) (hs : parserThreadStep a p = some (a', p')) :
    p'.Ok e ∧ ∀ lv, a'.eofCountPerLevel lv + (if p.parser.hasSigned lv then 1 else 0) =
      a.eofCountPerLevel lv + if p'.parser.hasSigned lv then 1 else 0 := by
  unfold parserThreadStep at hs
  split at hs
  case h_1 => cases hs
  case h_2 hpc =>
    split at hs
    · obtain ⟨rfl, rfl⟩ := Prod.mk.inj (Option.some.inj hs)
      exact ⟨h.setParser (by simp [hpc]) (by simp [hpc]) (by simp) (by simp) _,
        fun lv => by rw [hpc]; rfl⟩
    · split_ifs at hs
      obtain ⟨rfl, rfl⟩ := Prod.mk.inj (Option.some.inj hs)
      refine ⟨h.setParser (by simp [hpc]) (by simp [hpc]) (by simp) ?_ _, fun lv => ?_⟩
      · rintro rest ⟨⟩
        exact Level.nodup_all
      · rw [hpc]
        simp [ParserThread.hasSigned, lv.mem_all]
  case h_3 entry hpc =>
    split at hs
    · cases hs
    · rename_i a₁ ha
      obtain ⟨rfl, rfl⟩ := Prod.mk.inj (Option.some.inj hs)
      refine ⟨h.setParser (by simp [hpc]) (by simp [hpc]) (by simp) (by simp) _, fun lv => ?_⟩
      rw [hpc, (regionAPush_spec ha).2]
      rfl
  case h_4 hpc =>
    obtain ⟨rfl, rfl⟩ := Prod.mk.inj (Option.some.inj hs)
    refine ⟨h.setParser (by simp [hpc]) (by simp [hpc]) (by simp) (by simp) _, fun lv => ?_⟩
    rw [hpc]
    rfl
  case h_5 lv rest hpc =>
    split at hs
    · cases hs
    · rename_i a₁ ha
      obtain ⟨rfl, rfl⟩ := Prod.mk.inj (Option.some.inj hs)
      have hnd := List.nodup_cons.mp (h.nodup _ hpc)
      refine ⟨h.setParser (by simp [hpc]) (by simp [hpc]) (by simp) ?_ _, fun lv' => ?_⟩
      · rintro rest' ⟨⟩
        exact hnd.2
      · rw [hpc]
        show Function.update a₁.eofCountPerLevel lv _ lv' + _ = _
        by_cases hlv : lv' = lv
        · subst hlv
          simp [ParserThread.hasSigned, hnd.1, (regionAPush_spec ha).2]
        · simp [ParserThread.hasSigned, hlv, (regionAPush_spec ha).2]
  case h_6 => cases hs

/-- A reader thread concerns the internal buffer alone. -/
theorem readerThreadStep_spec {p p' : ReaderProc T} {i : Fin T}
    (hs : readerThreadStep p i = some p') :
    ∃ ibuf threads, p' = { p with ibuf := ibuf, threads := threads } := by
  unfold readerThreadStep at hs
  split at hs
  · cases hs
  · split at hs
    · cases hs
    · obtain rfl := Option.some.inj hs
      exact ⟨_, _, rfl⟩
  · obtain rfl := Option.some.inj hs
    exact ⟨_, _, rfl⟩
  · cases hs

/-! ## Signing off -/

/-- `eof_count_per_level` counts the processes that have signed the level. -/
structure Signed (u : ReaderSetup R T) (s : Readers R T) : Prop where
  procs : ∀ r, (s.procs r).Ok (u.resources r)
  counted : ∀ lv, s.a.eofCountPerLevel lv = ∑ r, if (s.procs r).parser.hasSigned lv then 1 else 0

/-- One process takes a step, and Region A counts what it signs. -/
theorem Signed.setProc (h : Signed u s) {r : Fin R} {p : ReaderProc T} {a : RegionA}
    (hp : p.Ok (u.resources r))
    (hc : ∀ lv, a.eofCountPerLevel lv + (if (s.procs r).parser.hasSigned lv then 1 else 0) =
      s.a.eofCountPerLevel lv + if p.parser.hasSigned lv then 1 else 0) :
    Signed u { s.setProc r p with a := a } where
  procs := (Function.forall_update_iff s.procs fun r p => p.Ok (u.resources r)).mpr
    ⟨hp, fun r' _ => h.procs r'⟩
  counted := fun lv => by
    have hsum := sum_update_add (fun p : ReaderProc T => if p.parser.hasSigned lv then 1 else 0)
      s.procs r p
    have := hc lv
    rw [h.counted lv] at this
    exact Nat.add_right_cancel (this.trans hsum.symm)

theorem signed_step (h : Signed u s) (hs : readersStep u s act = some s') : Signed u s' := by
  cases act with
  | main r =>
    obtain ⟨p, hp, rfl⟩ := Option.map_eq_some_iff.mp hs
    obtain ⟨hok, hsame⟩ := mainStep_spec (h.procs r) hp
    exact h.setProc (a := s.a) hok fun lv => by rw [hsame lv]
  | parser r =>
    obtain ⟨⟨a, p⟩, hp, rfl⟩ := Option.map_eq_some_iff.mp hs
    obtain ⟨hok, hc⟩ := parserThreadStep_spec (h.procs r) hp
    exact h.setProc hok hc
  | thread r i =>
    obtain ⟨p, hp, rfl⟩ := Option.map_eq_some_iff.mp hs
    obtain ⟨ibuf, threads, rfl⟩ := readerThreadStep_spec hp
    have hok := h.procs r
    exact h.setProc (a := s.a) ⟨hok.granted, hok.early, hok.late, hok.exited, hok.nodup⟩
      fun _ => rfl
  | dispatcher =>
    obtain ⟨⟨entry, a⟩, ha, rfl⟩ := Option.map_eq_some_iff.mp hs
    refine ⟨h.procs, fun lv => ?_⟩
    show a.eofCountPerLevel lv = _
    rw [(regionAPop_spec ha).2]
    exact h.counted lv

theorem signed_init : Signed u (readers u).init where
  procs := fun _ => by
    refine ⟨trivial, fun _ _ => rfl, ?_, ?_, ?_⟩
    · rintro ⟨⟩
    · rintro ⟨⟩
    · rintro rest ⟨⟩
  counted := fun lv => by simp [readers, ParserThread.hasSigned]

/-- **Every reader signs off** exactly if every process gets as far as to create its parser thread.
-/
theorem every_reader_signs_off_iff (u : ReaderSetup R T) {s : Readers R T}
    (h : (readers u).Reachable s) (hx : ∀ r, (s.procs r).main = .exited) :
    (∀ lv, s.a.eofCountPerLevel lv = R) ↔ ∀ r, (u.resources r).reachParser = true := by
  have hsigned : Signed u s := h.induct (I := Signed u) signed_init fun _ _ _ => signed_step
  have hone : ∀ lv r, (s.procs r).parser.hasSigned lv = (u.resources r).reachParser := by
    intro lv r
    rw [(hsigned.procs r).exited (hx r)]
    cases (u.resources r).reachParser <;> rfl
  have hcount : ∀ lv, s.a.eofCountPerLevel lv =
      ∑ r, if (u.resources r).reachParser then 1 else 0 := by
    intro lv
    simp only [hsigned.counted lv, hone]
  constructor
  · intro hall r
    have hle : Fintype.card (Fin R) ≤ ∑ r, if (u.resources r).reachParser then 1 else 0 := by
      rw [← hcount .error, hall, Fintype.card_fin]
    exact all_of_card_le_sum hle r
  · intro hall lv
    simp only [hcount, hall, if_true, Finset.sum_const, Finset.card_univ, Fintype.card_fin,
      smul_eq_mul, mul_one]

/-- One process of one reader thread, which parses nothing. -/
def oneReader (fileSize : Option ℕ) : ReaderSetup 1 1 where
  resources := fun _ =>
    { ibufInit := true
      fileSize := fileSize
      mallocTids := true
      mallocArgs := true
      parserCreated := true
      readerCreated := fun _ => true
      parsed := fun _ => [] }
  capA := 5
  capB := 5
  four_le_capA := by decide
  four_le_capB := by decide
  threads_pos := Nat.one_pos

/-- The log file is missing. -/
theorem not_signed_oneReader :
    ∃ s, (readers (oneReader none)).Reachable s ∧ (∀ r, (s.procs r).main = .exited) ∧
      ¬ ∀ lv, s.a.eofCountPerLevel lv = 1 := by
  have hrun : ((readers (oneReader none)).runs (readers (oneReader none)).init
      [.main 0, .main 0]).map (fun s => ((s.procs 0).main, s.a.eofCountPerLevel .error)) =
        some (.exited, 0) := by decide +kernel
  obtain ⟨s, hs, he⟩ := Option.map_eq_some_iff.mp hrun
  obtain ⟨hmain, hcount⟩ := Prod.mk.inj he
  refine ⟨s, Machine.runs_reachable hs, fun r => ?_, fun hall => ?_⟩
  · rw [Fin.fin_one_eq_zero r]
    exact hmain
  · rw [hall] at hcount
    cases hcount

/-- The log file is empty. -/
theorem every_reader_signs_off_oneReader :
    ∃ s, (readers (oneReader (some 0))).Reachable s ∧ ∀ lv, s.a.eofCountPerLevel lv = 1 := by
  have hrun : ((readers (oneReader (some 0))).runs (readers (oneReader (some 0))).init
      (List.replicate 6 (.main 0) ++ [.thread 0 0] ++ List.replicate 6 (.parser 0) ++
        List.replicate 3 (.main 0))).map (fun s => (s.procs 0).main) = some .exited := by
    decide +kernel
  obtain ⟨s, hs, hmain⟩ := Option.map_eq_some_iff.mp hrun
  have hreach : (readers (oneReader (some 0))).Reachable s := Machine.runs_reachable hs
  refine ⟨s, hreach, (every_reader_signs_off_iff _ hreach fun r => ?_).mpr fun _ => rfl⟩
  rw [Fin.fin_one_eq_zero r]
  exact hmain

end Cse344.HW4
