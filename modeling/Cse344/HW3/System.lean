import Cse344.HW3.Word
import Cse344.Lib.Machine
import Cse344.Lib.Totals

/-!
# The processes of HW3

Model of `run_word_carrier` (`HW3/src/processes/word_carrier.c` 56-111), `run_letter_carrier`
(`letter_carrier.c` 157-193), `run_sorting_proc` (`sorting_proc.c` 103-116) and `monitor_loop`
(`process_spawn.c` 188-240) as a machine. Its actions are the critical sections of the mutexes and
the accesses made without one.

* A word's mutex is held over several steps (`locked`), since `sort_step` decrements the floor and
  counts the word while it holds it. The sections of the floor mutexes, of `rr_mutex` and of
  `done_mutex` are one step each.
* Any number of carriers and sorting processes start on any floors (`Setup`). A replacement letter
  carrier of `monitor_loop` is one that takes its first step late, and a process that was killed is
  one that takes no more steps.
* The elevators only delay a letter carrier: `riding` may end at any time. A repositioned carrier
  goes to the floor that `rand` (an argument of its action) gives.

The invariants of the modules that follow are about `system`; `Cse344.HW3.Elevator` carries them
over to the machine with the elevators.

Out of scope: the statistics (`retry_count`, `delivery_ops`, `reposition_ops`), the sleeps, and the
locks as such, which are in `Cse344.HW3.Semaphores`.
-/

namespace Cse344.HW3

open Cse344.Lib

/-- The command line, the input file, and the floor every process starts on. -/
structure Setup where
  numFloors : ℕ
  maxWordsPerFloor : ℤ
  totalWords : ℕ
  input : Fin totalWords → WordInput numFloors
  wordCarriers : ℕ
  wordCarrierFloor : Fin wordCarriers → Fin numFloors
  letterCarriers : ℕ
  letterCarrierFloor : Fin letterCarriers → Fin numFloors
  sortingProcs : ℕ
  sortingProcFloor : Fin sortingProcs → Fin numFloors
  /-- `validate_args` -/
  one_le_max : 1 ≤ maxWordsPerFloor

/-- Where a word carrier is. -/
inductive WcPc (words : ℕ)
  /-- at the head of its loop -/
  | top
  /-- before reading `admitted_count` -/
  | readCount
  /-- before the section of `rr_mutex` in `rr_pick` -/
  | pick
  /-- at the `k`-th word of the loop of `rr_pick` -/
  | scan (start k : ℕ)
  /-- before claiming the picked word -/
  | claim (w : Fin words)
  /-- before `try_admit` -/
  | admitting (w : Fin words)
  /-- the word was given room on its floors -/
  | setArrival (w : Fin words)
  | setAdmitted (w : Fin words)
  | setSrc (w : Fin words) (j : ℕ)
  | incAdmitted (w : Fin words)
  /-- the word was refused and is still claimed -/
  | refused (w : Fin words)
  | exited
  deriving DecidableEq

/-- Where a letter carrier is. -/
inductive LcPc (words : ℕ)
  /-- at the head of its loop -/
  | top
  /-- at the `k`-th word of `find_task` -/
  | scanWord (k : ℕ)
  /-- at the task `t` of word `w` -/
  | scanTask (w : Fin words) (t : ℕ)
  /-- before the word's mutex in `find_task` -/
  | lockTask (w : Fin words) (t : ℕ)
  /-- holds it -/
  | claiming (w : Fin words) (t : ℕ)
  | found (w : Fin words) (t : ℕ)
  /-- in `request_delivery` -/
  | riding (w : Fin words) (t : ℕ)
  /-- before the word's mutex in `place_char` -/
  | lockPlace (w : Fin words) (t : ℕ)
  /-- holds it -/
  | placing (w : Fin words) (t : ℕ)
  /-- in `request_reposition` -/
  | repositioning
  | exited
  deriving DecidableEq

/-- Where a sorting process is. -/
inductive SpPc (words : ℕ)
  /-- at the head of its loop -/
  | top
  /-- before `sort_step` of the `k`-th word -/
  | visit (k : ℕ)
  /-- past the first test of `sort_step` -/
  | trylock (w : Fin words)
  /-- holds the word's mutex -/
  | sorting (w : Fin words)
  /-- has completed the word -/
  | leaveFloor (w : Fin words)
  | countDone (w : Fin words)
  | release (w : Fin words)
  | exited
  deriving DecidableEq

structure LetterCarrier (c : Setup) where
  pc : LcPc c.totalWords
  myFloor : Fin c.numFloors
  idleTicks : ℕ

structure Sys (c : Setup) where
  words : Fin c.totalWords → Word c.numFloors
  /-- The word's mutex is held. -/
  locked : Fin c.totalWords → Bool
  /-- `current_word_count` of each floor. -/
  floors : Fin c.numFloors → ℤ
  rrIndex : ℕ
  admittedCount : ℕ
  doneCount : ℕ
  shutdown : Bool
  wc : Fin c.wordCarriers → WcPc c.totalWords
  lc : Fin c.letterCarriers → LetterCarrier c
  sp : Fin c.sortingProcs → SpPc c.totalWords

inductive Act (c : Setup)
  | wordCarrier (i : Fin c.wordCarriers)
  | letterCarrier (i : Fin c.letterCarriers) (rand : Fin c.numFloors)
  | sortingProc (i : Fin c.sortingProcs)
  | monitor
  | sigint
  deriving DecidableEq

variable {c : Setup}

def Sys.setWord (s : Sys c) (w : Fin c.totalWords) (x : Word c.numFloors) : Sys c :=
  { s with words := Function.update s.words w x }

def Sys.setLock (s : Sys c) (w : Fin c.totalWords) (b : Bool) : Sys c :=
  { s with locked := Function.update s.locked w b }

def Sys.setWc (s : Sys c) (i : Fin c.wordCarriers) (pc : WcPc c.totalWords) : Sys c :=
  { s with wc := Function.update s.wc i pc }

def Sys.setLc (s : Sys c) (i : Fin c.letterCarriers) (x : LetterCarrier c) : Sys c :=
  { s with lc := Function.update s.lc i x }

def Sys.setSp (s : Sys c) (i : Fin c.sortingProcs) (pc : SpPc c.totalWords) : Sys c :=
  { s with sp := Function.update s.sp i pc }

/-! ## Word carriers -/

/-- The floor counts after `try_admit`, `none` when it refuses. -/
def tryAdmit {nf : ℕ} (max : ℤ) (floors : Fin nf → ℤ) (sortingFloor arrivalFloor : Fin nf) :
    Option (Fin nf → ℤ) :=
  let lo := if arrivalFloor < sortingFloor then arrivalFloor else sortingFloor
  let hi := if arrivalFloor < sortingFloor then sortingFloor else arrivalFloor
  if lo = hi then
    if floors lo < max then some (Function.update floors lo (floors lo + 2)) else none
  else
    if floors arrivalFloor < max ∧ floors sortingFloor < max then
      let counted := Function.update floors arrivalFloor (floors arrivalFloor + 1)
      some (Function.update counted sortingFloor (counted sortingFloor + 1))
    else none

/-- The word `k` places after `start`. -/
def wordAt (total start k : ℕ) (hk : k < total) : Fin total :=
  ⟨(start + k) % total, Nat.mod_lt _ (Nat.lt_of_le_of_lt (Nat.zero_le k) hk)⟩

/-- The word with its task `j` at floor `f`. -/
def setSrcFloor {nf : ℕ} (x : Word nf) (j : ℕ) (f : Fin nf) : Word nf :=
  { x with tasks := Function.update x.tasks j { x.tasks j with srcFloor := some f } }

def wcStep (s : Sys c) (i : Fin c.wordCarriers) : Option (Sys c) :=
  let myFloor := c.wordCarrierFloor i
  match s.wc i with
  | .top => some (s.setWc i (if s.shutdown then .exited else .readCount))
  | .readCount => some (s.setWc i (if c.totalWords ≤ s.admittedCount then .exited else .pick))
  | .pick =>
    some { s.setWc i (.scan s.rrIndex 0) with rrIndex := (s.rrIndex + 1) % c.totalWords }
  | .scan start k =>
    if hk : k < c.totalWords then
      let w := wordAt c.totalWords start k hk
      if !(s.words w).claimed && !(s.words w).admitted then some (s.setWc i (.claim w))
      else some (s.setWc i (.scan start (k + 1)))
    else some (s.setWc i .top)
  | .claim w =>
    if (s.words w).claimed || (s.words w).admitted then some (s.setWc i .top)
    else some ((s.setWord w { s.words w with claimed := true }).setWc i (.admitting w))
  | .admitting w =>
    match tryAdmit c.maxWordsPerFloor s.floors (s.words w).sortingFloor myFloor with
    | some floors => some { s.setWc i (.setArrival w) with floors := floors }
    | none => some (s.setWc i (.refused w))
  | .setArrival w =>
    some ((s.setWord w { s.words w with arrivalFloor := some myFloor }).setWc i (.setAdmitted w))
  | .setAdmitted w =>
    some ((s.setWord w { s.words w with admitted := true }).setWc i (.setSrc w 0))
  | .setSrc w j =>
    if j < (s.words w).wordLen then
      some ((s.setWord w (setSrcFloor (s.words w) j myFloor)).setWc i (.setSrc w (j + 1)))
    else some (s.setWc i (.incAdmitted w))
  | .incAdmitted _ => some { s.setWc i .top with admittedCount := s.admittedCount + 1 }
  | .refused w => some ((s.setWord w { s.words w with claimed := false }).setWc i .top)
  | .exited => none

/-! ## Letter carriers -/

/-- The floor `request_reposition` goes to. -/
def repositionDest {nf : ℕ} (rand current : Fin nf) : Fin nf :=
  if rand = current then
    ⟨(rand + 1) % nf, Nat.mod_lt _ (Nat.lt_of_le_of_lt (Nat.zero_le _) rand.isLt)⟩
  else rand

def lcStep (s : Sys c) (i : Fin c.letterCarriers) (rand : Fin c.numFloors) : Option (Sys c) :=
  let l := s.lc i
  match l.pc with
  | .top => some (s.setLc i { l with pc := if s.shutdown then .exited else .scanWord 0 })
  | .scanWord k =>
    if hk : k < c.totalWords then
      let x := s.words ⟨k, hk⟩
      if !x.admitted || x.completed then some (s.setLc i { l with pc := .scanWord (k + 1) })
      else if x.arrivalFloor ≠ some l.myFloor then
        some (s.setLc i { l with pc := .scanWord (k + 1) })
      else some (s.setLc i { l with pc := .scanTask ⟨k, hk⟩ 0 })
    else if 5 ≤ l.idleTicks + 1 then
      some (s.setLc i { l with pc := .repositioning, idleTicks := 0 })
    else some (s.setLc i { l with pc := .top, idleTicks := l.idleTicks + 1 })
  | .scanTask w t =>
    if t < (s.words w).wordLen then
      let task := (s.words w).tasks t
      if task.claimed || task.delivered then
        some (s.setLc i { l with pc := .scanTask w (t + 1) })
      else if task.srcFloor ≠ some l.myFloor then
        some (s.setLc i { l with pc := .scanTask w (t + 1) })
      else some (s.setLc i { l with pc := .lockTask w t })
    else some (s.setLc i { l with pc := .scanWord (w + 1) })
  | .lockTask w t =>
    if s.locked w then none else some ((s.setLock w true).setLc i { l with pc := .claiming w t })
  | .claiming w t =>
    let task := (s.words w).tasks t
    if !task.claimed && !task.delivered then
      some (((s.setWord w (claimTask (s.words w) t)).setLock w false).setLc i
        { l with pc := .found w t, idleTicks := 0 })
    else some ((s.setLock w false).setLc i { l with pc := .scanTask w (t + 1) })
  | .found w t =>
    if ((s.words w).tasks t).destFloor = l.myFloor then
      some (s.setLc i { l with pc := .lockPlace w t })
    else some (s.setLc i { l with pc := .riding w t })
  | .riding w t =>
    some (s.setLc i
      { l with pc := .lockPlace w t, myFloor := ((s.words w).tasks t).destFloor })
  | .lockPlace w t =>
    if s.locked w then none else some ((s.setLock w true).setLc i { l with pc := .placing w t })
  | .placing w t =>
    some (((s.setWord w (placeChar (s.words w) t)).setLock w false).setLc i { l with pc := .top })
  | .repositioning =>
    some (s.setLc i { l with pc := .top, myFloor := repositionDest rand l.myFloor })
  | .exited => none

/-! ## Sorting processes -/

def spStep (s : Sys c) (i : Fin c.sortingProcs) : Option (Sys c) :=
  let floor := c.sortingProcFloor i
  match s.sp i with
  | .top => some (s.setSp i (if s.shutdown then .exited else .visit 0))
  | .visit k =>
    if hk : k < c.totalWords then
      let x := s.words ⟨k, hk⟩
      if x.sortingFloor ≠ floor ∨ x.admitted = false ∨ x.completed = true then
        some (s.setSp i (.visit (k + 1)))
      else some (s.setSp i (.trylock ⟨k, hk⟩))
    else some (s.setSp i .top)
  | .trylock w =>
    if s.locked w then some (s.setSp i (.visit (w + 1)))
    else some ((s.setLock w true).setSp i (.sorting w))
  | .sorting w =>
    let x := sortPass (s.words w)
    if x.completes then some ((s.setWord w { x with completed := true }).setSp i (.leaveFloor w))
    else some ((s.setWord w x).setSp i (.release w))
  | .leaveFloor w =>
    some { s.setSp i (.countDone w) with
      floors := Function.update s.floors floor (s.floors floor - 1) }
  | .countDone w => some { s.setSp i (.release w) with doneCount := s.doneCount + 1 }
  | .release w => some ((s.setLock w false).setSp i (.visit (w + 1)))
  | .exited => none

/-! ## The machine -/

def step (s : Sys c) : Act c → Option (Sys c)
  | .wordCarrier i => wcStep s i
  | .letterCarrier i rand => lcStep s i rand
  | .sortingProc i => spStep s i
  | .monitor => if c.totalWords ≤ s.doneCount then some { s with shutdown := true } else none
  | .sigint => some { s with shutdown := true }

theorem monitor_of_step {s s' : Sys c} (hs : step s .monitor = some s') :
    c.totalWords ≤ s.doneCount ∧ s' = { s with shutdown := true } := by
  simp only [step] at hs
  split_ifs at hs with hdone
  exact ⟨hdone, (Option.some.inj hs).symm⟩

def system (c : Setup) : Machine (Sys c) (Act c) where
  init :=
    { words := fun w => initWordInfo (c.input w)
      locked := fun _ => false
      floors := fun _ => 0
      rrIndex := 0
      admittedCount := 0
      doneCount := 0
      shutdown := false
      wc := fun _ => .top
      lc := fun i => { pc := .top, myFloor := c.letterCarrierFloor i, idleTicks := 0 }
      sp := fun _ => .top }
  step := step

end Cse344.HW3
