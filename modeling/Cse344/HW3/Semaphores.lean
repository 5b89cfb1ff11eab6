import Cse344.HW3.Elevator
import Cse344.Lib.Locks
import Mathlib.Data.Fintype.Option
import Mathlib.Order.WithBot

/-!
# The semaphores of HW3

What each process of `HW3/src/processes/` does to the semaphores of the shared memory, as
`Cse344.Lib.Locks` has it: a test on the shared memory may come out either way, and the word a
carrier picks or finds may be any. A floor is that of the process or the sorting floor of the word.

* `rrPick`, `tryAdmit` and `runWordCarrier` (`word_carrier.c`), `runLetterCarrier`
  (`letter_carrier.c`), `sortStep` (`sorting_proc.c`) and `runElevator` (`elevator.c`) are the locks
  and unlocks of these functions, in their order.
* A letter carrier that the monitor spawns as a replacement is one more letter carrier, so there are
  as many as there are numbers; those that do not exist yet have not taken a step.
* `SIGTERM` and `SIGINT` are the kill of a process, wherever it is.
* `Sem.rank` is the order: a word's mutex, the floors from the lowest to the highest, `done_mutex`.
  Nothing is waited for under the others, nor they under anything.

Results:
* `twoFloors_keeps`, `sortStep_keeps`, `code_keeps`: every process keeps the order.
* **`lock_discipline`**: processes never form a deadlock, and none waits for what it holds.

Out of scope: a process that waits for a lock whose holder was killed.
-/

namespace Cse344.HW3.Semaphores

open Cse344.Lib Cse344.Lib.Locks

/-- What the use of semaphores depends on. -/
structure Plan where
  numFloors : ℕ
  totalWords : ℕ
  sortingFloor : Fin totalWords → Fin numFloors
  wordCarriers : ℕ
  wordCarrierFloor : Fin wordCarriers → Fin numFloors
  sortingProcs : ℕ
  sortingProcFloor : Fin sortingProcs → Fin numFloors

inductive Sem (nf words : ℕ)
  | rrMutex
  | doneMutex
  | statsMutex
  | floorMutex (f : Fin nf)
  | wordMutex (w : Fin words)
  | elevMutex (e : Shaft)
  | requestSem (e : Shaft)
  deriving DecidableEq

variable {nf words : ℕ}

/-- The semaphores that are held; `request_sem` counts requests. -/
def Sem.isMutex : Sem nf words → Bool
  | .requestSem _ => false
  | _ => true

/-- `sem_init`. -/
def Sem.value : Sem nf words → ℕ
  | .requestSem _ => 0
  | _ => 1

/-! ## Word carriers -/

def rrPick : Code (Sem nf words) := .block [.wait .rrMutex, .post .rrMutex]

def tryAdmit (sortingFloor arrivalFloor : Fin nf) : Code (Sem nf words) :=
  let lo := if arrivalFloor < sortingFloor then arrivalFloor else sortingFloor
  let hi := if arrivalFloor < sortingFloor then sortingFloor else arrivalFloor
  if lo = hi then .block [.wait (.floorMutex lo), .post (.floorMutex lo)]
  else
    .block [.wait (.floorMutex lo), .wait (.floorMutex hi), .post (.floorMutex hi),
      .post (.floorMutex lo)]

/-- What a word carrier does with the word it picked. -/
def claimAndAdmit (sortingFloor myFloor : Fin nf) : Code (Sem nf words) :=
  .block [.wait .rrMutex,
    .choice (.post .rrMutex)
      (.block [.post .rrMutex, tryAdmit sortingFloor myFloor,
        .choice (.block [.wait .doneMutex, .post .doneMutex])
          (.block [.wait .statsMutex, .post .statsMutex])])]

def runWordCarrier (sortingFloor : Fin words → Fin nf) (myFloor : Fin nf) : Code (Sem nf words) :=
  .loop (.block [.wait .doneMutex, .post .doneMutex,
    -- all words are admitted, or `rr_pick` finds none
    .choice .skip (.block [rrPick,
      .choice .skip (.any fun w => claimAndAdmit (sortingFloor w) myFloor)])])

/-! ## Letter carriers -/

/-- For each task that may be open the word is locked. -/
def findTask : Code (Sem nf words) :=
  .forEach fun w => .loop (.block [.wait (.wordMutex w), .post (.wordMutex w)])

def placeChar (w : Fin words) : Code (Sem nf words) :=
  .block [.wait (.wordMutex w), .post (.wordMutex w)]

def waitForCapacity (e : Shaft) : Code (Sem nf words) :=
  .loop (.block [.wait (.elevMutex e), .post (.elevMutex e)])

/-- What `request_delivery` and `request_reposition` have in common. -/
def request (e : Shaft) : Code (Sem nf words) :=
  .block [waitForCapacity e,
    .choice .skip (.block [.wait (.elevMutex e), .post (.elevMutex e), .post (.requestSem e),
      .loop (.block [.wait (.elevMutex e), .post (.elevMutex e)]),
      .wait (.elevMutex e), .post (.elevMutex e), .wait .statsMutex, .post .statsMutex])]

def requestDelivery : Code (Sem nf words) := request .delivery

def requestReposition : Code (Sem nf words) := request .reposition

def runLetterCarrier : Code (Sem nf words) :=
  .loop (.block [findTask,
    .choice (.choice .skip requestReposition)
      (.any fun w => .block [.choice .skip requestDelivery, placeChar w])])

/-! ## Sorting processes, elevators and the monitor -/

def sortStep (w : Fin words) (floor : Fin nf) : Code (Sem nf words) :=
  .choice .skip (.tryWait (.wordMutex w) (.block [
    .choice .skip (.block [.wait (.floorMutex floor), .post (.floorMutex floor),
      .wait .doneMutex, .post .doneMutex]),
    .post (.wordMutex w)]))

def runSortingProc (myFloor : Fin nf) : Code (Sem nf words) :=
  .loop (.forEach fun w => sortStep w myFloor)

def runElevator (e : Shaft) : Code (Sem nf words) :=
  .loop (.block [.wait (.requestSem e),
    .choice .skip (.block [.wait (.elevMutex e), .post (.elevMutex e),
      .choice .skip (.post (.requestSem e))])])

def monitorLoop : Code (Sem nf words) := .loop (.block [.wait .doneMutex, .post .doneMutex])

/-! ## The system -/

inductive Process (c : Plan)
  | wordCarrier (i : Fin c.wordCarriers)
  | letterCarrier (i : ℕ)
  | sortingProc (i : Fin c.sortingProcs)
  | elevator (e : Shaft)
  | monitor
  deriving DecidableEq

variable {c : Plan}

def Process.code : Process c → Code (Sem c.numFloors c.totalWords)
  | .wordCarrier i => runWordCarrier c.sortingFloor (c.wordCarrierFloor i)
  | .letterCarrier _ => runLetterCarrier
  | .sortingProc i => runSortingProc (c.sortingProcFloor i)
  | .elevator e => runElevator e
  | .monitor => monitorLoop

def lockSystem (c : Plan) :
    Machine (State (Process c) (Sem c.numFloors c.totalWords)) (Locks.Act (Process c)) :=
  Locks.system Sem.isMutex Sem.value Process.code

/-! ## The order -/

/-- A word's mutex, then the floors upwards, then `done_mutex`. The others are taken alone. -/
def Sem.rank : Sem nf words → WithBot (WithTop (Fin nf))
  | .doneMutex => ((⊤ : WithTop (Fin nf)) : WithBot (WithTop (Fin nf)))
  | .floorMutex f => ((f : WithTop (Fin nf)) : WithBot (WithTop (Fin nf)))
  | _ => ⊥

/-- Code that keeps the order, from where it holds nothing to where it holds nothing. -/
abbrev Keeps (a : Code (Sem nf words)) : Prop := Ordered Sem.isMutex Sem.rank [] a []

/-- A mutex that is taken and given back while nothing is held. -/
theorem keeps_alone {l : Sem nf words} (hl : l.isMutex = true) {as : List (Code (Sem nf words))}
    (has : Keeps (.block as)) : Keeps (.block (.wait l :: .post l :: as)) :=
  .lock hl (fun _ hm => absurd hm List.not_mem_nil) (.unlock hl has)

theorem rrPick_keeps : Keeps (rrPick : Code (Sem nf words)) := keeps_alone rfl .nil

/-- **Two floors are locked from the lower to the upper.** -/
theorem twoFloors_keeps {lo hi : Fin nf} (h : lo < hi) :
    Keeps (.block [.wait (.floorMutex lo), .wait (.floorMutex hi), .post (.floorMutex hi),
      .post (.floorMutex lo)] : Code (Sem nf words)) := by
  refine .lock rfl (fun _ hm => absurd hm List.not_mem_nil)
    (.lock rfl (fun m hm => ?_) (.unlock rfl (.unlock rfl .nil)))
  obtain rfl := List.mem_singleton.mp hm
  exact WithBot.coe_lt_coe.mpr (WithTop.coe_lt_coe.mpr h)

theorem tryAdmit_keeps (sortingFloor arrivalFloor : Fin nf) :
    Keeps (tryAdmit sortingFloor arrivalFloor : Code (Sem nf words)) := by
  unfold tryAdmit
  dsimp only
  split_ifs with hlt heq heq
  · exact keeps_alone rfl .nil
  · exact twoFloors_keeps hlt
  · exact keeps_alone rfl .nil
  · exact twoFloors_keeps (lt_of_le_of_ne (not_lt.mp hlt) heq)

theorem claimAndAdmit_keeps (sortingFloor myFloor : Fin nf) :
    Keeps (claimAndAdmit sortingFloor myFloor : Code (Sem nf words)) := by
  have hadmit : Keeps (.block [tryAdmit sortingFloor myFloor,
      .choice (.block [.wait .doneMutex, .post .doneMutex])
        (.block [.wait .statsMutex, .post .statsMutex])] : Code (Sem nf words)) :=
    .cons (tryAdmit_keeps _ _) (.cons (.choice (keeps_alone rfl .nil) (keeps_alone rfl .nil)) .nil)
  refine .lock rfl (fun _ hm => absurd hm List.not_mem_nil) (.cons (.choice ?_ ?_) .nil)
  · exact .post rfl List.mem_cons_self
  · exact .unlock rfl hadmit

theorem runWordCarrier_keeps (sortingFloor : Fin words → Fin nf) (myFloor : Fin nf) :
    Keeps (runWordCarrier sortingFloor myFloor) := by
  refine .loop (keeps_alone rfl (.cons (.choice .skip (.cons rrPick_keeps (.cons ?_ .nil))) .nil))
  exact .choice .skip (.any fun w => claimAndAdmit_keeps _ _)

theorem findTask_keeps : Keeps (findTask : Code (Sem nf words)) :=
  .forEach fun _ => .loop (keeps_alone rfl .nil)

theorem placeChar_keeps (w : Fin words) : Keeps (placeChar w : Code (Sem nf words)) :=
  keeps_alone rfl .nil

theorem request_keeps (e : Shaft) : Keeps (request e : Code (Sem nf words)) := by
  have hcapacity : Keeps (waitForCapacity e : Code (Sem nf words)) :=
    .loop (keeps_alone rfl .nil)
  refine .cons hcapacity (.cons (.choice .skip (keeps_alone rfl ?_)) .nil)
  refine .cons (.postOther rfl) (.cons (.loop (keeps_alone rfl .nil)) ?_)
  exact keeps_alone rfl (keeps_alone rfl .nil)

theorem runLetterCarrier_keeps : Keeps (runLetterCarrier : Code (Sem nf words)) := by
  refine .loop (.cons findTask_keeps (.cons (.choice ?_ ?_) .nil))
  · exact .choice .skip (request_keeps .reposition)
  · exact .any fun w => .cons (.choice .skip (request_keeps .delivery))
      (.cons (placeChar_keeps w) .nil)

/-- **A floor and `done_mutex` are taken under the word's mutex**, one after the other. -/
theorem sortStep_keeps (w : Fin words) (floor : Fin nf) : Keeps (sortStep w floor) := by
  have hbot : ∀ {l : Sem nf words}, ⊥ < l.rank → ∀ m ∈ [Sem.wordMutex w], Sem.rank m < l.rank := by
    intro l hl m hm
    obtain rfl := List.mem_singleton.mp hm
    exact hl
  refine .choice .skip (.tryWait rfl (.cons (.choice .skip ?_) (.unlock rfl .nil)))
  refine .lock rfl (hbot (WithBot.bot_lt_coe _)) (.unlock rfl ?_)
  exact .lock rfl (hbot (WithBot.bot_lt_coe _)) (.unlock rfl .nil)

theorem runSortingProc_keeps (myFloor : Fin nf) :
    Keeps (runSortingProc myFloor : Code (Sem nf words)) :=
  .loop (.forEach fun w => sortStep_keeps w myFloor)

theorem runElevator_keeps (e : Shaft) : Keeps (runElevator e : Code (Sem nf words)) := by
  refine .loop (.cons (.waitOther rfl) (.cons (.choice .skip (keeps_alone rfl ?_)) .nil))
  exact .cons (.choice .skip (.postOther rfl)) .nil

/-- **Every process keeps the order.** -/
theorem code_keeps (p : Process c) : Keeps p.code := by
  cases p with
  | wordCarrier i => exact runWordCarrier_keeps _ _
  | letterCarrier i => exact runLetterCarrier_keeps
  | sortingProc i => exact runSortingProc_keeps _
  | elevator e => exact runElevator_keeps e
  | monitor => exact .loop (keeps_alone rfl .nil)

/-! ## No deadlock -/

/-- A mutex is free, or held by one process. -/
theorem semaphore_exclusive {s : State (Process c) (Sem c.numFloors c.totalWords)}
    (h : (lockSystem c).Reachable s) {l : Sem c.numFloors c.totalWords} (hl : l.isMutex = true) :
    s.Exclusive l := by
  refine Ordered.exclusive code_keeps h hl ?_
  cases l with
  | requestSem e => cases hl
  | _ => rfl

/-- **The lock discipline of HW3**, for every plan and in every state that a run reaches. -/
theorem lock_discipline {s : State (Process c) (Sem c.numFloors c.totalWords)}
    (h : (lockSystem c).Reachable s) :
    (∀ S : Set (Process c), ¬ s.Deadlock Sem.isMutex S) ∧
      ∀ p l, (s.proc p).WaitsFor l → l ∉ (s.proc p).held :=
  ⟨Ordered.no_deadlock code_keeps h, Ordered.not_waits_held code_keeps h⟩

/-- Two floors with a word carrier on each, and two words that are sorted on the upper. -/
def twoCarriers : Plan where
  numFloors := 2
  totalWords := 2
  sortingFloor := fun _ => Fin.last 1
  wordCarriers := 2
  wordCarrierFloor := id
  sortingProcs := 0
  sortingProcFloor := Fin.elim0

/-- Carrier `i` picks word `i`, claims it and takes `n` more steps. -/
def admitRun (i : Fin 2) (n : ℕ) : List (Locks.Act (Process twoCarriers)) :=
  (List.replicate 15 1 ++ [i.val] ++ List.replicate (8 + n) 1).map fun k => .run (.wordCarrier i) k

/-- Carrier 0 has locked both floors, and carrier 1 waits for the upper. -/
theorem lock_discipline_twoCarriers :
    ∃ s, (lockSystem twoCarriers).Reachable s ∧
      (s.proc (.wordCarrier (1 : Fin 2))).WaitsFor (.floorMutex (1 : Fin 2)) ∧
      .floorMutex (1 : Fin 2) ∈ (s.proc (.wordCarrier (0 : Fin 2))).held ∧
      (∀ S : Set (Process twoCarriers), ¬ s.Deadlock Sem.isMutex S) ∧
      ∀ p l, (s.proc p).WaitsFor l → l ∉ (s.proc p).held := by
  have hrun : ((lockSystem twoCarriers).runs (lockSystem twoCarriers).init
      (admitRun 0 3 ++ admitRun 1 0)).isSome = true := by decide
  have hreach := Machine.runs_reachable (Option.some_get hrun).symm
  exact ⟨_, hreach, ⟨_, rfl⟩, List.mem_cons_self, lock_discipline hreach⟩

end Cse344.HW3.Semaphores
