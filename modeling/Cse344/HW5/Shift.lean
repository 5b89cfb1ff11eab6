import Cse344.HW5.PriorityQueue
import Cse344.Lib.Machine
import Cse344.Lib.Totals

/-!
# A shift of HW5: main and its couriers

Model of `main` (`HW5/main.c` 18-189), `courier_thread_main` (`HW5/src/courier.c` 27-62) and the
SIGINT flag, as a machine whose actions are the atomic steps of the threads: the critical sections
of `pq->mutex`, the `atomic_fetch_add`s, and the reads of the flag.

* A courier's `stats` are private to it until it is joined, so their two updates are one step
  (`recorded`). `completed_orders` and `total_delivery_time` are two atomics, two steps apart.
* The counters of `GlobalStats` and `CourierStats` are `int`s and a `long` (`HW5/inc/stats.h` 7-18).
  Here they say how many orders there were and how long they took; what the code has is what its
  types keep of that. The two atomic `int`s go round.
* `callocFails` is the failing `calloc` of the pending array; `createFails` the failing
  `pthread_create`, after which main shuts the queue down, joins the couriers it has and gives up.
* `sigint` may happen at any point.
* The wait loop reads `completed_orders < (int)n_orders`, and is the only one to read a counter
  before the end; `toInt32` is what an `int` keeps of each of the two.
* `removed`, `cancelled` and a courier's `delivered` are histories: the orders taken off the queue
  in the order they left, the orders of the `ORDER_CANCELLED` lines, and the orders of the courier's
  `DELIVERY_COMPLETE` lines.

Results:
* **`move_of_step`**: every step is one of the moves of `MainMove` and `CourierMove`, which say all
  that it changes.
* `CourierMove.frame`: what a courier leaves alone.

Out of scope: a failing `pq_create` or `calloc` of `threads` and `ctxs`, with which main leaves
before the shift begins, and the stats file.
-/

namespace Cse344.HW5

open Cse344.Lib

structure CourierStats where
  completed : ℕ := 0
  totalTimeMs : ℤ := 0
  deriving DecidableEq, Repr

/-- Where a courier thread is. -/
inductive CourierPc
  /-- not created -/
  | unborn
  /-- before `pq_pop_blocking` -/
  | waiting
  /-- holds a popped order -/
  | delivering (order : Order)
  /-- has counted it in `completed_orders` -/
  | counted (order : Order)
  /-- has added its duration to `total_delivery_time` -/
  | timed (order : Order)
  /-- has returned -/
  | over
  deriving DecidableEq, Repr

structure Courier where
  pc : CourierPc := .unborn
  stats : CourierStats := {}
  delivered : List Order := []
  deriving DecidableEq, Repr

/-- Where main is. -/
inductive MainPc
  /-- in `enqueue_all_orders`, with these orders to go -/
  | enqueuing (rest : List Order)
  /-- in `spawn_couriers`, before creating courier `i` -/
  | spawning (i : ℕ)
  /-- `pthread_create` failed after `k` couriers; joining courier `j` -/
  | abandoning (k j : ℕ)
  /-- has returned `EXIT_FAILURE` after joining `k` couriers -/
  | abandoned (k : ℕ)
  /-- in `wait_for_shift_end` -/
  | waitLoop
  /-- at the entry of `handle_shutdown_cancellations` -/
  | handleShutdown
  /-- the flag is set, before `calloc` -/
  | allocating
  /-- before `pq_drain` -/
  | draining
  /-- cancelling the drained orders, with these to go -/
  | cancelling (pending : List Order)
  /-- before `pq_shutdown` -/
  | shuttingDown
  /-- joining courier `j` -/
  | joining (j : ℕ)
  /-- has joined all couriers: `SHIFT_END` -/
  | shiftEnd
  deriving DecidableEq, Repr

/-- How much was done in all; `toInt32` of a count is what its `_Atomic int` holds. -/
structure GlobalStats where
  completedOrders : ℕ := 0
  cancelledOrders : ℕ := 0
  totalDeliveryTime : ℤ := 0
  deriving DecidableEq, Repr

/-- The state of a shift with `n` couriers. -/
structure Shift (n : ℕ) where
  main : MainPc
  pq : PriorityQueue
  gs : GlobalStats
  shutdownRequested : Bool
  couriers : Fin n → Courier
  removed : List Order
  cancelled : List Order

/-- The cast `(int)` of a `size_t`, and what an atomic `int` holds after so many increments. -/
def toInt32 (k : ℕ) : ℤ := ((k : ℤ) + 2 ^ 31) % 2 ^ 32 - 2 ^ 31

inductive Act (n : ℕ)
  | main
  | callocFails
  | createFails
  | sigint
  | courier (i : Fin n)
  deriving DecidableEq, Repr

variable {n : ℕ}

/-- Courier `i` is left as `c`. -/
def Shift.setCourier (s : Shift n) (i : Fin n) (c : Courier) : Shift n :=
  { s with couriers := Function.update s.couriers i c }

@[simp] theorem setCourier_main (s : Shift n) (i : Fin n) (c : Courier) :
    (s.setCourier i c).main = s.main := rfl

@[simp] theorem setCourier_pq (s : Shift n) (i : Fin n) (c : Courier) :
    (s.setCourier i c).pq = s.pq := rfl

@[simp] theorem setCourier_gs (s : Shift n) (i : Fin n) (c : Courier) :
    (s.setCourier i c).gs = s.gs := rfl

@[simp] theorem setCourier_couriers (s : Shift n) (i : Fin n) (c : Courier) :
    (s.setCourier i c).couriers = Function.update s.couriers i c := rfl

/-- The courier's `duration_ms`. -/
def durationMs (o : Order) : ℤ := o.duration * simUnitMs

/-- The next step of courier `i`, `none` where it is blocked or over. -/
def courierStep (s : Shift n) (i : Fin n) : Option (Shift n) :=
  let c := s.couriers i
  match c.pc with
  | .unborn => none
  | .waiting =>
    match pqPopBlocking s.pq with
    | none => none
    | some (.shutdown, pq) => some { s.setCourier i { c with pc := .over } with pq := pq }
    | some (.ok order, pq) =>
      some { s.setCourier i { c with pc := .delivering order } with
        pq := pq
        removed := s.removed ++ [order] }
  | .delivering order =>
    some { s.setCourier i { c with pc := .counted order, delivered := c.delivered ++ [order] } with
      gs := { s.gs with completedOrders := s.gs.completedOrders + 1 } }
  | .counted order =>
    some { s.setCourier i { c with pc := .timed order } with
      gs := { s.gs with totalDeliveryTime := s.gs.totalDeliveryTime + durationMs order } }
  | .timed order =>
    some (s.setCourier i { c with
      pc := .waiting
      stats := { completed := c.stats.completed + 1
                 totalTimeMs := c.stats.totalTimeMs + durationMs order } })
  | .over => none

/-- Courier `i` has returned; `false` when there is no courier `i`. -/
def Shift.isOver (s : Shift n) (i : ℕ) : Bool :=
  if h : i < n then (s.couriers ⟨i, h⟩).pc = .over else false

/-- The next step of main; `nOrders` is its `n_orders`. -/
def mainStep (nOrders : ℕ) (s : Shift n) : Option (Shift n) :=
  match s.main with
  | .enqueuing [] => some { s with main := .spawning 0 }
  | .enqueuing (order :: rest) =>
    some { s with main := .enqueuing rest, pq := (pqPush s.pq order).2 }
  | .spawning i =>
    if h : i < n then
      some { s.setCourier ⟨i, h⟩ { pc := .waiting } with main := .spawning (i + 1) }
    else some { s with main := .waitLoop }
  | .abandoning k j =>
    if j < k then
      if s.isOver j then some { s with main := .abandoning k (j + 1) } else none
    else some { s with main := .abandoned k }
  | .abandoned _ => none
  | .waitLoop =>
    if !s.shutdownRequested && decide (toInt32 s.gs.completedOrders < toInt32 nOrders) then some s
    else some { s with main := .handleShutdown }
  | .handleShutdown =>
    if s.shutdownRequested then some { s with main := .allocating }
    else some { s with main := .shuttingDown }
  | .allocating => some { s with main := .draining }
  | .draining =>
    some { s with
      main := .cancelling (pqDrain s.pq).1
      pq := (pqDrain s.pq).2
      removed := s.removed ++ (pqDrain s.pq).1 }
  | .cancelling [] => some { s with main := .shuttingDown }
  | .cancelling (order :: pending) =>
    some { s with
      main := .cancelling pending
      gs := { s.gs with cancelledOrders := s.gs.cancelledOrders + 1 }
      cancelled := s.cancelled ++ [order] }
  | .shuttingDown => some { s with main := .joining 0, pq := pqShutdown s.pq }
  | .joining j =>
    if j < n then
      if s.isOver j then some { s with main := .joining (j + 1) } else none
    else some { s with main := .shiftEnd }
  | .shiftEnd => none

def step (nOrders : ℕ) (s : Shift n) : Act n → Option (Shift n)
  | .main => mainStep nOrders s
  | .callocFails =>
    match s.main with
    | .allocating => some { s with main := .shuttingDown }
    | _ => none
  | .createFails =>
    match s.main with
    | .spawning i =>
      if i < n then some { s with main := .abandoning i 0, pq := pqShutdown s.pq } else none
    | _ => none
  | .sigint => some { s with shutdownRequested := true }
  | .courier i => courierStep s i

/-- The queue main creates for `nOrders` orders. -/
def initialQueue (nOrders : ℕ) : PriorityQueue :=
  (pqCreate (if 0 < nOrders then nOrders else 1)).getD
    { heap := fun _ => default, size := 0, capacity := 1, shutdown := false }

/-- The shift of `n` couriers over `orders`, from the creation of the queue. -/
def shift (n : ℕ) (orders : List Order) : Machine (Shift n) (Act n) where
  init :=
    { main := .enqueuing orders
      pq := initialQueue orders.length
      gs := {}
      shutdownRequested := false
      couriers := fun _ => {}
      removed := []
      cancelled := [] }
  step := step orders.length

theorem initialQueue_eq (k : ℕ) : initialQueue k =
    { heap := fun _ => default, size := 0, capacity := if 0 < k then k else 1,
      shutdown := false } := by
  have hcap : (if 0 < k then k else 1) ≠ 0 := by split_ifs <;> omega
  unfold initialQueue pqCreate
  rw [if_neg hcap]
  rfl

theorem contents_initialQueue (k : ℕ) : (initialQueue k).contents = 0 := by
  rw [initialQueue_eq]
  rfl

/-! ## The moves -/

/-- The moves of courier `i`. -/
inductive CourierMove (s : Shift n) (i : Fin n) : Shift n → Prop
  | pop (o : Order) (pq : PriorityQueue) (hpc : (s.couriers i).pc = .waiting)
      (hpop : pqPopBlocking s.pq = some (.ok o, pq)) :
      CourierMove s i { s.setCourier i { s.couriers i with pc := .delivering o } with
        pq := pq
        removed := s.removed ++ [o] }
  | leave (pq : PriorityQueue) (hpc : (s.couriers i).pc = .waiting)
      (hpop : pqPopBlocking s.pq = some (.shutdown, pq)) :
      CourierMove s i { s.setCourier i { s.couriers i with pc := .over } with pq := pq }
  | deliver (o : Order) (hpc : (s.couriers i).pc = .delivering o) :
      CourierMove s i { s.setCourier i { s.couriers i with
          pc := .counted o
          delivered := (s.couriers i).delivered ++ [o] } with
        gs := { s.gs with completedOrders := s.gs.completedOrders + 1 } }
  | time (o : Order) (hpc : (s.couriers i).pc = .counted o) :
      CourierMove s i { s.setCourier i { s.couriers i with pc := .timed o } with
        gs := { s.gs with totalDeliveryTime := s.gs.totalDeliveryTime + durationMs o } }
  | record (o : Order) (hpc : (s.couriers i).pc = .timed o) :
      CourierMove s i (s.setCourier i { s.couriers i with
        pc := .waiting
        stats := { completed := (s.couriers i).stats.completed + 1
                   totalTimeMs := (s.couriers i).stats.totalTimeMs + durationMs o } })

/-- Main goes to `pc`, touching nothing that is shared. -/
inductive Goes (s : Shift n) : MainPc → Prop
  | enqueued (hm : s.main = .enqueuing []) : Goes s (.spawning 0)
  | spawned (i : ℕ) (hm : s.main = .spawning i) : Goes s .waitLoop
  | joinCreated (k j : ℕ) (hm : s.main = .abandoning k j) (hover : s.isOver j = true) :
      Goes s (.abandoning k (j + 1))
  | abandon (k j : ℕ) (hm : s.main = .abandoning k j) (hj : k ≤ j) : Goes s (.abandoned k)
  | wake (hm : s.main = .waitLoop) : Goes s .handleShutdown
  | cancelRest (hm : s.main = .handleShutdown) : Goes s .allocating
  | noCancel (hm : s.main = .handleShutdown) : Goes s .shuttingDown
  | allocated (hm : s.main = .allocating) : Goes s .draining
  | notAllocated (hm : s.main = .allocating) : Goes s .shuttingDown
  | cancelled (hm : s.main = .cancelling []) : Goes s .shuttingDown
  | join (j : ℕ) (hm : s.main = .joining j) (hover : s.isOver j = true) : Goes s (.joining (j + 1))
  | joined (j : ℕ) (hm : s.main = .joining j) (hj : n ≤ j) : Goes s .shiftEnd

/-- The moves of main, and the signal. -/
inductive MainMove (s : Shift n) : Shift n → Prop
  | go (pc : MainPc) (hg : Goes s pc) : MainMove s { s with main := pc }
  | loop : MainMove s s
  | push (o : Order) (rest : List Order) (hm : s.main = .enqueuing (o :: rest)) :
      MainMove s { s with main := .enqueuing rest, pq := (pqPush s.pq o).2 }
  | spawn (k : ℕ) (hk : k < n) (hm : s.main = .spawning k) :
      MainMove s { s.setCourier ⟨k, hk⟩ { pc := .waiting } with main := .spawning (k + 1) }
  | giveUp (k : ℕ) (hm : s.main = .spawning k) :
      MainMove s { s with main := .abandoning k 0, pq := pqShutdown s.pq }
  | drain (hm : s.main = .draining) :
      MainMove s { s with
        main := .cancelling (pqDrain s.pq).1
        pq := (pqDrain s.pq).2
        removed := s.removed ++ (pqDrain s.pq).1 }
  | cancel (o : Order) (pending : List Order) (hm : s.main = .cancelling (o :: pending)) :
      MainMove s { s with
        main := .cancelling pending
        gs := { s.gs with cancelledOrders := s.gs.cancelledOrders + 1 }
        cancelled := s.cancelled ++ [o] }
  | shutDown (hm : s.main = .shuttingDown) :
      MainMove s { s with main := .joining 0, pq := pqShutdown s.pq }
  | sigint : MainMove s { s with shutdownRequested := true }

theorem courierMove_of_step {s s' : Shift n} {i : Fin n} (h : courierStep s i = some s') :
    CourierMove s i s' := by
  unfold courierStep at h
  dsimp only at h
  split at h
  · cases h
  · rename_i hpc
    split at h
    · cases h
    · rename_i pq hpop
      obtain rfl := Option.some.inj h
      exact .leave pq hpc hpop
    · rename_i o pq hpop
      obtain rfl := Option.some.inj h
      exact .pop o pq hpc hpop
  · rename_i o hpc
    obtain rfl := Option.some.inj h
    exact .deliver o hpc
  · rename_i o hpc
    obtain rfl := Option.some.inj h
    exact .time o hpc
  · rename_i o hpc
    obtain rfl := Option.some.inj h
    exact .record o hpc
  · cases h

theorem mainMove_of_mainStep {k : ℕ} {s s' : Shift n} (h : mainStep k s = some s') :
    MainMove s s' := by
  unfold mainStep at h
  split at h <;> rename_i hm
  · obtain rfl := Option.some.inj h
    exact .go _ (.enqueued hm)
  · rename_i o rest
    obtain rfl := Option.some.inj h
    exact .push o rest hm
  · rename_i i
    split_ifs at h with hi <;> obtain rfl := Option.some.inj h
    · exact .spawn i hi hm
    · exact .go _ (.spawned i hm)
  · rename_i k j
    split_ifs at h with hj hover <;> obtain rfl := Option.some.inj h
    · exact .go _ (.joinCreated k j hm hover)
    · exact .go _ (.abandon k j hm (not_lt.mp hj))
  · cases h
  · split_ifs at h <;> obtain rfl := Option.some.inj h
    · exact .loop
    · exact .go _ (.wake hm)
  · split_ifs at h <;> obtain rfl := Option.some.inj h
    · exact .go _ (.cancelRest hm)
    · exact .go _ (.noCancel hm)
  · obtain rfl := Option.some.inj h
    exact .go _ (.allocated hm)
  · obtain rfl := Option.some.inj h
    exact .drain hm
  · obtain rfl := Option.some.inj h
    exact .go _ (.cancelled hm)
  · rename_i o pending
    obtain rfl := Option.some.inj h
    exact .cancel o pending hm
  · obtain rfl := Option.some.inj h
    exact .shutDown hm
  · rename_i j
    split_ifs at h with hj hover <;> obtain rfl := Option.some.inj h
    · exact .go _ (.join j hm hover)
    · exact .go _ (.joined j hm (not_lt.mp hj))
  · cases h

/-- **Every step is a move** of main or of a courier. -/
theorem move_of_step {k : ℕ} {s s' : Shift n} {a : Act n} (h : step k s a = some s') :
    MainMove s s' ∨ ∃ i, CourierMove s i s' := by
  cases a with
  | main => exact .inl (mainMove_of_mainStep h)
  | callocFails =>
    simp only [step] at h
    split at h
    · rename_i hm
      obtain rfl := Option.some.inj h
      exact .inl (.go _ (.notAllocated hm))
    · cases h
  | createFails =>
    simp only [step] at h
    split at h
    · rename_i i hm
      split_ifs at h
      obtain rfl := Option.some.inj h
      exact .inl (.giveUp i hm)
    · cases h
  | sigint =>
    obtain rfl := Option.some.inj h
    exact .inl .sigint
  | courier i => exact .inr ⟨i, courierMove_of_step h⟩

/-- A courier that moves has been created and is not over; no other courier changes, nor main. -/
theorem CourierMove.frame {s s' : Shift n} {i : Fin n} (h : CourierMove s i s') :
    s'.main = s.main ∧ (s.couriers i).pc ≠ .unborn ∧ (s.couriers i).pc ≠ .over ∧
      ∀ j, j ≠ i → s'.couriers j = s.couriers j := by
  have hother : ∀ (c : Courier) (j : Fin n), j ≠ i →
      Function.update s.couriers i c j = s.couriers j := fun c j hj => Function.update_of_ne hj ..
  cases h <;> exact ⟨rfl, by simp [*], by simp [*], hother _⟩

end Cse344.HW5
