import Cse344.Lib.BinaryHeap
import Cse344.Lib.CString
import Mathlib.Data.Prod.Lex

/-!
# The order queue of HW5

Model of `HW5/src/priority_queue.c` 18-211 and of the `Order` of `HW5/inc/order.h`.

* The `heap` array is a function on its indices; the cells `0, …, size - 1` are in use. `sift_up`
  and `sift_down` are the loops of `BinaryHeap` at `order_less`.
* `pq_create` is modelled with its allocations and `pthread_*_init` calls succeeding; the heap
  memory it gets is arbitrary, here `default`.
* Every operation is one critical section of `pq->mutex`. `pq_pop_blocking` answers `none` where it
  waits on `not_empty`, so a wait has no step of its own.
* An `id` and a `duration` are `int`s that the parser has checked; nothing here computes with them.

Results:
* `orderLess_ranks`: `order_less` ranks by `(priority, id)`.
* `pqPush_spec`, `takeRoot_spec`, `pqPop_ok`, `pqPop_shutdown`, `pqDrain_spec`: each operation keeps
  the heap property and changes the contents as its name says.

Out of scope: `pq_size`, which nothing calls, and `pq_destroy`.
-/

namespace Cse344.HW5

open Cse344.Lib

inductive Priority
  | express
  | standard
  | economy
  deriving DecidableEq, Repr, Inhabited

/-- The values of the C enumeration. -/
def Priority.toInt : Priority → ℤ
  | .express => 1
  | .standard => 2
  | .economy => 3

structure Order where
  id : ℤ
  name : CStr
  priority : Priority
  duration : ℤ
  deriving DecidableEq, Repr, Inhabited

/-- `SIM_UNIT_MS`. -/
def simUnitMs : ℤ := 500

def orderLess (a b : Order) : Bool :=
  if a.priority.toInt ≠ b.priority.toInt then decide (a.priority.toInt < b.priority.toInt)
  else decide (a.id < b.id)

def swapAt (heap : ℕ → Order) (i j : ℕ) : ℕ → Order := BinaryHeap.swapAt heap i j

def siftUp (heap : ℕ → Order) (i : ℕ) : ℕ → Order := BinaryHeap.siftUp orderLess heap i

def siftDown (heap : ℕ → Order) (size i : ℕ) : ℕ → Order :=
  BinaryHeap.siftDown orderLess heap size i

structure PriorityQueue where
  heap : ℕ → Order
  size : ℕ
  capacity : ℕ
  shutdown : Bool

def pqCreate (capacity : ℕ) : Option PriorityQueue :=
  if capacity = 0 then none
  else some { heap := fun _ => default, size := 0, capacity := capacity, shutdown := false }

/-- The return value (`0`, or `-1` on a full queue) and the queue. -/
def pqPush (pq : PriorityQueue) (order : Order) : ℤ × PriorityQueue :=
  if pq.capacity ≤ pq.size then (-1, pq)
  else (0, { pq with heap := siftUp (Function.update pq.heap pq.size order) pq.size
                     size := pq.size + 1 })

inductive PopResult
  | ok (out : Order)
  | shutdown
  deriving DecidableEq, Repr

/-- Take the root, move the last order to the root and sift it down. -/
def takeRoot (pq : PriorityQueue) : Order × PriorityQueue :=
  let size := pq.size - 1
  (pq.heap 0,
    { pq with heap := if 0 < size then siftDown (Function.update pq.heap 0 (pq.heap size)) size 0
                      else pq.heap
              size := size })

def pqPopBlocking (pq : PriorityQueue) : Option (PopResult × PriorityQueue) :=
  if pq.size = 0 then
    if pq.shutdown then some (.shutdown, pq) else none
  else some (.ok (takeRoot pq).1, (takeRoot pq).2)

def pqShutdown (pq : PriorityQueue) : PriorityQueue := { pq with shutdown := true }

/-- The loop of `pq_drain`, entered with `n` orders in the queue. -/
def drainLoop : ℕ → PriorityQueue → List Order × PriorityQueue
  | 0, pq => ([], pq)
  | n + 1, pq =>
    ((takeRoot pq).1 :: (drainLoop n (takeRoot pq).2).1, (drainLoop n (takeRoot pq).2).2)

/-- The orders written to `out`, and the queue left. -/
def pqDrain (pq : PriorityQueue) : List Order × PriorityQueue := drainLoop pq.size pq

/-! ## The order -/

/-- What `order_less` compares. -/
def Order.key (o : Order) : ℤ ×ₗ ℤ := toLex (o.priority.toInt, o.id)

theorem orderLess_ranks : BinaryHeap.Ranks orderLess Order.key := by
  intro a b
  unfold orderLess Order.key
  rw [Prod.Lex.toLex_lt_toLex]
  split_ifs with h
  · simp [h]
  · simp [not_not.mp h]

/-! ## Contents and heap property -/

/-- The waiting orders. -/
def PriorityQueue.contents (pq : PriorityQueue) : Multiset Order :=
  BinaryHeap.elems pq.heap pq.size

/-- The heap property of the cells in use. -/
def PriorityQueue.Heaped (pq : PriorityQueue) : Prop :=
  BinaryHeap.Ordered Order.key pq.heap pq.size

@[simp] theorem card_contents (pq : PriorityQueue) : pq.contents.card = pq.size :=
  BinaryHeap.card_elems _ _

theorem contents_eq_zero {pq : PriorityQueue} (h : pq.size = 0) : pq.contents = 0 := by
  rw [← Multiset.card_eq_zero, card_contents, h]

/-- A push below the capacity adds the order. -/
theorem pqPush_spec {pq : PriorityQueue} (h : pq.size < pq.capacity) (o : Order) :
    (pqPush pq o).1 = 0 ∧ (pqPush pq o).2.contents = o ::ₘ pq.contents ∧
      (pqPush pq o).2.size = pq.size + 1 ∧ (pqPush pq o).2.capacity = pq.capacity ∧
      (pqPush pq o).2.shutdown = pq.shutdown ∧ (pq.Heaped → (pqPush pq o).2.Heaped) := by
  unfold pqPush
  rw [if_neg (not_le.mpr h)]
  exact ⟨rfl, BinaryHeap.elems_insert pq.heap pq.size o, rfl, rfl, rfl,
    fun hp => BinaryHeap.ordered_insert orderLess_ranks hp o⟩

theorem takeRoot_eq {pq : PriorityQueue} {n : ℕ} (h : pq.size = n + 1) :
    takeRoot pq =
      (pq.heap 0, { pq with heap := BinaryHeap.extract orderLess pq.heap n, size := n }) := by
  unfold takeRoot
  rw [h]
  rfl

/-- Taking the root removes one order, and no order left is less than it. -/
theorem takeRoot_spec {pq : PriorityQueue} (h : 0 < pq.size) :
    pq.contents = (takeRoot pq).1 ::ₘ (takeRoot pq).2.contents ∧
      (takeRoot pq).2.size + 1 = pq.size ∧ (takeRoot pq).2.shutdown = pq.shutdown ∧
      (pq.Heaped → (takeRoot pq).2.Heaped ∧
        ∀ w ∈ (takeRoot pq).2.contents, (takeRoot pq).1.key ≤ w.key) := by
  obtain ⟨n, hn⟩ : ∃ n, pq.size = n + 1 := ⟨pq.size - 1, by omega⟩
  rw [takeRoot_eq hn]
  have hc : pq.contents =
      pq.heap 0 ::ₘ BinaryHeap.elems (BinaryHeap.extract orderLess pq.heap n) n := by
    rw [PriorityQueue.contents, hn]
    exact BinaryHeap.elems_extract orderLess pq.heap n
  refine ⟨hc, hn.symm, rfl, fun hp => ⟨BinaryHeap.ordered_extract orderLess_ranks (hn ▸ hp),
    fun w hw => BinaryHeap.root_le_of_mem hp ?_⟩⟩
  rw [← PriorityQueue.contents, hc]
  exact Multiset.mem_cons_of_mem hw

theorem pqPop_ok {pq pq' : PriorityQueue} {o : Order}
    (h : pqPopBlocking pq = some (.ok o, pq')) :
    pq.contents = o ::ₘ pq'.contents ∧ pq'.size + 1 = pq.size ∧ pq'.shutdown = pq.shutdown ∧
      (pq.Heaped → pq'.Heaped ∧ ∀ w ∈ pq'.contents, o.key ≤ w.key) := by
  unfold pqPopBlocking at h
  split_ifs at h with h0 hs
  · cases h
  · simp only [Option.some.injEq, Prod.mk.injEq, PopResult.ok.injEq] at h
    obtain ⟨rfl, rfl⟩ := h
    exact takeRoot_spec (by omega)

theorem pqPop_shutdown {pq pq' : PriorityQueue} (h : pqPopBlocking pq = some (.shutdown, pq')) :
    pq' = pq ∧ pq.size = 0 ∧ pq.shutdown = true := by
  unfold pqPopBlocking at h
  split_ifs at h with h0 hs
  · simp only [Option.some.injEq, Prod.mk.injEq, true_and] at h
    exact ⟨h.symm, h0, hs⟩
  · cases h

theorem drainLoop_eq : ∀ {n : ℕ} {pq : PriorityQueue}, pq.size = n →
    drainLoop n pq = ((BinaryHeap.drain orderLess pq.heap n).1,
      { pq with heap := (BinaryHeap.drain orderLess pq.heap n).2, size := 0 })
  | 0, pq, h => by rw [drainLoop, BinaryHeap.drain, ← h]
  | n + 1, pq, h => by
    rw [drainLoop, takeRoot_eq h]
    dsimp only
    rw [drainLoop_eq (n := n) rfl]
    rfl

/-- `pq_drain` writes out every waiting order, in key order, and empties the queue. -/
theorem pqDrain_spec (pq : PriorityQueue) :
    ((pqDrain pq).1 : Multiset Order) = pq.contents ∧ (pqDrain pq).2.size = 0 ∧
      (pqDrain pq).2.shutdown = pq.shutdown ∧
      (pq.Heaped → (pqDrain pq).1.Pairwise fun a b => a.key ≤ b.key) := by
  rw [pqDrain, drainLoop_eq rfl]
  exact ⟨BinaryHeap.drain_perm _ _, rfl, rfl, BinaryHeap.drain_sorted orderLess_ranks _ _⟩

end Cse344.HW5
