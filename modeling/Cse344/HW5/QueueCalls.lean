import Cse344.HW5.PriorityQueue
import Cse344.Lib.Machine
import Mathlib.Algebra.Order.Group.Multiset

/-!
# The order queue over any sequence of calls

`Cse344.HW5.PriorityQueue` says what one call of `HW5/src/priority_queue.c` does. Here a queue made
by `pq_create` (60-92) is used by any sequence of `pq_push`, of `pq_pop_blocking` on a queue that is
not empty, and of `pq_drain`.

* `Usage` is the queue with what was put in and what came out.
* A push on a full queue is refused, and is a call like any other.
* `InUse` is the invariant; `MeetsSpec` is what it says of every call that may come next.

Results:
* `inUse_step`: every call keeps it.
* **`uses_as_specified`**: after every such sequence the array is a heap for `order_less`, the size
  is within the capacity and the orders waiting are those pushed and not yet removed; and whatever
  the next call is, a pop hands out an order no waiting order is less than, a drain hands out all of
  them in order, and a push on a full queue is refused.

Out of scope: allocation (`pq_create` returns the queue it is asked for), and with it a capacity
whose byte count does not fit in a `size_t`.
-/

namespace Cse344.HW5

open Cse344.Lib

inductive Call
  | push (order : Order)
  | pop
  | drain

/-- A queue in use, the orders `pq_push` took and those `pq_pop_blocking` and `pq_drain` handed
out. -/
structure Usage where
  pq : PriorityQueue
  pushed : List Order
  removed : List Order

def Usage.push (u : Usage) (order : Order) : Usage :=
  { u with pq := (pqPush u.pq order).2
           pushed := if (pqPush u.pq order).1 = 0 then u.pushed ++ [order] else u.pushed }

def Usage.drain (u : Usage) : Usage :=
  { u with pq := (pqDrain u.pq).2, removed := u.removed ++ (pqDrain u.pq).1 }

/-- A pop happens on a queue that is not empty only. -/
def useStep (u : Usage) : Call → Option Usage
  | .push order => some (u.push order)
  | .pop =>
    match pqPopBlocking u.pq with
    | some (.ok out, pq) => some { u with pq := pq, removed := u.removed ++ [out] }
    | _ => none
  | .drain => some u.drain

def uses (pq : PriorityQueue) : Machine Usage Call where
  init := { pq := pq, pushed := [], removed := [] }
  step := useStep

/-! ## What a call leaves alone -/

theorem pqDrain_capacity (pq : PriorityQueue) : (pqDrain pq).2.capacity = pq.capacity := by
  rw [pqDrain, drainLoop_eq rfl]

theorem pqPush_full {pq : PriorityQueue} (h : pq.capacity ≤ pq.size) (order : Order) :
    pqPush pq order = (-1, pq) := if_pos h

theorem pqPop_eq {pq : PriorityQueue} (h : 0 < pq.size) :
    pqPopBlocking pq = some (.ok (takeRoot pq).1, (takeRoot pq).2) := if_neg h.ne'

theorem heaped_of_size {pq : PriorityQueue} (h : pq.size = 0) : pq.Heaped := by
  intro i _ hi
  omega

/-! ## The invariant -/

/-- What holds of a queue of capacity `capacity` between two calls. -/
structure InUse (capacity : ℕ) (u : Usage) : Prop where
  heaped : u.pq.Heaped
  capacity_eq : u.pq.capacity = capacity
  size_le : u.pq.size ≤ capacity
  balance : (u.pushed : Multiset Order) = u.pq.contents + (u.removed : Multiset Order)

variable {capacity : ℕ} {u u' : Usage}

theorem inUse_push (h : InUse capacity u) (order : Order) : InUse capacity (u.push order) := by
  unfold Usage.push
  rcases lt_or_ge u.pq.size u.pq.capacity with hlt | hge
  · obtain ⟨hret, hcont, hsize, hcap, -, hheap⟩ := pqPush_spec hlt order
    refine ⟨hheap h.heaped, hcap.trans h.capacity_eq, ?_, ?_⟩
    · show (pqPush u.pq order).2.size ≤ capacity
      rw [hsize]
      exact h.capacity_eq ▸ hlt
    · show ((if (pqPush u.pq order).1 = 0 then u.pushed ++ [order] else u.pushed : List Order) :
        Multiset Order) = (pqPush u.pq order).2.contents + _
      rw [if_pos hret, hcont, ← Multiset.coe_add, h.balance, Multiset.coe_singleton,
        Multiset.cons_add, add_comm _ ({order} : Multiset Order), Multiset.singleton_add]
  · rw [pqPush_full hge]
    exact ⟨h.heaped, h.capacity_eq, h.size_le, by simpa using h.balance⟩

/-- An order taken from the root goes from the waiting orders to those removed. -/
theorem inUse_pop (h : InUse capacity u) (hpos : 0 < u.pq.size) :
    InUse capacity
      { u with pq := (takeRoot u.pq).2, removed := u.removed ++ [(takeRoot u.pq).1] } := by
  obtain ⟨hcont, hsize, -, hheap⟩ := takeRoot_spec hpos
  refine ⟨(hheap h.heaped).1, h.capacity_eq, ?_, ?_⟩
  · have := h.size_le
    show (takeRoot u.pq).2.size ≤ capacity
    omega
  · rw [h.balance, hcont, ← Multiset.coe_add, Multiset.coe_singleton, Multiset.cons_add,
      ← add_assoc, add_comm _ ({(takeRoot u.pq).1} : Multiset Order), Multiset.singleton_add]

theorem inUse_drain (h : InUse capacity u) : InUse capacity u.drain := by
  obtain ⟨hcont, hsize, -, -⟩ := pqDrain_spec u.pq
  refine ⟨heaped_of_size hsize, (pqDrain_capacity u.pq).trans h.capacity_eq, ?_, ?_⟩
  · show (pqDrain u.pq).2.size ≤ capacity
    rw [hsize]
    exact Nat.zero_le _
  · show (u.pushed : Multiset Order) = (pqDrain u.pq).2.contents +
      ((u.removed ++ (pqDrain u.pq).1 : List Order) : Multiset Order)
    rw [contents_eq_zero hsize, zero_add, ← Multiset.coe_add, hcont, h.balance, add_comm]

theorem inUse_step {c : Call} (h : InUse capacity u) (hs : useStep u c = some u') :
    InUse capacity u' := by
  cases c with
  | push order =>
    obtain rfl : u.push order = u' := by simpa [useStep] using hs
    exact inUse_push h order
  | drain =>
    obtain rfl : u.drain = u' := by simpa [useStep] using hs
    exact inUse_drain h
  | pop =>
    rcases Nat.eq_zero_or_pos u.pq.size with h0 | hpos
    · have hnone : useStep u .pop = none := by
        unfold useStep pqPopBlocking
        rw [if_pos h0]
        cases u.pq.shutdown <;> rfl
      rw [hnone] at hs
      cases hs
    · simp only [useStep, pqPop_eq hpos, Option.some.injEq] at hs
      subst hs
      exact inUse_pop h hpos

theorem pqCreate_eq {pq : PriorityQueue} (hc : pqCreate capacity = some pq) :
    pq.size = 0 ∧ pq.capacity = capacity := by
  unfold pqCreate at hc
  split_ifs at hc
  · cases hc
    exact ⟨rfl, rfl⟩

theorem inUse_reachable {pq : PriorityQueue} (hc : pqCreate capacity = some pq)
    (h : (uses pq).Reachable u) : InUse capacity u := by
  obtain ⟨hsize, hcap⟩ := pqCreate_eq hc
  refine h.induct ⟨heaped_of_size hsize, hcap, ?_, ?_⟩ fun s a s' hi hs => inUse_step hi hs
  · exact hsize.trans_le (Nat.zero_le _)
  · show (([] : List Order) : Multiset Order) = pq.contents + _
    rw [contents_eq_zero hsize]
    rfl

/-! ## The specification -/

theorem orderLess_eq_false {a b : Order} : orderLess a b = false ↔ b.key ≤ a.key := by
  rw [← not_lt, ← orderLess_ranks a b, Bool.not_eq_true]

/-- What a queue of capacity `capacity` owes its users after some calls. -/
structure MeetsSpec (capacity : ℕ) (u : Usage) : Prop where
  /-- No order is less than its parent. -/
  heap : ∀ i < u.pq.size, 0 < i → orderLess (u.pq.heap i) (u.pq.heap ((i - 1) / 2)) = false
  size_le : u.pq.size ≤ capacity
  /-- The orders waiting are those pushed less those removed. -/
  stored : u.pq.contents = (u.pushed : Multiset Order) - (u.removed : Multiset Order) ∧
    (u.removed : Multiset Order) ≤ (u.pushed : Multiset Order)
  /-- A pop hands out a waiting order, and no waiting order is less. -/
  pop : 0 < u.pq.size → ∃ out pq', pqPopBlocking u.pq = some (.ok out, pq') ∧
    u.pq.contents = out ::ₘ pq'.contents ∧ ∀ w ∈ u.pq.contents, orderLess w out = false
  /-- A drain hands out all waiting orders, by priority and then by id, and leaves none. -/
  drain : ((pqDrain u.pq).1 : Multiset Order) = u.pq.contents ∧
    ((pqDrain u.pq).1.Pairwise fun a b => a.priority.toInt < b.priority.toInt ∨
      a.priority.toInt = b.priority.toInt ∧ a.id ≤ b.id) ∧ (pqDrain u.pq).2.size = 0
  /-- A push is refused by a full queue, and taken otherwise. -/
  push : ∀ order, (u.pq.size = capacity → pqPush u.pq order = (-1, u.pq)) ∧
    (u.pq.size < capacity → (pqPush u.pq order).1 = 0 ∧
      (pqPush u.pq order).2.contents = order ::ₘ u.pq.contents)

theorem Order.key_le {a b : Order} : a.key ≤ b.key ↔ a.priority.toInt < b.priority.toInt ∨
    a.priority.toInt = b.priority.toInt ∧ a.id ≤ b.id := Prod.Lex.toLex_le_toLex

theorem InUse.meetsSpec (h : InUse capacity u) : MeetsSpec capacity u where
  heap i hi hpos := orderLess_eq_false.mpr (h.heaped i hpos hi)
  size_le := h.size_le
  stored := by
    rw [h.balance]
    exact ⟨(add_tsub_cancel_right _ _).symm, Multiset.le_add_left _ _⟩
  pop hpos := by
    obtain ⟨hcont, -, -, hheap⟩ := takeRoot_spec hpos
    refine ⟨_, _, pqPop_eq hpos, hcont, fun w hw => orderLess_eq_false.mpr ?_⟩
    rw [hcont] at hw
    rcases Multiset.mem_cons.mp hw with rfl | hw
    · exact le_refl _
    · exact (hheap h.heaped).2 w hw
  drain := by
    obtain ⟨hcont, hsize, -, hsorted⟩ := pqDrain_spec u.pq
    exact ⟨hcont, (hsorted h.heaped).imp Order.key_le.mp, hsize⟩
  push order := by
    constructor
    · intro hfull
      exact pqPush_full (h.capacity_eq.trans hfull.symm).le order
    · intro hlt
      obtain ⟨hret, hcont, -⟩ := pqPush_spec (h.capacity_eq ▸ hlt) order
      exact ⟨hret, hcont⟩

/-- **The queue meets its specification after every sequence of calls.** -/
theorem uses_as_specified {pq : PriorityQueue} (hc : pqCreate capacity = some pq) {u : Usage}
    (h : (uses pq).Reachable u) : MeetsSpec capacity u :=
  (inUse_reachable hc h).meetsSpec

def smallQueue : PriorityQueue :=
  { heap := fun _ => default, size := 0, capacity := 2, shutdown := false }

/-- Three pushes on a queue of two, and a drain. -/
def smallUses : List Call :=
  [.push ⟨1, cstr "a", .economy, 3⟩, .push ⟨2, cstr "b", .express, 1⟩,
    .push ⟨3, cstr "c", .express, 1⟩, .drain]

theorem uses_as_specified_smallUses : pqCreate 2 = some smallQueue ∧
    ∃ u, (uses smallQueue).runs (uses smallQueue).init smallUses = some u ∧ MeetsSpec 2 u := by
  have hrun : (uses smallQueue).runs (uses smallQueue).init smallUses = some _ := rfl
  exact ⟨rfl, _, hrun, uses_as_specified rfl (Machine.runs_reachable hrun)⟩

end Cse344.HW5
