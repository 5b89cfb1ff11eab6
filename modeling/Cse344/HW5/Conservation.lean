import Cse344.HW5.Phases
import Mathlib.Tactic.Abel
import Mathlib.Tactic.Ring

/-!
# No order of a shift is lost

What becomes of the orders that `enqueue_all_orders` has pushed (`HW5/main.c` 18-29), through the
couriers (`HW5/src/courier.c` 27-62) and the cancellations after a SIGINT (`HW5/main.c` 61-87).

* `Ledger` is the balance of a shift in progress: every order is still to be enqueued, waiting in
  the queue, in a courier's hands, delivered, or on main's list to cancel or cancelled already, and
  the counters agree with the histories up to the updates a courier has not made yet.
* `JoinedAll` says that main has joined all the couriers it had, and had one at least. They are over
  then, so the queue they left is empty (`EmptyIfOver`) and nothing is in anybody's hands.
* That covers `pthread_create` failing with orders in the queue: the queue is shut down, and the
  couriers that exist deliver what is left in it.

Results:
* **`ledger_step`**: every step keeps the balance.
* **`shift_conserved`**: when main has joined all couriers, every order was delivered by exactly one
  courier or cancelled, and the counters add up (`ShiftConserved`).

Out of scope: counters that do not fit their type, and that main comes to join anybody
(`Cse344.HW5.Ends`).
-/

namespace Cse344.HW5

open Cse344.Lib

variable {n : ℕ} {orders : List Order}

/-! ## The balance -/

/-- The orders main still holds: to enqueue, or to cancel. -/
def MainPc.holds : MainPc → List Order
  | .enqueuing rest => rest
  | .cancelling pending => pending
  | _ => []

/-- The order a courier has popped and not yet delivered. -/
def CourierPc.holds : CourierPc → List Order
  | .delivering o => [o]
  | _ => []

/-- The delivered order a courier has not added to `total_delivery_time`. -/
def CourierPc.untimed : CourierPc → List Order
  | .counted o => [o]
  | _ => []

/-- The delivered order a courier has not added to its `stats`. -/
def CourierPc.unrecorded : CourierPc → List Order
  | .counted o => [o]
  | .timed o => [o]
  | _ => []

/-- The orders a courier answers for. -/
def Courier.share (c : Courier) : Multiset Order := c.pc.holds + c.delivered

/-- `SIM_UNIT_MS` times the durations. -/
def totalMs (l : List Order) : ℤ := (l.map durationMs).sum

@[simp] theorem totalMs_nil : totalMs [] = 0 := rfl

@[simp] theorem totalMs_singleton (o : Order) : totalMs [o] = durationMs o := by simp [totalMs]

@[simp] theorem totalMs_append (l m : List Order) : totalMs (l ++ m) = totalMs l + totalMs m := by
  simp [totalMs]

/-- What a courier's `stats` say of its deliveries. -/
def Courier.Recorded (c : Courier) : Prop :=
  c.stats.completed + c.pc.unrecorded.length = c.delivered.length ∧
    c.stats.totalTimeMs + totalMs c.pc.unrecorded = totalMs c.delivered

structure Ledger (orders : List Order) (s : Shift n) : Prop where
  accounts : (orders : Multiset Order) =
    s.main.holds + s.pq.contents + s.cancelled + ∑ i, (s.couriers i).share
  completed : s.gs.completedOrders = ∑ i, (s.couriers i).delivered.length
  cancelled : s.gs.cancelledOrders = s.cancelled.length
  time : s.gs.totalDeliveryTime + ∑ i, totalMs (s.couriers i).pc.untimed =
    ∑ i, totalMs (s.couriers i).delivered
  recorded : ∀ i, (s.couriers i).Recorded

/-- A step that changes no courier and keeps main's share of the orders keeps the balance. -/
theorem Ledger.of_main {s s' : Shift n} (h : Ledger orders s) (hc : s'.couriers = s.couriers)
    (hshare : (s'.main.holds + s'.pq.contents + s'.cancelled : Multiset Order) =
      s.main.holds + s.pq.contents + s.cancelled)
    (hcomp : s'.gs.completedOrders = s.gs.completedOrders)
    (hcanc : s'.gs.cancelledOrders = s'.cancelled.length)
    (htime : s'.gs.totalDeliveryTime = s.gs.totalDeliveryTime) : Ledger orders s' where
  accounts := by rw [hshare, hc, h.accounts]
  completed := by rw [hcomp, hc, h.completed]
  cancelled := hcanc
  time := by rw [htime, hc, h.time]
  recorded := by rw [hc]; exact h.recorded

/-- A step that leaves everything but main's position and the flags alone keeps the balance. -/
theorem Ledger.of_quiet {s s' : Shift n} (h : Ledger orders s) (hc : s'.couriers = s.couriers)
    (hm : s'.main.holds = s.main.holds) (hpq : s'.pq.contents = s.pq.contents)
    (hcan : s'.cancelled = s.cancelled) (hgs : s'.gs = s.gs) : Ledger orders s' :=
  h.of_main hc (by rw [hm, hpq, hcan]) (by rw [hgs]) (by rw [hgs, hcan, h.cancelled]) (by rw [hgs])

/-- A courier's step exchanges its share of each total for its new one. -/
theorem Ledger.of_courier {s s' : Shift n} {i : Fin n} {c : Courier} (h : Ledger orders s)
    (hc : s'.couriers = Function.update s.couriers i c) (hm : s'.main = s.main)
    (hcan : s'.cancelled = s.cancelled)
    (hshare : s'.pq.contents + c.share = s.pq.contents + (s.couriers i).share)
    (hcomp : s'.gs.completedOrders + (s.couriers i).delivered.length =
      s.gs.completedOrders + c.delivered.length)
    (hcc : s'.gs.cancelledOrders = s.gs.cancelledOrders)
    (htime : s'.gs.totalDeliveryTime + totalMs c.pc.untimed + totalMs (s.couriers i).delivered =
      s.gs.totalDeliveryTime + totalMs (s.couriers i).pc.untimed + totalMs c.delivered)
    (hrec : c.Recorded) : Ledger orders s' where
  accounts := by
    have hsum := sum_update_add Courier.share s.couriers i c
    have hacc := h.accounts
    rw [hc, hm, hcan]
    apply add_right_cancel (b := (s.couriers i).share)
    calc (orders : Multiset Order) + (s.couriers i).share
        = s.main.holds + s.cancelled + (s.pq.contents + (s.couriers i).share) +
            ∑ j, (s.couriers j).share := by rw [hacc]; abel
      _ = s.main.holds + s.cancelled + s'.pq.contents +
            ((∑ j, (s.couriers j).share) + c.share) := by rw [← hshare]; abel
      _ = _ := by rw [← hsum]; abel
  completed := by
    have hsum := sum_update_add (fun c : Courier => c.delivered.length) s.couriers i c
    have := h.completed
    rw [hc]
    omega
  cancelled := by rw [hcc, hcan, h.cancelled]
  time := by
    have hd := sum_update_add (fun c : Courier => totalMs c.delivered) s.couriers i c
    have hu := sum_update_add (fun c : Courier => totalMs c.pc.untimed) s.couriers i c
    have := h.time
    rw [hc]
    omega
  recorded := by
    rw [hc]
    exact (Function.forall_update_iff s.couriers fun _ c => c.Recorded).mpr
      ⟨hrec, fun j _ => h.recorded j⟩

/-! ## The steps -/

theorem ledger_courierMove {s s' : Shift n} {i : Fin n} (h : Ledger orders s)
    (hm : CourierMove s i s') : Ledger orders s' := by
  have hrec := h.recorded i
  unfold Courier.Recorded at hrec
  cases hm with
  | pop o pq hpc hpop =>
    rw [hpc] at hrec
    refine h.of_courier rfl rfl rfl ?_ rfl rfl ?_ hrec
    · show pq.contents + Courier.share _ = s.pq.contents + Courier.share _
      rw [(pqPop_ok hpop).1]
      simp only [Courier.share, hpc, CourierPc.holds, Multiset.coe_singleton, Multiset.coe_nil,
        zero_add, ← Multiset.singleton_add]
      abel
    · simp [CourierPc.untimed, hpc]
  | leave pq hpc hpop =>
    rw [hpc] at hrec
    refine h.of_courier rfl rfl rfl ?_ rfl rfl ?_ hrec
    · obtain ⟨rfl, -, -⟩ := pqPop_shutdown hpop
      simp [Courier.share, hpc, CourierPc.holds]
    · simp [CourierPc.untimed, hpc]
  | deliver o hpc =>
    rw [hpc] at hrec
    refine h.of_courier rfl rfl rfl ?_ ?_ rfl ?_ ?_
    · simp only [Courier.share, hpc, CourierPc.holds, setCourier_pq, ← Multiset.coe_add,
        Multiset.coe_nil, zero_add]
      abel
    · simp only [List.length_append, List.length_singleton]
      omega
    · simp only [CourierPc.untimed, hpc, totalMs_append, totalMs_singleton, totalMs_nil]
      omega
    · constructor
      · simpa [CourierPc.unrecorded] using hrec.1
      · simpa [CourierPc.unrecorded] using hrec.2
  | time o hpc =>
    rw [hpc] at hrec
    refine h.of_courier rfl rfl rfl ?_ rfl rfl ?_ hrec
    · simp [Courier.share, hpc, CourierPc.holds]
    · simp only [CourierPc.untimed, hpc, totalMs_singleton, totalMs_nil]
      omega
  | record o hpc =>
    rw [hpc] at hrec
    refine h.of_courier rfl rfl rfl ?_ rfl rfl ?_ ?_
    · simp [Courier.share, hpc, CourierPc.holds]
    · simp [CourierPc.untimed, hpc]
    · simpa [Courier.Recorded, CourierPc.unrecorded] using hrec

/-- Going on, main holds the same orders. -/
theorem Goes.holds_eq {s : Shift n} {pc : MainPc} (hg : Goes s pc) : pc.holds = s.main.holds := by
  cases hg with
  | _ => simp only [*, MainPc.holds]

theorem ledger_mainMove {s s' : Shift n} (hp : Phase s) (h : Ledger orders s)
    (hm : MainMove s s') : Ledger orders s' := by
  cases hm with
  | go pc hg => exact h.of_quiet rfl hg.holds_eq rfl rfl rfl
  | loop => exact h
  | push o rest hm =>
    -- the queue has room for every order still to come
    obtain ⟨-, hcont, -⟩ := pqPush_spec (hp.of_enqueuing hm).1 o
    refine h.of_main rfl ?_ rfl h.cancelled rfl
    dsimp only
    rw [hcont, hm]
    simp only [MainPc.holds, ← Multiset.cons_coe, ← Multiset.singleton_add]
    abel
  | spawn k hk hm =>
    have hfresh : s.couriers ⟨k, hk⟩ = {} := hp.of_spawning hm ⟨k, hk⟩ le_rfl
    have hq : Ledger orders (s.setCourier ⟨k, hk⟩ { pc := .waiting }) := by
      refine h.of_courier rfl rfl rfl ?_ ?_ rfl ?_ ?_ <;>
        simp [hfresh, Courier.share, CourierPc.holds, CourierPc.untimed,
          Courier.Recorded, CourierPc.unrecorded]
    exact hq.of_quiet rfl (by simp only [Shift.setCourier]; rw [hm]; rfl) rfl rfl rfl
  | giveUp k hm => exact h.of_quiet rfl (by rw [hm]; rfl) rfl rfl rfl
  | drain hm =>
    obtain ⟨hcont, hsz, -⟩ := pqDrain_spec s.pq
    refine h.of_main rfl ?_ rfl h.cancelled rfl
    dsimp only
    rw [contents_eq_zero hsz, hm]
    simp only [MainPc.holds, hcont, Multiset.coe_nil]
    abel
  | cancel o pending hm =>
    refine h.of_main rfl ?_ rfl ?_ rfl
    · dsimp only
      rw [hm]
      simp only [MainPc.holds, ← Multiset.cons_coe, ← Multiset.singleton_add, ← Multiset.coe_add]
      abel
    · simp [h.cancelled]
  | shutDown hm => exact h.of_quiet rfl (by rw [hm]; rfl) rfl rfl rfl
  | sigint => exact h.of_quiet rfl rfl rfl rfl rfl

/-- **Every step keeps the balance.** -/
theorem ledger_step {k : ℕ} {s s' : Shift n} {a : Act n} (hp : Phase s) (h : Ledger orders s)
    (hs : step k s a = some s') : Ledger orders s' := by
  rcases move_of_step hs with hm | ⟨i, hm⟩
  · exact ledger_mainMove hp h hm
  · exact ledger_courierMove h hm

theorem ledger_init : Ledger orders (shift n orders).init := by
  refine ⟨?_, ?_, rfl, ?_, fun i => ⟨rfl, rfl⟩⟩
  · simp [shift, MainPc.holds, contents_initialQueue, Courier.share, CourierPc.holds]
  · simp [shift]
  · simp [shift, CourierPc.untimed]

theorem ledger_reachable {s : Shift n} (h : (shift n orders).Reachable s) : Ledger orders s :=
  h.induct_reachable ledger_init fun _ _ _ hr hl hs => ledger_step (phase_reachable hr) hl hs

/-! ## The end of a shift -/

/-- Main has joined all the couriers it created, and there is one at least. -/
def JoinedAll (s : Shift n) : Prop := s.main = .shiftEnd ∨ ∃ k, 0 < k ∧ s.main = .abandoned k

/-- The account of a shift that is over. -/
structure ShiftConserved (orders : List Order) (s : Shift n) : Prop where
  /-- Every order was delivered by exactly one courier, or cancelled, and not both. -/
  delivered_or_cancelled : ∀ o ∈ orders,
    Xor (∃! i, o ∈ (s.couriers i).delivered) (o ∈ s.cancelled)
  /-- No order was delivered or cancelled twice, and none that was not in the list. -/
  once : (orders : Multiset Order) =
    s.cancelled + ∑ i, ((s.couriers i).delivered : Multiset Order)
  count : s.gs.completedOrders + s.gs.cancelledOrders = orders.length
  completed : s.gs.completedOrders = ∑ i, (s.couriers i).stats.completed
  time : s.gs.totalDeliveryTime = ∑ i, (s.couriers i).stats.totalTimeMs
  duration : s.gs.totalDeliveryTime =
    simUnitMs * ∑ i, ((s.couriers i).delivered.map Order.duration).sum

theorem totalMs_eq (l : List Order) : totalMs l = simUnitMs * (l.map Order.duration).sum := by
  induction l with
  | nil => rfl
  | cons o l ih =>
    simp only [totalMs, List.map_cons, List.sum_cons, durationMs] at ih ⊢
    rw [ih]
    ring

/-- When main has joined the couriers, each of them is over or was never created, and the queue
is empty. -/
theorem joined_idle (hn : 1 ≤ n) {s : Shift n} (hp : Phase s) (he : EmptyIfOver s)
    (hj : JoinedAll s) :
    s.main.holds = [] ∧ s.pq.size = 0 ∧
      ∀ i, (s.couriers i).pc = .over ∨ s.couriers i = {} := by
  unfold Phase at hp
  rcases hj with hm | ⟨k, hk, hm⟩ <;> rw [hm] at hp <;> dsimp only at hp
  · exact ⟨by rw [hm]; rfl, (he _ (hp ⟨0, hn⟩ hn)).1, fun i => Or.inl (hp i i.isLt)⟩
  · refine ⟨by rw [hm]; rfl, (he _ (hp.2 ⟨0, hn⟩ hk)).1, fun i => ?_⟩
    rcases Nat.lt_or_ge i k with hik | hik
    · exact Or.inl (hp.2 i hik)
    · exact Or.inr (hp.1 i hik)

/-- **A shift loses no order**: for every list of orders with unique ids, every number of couriers
and every interleaving, signal and failing allocation, when main has joined all couriers every
order was delivered by exactly one of them or cancelled, and the statistics add up. -/
theorem shift_conserved (hn : 1 ≤ n) (hid : (orders.map Order.id).Nodup) {s : Shift n}
    (h : (shift n orders).Reachable s) (hj : JoinedAll s) : ShiftConserved orders s := by
  have hl := ledger_reachable h
  obtain ⟨hmain, hsz, hidle⟩ := joined_idle hn (phase_reachable h) (emptyIfOver_reachable h) hj
  have hholds : ∀ i, (s.couriers i).pc.holds = [] ∧ (s.couriers i).pc.untimed = [] ∧
      (s.couriers i).pc.unrecorded = [] := by
    intro i
    rcases hidle i with hover | hfresh
    · rw [hover]
      exact ⟨rfl, rfl, rfl⟩
    · rw [hfresh]
      exact ⟨rfl, rfl, rfl⟩
  have honce : (orders : Multiset Order) =
      s.cancelled + ∑ i, ((s.couriers i).delivered : Multiset Order) := by
    have := hl.accounts
    simpa [hmain, contents_eq_zero hsz, Courier.share, (hholds _).1] using this
  have hstats : ∀ i, (s.couriers i).stats.completed = (s.couriers i).delivered.length ∧
      (s.couriers i).stats.totalTimeMs = totalMs (s.couriers i).delivered := by
    intro i
    have := hl.recorded i
    simpa [Courier.Recorded, (hholds i).2.2] using this
  have htime : s.gs.totalDeliveryTime = ∑ i, totalMs (s.couriers i).delivered := by
    have := hl.time
    simpa [(hholds _).2.1] using this
  refine ⟨fun o ho => ?_, honce, ?_, ?_, ?_, ?_⟩
  · -- the ids are unique, so the balance holds `o` once
    have hcount : s.cancelled.count o + ∑ i, (s.couriers i).delivered.count o = 1 := by
      have h1 := congrArg (Multiset.count o) honce
      rw [Multiset.count_add, Multiset.count_sum', Multiset.coe_count, Multiset.coe_count,
        List.count_eq_one_of_mem (List.Nodup.of_map _ hid) ho] at h1
      simpa using h1.symm
    by_cases hc : o ∈ s.cancelled
    · refine Or.inr ⟨hc, ?_⟩
      rintro ⟨i, hi, -⟩
      have h1 := List.count_pos_iff.mpr hc
      have h2 := List.count_pos_iff.mpr hi
      have h3 := Finset.single_le_sum (f := fun i => (s.couriers i).delivered.count o)
        (fun _ _ => Nat.zero_le _) (Finset.mem_univ i)
      omega
    · refine Or.inl ⟨?_, hc⟩
      rw [List.count_eq_zero_of_not_mem hc, Nat.zero_add] at hcount
      simpa [List.count_pos_iff] using existsUnique_of_sum_eq_one hcount
  · have hlen := congrArg Multiset.card honce
    rw [Multiset.card_add, Multiset.card_sum] at hlen
    simp only [Multiset.coe_card] at hlen
    rw [hl.completed, hl.cancelled]
    omega
  · rw [hl.completed]
    exact Finset.sum_congr rfl fun i _ => (hstats i).1.symm
  · rw [htime]
    exact Finset.sum_congr rfl fun i _ => (hstats i).2.symm
  · rw [htime, Finset.mul_sum]
    exact Finset.sum_congr rfl fun i _ => totalMs_eq _

/-- Two orders, one courier: the first is delivered, the second cancelled after a SIGINT. -/
def cancelRun (c : Fin n) : List (Act n) :=
  [.main, .main, .main, .main, .main, .courier c, .sigint, .main, .main, .main, .main, .main, .main,
    .courier c, .main, .courier c, .courier c, .courier c, .main, .main]

def twoOrders : List Order :=
  [{ id := 2, name := cstr "bo", priority := .economy, duration := 3 },
    { id := 7, name := cstr "ann", priority := .express, duration := 1 }]

theorem shift_conserved_cancelRun :
    ∃ s, (shift 1 twoOrders).runs (shift 1 twoOrders).init (cancelRun 0) = some s ∧
      s.cancelled = twoOrders.take 1 ∧ ShiftConserved twoOrders s := by
  have hrun : ((shift 1 twoOrders).runs (shift 1 twoOrders).init (cancelRun 0)).map
      (fun s => (s.main, s.cancelled)) = some (.shiftEnd, twoOrders.take 1) := by decide +kernel
  obtain ⟨s, hs, he⟩ := Option.map_eq_some_iff.mp hrun
  obtain ⟨hm, hc⟩ := Prod.mk.injEq .. ▸ he
  exact ⟨s, hs, hc, shift_conserved le_rfl (by decide) (Machine.runs_reachable hs) (Or.inl hm)⟩

end Cse344.HW5
