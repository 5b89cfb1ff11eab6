import Cse344.HW5.Conservation
import Mathlib.Data.List.Sort

/-!
# The order in which a shift dispatches

In what order the orders leave the queue: by `pq_pop_blocking` (`HW5/src/priority_queue.c` 127-163)
of any courier, and by `pq_drain` (187-211) of main.

* `Dispatch` says what a shift has done with the queue: the heap property holds, the orders removed
  so far left in `(priority, id)` order, none of them ranks above an order still waiting, and no
  order has entered or left the queue unaccounted for.
* Pushes all happen before the first removal (`Phase`), so a push has nothing to come before.
* `removed` is in the order of the critical sections. The couriers' log lines come after those, and
  may be in another order.

Results:
* `dispatch_step`: every step keeps it.
* **`dispatch_in_order`**: with unique ids the removals of the whole run are strictly increasing, no
  order is started or cancelled ahead of a waiting one of a higher class, and a run that empties the
  queue removes the sorted order list.

Out of scope: two orders of one id; the parser makes none (`Cse344.HW5.Parser`).
-/

namespace Cse344.HW5

open Cse344.Lib

variable {n : ℕ} {orders : List Order}

/-- The orders main has still to push. -/
def MainPc.toEnqueue : MainPc → List Order
  | .enqueuing rest => rest
  | _ => []

/-- What has gone through the queue so far. -/
structure Dispatch (orders : List Order) (s : Shift n) : Prop where
  heaped : s.pq.Heaped
  accounts : (orders : Multiset Order) = s.main.toEnqueue + s.pq.contents + s.removed
  sorted : s.removed.Pairwise fun a b => a.key ≤ b.key
  ahead : ∀ r ∈ s.removed, ∀ w ∈ s.pq.contents, r.key ≤ w.key

/-- A step that leaves the queue alone. -/
theorem Dispatch.of_quiet {s s' : Shift n} (h : Dispatch orders s)
    (hm : s'.main.toEnqueue = s.main.toEnqueue) (hheap : s'.pq.Heaped ↔ s.pq.Heaped)
    (hpq : s'.pq.contents = s.pq.contents) (hrem : s'.removed = s.removed) :
    Dispatch orders s' where
  heaped := hheap.mpr h.heaped
  accounts := by rw [hm, hpq, hrem, h.accounts]
  sorted := by rw [hrem]; exact h.sorted
  ahead := by rw [hrem, hpq]; exact h.ahead

/-- A step that removes the orders `out`, in rank order and each ranking at or below what is left.
-/
theorem Dispatch.of_removal {s s' : Shift n} (h : Dispatch orders s) (out : List Order)
    (hm : s'.main.toEnqueue = s.main.toEnqueue) (hheap : s'.pq.Heaped)
    (hpq : s.pq.contents = out + s'.pq.contents) (hrem : s'.removed = s.removed ++ out)
    (hout : out.Pairwise fun a b => a.key ≤ b.key)
    (hleft : ∀ r ∈ out, ∀ w ∈ s'.pq.contents, r.key ≤ w.key) : Dispatch orders s' where
  heaped := hheap
  accounts := by
    rw [hm, hrem, h.accounts, hpq, ← Multiset.coe_add]
    abel
  sorted := by
    rw [hrem]
    refine List.pairwise_append.mpr ⟨h.sorted, hout, fun a ha b hb => h.ahead a ha b ?_⟩
    rw [hpq]
    exact Multiset.mem_add.mpr (Or.inl hb)
  ahead := by
    intro r hr w hw
    rw [hrem] at hr
    rcases List.mem_append.mp hr with hr | hr
    · refine h.ahead r hr w ?_
      rw [hpq]
      exact Multiset.mem_add.mpr (Or.inr hw)
    · exact hleft r hr w hw

theorem dispatch_courierMove {s s' : Shift n} {i : Fin n} (h : Dispatch orders s)
    (hm : CourierMove s i s') : Dispatch orders s' := by
  cases hm with
  | pop o pq hpc hpop =>
    obtain ⟨hcont, -, -, hheap⟩ := pqPop_ok hpop
    obtain ⟨hheap', hleft⟩ := hheap h.heaped
    refine h.of_removal [o] rfl hheap' ?_ rfl (List.pairwise_singleton _ _) ?_
    · rw [hcont, Multiset.coe_singleton, Multiset.singleton_add]
    · intro r hr w hw
      rw [List.mem_singleton.mp hr]
      exact hleft w hw
  | leave pq hpc hpop =>
    obtain ⟨rfl, -, -⟩ := pqPop_shutdown hpop
    exact h.of_quiet rfl Iff.rfl rfl rfl
  | deliver o => exact h.of_quiet rfl Iff.rfl rfl rfl
  | time o => exact h.of_quiet rfl Iff.rfl rfl rfl
  | record o => exact h.of_quiet rfl Iff.rfl rfl rfl

/-- Going on, main has the same orders to push. -/
theorem Goes.toEnqueue_eq {s : Shift n} {pc : MainPc} (hg : Goes s pc) :
    pc.toEnqueue = s.main.toEnqueue := by
  cases hg with
  | _ => simp only [*, MainPc.toEnqueue]

theorem dispatch_mainMove {s s' : Shift n} (hp : Phase s) (h : Dispatch orders s)
    (hm : MainMove s s') : Dispatch orders s' := by
  cases hm with
  | go pc hg => exact h.of_quiet hg.toEnqueue_eq Iff.rfl rfl rfl
  | loop => exact h
  | push o rest hm =>
    -- nothing has been removed yet
    obtain ⟨hroom, -, hrem⟩ := hp.of_enqueuing hm
    obtain ⟨-, hcont, -, -, -, hheap⟩ := pqPush_spec hroom o
    refine ⟨hheap h.heaped, ?_, h.sorted, ?_⟩
    · have := h.accounts
      rw [hm] at this
      simp only [MainPc.toEnqueue, hcont, ← Multiset.cons_coe, ← Multiset.singleton_add] at this ⊢
      rw [this]
      abel
    · dsimp only
      rw [hrem]
      simp
  | spawn k hk hm => exact h.of_quiet (by rw [hm]; rfl) Iff.rfl rfl rfl
  | giveUp k hm => exact h.of_quiet (by rw [hm]; rfl) Iff.rfl rfl rfl
  | drain hm =>
    obtain ⟨hcont, hsz, -, hsorted⟩ := pqDrain_spec s.pq
    have hempty := contents_eq_zero hsz
    refine h.of_removal _ (by rw [hm]; rfl) ?_ ?_ rfl (hsorted h.heaped) ?_
    · intro i _ hi
      dsimp only at hi
      omega
    · dsimp only
      rw [hempty, add_zero, hcont]
    · dsimp only
      rw [hempty]
      simp
  | cancel o pending hm => exact h.of_quiet (by rw [hm]; rfl) Iff.rfl rfl rfl
  | shutDown hm => exact h.of_quiet (by rw [hm]; rfl) Iff.rfl rfl rfl
  | sigint => exact h.of_quiet rfl Iff.rfl rfl rfl

theorem dispatch_step {k : ℕ} {s s' : Shift n} {a : Act n} (hp : Phase s) (h : Dispatch orders s)
    (hs : step k s a = some s') : Dispatch orders s' := by
  rcases move_of_step hs with hm | ⟨i, hm⟩
  · exact dispatch_mainMove hp h hm
  · exact dispatch_courierMove h hm

theorem dispatch_init : Dispatch orders (shift n orders).init := by
  refine ⟨fun i _ hi => ?_, ?_, List.Pairwise.nil, by simp [shift]⟩
  · simp [shift, initialQueue_eq] at hi
  · simp [shift, MainPc.toEnqueue, contents_initialQueue]

theorem dispatch_reachable {s : Shift n} (h : (shift n orders).Reachable s) :
    Dispatch orders s :=
  h.induct_reachable dispatch_init fun _ _ _ hr hd hs => dispatch_step (phase_reachable hr) hd hs

/-! ## Unique ids -/

/-- Some courier has started `o`, or main has cancelled it. -/
def Shift.Dispatched (s : Shift n) (o : Order) : Prop :=
  (∃ i, o ∈ (s.couriers i).share) ∨ o ∈ s.cancelled

/-- The drained orders main has still to cancel. -/
def MainPc.pending : MainPc → List Order
  | .cancelling pending => pending
  | _ => []

/-- What was removed is in a courier's hands, delivered, cancelled or about to be. -/
theorem removed_eq {s : Shift n} (hl : Ledger orders s) (hd : Dispatch orders s) :
    (s.removed : Multiset Order) = s.main.pending + s.cancelled + ∑ i, (s.couriers i).share := by
  have hmain : (s.main.holds : Multiset Order) = s.main.toEnqueue + s.main.pending := by
    cases s.main <;> simp [MainPc.holds, MainPc.toEnqueue, MainPc.pending]
  apply add_left_cancel (a := s.main.toEnqueue + s.pq.contents)
  calc _ = (orders : Multiset Order) := hd.accounts.symm
    _ = s.main.holds + s.pq.contents + s.cancelled + ∑ i, (s.couriers i).share := hl.accounts
    _ = _ := by rw [hmain]; abel

theorem mem_removed_of_dispatched {s : Shift n} (hl : Ledger orders s) (hd : Dispatch orders s)
    {o : Order} (h : s.Dispatched o) : o ∈ s.removed := by
  rw [← Multiset.mem_coe, removed_eq hl hd]
  simp only [Multiset.mem_add, Multiset.mem_sum, Multiset.mem_coe, Finset.mem_univ, true_and]
  rcases h with hi | hc
  · exact Or.inr hi
  · exact Or.inl (Or.inr hc)

/-- Orders with unique ids have unique keys. -/
theorem nodup_keys {l : List Order} (hid : (l.map Order.id).Nodup) : (l.map Order.key).Nodup := by
  have : l.map Order.id = (l.map Order.key).map fun k => (ofLex k).2 := by simp [Order.key]
  exact List.Nodup.of_map _ (this ▸ hid)

theorem strict_of_nodup {l : List Order} (hs : l.Pairwise fun a b => a.key ≤ b.key)
    (hn : (l.map Order.key).Nodup) : l.Pairwise fun a b => a.key < b.key :=
  (hs.and (List.pairwise_map.mp hn)).imp fun h => lt_of_le_of_ne h.1 h.2

/-- The order list sorted by `(priority, id)`. -/
def sortedOrders (orders : List Order) : List Order :=
  orders.mergeSort fun a b => decide (a.key ≤ b.key)

theorem sortedOrders_pairwise (orders : List Order) :
    (sortedOrders orders).Pairwise fun a b => a.key ≤ b.key := by
  have h : (sortedOrders orders).Pairwise fun a b => decide (a.key ≤ b.key) = true :=
    List.pairwise_mergeSort
    (fun a b c hab hbc => by simpa using (of_decide_eq_true hab).trans (of_decide_eq_true hbc))
    (fun a b => by simpa using le_total a.key b.key) orders
  simpa using h

/-- A list sorted by unique keys is the sorted list. -/
theorem eq_sortedOrders {l : List Order} (hp : l.Perm orders)
    (hs : l.Pairwise fun a b => a.key < b.key) : l = sortedOrders orders := by
  have hperm : l.Perm (sortedOrders orders) := hp.trans (List.mergeSort_perm _ _).symm
  have hnodup : ((sortedOrders orders).map Order.key).Nodup :=
    (hperm.map _).nodup (List.pairwise_map.mpr (hs.imp fun h => h.ne))
  exact hperm.eq_of_pairwise (fun a b _ _ hab hba => absurd hba (lt_asymm hab)) hs
    (strict_of_nodup (sortedOrders_pairwise orders) hnodup)

/-! ## The dispatch order -/

/-- What the removals of a run look like. -/
structure DispatchedInOrder (orders : List Order) (s : Shift n) : Prop where
  increasing : s.removed.Pairwise fun a b => a.key < b.key
  /-- Everything started or cancelled ranks below everything that waits, -/
  no_overtaking : ∀ o w, s.Dispatched o → w ∈ s.pq.contents → o.key < w.key
  /-- and is of its class or a higher one. -/
  classes : ∀ o w, s.Dispatched o → w ∈ s.pq.contents → o.priority.toInt ≤ w.priority.toInt
  /-- Once all orders are pushed and the queue is empty, the removals are the sorted list. -/
  emptied : s.main.toEnqueue = [] → s.pq.size = 0 → s.removed = sortedOrders orders

/-- **Orders leave in `(priority, id)` order**: for every order list with unique ids, every number
of couriers and every interleaving. -/
theorem dispatch_in_order (hid : (orders.map Order.id).Nodup) {s : Shift n}
    (h : (shift n orders).Reachable s) : DispatchedInOrder orders s := by
  have hl := ledger_reachable h
  have hd := dispatch_reachable h
  have hkeys := nodup_keys hid
  have hsub : (s.pq.contents + s.removed : Multiset Order) ≤ orders := by
    rw [hd.accounts, add_assoc]
    exact Multiset.le_add_left _ _
  have hnodup : ((s.pq.contents + s.removed).map Order.key).Nodup := by
    refine Multiset.nodup_of_le (Multiset.map_le_map hsub) ?_
    simpa using hkeys
  rw [Multiset.map_add, Multiset.nodup_add] at hnodup
  obtain ⟨-, hrem, hdisj⟩ := hnodup
  have hlt : ∀ o w, s.Dispatched o → w ∈ s.pq.contents → o.key < w.key := by
    intro o w ho hw
    have hor := mem_removed_of_dispatched hl hd ho
    refine lt_of_le_of_ne (hd.ahead o hor w hw) fun heq => ?_
    exact Multiset.disjoint_left.mp hdisj (Multiset.mem_map_of_mem _ hw)
      (heq ▸ Multiset.mem_map_of_mem _ (Multiset.mem_coe.mpr hor))
  have hinc : s.removed.Pairwise fun a b => a.key < b.key :=
    strict_of_nodup hd.sorted (by simpa using hrem)
  refine ⟨hinc, hlt, fun o w ho hw => ?_, fun hm hz => ?_⟩
  · rcases Prod.Lex.toLex_lt_toLex.mp (hlt o w ho hw) with hp | ⟨hp, -⟩
    · exact hp.le
    · exact hp.le
  · refine eq_sortedOrders ?_ hinc
    have := hd.accounts
    rw [hm, contents_eq_zero hz] at this
    exact Multiset.coe_eq_coe.mp (by simpa using this.symm)

theorem dispatch_in_order_cancelRun :
    ∃ s, (shift 1 twoOrders).runs (shift 1 twoOrders).init (cancelRun 0) = some s ∧
      s.removed = twoOrders.reverse ∧ DispatchedInOrder twoOrders s := by
  have hrun : ((shift 1 twoOrders).runs (shift 1 twoOrders).init (cancelRun 0)).map Shift.removed =
      some twoOrders.reverse := by decide +kernel
  obtain ⟨s, hs, he⟩ := Option.map_eq_some_iff.mp hrun
  exact ⟨s, hs, he, dispatch_in_order (by decide) (Machine.runs_reachable hs)⟩

end Cse344.HW5
