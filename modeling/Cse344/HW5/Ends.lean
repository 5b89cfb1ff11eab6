import Cse344.HW5.Conservation

/-!
# A shift ends

`main` polls in `wait_for_shift_end` (`HW5/main.c` 53-59) until the couriers have delivered
everything or the signal has come, and then joins the couriers, each of which waits in
`pq_pop_blocking` (`HW5/src/priority_queue.c` 127-163) until there is an order or the queue is shut
down. Nothing here is bounded by a timeout, so that the shift ends rests on who wakes whom.

* `advances` singles out the steps of main and of the couriers that are not a poll.
* `Shift.work` is what is left to do. No signal and no failing call raises it.
* `Staffed` says what main's position implies about the couriers that exist: while main polls, an
  order is waiting or in a courier's hands, and while it joins, the queue is shut down.

Results:
* `work_step`: a step that advances lowers the work.
* **`exists_advance`**: before the end some step that advances can happen.
* **`shift_ends`**: every run takes a bounded number of steps that advance, and before the end one
  can always be taken. Only a scheduler that lets main poll for ever and no courier move can keep a
  shift from ending.
* **`undisturbed_delivers`**: where no signal came and no `pthread_create` failed, every such
  continuation ends in `SHIFT_END` with every order delivered and none cancelled.

Out of scope: how long a delivery takes, and a shift without couriers.
-/

namespace Cse344.HW5

open Cse344.Lib

variable {n : ℕ} {orders : List Order}

/-! ## What is left to do -/

/-- Main stays in the loop of `wait_for_shift_end`. -/
def Shift.polls (s : Shift n) (nOrders : ℕ) : Bool :=
  decide (s.main = .waitLoop) && !s.shutdownRequested &&
    decide (toInt32 s.gs.completedOrders < toInt32 nOrders)

/-- A step of main or of a courier that is not a poll. -/
def advances (nOrders : ℕ) (s : Shift n) : Act n → Bool
  | .main => !s.polls nOrders
  | .courier _ => true
  | _ => false

/-- The steps main has yet to take, at most, with six for each order it has to push. -/
def MainPc.work (n : ℕ) : MainPc → ℕ
  | .enqueuing rest => 6 * rest.length + 3 * n + 12
  | .spawning i => 2 * (n - i) + n + 11
  | .abandoning _ j => (n - j) + 2
  | .abandoned _ => 0
  | .waitLoop => n + 10
  | .handleShutdown => n + 9
  | .allocating => n + 8
  | .draining => n + 7
  | .cancelling pending => pending.length + n + 6
  | .shuttingDown => n + 5
  | .joining j => (n - j) + 4
  | .shiftEnd => 0

/-- The steps a courier has yet to take with the order it holds, and the one with which it
leaves. -/
def CourierPc.work : CourierPc → ℕ
  | .delivering _ => 4
  | .counted _ => 3
  | .timed _ => 2
  | .waiting => 1
  | .unborn => 1
  | .over => 0

/-- An upper bound on the steps to come: an order that waits in the queue takes five. -/
def Shift.work (s : Shift n) : ℕ :=
  s.main.work n + 5 * s.pq.size + ∑ i, (s.couriers i).pc.work

/-- A courier's move lowers the work when it lowers that of the queue and the courier. -/
theorem work_lt_of_courier {s s' : Shift n} {i : Fin n} {c : Courier} (hm : s'.main = s.main)
    (hc : s'.couriers = Function.update s.couriers i c)
    (hw : 5 * s'.pq.size + c.pc.work < 5 * s.pq.size + (s.couriers i).pc.work) :
    s'.work < s.work := by
  have hsum := sum_update_add (fun c : Courier => c.pc.work) s.couriers i c
  unfold Shift.work
  rw [hm, hc]
  omega

theorem work_courierMove {s s' : Shift n} {i : Fin n} (hm : CourierMove s i s') :
    s'.work < s.work := by
  cases hm with
  | pop o pq hpc hpop =>
    refine work_lt_of_courier rfl rfl ?_
    have hsize := (pqPop_ok hpop).2.1
    rw [hpc]
    simp only [CourierPc.work]
    omega
  | leave pq hpc hpop =>
    refine work_lt_of_courier rfl rfl ?_
    obtain ⟨rfl, -⟩ := pqPop_shutdown hpop
    rw [hpc]
    simp only [CourierPc.work]
    omega
  | deliver o hpc =>
    refine work_lt_of_courier rfl rfl ?_
    rw [hpc]
    simp only [Shift.setCourier, CourierPc.work]
    omega
  | time o hpc =>
    refine work_lt_of_courier rfl rfl ?_
    rw [hpc]
    simp only [Shift.setCourier, CourierPc.work]
    omega
  | record o hpc =>
    refine work_lt_of_courier rfl rfl ?_
    rw [hpc]
    simp only [Shift.setCourier, CourierPc.work]
    omega

theorem work_goes {s : Shift n} {pc : MainPc} (hg : Goes s pc) : pc.work n < s.main.work n := by
  cases hg with
  | joinCreated k j hm hover =>
    obtain ⟨hj, -⟩ := isOver_iff.mp hover
    rw [hm]
    simp only [MainPc.work]
    omega
  | join j hm hover =>
    obtain ⟨hj, -⟩ := isOver_iff.mp hover
    rw [hm]
    simp only [MainPc.work]
    omega
  | _ =>
    simp only [*, MainPc.work, List.length_nil]
    omega

theorem pqPush_size_le (pq : PriorityQueue) (o : Order) :
    (pqPush pq o).2.size ≤ pq.size + 1 := by
  rcases lt_or_ge pq.size pq.capacity with hlt | hge
  · exact (pqPush_spec hlt o).2.2.1.le
  · unfold pqPush
    rw [if_pos hge]
    exact Nat.le_succ _

theorem pqDrain_length (pq : PriorityQueue) : (pqDrain pq).1.length = pq.size := by
  rw [← card_contents, ← (pqDrain_spec pq).1, Multiset.coe_card]

/-- A move of main leaves it where it is, with the work as it was, or lowers the work. -/
theorem work_mainMove {s s' : Shift n} (hm : MainMove s s') :
    (s'.main = s.main ∧ s'.work = s.work) ∨ s'.work < s.work := by
  cases hm with
  | loop => exact .inl ⟨rfl, rfl⟩
  | sigint => exact .inl ⟨rfl, rfl⟩
  | go pc hg =>
    refine .inr ?_
    have := work_goes hg
    unfold Shift.work
    dsimp only
    omega
  | push o rest hm =>
    refine .inr ?_
    have hsize := pqPush_size_le s.pq o
    unfold Shift.work
    rw [hm]
    simp only [MainPc.work, List.length_cons]
    omega
  | spawn k hk hm =>
    refine .inr ?_
    have hsum := sum_update_add (fun c : Courier => c.pc.work) s.couriers ⟨k, hk⟩ { pc := .waiting }
    have hw : CourierPc.waiting.work = 1 := rfl
    unfold Shift.work
    rw [hm]
    simp only [MainPc.work, setCourier_couriers, setCourier_pq]
    dsimp only at hsum
    omega
  | giveUp k hm =>
    refine .inr ?_
    have hsize : (pqShutdown s.pq).size = s.pq.size := rfl
    unfold Shift.work
    rw [hm]
    simp only [MainPc.work, hsize]
    omega
  | drain hm =>
    refine .inr ?_
    have hlen := pqDrain_length s.pq
    obtain ⟨-, hsize, -⟩ := pqDrain_spec s.pq
    unfold Shift.work
    rw [hm]
    simp only [MainPc.work, hlen, hsize]
    omega
  | cancel o pending hm =>
    refine .inr ?_
    unfold Shift.work
    rw [hm]
    simp only [MainPc.work, List.length_cons]
    omega
  | shutDown hm =>
    refine .inr ?_
    have hsize : (pqShutdown s.pq).size = s.pq.size := rfl
    unfold Shift.work
    rw [hm]
    simp only [MainPc.work, hsize]
    omega

/-! ## Who can move -/

/-- The couriers before `k` have been created. -/
def BornUpto (s : Shift n) (k : ℕ) : Prop := ∀ i : Fin n, i < k → (s.couriers i).pc ≠ .unborn

/-- What main's position implies for the couriers it has created, and what it has cancelled. -/
def Staffed (s : Shift n) : Prop :=
  match s.main with
  | .enqueuing _ => s.cancelled = []
  | .spawning k => k ≤ n ∧ BornUpto s k ∧ s.cancelled = []
  | .abandoning k _ => k ≤ n ∧ BornUpto s k ∧ s.pq.shutdown = true
  | .waitLoop => BornUpto s n ∧ s.cancelled = []
  | .joining _ => BornUpto s n ∧ s.pq.shutdown = true
  | .abandoned _ => True
  | .shiftEnd => True
  | _ => BornUpto s n

theorem BornUpto.of_courier {s s' : Shift n} {i : Fin n} {k : ℕ} (h : BornUpto s k)
    (hm : CourierMove s i s') : BornUpto s' k := by
  intro j hj
  by_cases hji : j = i
  · subst hji
    cases hm <;> simp [Shift.setCourier]
  · rw [hm.frame.2.2.2 j hji]
    exact h j hj

/-- A courier's move cancels nothing, and shuts nothing down. -/
theorem CourierMove.keeps {s s' : Shift n} {i : Fin n} (hm : CourierMove s i s') :
    s'.cancelled = s.cancelled ∧ s'.pq.shutdown = s.pq.shutdown := by
  cases hm with
  | pop o pq hpc hpop => exact ⟨rfl, (pqPop_ok hpop).2.2.1⟩
  | leave pq hpc hpop =>
    obtain ⟨rfl, -⟩ := pqPop_shutdown hpop
    exact ⟨rfl, rfl⟩
  | deliver o hpc => exact ⟨rfl, rfl⟩
  | time o hpc => exact ⟨rfl, rfl⟩
  | record o hpc => exact ⟨rfl, rfl⟩

theorem staffed_courierMove {s s' : Shift n} {i : Fin n} (h : Staffed s)
    (hm : CourierMove s i s') : Staffed s' := by
  obtain ⟨hmain, -⟩ := hm.frame
  obtain ⟨hcan, hsd⟩ := hm.keeps
  unfold Staffed at h ⊢
  rw [hmain, hcan, hsd]
  split at h
  · exact h
  · exact ⟨h.1, h.2.1.of_courier hm, h.2.2⟩
  · exact ⟨h.1, h.2.1.of_courier hm, h.2.2⟩
  · exact ⟨h.1.of_courier hm, h.2⟩
  · exact ⟨h.1.of_courier hm, h.2⟩
  · trivial
  · trivial
  · exact h.of_courier hm

/-- Main goes on to `wait_for_shift_end` when there is no courier left to create. -/
theorem spawned_all {k i : ℕ} {s s' : Shift n} {a : Act n} (h : step k s a = some s')
    (hm : s.main = .spawning i) (hm' : s'.main = .waitLoop) : n ≤ i := by
  cases a with
  | main =>
    simp only [step, mainStep, hm] at h
    by_contra hlt
    rw [dif_pos (not_le.mp hlt)] at h
    obtain rfl := Option.some.inj h
    cases hm'
  | callocFails =>
    simp only [step, hm] at h
    cases h
  | createFails =>
    simp only [step, hm] at h
    split_ifs at h
    obtain rfl := Option.some.inj h
    cases hm'
  | sigint =>
    obtain rfl := Option.some.inj h
    rw [show s.main = .waitLoop from hm'] at hm
    cases hm
  | courier j =>
    rw [(courierMove_of_step h).frame.1, hm] at hm'
    cases hm'

theorem staffed_goes {s : Shift n} {pc : MainPc} (h : Staffed s)
    (hall : ∀ i, s.main = .spawning i → pc = .waitLoop → n ≤ i) (hg : Goes s pc) :
    Staffed { s with main := pc } := by
  unfold Staffed at h
  cases hg with
  | enqueued hm =>
    rw [hm] at h
    exact ⟨Nat.zero_le n, fun i hi => absurd hi (Nat.not_lt_zero _), h⟩
  | spawned i hm =>
    rw [hm] at h
    exact ⟨fun j _ => h.2.1 j (j.isLt.trans_le (hall i hm rfl)), h.2.2⟩
  | wake hm =>
    rw [hm] at h
    exact h.1
  | abandon => trivial
  | joined => trivial
  | _ =>
    simp only [*] at h
    exact h

theorem staffed_mainMove {s s' : Shift n} (h : Staffed s)
    (hall : ∀ i, s.main = .spawning i → s'.main = .waitLoop → n ≤ i) (hm : MainMove s s') :
    Staffed s' := by
  cases hm with
  | go pc hg => exact staffed_goes h hall hg
  | loop => exact h
  | sigint => exact h
  | push o rest hm =>
    unfold Staffed at h
    rw [hm] at h
    exact h
  | spawn k hk hm =>
    unfold Staffed at h
    rw [hm] at h
    refine ⟨hk, fun i hi => ?_, h.2.2⟩
    dsimp only [Shift.setCourier]
    rcases Nat.lt_succ_iff_lt_or_eq.mp hi with hlt | heq
    · rw [Function.update_of_ne (fun he => by simp [he] at hlt)]
      exact h.2.1 i hlt
    · obtain rfl : i = ⟨k, hk⟩ := Fin.ext heq
      simp
  | giveUp k hm =>
    unfold Staffed at h
    rw [hm] at h
    exact ⟨h.1, h.2.1, rfl⟩
  | drain hm =>
    unfold Staffed at h
    rw [hm] at h
    exact h
  | cancel o pending hm =>
    unfold Staffed at h
    rw [hm] at h
    exact h
  | shutDown hm =>
    unfold Staffed at h
    rw [hm] at h
    exact ⟨h, rfl⟩

theorem staffed_reachable {s : Shift n} (h : (shift n orders).Reachable s) : Staffed s := by
  refine h.induct rfl fun s a s' hst hs => ?_
  rcases move_of_step hs with hm | ⟨i, hm⟩
  · exact staffed_mainMove hst (fun i => spawned_all hs) hm
  · exact staffed_courierMove hst hm

/-! ## Before the end something can always happen -/

/-- Main has returned, or has joined all couriers. -/
def Shift.Ended (s : Shift n) : Prop := s.main = .shiftEnd ∨ ∃ k, s.main = .abandoned k

/-- A courier that exists and has not left can move, unless it waits for an order. -/
theorem courier_can_move {s : Shift n} {i : Fin n} (hborn : (s.couriers i).pc ≠ .unborn)
    (hover : (s.couriers i).pc ≠ .over)
    (hwait : (s.couriers i).pc = .waiting → 0 < s.pq.size ∨ s.pq.shutdown = true) :
    ∃ s', courierStep s i = some s' := by
  cases hpc : (s.couriers i).pc with
  | unborn => exact absurd hpc hborn
  | «over» => exact absurd hpc hover
  | delivering o =>
    simp only [courierStep, hpc]
    exact ⟨_, rfl⟩
  | counted o =>
    simp only [courierStep, hpc]
    exact ⟨_, rfl⟩
  | timed o =>
    simp only [courierStep, hpc]
    exact ⟨_, rfl⟩
  | waiting =>
    simp only [courierStep, hpc, pqPopBlocking]
    by_cases h0 : s.pq.size = 0
    · have hsd : s.pq.shutdown = true := (hwait hpc).resolve_left (by omega)
      rw [if_pos h0, if_pos hsd]
      exact ⟨_, rfl⟩
    · rw [if_neg h0]
      exact ⟨_, rfl⟩

/-- The courier main is joining can move, if it has not left: the queue is shut down. -/
theorem joined_can_move {s : Shift n} {j : ℕ} (hj : j < n) (hborn : BornUpto s (j + 1))
    (hsd : s.pq.shutdown = true) :
    s.isOver j = true ∨ ∃ i s', courierStep s i = some s' := by
  by_cases hover : (s.couriers ⟨j, hj⟩).pc = .over
  · exact .inl (isOver_iff.mpr ⟨hj, hover⟩)
  · exact .inr ⟨⟨j, hj⟩, courier_can_move (hborn ⟨j, hj⟩ (Nat.lt_succ_self j)) hover
      fun _ => .inr hsd⟩

/-- While main polls, an order waits in the queue or is in a courier's hands. -/
theorem undelivered_of_polls {s : Shift n} (hl : Ledger orders s) (hst : Staffed s)
    (hp : s.polls orders.length = true) :
    0 < s.pq.size ∨ ∃ i, (s.couriers i).pc.holds ≠ [] := by
  simp only [Shift.polls, Bool.and_eq_true, decide_eq_true_eq] at hp
  obtain ⟨⟨hm, -⟩, hlt⟩ := hp
  unfold Staffed at hst
  rw [hm] at hst
  have hacc := congrArg Multiset.card hl.accounts
  rw [hm, hst.2] at hacc
  simp only [MainPc.holds, Multiset.coe_nil, zero_add, add_zero, Multiset.card_add, card_contents,
    Multiset.card_sum, Courier.share, Multiset.coe_card, Finset.sum_add_distrib,
    ← hl.completed] at hacc
  -- whatever an `int` keeps of the two numbers, they are different
  have hne : s.gs.completedOrders ≠ orders.length := fun heq => by
    rw [heq] at hlt
    exact lt_irrefl _ hlt
  by_contra hno
  obtain ⟨h0, hnone⟩ := not_or.mp hno
  have hholds : ∑ i, (s.couriers i).pc.holds.length = 0 := Finset.sum_eq_zero fun i _ => by
    rw [List.length_eq_zero_iff]
    by_contra hi
    exact hnone ⟨i, hi⟩
  omega

/-- Something can happen that is not a poll, a signal or a failing call. -/
def CanAdvance (nOrders : ℕ) (s : Shift n) : Prop :=
  ∃ a s', advances nOrders s a = true ∧ step nOrders s a = some s'

theorem canAdvance_of_courier {k : ℕ} {s : Shift n} (h : ∃ i s', courierStep s i = some s') :
    CanAdvance k s := by
  obtain ⟨i, s', hs⟩ := h
  exact ⟨.courier i, s', rfl, hs⟩

/-- Main can step, unless it has ended or joins a courier that has not left. -/
theorem main_blocked {k : ℕ} {s : Shift n} (h : mainStep k s = none) :
    s.Ended ∨ (∃ m j, s.main = .abandoning m j ∧ j < m ∧ s.isOver j ≠ true) ∨
      ∃ j, s.main = .joining j ∧ j < n ∧ s.isOver j ≠ true := by
  cases hm : s.main with
  | abandoning m j =>
    simp only [mainStep, hm] at h
    split_ifs at h with hj hover
    exact .inr (.inl ⟨m, j, rfl, hj, hover⟩)
  | abandoned m => exact .inl (.inr ⟨m, hm⟩)
  | joining j =>
    simp only [mainStep, hm] at h
    split_ifs at h with hj hover
    exact .inr (.inr ⟨j, rfl, hj, hover⟩)
  | shiftEnd => exact .inl (.inl hm)
  | enqueuing rest => cases rest <;> simp [mainStep, hm] at h
  | cancelling pending => cases pending <;> simp [mainStep, hm] at h
  | spawning i =>
    simp only [mainStep, hm] at h
    split_ifs at h
  | waitLoop =>
    simp only [mainStep, hm] at h
    split_ifs at h
  | handleShutdown =>
    simp only [mainStep, hm] at h
    split_ifs at h
  | _ => simp [mainStep, hm] at h

theorem polls_of_ne {k : ℕ} {s : Shift n} (h : s.main ≠ .waitLoop) : s.polls k = false := by
  simp [Shift.polls, h]

/-- While main polls, a courier can move: one that holds an order, or the first one when an order
waits. -/
theorem polls_canAdvance (hn : 1 ≤ n) {s : Shift n} (hl : Ledger orders s) (he : EmptyIfOver s)
    (hst : Staffed s) (hp : s.polls orders.length = true) : CanAdvance orders.length s := by
  have hm : s.main = .waitLoop := by
    by_contra hm
    rw [polls_of_ne hm] at hp
    cases hp
  have hborn : BornUpto s n := by
    unfold Staffed at hst
    rw [hm] at hst
    exact hst.1
  apply canAdvance_of_courier
  rcases undelivered_of_polls hl hst hp with hpos | ⟨i, hi⟩
  · refine ⟨⟨0, hn⟩, courier_can_move (hborn _ hn) (fun hover => ?_) fun _ => .inl hpos⟩
    have := (he _ hover).1
    omega
  · have hpc : ∃ o, (s.couriers i).pc = .delivering o := by
      cases hpc : (s.couriers i).pc with
      | delivering o => exact ⟨o, rfl⟩
      | _ =>
        rw [hpc] at hi
        exact absurd rfl hi
    obtain ⟨o, hpc⟩ := hpc
    exact ⟨i, courier_can_move (hborn i i.isLt) (by simp [hpc]) (by simp [hpc])⟩

/-- **No deadlock**: before the end some thread can take a step that is not a poll. -/
theorem exists_advance (hn : 1 ≤ n) {s : Shift n} (h : (shift n orders).Reachable s)
    (hend : ¬ s.Ended) : CanAdvance orders.length s := by
  have hst := staffed_reachable h
  cases hp : s.polls orders.length with
  | true => exact polls_canAdvance hn (ledger_reachable h) (emptyIfOver_reachable h) hst hp
  | false =>
    cases hmain : mainStep orders.length s with
    | some s' => exact ⟨.main, s', by rw [advances, hp]; rfl, hmain⟩
    | none =>
      unfold Staffed at hst
      rcases main_blocked hmain with hended | ⟨m, j, hm, hj, hover⟩ | ⟨j, hm, hj, hover⟩
      · exact absurd hended hend
      · rw [hm] at hst
        have hborn : BornUpto s (j + 1) := fun i hi => hst.2.1 i (by omega)
        exact canAdvance_of_courier
          ((joined_can_move (hj.trans_le hst.1) hborn hst.2.2).resolve_left hover)
      · rw [hm] at hst
        have hborn : BornUpto s (j + 1) := fun i _ => hst.1 i i.isLt
        exact canAdvance_of_courier ((joined_can_move hj hborn hst.2).resolve_left hover)

/-! ## The end -/

/-- A step of main that leaves it where it is is a poll. -/
theorem polls_of_stays {k : ℕ} {s s' : Shift n} (h : mainStep k s = some s')
    (hs : s'.main = s.main) : s.polls k = true := by
  cases hm : s.main with
  | waitLoop =>
    simp only [mainStep, hm] at h
    split_ifs at h with hloop
    · simpa [Shift.polls, hm] using hloop
    · obtain rfl := Option.some.inj h
      cases hs.trans hm
  | abandoned => simp [mainStep, hm] at h
  | shiftEnd => simp [mainStep, hm] at h
  | enqueuing rest =>
    rw [hm] at hs
    cases rest <;> simp only [mainStep, hm, Option.some.injEq] at h <;> subst h <;> simp at hs
  | cancelling rest =>
    rw [hm] at hs
    cases rest <;> simp only [mainStep, hm, Option.some.injEq] at h <;> subst h <;> simp at hs
  | allocating | draining | shuttingDown =>
    rw [hm] at hs
    simp only [mainStep, hm, Option.some.injEq] at h
    subst h
    cases hs
  | spawning | abandoning | handleShutdown | joining =>
    rw [hm] at hs
    simp only [mainStep, hm] at h
    split_ifs at h <;> obtain rfl := Option.some.inj h <;> simp at hs

/-- No step raises the work, and one that advances lowers it. -/
theorem work_step {k : ℕ} {s s' : Shift n} {a : Act n} (h : step k s a = some s') :
    (if advances k s a then 1 else 0) + s'.work ≤ s.work := by
  have hmoves : s'.work ≤ s.work := by
    rcases move_of_step h with hm | ⟨i, hm⟩
    · rcases work_mainMove hm with ⟨-, heq⟩ | hlt
      · exact heq.le
      · exact hlt.le
    · exact (work_courierMove hm).le
  have hadv : advances k s a = true → s'.work < s.work := by
    intro ha
    cases a with
    | main =>
      rcases work_mainMove (mainMove_of_mainStep h) with ⟨hstays, -⟩ | hlt
      · rw [advances, polls_of_stays h hstays] at ha
        cases ha
      · exact hlt
    | courier i => exact work_courierMove (courierMove_of_step h)
    | callocFails => cases ha
    | createFails => cases ha
    | sigint => cases ha
  split_ifs with ha
  · have := hadv ha
    omega
  · omega

/-- The work of a whole shift. -/
theorem work_init : (shift n orders).init.work = 6 * orders.length + 4 * n + 12 := by
  simp only [shift, Shift.work, MainPc.work, CourierPc.work, initialQueue_eq, Finset.sum_const,
    Finset.card_univ, Fintype.card_fin, smul_eq_mul]
  omega

/-- **A shift ends**: with a courier at least, every interleaving of main, the couriers, signals and
failing calls takes a bounded number of steps that advance, and one can be taken in every state that
is reached before the end. -/
theorem shift_ends (hn : 1 ≤ n) :
    (∀ as s, (shift n orders).runs (shift n orders).init as = some s →
      (shift n orders).count (advances orders.length) (shift n orders).init as ≤
        6 * orders.length + 4 * n + 12) ∧
    ∀ s, (shift n orders).Reachable s → ¬ s.Ended → CanAdvance orders.length s := by
  constructor
  · intro as s hrun
    have := Machine.count_add_le_of_lowers (J := fun _ => True) Shift.work
      (fun _ _ _ _ _ => trivial) (fun _ _ _ _ hs => work_step hs) hrun trivial
    rw [work_init] at this
    exact Nat.le_of_add_right_le this
  · exact fun s h hend => exists_advance hn h hend

theorem shift_ends_oneCourier :
    (∀ as s, (shift 1 twoOrders).runs (shift 1 twoOrders).init as = some s →
      (shift 1 twoOrders).count (advances 2) (shift 1 twoOrders).init as ≤ 28) ∧
    CanAdvance 2 (shift 1 twoOrders).init := by
  have h := @shift_ends 1 twoOrders le_rfl
  exact ⟨h.1, h.2 _ Machine.Reachable.init (by rintro (hm | ⟨k, hm⟩) <;> cases hm)⟩

/-! ## A shift nobody disturbs -/

/-- Neither the signal nor a failing `pthread_create`. -/
def undisturbed (_ : Shift n) (a : Act n) : Prop := a ≠ .sigint ∧ a ≠ .createFails

theorem undisturbed_of_advances {k : ℕ} {s : Shift n} {a : Act n} (h : advances k s a = true) :
    undisturbed s a := by
  constructor <;> rintro rfl <;> cases h

/-- Where main gets without a signal or a failing `pthread_create`. -/
def MainPc.isUndisturbed : MainPc → Bool
  | .abandoning _ _ => false
  | .abandoned _ => false
  | .allocating => false
  | .draining => false
  | .cancelling _ => false
  | _ => true

/-- Main is on its way to `SHIFT_END`, with nothing cancelled. -/
structure OnItsWay (s : Shift n) : Prop where
  unflagged : s.shutdownRequested = false
  uncancelled : s.cancelled = []
  main : s.main.isUndisturbed = true

theorem onItsWay_mainStep {k : ℕ} {s s' : Shift n} (h : OnItsWay s)
    (hs : mainStep k s = some s') : OnItsWay s' := by
  obtain ⟨hflag, hcan, hpc⟩ := h
  cases hm : s.main with
  | enqueuing rest =>
    cases rest <;> simp only [mainStep, hm, Option.some.injEq] at hs <;> subst hs <;>
      exact ⟨hflag, hcan, rfl⟩
  | spawning i =>
    simp only [mainStep, hm] at hs
    split_ifs at hs <;> obtain rfl := Option.some.inj hs <;> exact ⟨hflag, hcan, rfl⟩
  | waitLoop =>
    simp only [mainStep, hm] at hs
    split_ifs at hs <;> obtain rfl := Option.some.inj hs
    · exact ⟨hflag, hcan, hpc⟩
    · exact ⟨hflag, hcan, rfl⟩
  | handleShutdown =>
    simp only [mainStep, hm, hflag] at hs
    obtain rfl := Option.some.inj hs
    exact ⟨rfl, hcan, rfl⟩
  | shuttingDown =>
    simp only [mainStep, hm, Option.some.injEq] at hs
    subst hs
    exact ⟨hflag, hcan, rfl⟩
  | joining j =>
    simp only [mainStep, hm] at hs
    split_ifs at hs <;> obtain rfl := Option.some.inj hs <;> exact ⟨hflag, hcan, rfl⟩
  | shiftEnd => simp [mainStep, hm] at hs
  | abandoning | abandoned | allocating | draining | cancelling =>
    rw [hm] at hpc
    cases hpc

theorem onItsWay_step {k : ℕ} {s s' : Shift n} {a : Act n} (h : OnItsWay s) (ha : undisturbed s a)
    (hs : step k s a = some s') : OnItsWay s' := by
  cases a with
  | main => exact onItsWay_mainStep h hs
  | courier i =>
    have hm := courierMove_of_step hs
    have hflag : s'.shutdownRequested = s.shutdownRequested := by cases hm <;> rfl
    exact ⟨hflag.trans h.unflagged, hm.keeps.1.trans h.uncancelled, by
      rw [hm.frame.1]
      exact h.main⟩
  | callocFails =>
    -- `calloc` is called only after a signal
    simp only [step] at hs
    split at hs
    · rename_i hm
      have := h.main
      rw [hm] at this
      cases this
    · cases hs
  | createFails => exact absurd rfl ha.2
  | sigint => exact absurd rfl ha.1

theorem onItsWay_reachable {s : Shift n} (h : (shift n orders).ReachableIf undisturbed s) :
    OnItsWay s :=
  h.induct ⟨rfl, rfl, rfl⟩ fun _ _ _ hi ha hs => onItsWay_step hi ha hs

/-- The end of a shift in which every order was delivered. -/
structure AllDelivered (orders : List Order) (s : Shift n) : Prop where
  ended : s.main = .shiftEnd
  delivered : (orders : Multiset Order) = ∑ i, ((s.couriers i).delivered : Multiset Order)
  count : s.gs.completedOrders = orders.length
  cancelled : s.cancelled = []

/-- A shift nobody disturbed that is over delivered every order. -/
theorem allDelivered_of_ended (hn : 1 ≤ n) {s : Shift n}
    (h : (shift n orders).ReachableIf undisturbed s) (hend : s.Ended) : AllDelivered orders s := by
  obtain ⟨-, hcan, hpc⟩ := onItsWay_reachable h
  have hmain : s.main = .shiftEnd := by
    rcases hend with hm | ⟨k, hm⟩
    · exact hm
    · rw [hm] at hpc
      cases hpc
  have hl := ledger_reachable h.reachable
  obtain ⟨hholds, hsize, hidle⟩ := joined_idle hn (phase_reachable h.reachable)
    (emptyIfOver_reachable h.reachable) (Or.inl hmain)
  have hnone : ∀ i, (s.couriers i).pc.holds = [] := by
    intro i
    rcases hidle i with hover | hfresh
    · rw [hover]
      rfl
    · rw [hfresh]
      rfl
  have hdel : (orders : Multiset Order) =
      ∑ i, ((s.couriers i).delivered : Multiset Order) := by
    have := hl.accounts
    simpa [hholds, contents_eq_zero hsize, hcan, Courier.share, hnone] using this
  refine ⟨hmain, hdel, ?_, hcan⟩
  have hcard := congrArg Multiset.card hdel
  rw [Multiset.card_sum] at hcard
  simp only [Multiset.coe_card] at hcard
  rw [hl.completed, hcard]

/-- An undisturbed step that advances. -/
def proceeds (nOrders : ℕ) (s : Shift n) (a : Act n) : Prop :=
  undisturbed s a ∧ advances nOrders s a = true

/-- **An undisturbed shift delivers every order**: as long as no signal comes and no
`pthread_create` fails, the threads can go on to `SHIFT_END` from wherever they are, and wherever
they get there, every order was delivered by a courier and none cancelled. -/
theorem undisturbed_delivers (hn : 1 ≤ n) {s : Shift n}
    (h : (shift n orders).ReachableIf undisturbed s) :
    (∃ t, Relation.ReflTransGen ((shift n orders).StepIf (proceeds orders.length)) s t ∧
      AllDelivered orders t) ∧ (s.Ended → AllDelivered orders s) := by
  refine ⟨?_, allDelivered_of_ended hn h⟩
  refine Machine.exists_done (I := (shift n orders).ReachableIf undisturbed) Shift.work ?_ h
  intro s hr
  by_cases hend : s.Ended
  · exact .inl (allDelivered_of_ended hn hr hend)
  · obtain ⟨a, s', ha, hs⟩ := exists_advance hn hr.reachable hend
    have hun : undisturbed s a := undisturbed_of_advances ha
    have hwork := work_step hs
    rw [if_pos ha] at hwork
    exact .inr ⟨a, s', ⟨hun, ha⟩, hs, hr.tail ⟨a, hun, hs⟩, by omega⟩

theorem undisturbed_delivers_oneCourier :
    ∃ t, Relation.ReflTransGen ((shift 1 twoOrders).StepIf (proceeds 2))
      (shift 1 twoOrders).init t ∧ AllDelivered twoOrders t :=
  (undisturbed_delivers le_rfl Relation.ReflTransGen.refl).1

end Cse344.HW5
