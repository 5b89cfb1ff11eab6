import Cse344.HW5.Shift

/-!
# The phases of a shift

What the place of `main` (`HW5/main.c` 110-189) says about the couriers of `Cse344.HW5.Shift`, in
every reachable state.

* `Phase`: no courier exists while the orders are being enqueued, and the queue has room for all of
  them; those past the counter of `spawn_couriers` do not exist yet; and those joined are over.
* `EmptyIfOver`: a courier leaves its loop only at `PQ_POP_SHUTDOWN`, so one that is over left an
  empty queue that was shut down. It stays so, as only main pushes, and before there are couriers.

Results:
* `phase_step`, `emptyIfOver_step`: every step keeps them, by cases on the moves.
* **`phase_reachable`**, `emptyIfOver_reachable`: they hold in every reachable state.

Out of scope: the orders themselves, which `Cse344.HW5.Conservation` counts.
-/

namespace Cse344.HW5

open Cse344.Lib

variable {n : ℕ} {orders : List Order}

/-- The couriers from `k` on have not been created. -/
def UnbornFrom (s : Shift n) (k : ℕ) : Prop := ∀ i : Fin n, k ≤ i → s.couriers i = {}

/-- The couriers before `j` are over. -/
def OverUpto (s : Shift n) (j : ℕ) : Prop := ∀ i : Fin n, i < j → (s.couriers i).pc = .over

/-- What main's position implies. -/
def Phase (s : Shift n) : Prop :=
  match s.main with
  | .enqueuing rest =>
    s.pq.size + rest.length ≤ s.pq.capacity ∧ UnbornFrom s 0 ∧ s.removed = []
  | .spawning k => UnbornFrom s k
  | .abandoning k j => UnbornFrom s k ∧ OverUpto s j
  | .abandoned k => UnbornFrom s k ∧ OverUpto s k
  | .joining j => OverUpto s j
  | .shiftEnd => OverUpto s n
  | _ => True

/-- While main has an order to push, the queue has room for it. -/
theorem Phase.of_enqueuing {s : Shift n} {o : Order} {rest : List Order} (h : Phase s)
    (hm : s.main = .enqueuing (o :: rest)) :
    s.pq.size < s.pq.capacity ∧ UnbornFrom s 0 ∧ s.removed = [] := by
  unfold Phase at h
  rw [hm] at h
  obtain ⟨hcap, hub, hrem⟩ := h
  rw [List.length_cons] at hcap
  exact ⟨by omega, hub, hrem⟩

theorem Phase.of_spawning {s : Shift n} {k : ℕ} (h : Phase s) (hm : s.main = .spawning k) :
    UnbornFrom s k := by
  unfold Phase at h
  rwa [hm] at h

/-- A courier is over only after it found the queue empty and shut down. -/
def EmptyIfOver (s : Shift n) : Prop :=
  ∀ i, (s.couriers i).pc = .over → s.pq.size = 0 ∧ s.pq.shutdown = true

theorem isOver_iff {s : Shift n} {j : ℕ} : s.isOver j = true ↔
    ∃ h : j < n, (s.couriers ⟨j, h⟩).pc = .over := by
  unfold Shift.isOver
  split_ifs with h
  · simp [h]
  · simp [h]

theorem OverUpto.succ {s : Shift n} {j : ℕ} (h : OverUpto s j) (hj : s.isOver j = true) :
    OverUpto s (j + 1) := by
  intro i hi
  obtain ⟨hjn, hover⟩ := isOver_iff.mp hj
  rcases Nat.lt_succ_iff_lt_or_eq.mp hi with hlt | heq
  · exact h i hlt
  · obtain rfl : i = ⟨j, hjn⟩ := Fin.ext heq
    exact hover

/-- A courier's move keeps the others unborn: one that moves has been created. -/
theorem UnbornFrom.of_courier {s s' : Shift n} {i : Fin n} {k : ℕ} (h : UnbornFrom s k)
    (hm : CourierMove s i s') : UnbornFrom s' k := by
  obtain ⟨-, hub, -, hframe⟩ := hm.frame
  intro j hj
  have hji : j ≠ i := by
    rintro rfl
    exact hub (by rw [h j hj])
  rw [hframe j hji, h j hj]

theorem OverUpto.of_courier {s s' : Shift n} {i : Fin n} {k : ℕ} (h : OverUpto s k)
    (hm : CourierMove s i s') : OverUpto s' k := by
  obtain ⟨-, -, hov, hframe⟩ := hm.frame
  intro j hj
  have hji : j ≠ i := by
    rintro rfl
    exact hov (h j hj)
  rw [hframe j hji, h j hj]

theorem phase_courierMove {s s' : Shift n} {i : Fin n} (h : Phase s) (hm : CourierMove s i s') :
    Phase s' := by
  obtain ⟨hmain, hub, -⟩ := hm.frame
  unfold Phase at h ⊢
  rw [hmain]
  split at h
  · -- no courier exists while main enqueues
    exact absurd (by rw [h.2.1 i (Nat.zero_le _)]) hub
  · exact h.of_courier hm
  · exact ⟨h.1.of_courier hm, h.2.of_courier hm⟩
  · exact ⟨h.1.of_courier hm, h.2.of_courier hm⟩
  · exact h.of_courier hm
  · exact h.of_courier hm
  · trivial

theorem phase_goes {s : Shift n} {pc : MainPc} (h : Phase s) (hg : Goes s pc) :
    Phase { s with main := pc } := by
  unfold Phase at h
  cases hg with
  | enqueued hm =>
    rw [hm] at h
    exact h.2.1
  | joinCreated k j hm hover =>
    rw [hm] at h
    exact ⟨h.1, h.2.succ hover⟩
  | abandon k j hm hj =>
    rw [hm] at h
    exact ⟨h.1, fun i hi => h.2 i (hi.trans_le hj)⟩
  | join j hm hover =>
    rw [hm] at h
    exact OverUpto.succ h hover
  | joined j hm hj =>
    rw [hm] at h
    exact fun i hi => h i (hi.trans_le hj)
  | _ => trivial

theorem phase_mainMove {s s' : Shift n} (h : Phase s) (hm : MainMove s s') : Phase s' := by
  cases hm with
  | go pc hg => exact phase_goes h hg
  | loop => exact h
  | push o rest hm =>
    unfold Phase at h
    rw [hm] at h
    obtain ⟨hcap, hub, hrem⟩ := h
    rw [List.length_cons] at hcap
    obtain ⟨-, -, hsz, hcp, -⟩ := pqPush_spec (show s.pq.size < s.pq.capacity by omega) o
    exact ⟨by rw [hsz, hcp]; omega, hub, hrem⟩
  | spawn k hk hm =>
    intro i hi
    have hne : i ≠ ⟨k, hk⟩ := by
      rintro rfl
      exact absurd hi (by simp)
    exact (Function.update_of_ne hne _ _).trans (h.of_spawning hm i (by omega))
  | giveUp k hm => exact ⟨h.of_spawning hm, fun i hi => absurd hi (Nat.not_lt_zero _)⟩
  | drain => trivial
  | cancel => trivial
  | shutDown => exact fun i hi => absurd hi (Nat.not_lt_zero _)
  | sigint => exact h

theorem phase_step {k : ℕ} {s s' : Shift n} {a : Act n} (h : Phase s)
    (hs : step k s a = some s') : Phase s' := by
  rcases move_of_step hs with hm | ⟨i, hm⟩
  · exact phase_mainMove h hm
  · exact phase_courierMove h hm

/-- A courier that was over before another one's move is still over. -/
theorem EmptyIfOver.of_courier {s s' : Shift n} {i : Fin n} {c : Courier} (h : EmptyIfOver s)
    (hc : s'.couriers = Function.update s.couriers i c) (hpc : c.pc ≠ .over)
    (hpq : s'.pq = s.pq) : EmptyIfOver s' := by
  intro j hj
  rw [hc] at hj
  rw [hpq]
  by_cases hji : j = i
  · rw [hji, Function.update_self] at hj
    exact absurd hj hpc
  · rw [Function.update_of_ne hji] at hj
    exact h j hj

theorem emptyIfOver_courierMove {s s' : Shift n} {i : Fin n} (h : EmptyIfOver s)
    (hm : CourierMove s i s') : EmptyIfOver s' := by
  cases hm with
  | pop o pq hpc hpop =>
    -- an order was there, so nobody was over
    intro j hj
    have hne : s.pq.size ≠ 0 := by
      have := (pqPop_ok hpop).2.1
      omega
    by_cases hji : j = i
    · subst hji
      simp [Shift.setCourier] at hj
    · simp only [Shift.setCourier, Function.update_of_ne hji] at hj
      exact absurd (h j hj).1 hne
  | leave pq hpc hpop =>
    intro j _
    obtain ⟨rfl, h0, hsd⟩ := pqPop_shutdown hpop
    exact ⟨h0, hsd⟩
  | deliver o => exact h.of_courier rfl CourierPc.noConfusion rfl
  | time o => exact h.of_courier rfl CourierPc.noConfusion rfl
  | record o => exact h.of_courier rfl CourierPc.noConfusion rfl

theorem emptyIfOver_mainMove {s s' : Shift n} (hp : Phase s) (h : EmptyIfOver s)
    (hm : MainMove s s') : EmptyIfOver s' := by
  cases hm with
  | push o rest hm =>
    intro i hi
    have : s.couriers i = {} := (hp.of_enqueuing hm).2.1 i (Nat.zero_le _)
    simp [this] at hi
  | spawn k hk hm => exact h.of_courier rfl CourierPc.noConfusion rfl
  | drain hm =>
    intro i hi
    obtain ⟨-, hsz, hsd, -⟩ := pqDrain_spec s.pq
    exact ⟨hsz, hsd.trans (h i hi).2⟩
  | giveUp k hm => exact fun i hi => ⟨(h i hi).1, rfl⟩
  | shutDown hm => exact fun i hi => ⟨(h i hi).1, rfl⟩
  | _ => exact h

theorem emptyIfOver_step {k : ℕ} {s s' : Shift n} {a : Act n} (hp : Phase s) (h : EmptyIfOver s)
    (hs : step k s a = some s') : EmptyIfOver s' := by
  rcases move_of_step hs with hm | ⟨i, hm⟩
  · exact emptyIfOver_mainMove hp h hm
  · exact emptyIfOver_courierMove h hm

theorem phase_init : Phase (shift n orders).init := by
  refine ⟨?_, fun i _ => rfl, rfl⟩
  show (initialQueue orders.length).size + orders.length ≤ (initialQueue orders.length).capacity
  rw [initialQueue_eq]
  dsimp only
  split_ifs <;> omega

/-- **Every reachable state is in phase.** -/
theorem phase_reachable {s : Shift n} (h : (shift n orders).Reachable s) : Phase s :=
  h.induct phase_init fun _ _ _ => phase_step

theorem emptyIfOver_reachable {s : Shift n} (h : (shift n orders).Reachable s) : EmptyIfOver s :=
  h.induct_reachable (fun i hi => absurd hi (by simp [shift]))
    fun _ _ _ hr he hs => emptyIfOver_step (phase_reachable hr) he hs

end Cse344.HW5
