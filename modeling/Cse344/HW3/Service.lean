import Cse344.HW3.Elevator
import Mathlib.Algebra.Order.Group.Abs
import Mathlib.Tactic.Ring

/-!
# An elevator serves every floor

Model of `has_request_in_direction` and of the section of `mutex` in the loop of `run_elevator`
(`HW3/src/processes/elevator.c` 5-64) over the integers of the source: the floor, the direction and
the load are `int`s, and nothing but the code keeps them in range.

* Between two iterations the carriers change the load as they like and add requests
  (`Interference`). `request_sem` says when an iteration happens; `Cse344.HW3.Elevator` has it.
* The direction may be changed at three places, and two of them look at the load.
* What makes the elevator arrive is a distance, `TElevator.eta`: an elevator on its way to the floor
  never turns round, and one on its way from it turns round at the end of the shaft at the latest.

Results:
* `body_moved`: what one iteration does.
* **`serves_every_floor`**: the floor stays in range and the direction is one of the two, an
  iteration moves the elevator by at most one floor, and a request is cleared within
  `2 * num_floors` iterations of the body.
* `toTElevator_move`: the elevators of `Cse344.HW3.Elevator` move by this body.

Out of scope: whether the carriers at that floor have polled by then.
-/

namespace Cse344.HW3

open Cse344.Lib

/-- `ELEV_UP`. -/
def elevUp : ℤ := 1

/-- `ELEV_DOWN`. -/
def elevDown : ℤ := -1

/-- `t_elevator` with its array of requests, of which the cells `0, …, nf - 1` are in use. -/
structure TElevator where
  currentFloor : ℤ
  direction : ℤ
  currentLoad : ℤ
  requests : ℤ → ℤ

namespace TElevator

/-- The loops of `has_request_in_direction`: `n` cells, from `i` on in steps of `by`. -/
def scan (requests : ℤ → ℤ) (stride : ℤ) : ℕ → ℤ → Bool
  | 0, _ => false
  | n + 1, i => if 0 < requests i then true else scan requests stride n (i + stride)

def hasRequestInDirection (requests : ℤ → ℤ) (nf : ℕ) (cur dir : ℤ) : Bool :=
  if dir = elevUp then scan requests 1 (nf - (cur + 1)).toNat (cur + 1)
  else scan requests (-1) cur.toNat (cur - 1)

/-- The direction after the loop that looks for a request, from floor `i` on with `n` to go. -/
def aim (requests : ℤ → ℤ) (cur dir : ℤ) : ℕ → ℤ → ℤ
  | 0, _ => dir
  | n + 1, i =>
    if 0 < requests i then (if cur < i then elevUp else elevDown)
    else aim requests cur dir n (i + 1)

/-- The direction an idle elevator without a request ahead adopts. -/
def redirect (nf : ℕ) (e : TElevator) : ℤ :=
  if e.currentLoad = 0 ∧
      hasRequestInDirection e.requests nf e.currentFloor e.direction = false then
    aim e.requests e.currentFloor e.direction nf 0
  else e.direction

/-- The two tests of `floor`, with the direction. -/
def bounce (nf : ℕ) (floor dir : ℤ) : ℤ × ℤ :=
  let p := if (nf : ℤ) ≤ floor then ((nf : ℤ) - 1, elevDown) else (floor, dir)
  if p.1 < 0 then (0, elevUp) else p

/-- The requests after the elevator has got to `floor`. -/
def arrive (requests : ℤ → ℤ) (floor : ℤ) : ℤ → ℤ :=
  if 0 < requests floor then Function.update requests floor 0 else requests

/-- The section of `mutex` in the loop of `run_elevator`. -/
def body (nf : ℕ) (e : TElevator) : TElevator :=
  let dir := redirect nf e
  let p := bounce nf (e.currentFloor + dir) dir
  let requests := arrive e.requests p.1
  let turn := hasRequestInDirection requests nf p.1 p.2 = false ∧ e.currentLoad = 0
  { e with
    currentFloor := p.1
    direction := if turn then -p.2 else p.2
    requests := requests }

/-- What the carriers may do while the elevator is not in its section. -/
structure Interference (e e' : TElevator) : Prop where
  currentFloor : e'.currentFloor = e.currentFloor
  direction : e'.direction = e.direction
  load : 0 ≤ e'.currentLoad
  requests : ∀ i, e.requests i ≤ e'.requests i

/-- The states in which iteration after iteration finds the elevator. -/
def Iterations (nf : ℕ) (e : ℕ → TElevator) : Prop :=
  ∀ k, Interference (body nf (e k)) (e (k + 1))

structure InRange (nf : ℕ) (e : TElevator) : Prop where
  floor_nonneg : 0 ≤ e.currentFloor
  floor_lt : e.currentFloor < nf
  direction : e.direction = elevUp ∨ e.direction = elevDown

/-! ## The loops -/

theorem scan_iff {requests : ℤ → ℤ} {stride : ℤ} : ∀ {n : ℕ} {i : ℤ},
    scan requests stride n i = true ↔ ∃ m < n, 0 < requests (i + m * stride)
  | 0, i => by simp [scan]
  | n + 1, i => by
    rw [scan]
    split_ifs with h
    · exact iff_of_true rfl ⟨0, n.succ_pos, by simpa using h⟩
    · rw [scan_iff]
      have hshift : ∀ m : ℕ, i + ((m + 1 : ℕ) : ℤ) * stride = i + stride + m * stride :=
        fun m => by rw [Nat.cast_succ]; ring
      constructor
      · rintro ⟨m, hm, hpos⟩
        refine ⟨m + 1, by omega, ?_⟩
        rwa [hshift]
      · rintro ⟨m, hm, hpos⟩
        cases m with
        | zero => exact absurd (by simpa using hpos) h
        | succ m =>
          refine ⟨m, by omega, ?_⟩
          rwa [hshift] at hpos

theorem hasRequest_up {requests : ℤ → ℤ} {nf : ℕ} {cur : ℤ} :
    hasRequestInDirection requests nf cur elevUp = true ↔
      ∃ i, cur < i ∧ i < nf ∧ 0 < requests i := by
  rw [hasRequestInDirection, if_pos rfl, scan_iff]
  constructor
  · rintro ⟨m, hm, hpos⟩
    exact ⟨_, by omega, by omega, hpos⟩
  · rintro ⟨i, hlt, hnf, hpos⟩
    refine ⟨(i - (cur + 1)).toNat, by omega, ?_⟩
    have : cur + 1 + ((i - (cur + 1)).toNat : ℤ) * 1 = i := by omega
    rwa [this]

theorem hasRequest_down {requests : ℤ → ℤ} {nf : ℕ} {cur : ℤ} :
    hasRequestInDirection requests nf cur elevDown = true ↔
      ∃ i, 0 ≤ i ∧ i < cur ∧ 0 < requests i := by
  rw [hasRequestInDirection, if_neg (by decide), scan_iff]
  constructor
  · rintro ⟨m, hm, hpos⟩
    exact ⟨_, by omega, by omega, hpos⟩
  · rintro ⟨i, hnn, hlt, hpos⟩
    refine ⟨(cur - 1 - i).toNat, by omega, ?_⟩
    have : cur - 1 + ((cur - 1 - i).toNat : ℤ) * -1 = i := by omega
    rwa [this]

theorem aim_cases (requests : ℤ → ℤ) (cur dir : ℤ) : ∀ (n : ℕ) (i : ℤ),
    aim requests cur dir n i = dir ∨ aim requests cur dir n i = elevUp ∨
      aim requests cur dir n i = elevDown
  | 0, _ => Or.inl rfl
  | n + 1, i => by
    rw [aim]
    split_ifs
    · exact Or.inr (Or.inl rfl)
    · exact Or.inr (Or.inr rfl)
    · exact aim_cases requests cur dir n (i + 1)

variable {nf : ℕ} {e e' : TElevator}

theorem redirect_mem (h : e.direction = elevUp ∨ e.direction = elevDown) :
    redirect nf e = elevUp ∨ redirect nf e = elevDown := by
  unfold redirect
  split_ifs
  · rcases aim_cases e.requests e.currentFloor e.direction nf 0 with heq | hup | hdown
    · rwa [heq]
    · exact Or.inl hup
    · exact Or.inr hdown
  · exact h

/-- An elevator with a request ahead keeps its direction. -/
theorem redirect_of_ahead
    (h : hasRequestInDirection e.requests nf e.currentFloor e.direction = true) :
    redirect nf e = e.direction :=
  if_neg fun hidle => by rw [h] at hidle; exact Bool.noConfusion hidle.2

theorem arrive_self {requests : ℤ → ℤ} {floor : ℤ} (h : 0 < requests floor) :
    arrive requests floor floor = 0 := by
  rw [arrive, if_pos h, Function.update_self]

theorem arrive_of_ne (requests : ℤ → ℤ) {floor i : ℤ} (h : i ≠ floor) :
    arrive requests floor i = requests i := by
  unfold arrive
  split_ifs
  · exact Function.update_of_ne h ..
  · rfl

theorem bounce_eq (h : 1 ≤ nf) (floor dir : ℤ) : bounce nf floor dir =
    if (nf : ℤ) ≤ floor then ((nf : ℤ) - 1, elevDown)
    else if floor < 0 then (0, elevUp) else (floor, dir) := by
  unfold bounce
  by_cases hend : (nf : ℤ) ≤ floor
  · simp only [hend, if_true]
    exact if_neg (by omega)
  · simp only [hend, if_false]

/-- The next floor is in range; at an end of the shaft the elevator stays and turns round. -/
theorem bounce_spec {cur r : ℤ} (h0 : 0 ≤ cur) (hnf : cur < nf) (hr : r = elevUp ∨ r = elevDown) :
    (0 ≤ (bounce nf (cur + r) r).1 ∧ (bounce nf (cur + r) r).1 < nf) ∧
      (bounce nf (cur + r) r = (cur + r, r) ∨
        bounce nf (cur + r) r = (cur, -r) ∧ (cur + r = nf ∨ cur + r = -1)) := by
  rw [bounce_eq (by omega)]
  unfold elevUp elevDown at *
  split_ifs with hend hnn
  · obtain rfl : r = 1 := by omega
    obtain rfl : cur = nf - 1 := by omega
    exact ⟨⟨h0, hnf⟩, Or.inr ⟨rfl, Or.inl (sub_add_cancel _ _)⟩⟩
  · obtain rfl : r = -1 := by omega
    obtain rfl : cur = 0 := by omega
    exact ⟨⟨h0, hnf⟩, Or.inr ⟨rfl, Or.inr rfl⟩⟩
  · exact ⟨⟨not_lt.mp hnn, not_le.mp hend⟩, Or.inl rfl⟩

/-! ## One iteration -/

/-- What an iteration does that starts in direction `r`: the elevator goes on by one floor, or
turns round at an end of the shaft, `dir` being its direction there. It clears the floor, and keeps
each of the two directions where a request lies ahead. -/
structure Moved (nf : ℕ) (e e' : TElevator) (r dir : ℤ) : Prop where
  start : r = elevUp ∨ r = elevDown
  keeps : hasRequestInDirection e.requests nf e.currentFloor e.direction = true → r = e.direction
  inRange : 0 ≤ e'.currentFloor ∧ e'.currentFloor < nf
  floor : e'.currentFloor = e.currentFloor + r ∧ dir = r ∨
    e'.currentFloor = e.currentFloor ∧ dir = -r ∧
      (e.currentFloor + r = nf ∨ e.currentFloor + r = -1)
  requests : e'.requests = arrive e.requests e'.currentFloor
  direction : e'.direction = dir ∨ e'.direction = -dir ∧
    hasRequestInDirection e'.requests nf e'.currentFloor dir = false

/-- **What the body does.** -/
theorem body_moved (h : InRange nf e) : ∃ r dir, Moved nf e (body nf e) r dir := by
  obtain ⟨h0, hnf, hdir⟩ := h
  have hr : redirect nf e = elevUp ∨ redirect nf e = elevDown := redirect_mem hdir
  obtain ⟨hin, hmove⟩ := bounce_spec h0 hnf hr
  refine ⟨redirect nf e, (bounce nf (e.currentFloor + redirect nf e) (redirect nf e)).2, hr,
    redirect_of_ahead, hin, ?_, rfl, ?_⟩
  · rcases hmove with heq | ⟨heq, hend⟩
    · exact Or.inl (Prod.mk.inj heq)
    · exact Or.inr ⟨congrArg Prod.fst heq, congrArg Prod.snd heq, hend⟩
  · show (if _ then _ else _) = _ ∨ (if _ then _ else _) = _ ∧ _
    split_ifs with hturn
    · exact Or.inr ⟨rfl, hturn.1⟩
    · exact Or.inl rfl

theorem Moved.inRange_of {r dir : ℤ} (m : Moved nf e e' r dir) : InRange nf e' := by
  refine ⟨m.inRange.1, m.inRange.2, ?_⟩
  have hs := m.start
  unfold elevUp elevDown at *
  rcases m.floor with ⟨-, hd⟩ | ⟨-, hd, -⟩ <;> rcases m.direction with h | ⟨h, -⟩ <;> omega

theorem Moved.dist_le {r dir : ℤ} (m : Moved nf e e' r dir) :
    |e'.currentFloor - e.currentFloor| ≤ 1 := by
  have hs := m.start
  unfold elevUp elevDown at hs
  rw [abs_le]
  rcases m.floor with ⟨hf, -⟩ | ⟨hf, -⟩ <;> omega

/-- A request elsewhere is still there. -/
theorem Moved.requests_of_ne {r dir d : ℤ} (m : Moved nf e e' r dir) (hd : d ≠ e'.currentFloor) :
    e'.requests d = e.requests d := by
  rw [m.requests]
  exact arrive_of_ne e.requests hd

/-! ## The distance to a floor -/

/-- A bound on the iterations until the elevator gets to floor `d`: straight on where it is on its
way, by the end of the shaft otherwise. -/
def eta (nf : ℕ) (d : ℤ) (e : TElevator) : ℕ :=
  if e.currentFloor = d then 2 * nf - 1
  else if e.direction = elevUp then
    if e.currentFloor < d then (d - e.currentFloor).toNat
    else (2 * nf - 1 - e.currentFloor - d).toNat
  else
    if d < e.currentFloor then (e.currentFloor - d).toNat
    else (e.currentFloor + 1 + d).toNat

theorem eta_lt {d : ℤ} (h : InRange nf e) (h0 : 0 ≤ d) (hd : d < nf) : eta nf d e < 2 * nf := by
  obtain ⟨hc0, hc, hdir⟩ := h
  unfold eta
  split_ifs <;> omega

/-- An iteration clears the floor, or brings the elevator nearer to it. -/
theorem Moved.nearer {r dir d : ℤ} (h : InRange nf e) (m : Moved nf e e' r dir) (h0 : 0 ≤ d)
    (hd : d < nf) (hpos : 0 < e.requests d) :
    e'.requests d = 0 ∨ e'.currentFloor ≠ d ∧ eta nf d e' < eta nf d e := by
  by_cases hat : e'.currentFloor = d
  · left
    rw [m.requests, hat]
    exact arrive_self hpos
  · right
    refine ⟨hat, ?_⟩
    have hpos' : 0 < e'.requests d := by
      rw [m.requests_of_ne (Ne.symm hat)]
      exact hpos
    -- where the floor lies ahead, the elevator keeps its direction
    have hkeepUp : e.direction = elevUp → e.currentFloor < d → r = elevUp := fun hup hlt => by
      rw [← hup]
      exact m.keeps (hup ▸ hasRequest_up.mpr ⟨d, hlt, hd, hpos⟩)
    have hkeepDown : e.direction = elevDown → d < e.currentFloor → r = elevDown :=
      fun hdown hlt => by
        rw [← hdown]
        exact m.keeps (hdown ▸ hasRequest_down.mpr ⟨d, h0, hlt, hpos⟩)
    have hturnUp : dir = elevUp → e'.currentFloor < d → e'.direction = elevUp := fun hup hlt => by
      rcases m.direction with heq | ⟨-, hnone⟩
      · exact heq.trans hup
      · rw [hup, hasRequest_up.mpr ⟨d, hlt, hd, hpos'⟩] at hnone
        cases hnone
    have hturnDown : dir = elevDown → d < e'.currentFloor → e'.direction = elevDown :=
      fun hdown hlt => by
        rcases m.direction with heq | ⟨-, hnone⟩
        · exact heq.trans hdown
        · rw [hdown, hasRequest_down.mpr ⟨d, h0, hlt, hpos'⟩] at hnone
          cases hnone
    have hdir := h.direction
    have hdir' := m.inRange_of.direction
    have hc := h.floor_nonneg
    have hc' := h.floor_lt
    have hin := m.inRange
    rw [eta, if_neg hat]
    rcases m.start with rfl | rfl
    · -- On the way up, a floor below is not ahead.
      have hbelow : e.direction = elevDown → e.currentFloor ≤ d := fun hdown =>
        not_lt.mp fun hlt => absurd (hkeepDown hdown hlt) (by decide)
      clear hkeepUp hkeepDown
      rcases m.floor with ⟨hf, rfl⟩ | ⟨hf, rfl, hend⟩
      · have hup := hturnUp rfl
        clear hturnUp hturnDown
        unfold eta
        unfold elevUp elevDown at *
        split_ifs <;> omega
      · have hdown := hturnDown rfl
        clear hturnUp hturnDown
        unfold eta
        unfold elevUp elevDown at *
        split_ifs <;> omega
    · -- On the way down, a floor above is not ahead.
      have habove : e.direction = elevUp → d ≤ e.currentFloor := fun hup =>
        not_lt.mp fun hlt => absurd (hkeepUp hup hlt) (by decide)
      clear hkeepUp hkeepDown
      rcases m.floor with ⟨hf, rfl⟩ | ⟨hf, rfl, hend⟩
      · have hdown := hturnDown rfl
        clear hturnUp hturnDown
        unfold eta
        unfold elevUp elevDown at *
        split_ifs <;> omega
      · have hup := hturnUp rfl
        clear hturnUp hturnDown
        unfold eta
        unfold elevUp elevDown at *
        split_ifs <;> omega

/-! ## The run -/

theorem Interference.inRange (hi : Interference e e') (h : InRange nf e) : InRange nf e' := by
  refine ⟨?_, ?_, ?_⟩
  · rw [hi.currentFloor]
    exact h.floor_nonneg
  · rw [hi.currentFloor]
    exact h.floor_lt
  · rw [hi.direction]
    exact h.direction

theorem Interference.eta_eq (hi : Interference e e') (d : ℤ) : eta nf d e' = eta nf d e := by
  simp only [eta, hi.currentFloor, hi.direction]

theorem inRange_iterations {e : ℕ → TElevator} (hrun : Iterations nf e) (h0 : InRange nf (e 0)) :
    ∀ k, InRange nf (e k)
  | 0 => h0
  | k + 1 => by
    obtain ⟨r, dir, hm⟩ := body_moved (inRange_iterations hrun h0 k)
    exact (hrun k).inRange hm.inRange_of

/-- **Every floor is served.** -/
theorem serves_every_floor {e : ℕ → TElevator} (hrun : Iterations nf e) (h0 : InRange nf (e 0)) :
    (∀ k, InRange nf (e k)) ∧
      (∀ k, |(e (k + 1)).currentFloor - (e k).currentFloor| ≤ 1) ∧
      ∀ (k : ℕ) (d : ℤ), 0 ≤ d → d < nf → 0 < (e k).requests d →
        ∃ j < 2 * nf, (body nf (e (k + j))).requests d = 0 := by
  have hin := inRange_iterations hrun h0
  refine ⟨hin, fun k => ?_, fun k d hd0 hd hpos => ?_⟩
  · obtain ⟨r, dir, hm⟩ := body_moved (hin k)
    rw [(hrun k).currentFloor]
    exact hm.dist_le
  · have hstep : ∀ k, InRange nf (e k) ∧ 0 < (e k).requests d →
        (body nf (e k)).requests d = 0 ∨
          (InRange nf (e (k + 1)) ∧ 0 < (e (k + 1)).requests d) ∧
            eta nf d (e (k + 1)) < eta nf d (e k) := by
      intro k hk
      obtain ⟨r, dir, hm⟩ := body_moved hk.1
      rcases hm.nearer hk.1 hd0 hd hk.2 with hdone | ⟨hfar, hlt⟩
      · exact Or.inl hdone
      · refine Or.inr ⟨⟨hin (k + 1), ?_⟩, ?_⟩
        · have hkept := hm.requests_of_ne (Ne.symm hfar)
          exact hk.2.trans_le (hkept.symm.trans_le ((hrun k).requests d))
        · rwa [(hrun k).eta_eq]
    obtain ⟨j, hj, hdone⟩ := Machine.exists_within (P := fun e => InRange nf e ∧ 0 < e.requests d)
      (eta nf d) hstep ⟨hin k, hpos⟩
    exact ⟨j, hj.trans_lt (eta_lt (hin k) hd0 hd), hdone⟩

/-- An elevator of three floors at the ground floor, a request at the top, and nobody else. -/
def topRequest : ℕ → TElevator
  | 0 =>
    { currentFloor := 0
      direction := elevUp
      currentLoad := 0
      requests := fun i => if i = 2 then 1 else 0 }
  | k + 1 => body 3 (topRequest k)

theorem topRequest_load : ∀ k, (topRequest k).currentLoad = 0
  | 0 => rfl
  | k + 1 => topRequest_load k

theorem serves_every_floor_topRequest :
    ∃ j < 6, (body 3 (topRequest (0 + j))).requests 2 = 0 := by
  have hrun : Iterations 3 topRequest := fun k =>
    ⟨rfl, rfl, (topRequest_load (k + 1)).ge, fun _ => le_refl _⟩
  have h0 : InRange 3 (topRequest 0) := ⟨le_refl _, by decide, Or.inl rfl⟩
  exact (serves_every_floor hrun h0).2.2 0 2 (by decide) (by decide) (by decide)

end TElevator

/-! ## The elevators of the system -/

open TElevator

def Direction.toInt : Direction → ℤ
  | .up => elevUp
  | .down => elevDown

section Elevators

variable {nf : ℕ}

/-- The cell of floor `i` in the array of requests. -/
def cells (requests : Fin nf → ℕ) (i : ℤ) : ℤ :=
  if h : 0 ≤ i ∧ i.toNat < nf then requests ⟨i.toNat, h.2⟩ else 0

def Elevator.toTElevator (x : Elevator nf) : TElevator where
  currentFloor := (x.currentFloor : ℕ)
  direction := x.direction.toInt
  currentLoad := x.currentLoad
  requests := cells x.requests

theorem cells_val (requests : Fin nf → ℕ) (i : Fin nf) :
    cells requests (i : ℕ) = requests i := by
  unfold cells
  rw [dif_pos ⟨Int.natCast_nonneg _, i.isLt⟩]
  rfl

theorem cells_update (requests : Fin nf → ℕ) (f : Fin nf) :
    cells (Function.update requests f 0) = Function.update (cells requests) (f : ℕ) 0 := by
  funext i
  by_cases hi : i = (f : ℕ)
  · rw [hi, cells_val, Function.update_self, Function.update_self]
    rfl
  · rw [Function.update_of_ne hi]
    unfold cells
    split_ifs with h
    · rw [Function.update_of_ne]
      rintro rfl
      exact hi (Int.toNat_of_nonneg h.1).symm
    · rfl

theorem exists_cell {requests : Fin nf → ℕ} {P : ℤ → Prop} :
    (∃ i, P i ∧ 0 < cells requests i) ↔ ∃ i : Fin nf, P (i : ℕ) ∧ 0 < requests i := by
  constructor
  · rintro ⟨i, hP, hpos⟩
    unfold cells at hpos
    split_ifs at hpos with h
    · refine ⟨⟨i.toNat, h.2⟩, ?_, by omega⟩
      rwa [Int.toNat_of_nonneg h.1]
    · omega
  · rintro ⟨i, hP, hpos⟩
    exact ⟨_, hP, by rw [cells_val]; omega⟩

theorem hasRequest_cells (requests : Fin nf → ℕ) (cur : Fin nf) (dir : Direction) :
    TElevator.hasRequestInDirection (cells requests) nf (cur : ℕ) dir.toInt =
      HW3.hasRequestInDirection requests cur dir := by
  rw [Bool.eq_iff_iff]
  cases dir with
  | up =>
    rw [Direction.toInt, hasRequest_up]
    simp only [← and_assoc]
    rw [exists_cell (P := fun i => ((cur : ℕ) : ℤ) < i ∧ i < nf)]
    simp [HW3.hasRequestInDirection]
  | down =>
    rw [Direction.toInt, hasRequest_down]
    simp only [← and_assoc]
    rw [exists_cell (P := fun i => 0 ≤ i ∧ i < ((cur : ℕ) : ℤ))]
    simp [HW3.hasRequestInDirection]

/-- The loop that looks for a request finds the first one. -/
theorem aim_cells (requests : Fin nf → ℕ) (cur : Fin nf) (dir : Direction) : ∀ {n k : ℕ},
    k + n = nf → aim (cells requests) (cur : ℕ) dir.toInt n (k : ℕ) =
      (match ((List.finRange nf).drop k).find? fun i => 0 < requests i with
        | some i => if cur < i then .up else .down
        | none => dir : Direction).toInt
  | 0, k, hk => by
    rw [aim, List.drop_eq_nil_of_le (by simpa using hk.ge)]
    rfl
  | n + 1, k, hk => by
    have hlt : k < (List.finRange nf).length := by simpa using (by omega : k < nf)
    have hcell : cells requests (k : ℕ) = requests ⟨k, by omega⟩ := cells_val requests ⟨k, by omega⟩
    rw [aim, List.drop_eq_getElem_cons hlt, List.getElem_finRange, List.find?_cons, hcell]
    by_cases hpos : 0 < requests ⟨k, by omega⟩
    · rw [if_pos (by omega), decide_eq_true (show 0 < requests (Fin.cast _ ⟨k, _⟩) from hpos)]
      dsimp only
      by_cases hlt : (cur : ℕ) < k
      · rw [if_pos (by omega), if_pos (show cur < Fin.cast _ ⟨k, _⟩ from hlt)]
        rfl
      · rw [if_neg (by omega), if_neg (show ¬ cur < Fin.cast _ ⟨k, _⟩ from hlt)]
        rfl
    · rw [if_neg (by omega), decide_eq_false (show ¬ 0 < requests (Fin.cast _ ⟨k, _⟩) from hpos)]
      have ih := aim_cells requests cur dir (n := n) (k := k + 1) (by omega)
      rwa [Nat.cast_succ] at ih

theorem redirect_cells (x : Elevator nf) :
    TElevator.redirect nf x.toTElevator = x.redirect.toInt := by
  unfold TElevator.redirect Elevator.redirect
  have haim := aim_cells x.requests x.currentFloor x.direction (Nat.zero_add nf)
  rw [List.drop_zero] at haim
  by_cases hidle : x.currentLoad = 0 ∧
      HW3.hasRequestInDirection x.requests x.currentFloor x.direction = false
  · rw [if_pos hidle, if_pos ⟨hidle.1, (hasRequest_cells ..).trans hidle.2⟩]
    refine Eq.trans haim ?_
    rfl
  · rw [if_neg hidle, if_neg fun h => hidle ⟨h.1, (hasRequest_cells ..).symm.trans h.2⟩]
    rfl

theorem bounce_cells (cur : Fin nf) (dir : Direction) :
    bounce nf ((cur : ℕ) + dir.toInt) dir.toInt =
      (((nextFloor cur dir).1.val : ℤ), (nextFloor cur dir).2.toInt) := by
  have hlt := cur.isLt
  rw [bounce_eq (by omega)]
  unfold nextFloor
  cases dir with
  | up =>
    rw [Direction.toInt, elevUp]
    by_cases hup : cur.val + 1 < nf
    · rw [if_neg (by omega), if_neg (by omega), dif_pos hup]
      rfl
    · rw [if_pos (by omega), dif_neg hup]
      exact Prod.ext (by show (nf : ℤ) - 1 = ((cur.val : ℕ) : ℤ); omega) rfl
  | down =>
    rw [Direction.toInt, elevDown, if_neg (by omega)]
    by_cases hdown : 0 < cur.val
    · rw [if_neg (by omega), if_pos hdown]
      exact Prod.ext (by show _ = ((cur.val - 1 : ℕ) : ℤ); omega) rfl
    · rw [if_pos (by omega), if_neg hdown]
      exact Prod.ext (by show 0 = ((cur.val : ℕ) : ℤ); omega) rfl

theorem arrive_cells (requests : Fin nf → ℕ) (f : Fin nf) :
    arrive (cells requests) (f : ℕ) =
      cells (if 0 < requests f then Function.update requests f 0 else requests) := by
  unfold arrive
  rw [cells_val]
  by_cases hpos : 0 < requests f
  · rw [if_pos hpos, if_pos (by omega), cells_update]
  · rw [if_neg hpos, if_neg (by omega)]

theorem toInt_neg (dir : Direction) : dir.neg.toInt = -dir.toInt := by
  cases dir <;> rfl

/-- **The elevators of the system move by the body of `run_elevator`.** -/
theorem toTElevator_move (x : Elevator nf) : x.move.toTElevator = body nf x.toTElevator := by
  obtain ⟨f, dir, hnext⟩ : ∃ f dir, nextFloor x.currentFloor x.redirect = (f, dir) := ⟨_, _, rfl⟩
  have hb : bounce nf (x.toTElevator.currentFloor + redirect nf x.toTElevator)
      (redirect nf x.toTElevator) = (((f : ℕ) : ℤ), dir.toInt) := by
    rw [redirect_cells]
    exact (bounce_cells ..).trans (by rw [hnext])
  unfold body Elevator.move
  dsimp only
  rw [hb, hnext]
  dsimp only
  rw [show x.toTElevator.requests = cells x.requests from rfl, arrive_cells, hasRequest_cells]
  unfold Elevator.toTElevator
  dsimp only
  congr 1
  rw [apply_ite Direction.toInt, toInt_neg]

end Elevators
end Cse344.HW3
