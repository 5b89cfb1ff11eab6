import Cse344.HW3.Letters

/-!
# The elevators of HW3

Model of `run_elevator` (`HW3/src/processes/elevator.c` 22-64) and of `wait_for_capacity`,
`request_delivery` and `request_reposition` (`letter_carrier.c` 64-155), around the machine of
`Cse344.HW3.System`: where that one lets a ride end at any time, here a letter carrier goes through
the steps of its ride, and the two elevators move on their own.

* The sections of an elevator's `mutex` are one step each. `any_request` reads the counters without
  it, one floor a step. The two arrays of counters are the `requests` of their elevators.
* A poll that finds the elevator full, or elsewhere, leaves the state as it is.
* `RidePc` is where a carrier is in its ride. It waits once it is in the loop for the arrival: at
  its head (`riding`), or before the section in it (`polling`).
* An elevator clears the counter of a floor when it gets there and goes on when `request_sem` lets
  it, whether or not the carriers that wait for the floor have seen it.
* `NoneStranded` says of a state that every waiting carrier still has its request, or the elevator
  where it wants it; `WaitsForAll` of a step that the elevator does not leave such carriers behind,
  and that a carrier does not come to its loop with its request already gone.

Results:
* `liftMove_of_step`: the cases of a step.
* **`liftSystem_refines`**: up to a shutdown this machine does nothing that `system` does not.
* `noneStranded_step`: the exact condition for one step.
* **`no_stranded_iff`**: a carrier keeps seeing its request or the elevator, in exactly the runs in
  which no elevator leaves a floor before the carriers it has cleared there have polled.

Out of scope: the sleeps, and the counters of the elevators' statistics.
-/

namespace Cse344.HW3

open Cse344.Lib

/-- `Setup` with the capacities of the elevators; the bounds are those of `validate_args`. -/
structure Building extends Setup where
  deliveryElevatorCapacity : ℤ
  repositionElevatorCapacity : ℤ
  one_le_floors : 1 ≤ numFloors
  one_le_delivery : 1 ≤ deliveryElevatorCapacity
  one_le_reposition : 1 ≤ repositionElevatorCapacity

/-- `ELEV_UP` and `ELEV_DOWN`. -/
inductive Direction
  | up
  | down
  deriving DecidableEq, Repr

/-- `-elev->direction`. -/
def Direction.neg : Direction → Direction
  | .up => .down
  | .down => .up

/-- The two elevators. -/
inductive Shaft
  | delivery
  | reposition
  deriving DecidableEq, Repr

/-- Where an elevator is. -/
inductive ElevPc
  /-- at the head of its loop -/
  | top
  /-- in `sem_wait(&elev->request_sem)` -/
  | waiting
  /-- before the second test of `shutdown` -/
  | woken
  /-- before its section of `mutex` -/
  | moving
  /-- in `any_request`, at floor `i` -/
  | looking (i : ℕ)
  /-- before `sem_post(&elev->request_sem)` -/
  | posting
  | exited
  deriving DecidableEq, Repr

/-- `t_elevator`, with its array of requests and its process. -/
structure Elevator (nf : ℕ) where
  pc : ElevPc
  currentFloor : Fin nf
  direction : Direction
  currentLoad : ℤ
  requestSem : ℕ
  requests : Fin nf → ℕ

/-- Where a letter carrier is in `request_delivery` or `request_reposition`. -/
inductive RidePc
  /-- before it reads the flag for `wait_for_capacity` -/
  | calling
  /-- in the loop of `wait_for_capacity` -/
  | boarding
  /-- before the test of `shutdown` -/
  | boarded
  /-- before the section that counts its request -/
  | requesting
  /-- before `sem_post(&elev->request_sem)` -/
  | signalling
  /-- at the head of the arrival loop -/
  | riding
  /-- before the section of the arrival loop -/
  | polling
  /-- before the section that takes it off `current_load` -/
  | leaving
  deriving DecidableEq, Repr

structure Ride (nf : ℕ) where
  shaft : Shaft
  dest : Fin nf
  pc : RidePc
  deriving DecidableEq

/-- The processes, the elevators, and the rides that are under way. -/
structure LiftSys (c : Building) where
  sys : Sys c.toSetup
  elev : Shaft → Elevator c.numFloors
  ride : Fin c.letterCarriers → Option (Ride c.numFloors)

inductive LiftAct (c : Building)
  | proc (a : Act c.toSetup)
  | elevator (e : Shaft)
  deriving DecidableEq

/-! ## An elevator -/

section Elevators

variable {nf : ℕ}

def hasRequestInDirection (requests : Fin nf → ℕ) (cur : Fin nf) (dir : Direction) : Bool :=
  match dir with
  | .up => (List.finRange nf).any fun i => decide (cur < i) && decide (0 < requests i)
  | .down => (List.finRange nf).any fun i => decide (i < cur) && decide (0 < requests i)

/-- The direction an idle elevator without a request ahead adopts. -/
def Elevator.redirect (e : Elevator nf) : Direction :=
  if e.currentLoad = 0 ∧ hasRequestInDirection e.requests e.currentFloor e.direction = false then
    match (List.finRange nf).find? fun i => 0 < e.requests i with
    | some i => if e.currentFloor < i then .up else .down
    | none => e.direction
  else e.direction

/-- One floor on; at the top and at the bottom the elevator stays and turns round. -/
def nextFloor (cur : Fin nf) (dir : Direction) : Fin nf × Direction :=
  match dir with
  | .up => if h : cur.val + 1 < nf then (⟨cur.val + 1, h⟩, .up) else (cur, .down)
  | .down => if 0 < cur.val then (⟨cur.val - 1, (Nat.sub_le _ _).trans_lt cur.isLt⟩, .down)
    else (cur, .up)

/-- The section of `mutex` in `run_elevator`. -/
def Elevator.move (e : Elevator nf) : Elevator nf :=
  let (floor, dir) := nextFloor e.currentFloor e.redirect
  let requests := if 0 < e.requests floor then Function.update e.requests floor 0 else e.requests
  let turn := hasRequestInDirection requests floor dir = false ∧ e.currentLoad = 0
  { e with
    currentFloor := floor
    direction := if turn then dir.neg else dir
    requests := requests
    pc := .looking 0 }

def elevStep (shutdown : Bool) (e : Elevator nf) : Option (Elevator nf) :=
  match e.pc with
  | .top => some { e with pc := if shutdown then .exited else .waiting }
  | .waiting =>
    if e.requestSem = 0 then none
    else some { e with requestSem := e.requestSem - 1, pc := .woken }
  | .woken => some { e with pc := if shutdown then .exited else .moving }
  | .moving => some e.move
  | .looking i =>
    if h : i < nf then
      some { e with pc := if 0 < e.requests ⟨i, h⟩ then .posting else .looking (i + 1) }
    else some { e with pc := .top }
  | .posting => some { e with requestSem := e.requestSem + 1, pc := .top }
  | .exited => none

end Elevators

/-! ## A ride -/

variable {c : Building} {t t' : LiftSys c} {a : LiftAct c}

def Building.capacity (c : Building) : Shaft → ℤ
  | .delivery => c.deliveryElevatorCapacity
  | .reposition => c.repositionElevatorCapacity

def LiftSys.setElev (t : LiftSys c) (e : Shaft) (x : Elevator c.numFloors) : LiftSys c :=
  { t with elev := Function.update t.elev e x }

def LiftSys.setRide (t : LiftSys c) (i : Fin c.letterCarriers) (r : Option (Ride c.numFloors)) :
    LiftSys c :=
  { t with ride := Function.update t.ride i r }

/-- `request_delivery` or `request_reposition` returns; `arrived` is false where it has returned
before its request. -/
def LiftSys.returnFrom (t : LiftSys c) (i : Fin c.letterCarriers) (r : Ride c.numFloors)
    (arrived : Bool) : LiftSys c :=
  let l := t.sys.lc i
  match l.pc with
  | .riding w k =>
    { t.setRide i none with
      sys := t.sys.setLc i
        { l with pc := .lockPlace w k, myFloor := ((t.sys.words w).tasks k).destFloor } }
  | .repositioning =>
    { t.setRide i none with
      sys := t.sys.setLc i { l with pc := .top, myFloor := if arrived then r.dest else l.myFloor } }
  | _ => t.setRide i none

/-- A step of a letter carrier that is not in a ride: where it needs an elevator, it calls it. -/
def carrierStep (t : LiftSys c) (i : Fin c.letterCarriers) (rand : Fin c.numFloors) :
    Option (LiftSys c) :=
  let l := t.sys.lc i
  match l.pc with
  | .riding w k =>
    some (t.setRide i (some ⟨.delivery, ((t.sys.words w).tasks k).destFloor, .calling⟩))
  | .repositioning =>
    some (t.setRide i (some ⟨.reposition, repositionDest rand l.myFloor, .calling⟩))
  | _ => (lcStep t.sys i rand).map fun sys => { t with sys := sys }

def rideStep (t : LiftSys c) (i : Fin c.letterCarriers) (r : Ride c.numFloors) : LiftSys c :=
  let e := t.elev r.shaft
  match r.pc with
  | .calling =>
    t.setRide i (some { r with pc := if t.sys.shutdown then .boarded else .boarding })
  | .boarding =>
    if e.currentLoad < c.capacity r.shaft then
      (t.setElev r.shaft { e with currentLoad := e.currentLoad + 1 }).setRide i
        (some { r with pc := .boarded })
    else t
  | .boarded =>
    if t.sys.shutdown then t.returnFrom i r false
    else t.setRide i (some { r with pc := .requesting })
  | .requesting =>
    (t.setElev r.shaft
      { e with requests := Function.update e.requests r.dest (e.requests r.dest + 1) }).setRide i
        (some { r with pc := .signalling })
  | .signalling =>
    (t.setElev r.shaft { e with requestSem := e.requestSem + 1 }).setRide i
      (some { r with pc := .riding })
  | .riding => t.setRide i (some { r with pc := if t.sys.shutdown then .leaving else .polling })
  | .polling =>
    t.setRide i (some { r with
      pc := if e.requests r.dest = 0 ∧ e.currentFloor = r.dest then .leaving else .riding })
  | .leaving =>
    (t.setElev r.shaft { e with currentLoad := e.currentLoad - 1 }).returnFrom i r true

/-! ## The machine -/

def liftStep (t : LiftSys c) : LiftAct c → Option (LiftSys c)
  | .proc (.letterCarrier i rand) =>
    match t.ride i with
    | none => carrierStep t i rand
    | some r => some (rideStep t i r)
  | .proc a => (step t.sys a).map fun sys => { t with sys := sys }
  | .elevator e => (elevStep t.sys.shutdown (t.elev e)).map fun x => t.setElev e x

def liftSystem (c : Building) : Machine (LiftSys c) (LiftAct c) where
  init :=
    { sys := (system c.toSetup).init
      elev := fun _ =>
        { pc := .top
          currentFloor := ⟨0, c.one_le_floors⟩
          direction := .up
          currentLoad := 0
          requestSem := 0
          requests := fun _ => 0 }
      ride := fun _ => none }
  step := liftStep

/-! ## Up to a shutdown, the rides refine `system` -/

/-- A step of one carrier leaves the other letter carriers as they are. -/
theorem step_otherLc {c : Setup} {s s' : Sys c} {b : Act c} {i : Fin c.letterCarriers}
    (hs : step s b = some s') (hb : ∀ rand, b ≠ .letterCarrier i rand) : s'.lc i = s.lc i := by
  cases b with
  | wordCarrier j => rw [(wcStep_keepsTasks hs).1]
  | sortingProc j => rw [(spStep_keepsTasks hs).1]
  | letterCarrier j rand =>
    have hij : i ≠ j := fun hij => hb rand (hij ▸ rfl)
    cases lcMove_of_step hs <;> exact Function.update_of_ne hij ..
  | monitor =>
    obtain ⟨-, rfl⟩ := monitor_of_step hs
    rfl
  | sigint =>
    obtain rfl := Option.some.inj hs
    rfl

/-- What a ride says of its carrier: it delivers a letter, or repositions to a floor `rand` gives.
-/
def RideOk (l : LetterCarrier c.toSetup) (r : Ride c.numFloors) : Prop :=
  (∃ w k, l.pc = .riding w k) ∨
    l.pc = .repositioning ∧ ∃ rand, r.dest = repositionDest rand l.myFloor

def RidesOk (t : LiftSys c) : Prop := ∀ i r, t.ride i = some r → RideOk (t.sys.lc i) r

/-- A ride that ends is a step of its carrier in `system`. -/
theorem returnFrom_step {i : Fin c.letterCarriers} {r : Ride c.numFloors} {arrived : Bool}
    (h : RideOk (t.sys.lc i) r) (ha : arrived = true) :
    ∃ b, step t.sys b = some (t.returnFrom i r arrived).sys := by
  rcases h with ⟨w, k, hpc⟩ | ⟨hpc, rand, hdest⟩
  · exact ⟨.letterCarrier i r.dest, by simp only [step, lcStep, LiftSys.returnFrom, hpc]⟩
  · refine ⟨.letterCarrier i rand, ?_⟩
    simp only [step, lcStep, LiftSys.returnFrom, hpc, ha, if_true, hdest]

/-- A ride goes on, with the same destination. -/
theorem RidesOk.setRide (h : RidesOk t) {i : Fin c.letterCarriers} {r : Ride c.numFloors}
    (hr : RideOk (t.sys.lc i) r) : RidesOk (t.setRide i (some r)) := by
  refine (Function.forall_update_iff t.ride fun j x => ∀ r, x = some r →
    RideOk (t.sys.lc j) r).mpr ⟨fun r' hr' => ?_, fun j _ => h j⟩
  obtain rfl := Option.some.inj hr'
  exact hr

theorem RidesOk.returnFrom (h : RidesOk t) (i : Fin c.letterCarriers) (r : Ride c.numFloors)
    (arrived : Bool) : RidesOk (t.returnFrom i r arrived) := by
  have hother : ∀ (l : LetterCarrier c.toSetup) j r',
      Function.update t.ride i none j = some r' →
        RideOk (Function.update t.sys.lc i l j) r' := by
    intro l j r' hj
    by_cases hji : j = i
    · rw [hji, Function.update_self] at hj
      cases hj
    · rw [Function.update_of_ne hji] at hj ⊢
      exact h j r' hj
  have hsame : ∀ j r', Function.update t.ride i none j = some r' → RideOk (t.sys.lc j) r' := by
    intro j r' hj
    have := hother (t.sys.lc i) j r' hj
    rwa [Function.update_eq_self] at this
  unfold LiftSys.returnFrom
  dsimp only
  split
  · exact hother _
  · exact hother _
  · exact hsame

theorem ridesOk_rideStep (h : RidesOk t) {i : Fin c.letterCarriers} {r : Ride c.numFloors}
    (hr : t.ride i = some r) : RidesOk (rideStep t i r) := by
  have hi : ∀ pc, RideOk (t.sys.lc i) { r with pc := pc } := fun _ => h i r hr
  have hset : ∀ x pc, RidesOk ((t.setElev r.shaft x).setRide i (some { r with pc := pc })) :=
    fun x pc => RidesOk.setRide (t := t.setElev r.shaft x) h (hi pc)
  unfold rideStep
  dsimp only
  split
  · exact h.setRide (hi _)
  · split
    · exact hset _ _
    · exact h
  · split
    · exact h.returnFrom i r false
    · exact h.setRide (hi _)
  · exact hset _ _
  · exact hset _ _
  · exact h.setRide (hi _)
  · exact h.setRide (hi _)
  · exact RidesOk.returnFrom (t := t.setElev _ _) h i r true

theorem rideStep_refines (h : RidesOk t) {i : Fin c.letterCarriers} {r : Ride c.numFloors}
    (hr : t.ride i = some r) (hd : t.sys.shutdown = false) :
    (rideStep t i r).sys = t.sys ∨ ∃ b, step t.sys b = some (rideStep t i r).sys := by
  unfold rideStep
  dsimp only
  split
  · exact Or.inl rfl
  · split <;> exact Or.inl rfl
  · rw [hd]
    exact Or.inl rfl
  · exact Or.inl rfl
  · exact Or.inl rfl
  · exact Or.inl rfl
  · exact Or.inl rfl
  · exact Or.inr (returnFrom_step (t := t.setElev _ _) (h i r hr) rfl)

/-- A process that is not in a ride takes a step of `system`. -/
theorem ridesOk_step (h : RidesOk t) {b : Act c.toSetup} {sys : Sys c.toSetup}
    (hs : step t.sys b = some sys)
    (hb : ∀ i rand, b = .letterCarrier i rand → t.ride i = none) :
    RidesOk { t with sys := sys } := by
  intro i r hr
  have hr : t.ride i = some r := hr
  have hlc : sys.lc i = t.sys.lc i := step_otherLc hs fun rand hi => by
    rw [hb i rand hi] at hr
    cases hr
  show RideOk (sys.lc i) r
  rw [hlc]
  exact h i r hr

/-- What a step of the lifts does. -/
inductive LiftMove (t : LiftSys c) : LiftAct c → LiftSys c → Prop
  | proc (b : Act c.toSetup) (sys : Sys c.toSetup) (hs : step t.sys b = some sys)
      (hb : ∀ i rand, b = .letterCarrier i rand → t.ride i = none) :
      LiftMove t (.proc b) { t with sys := sys }
  | call (i : Fin c.letterCarriers) (rand : Fin c.numFloors) (r : Ride c.numFloors)
      (hi : t.ride i = none) (hr : RideOk (t.sys.lc i) r) (hpc : r.pc = .calling) :
      LiftMove t (.proc (.letterCarrier i rand)) (t.setRide i (some r))
  | ride (i : Fin c.letterCarriers) (rand : Fin c.numFloors) (r : Ride c.numFloors)
      (hr : t.ride i = some r) : LiftMove t (.proc (.letterCarrier i rand)) (rideStep t i r)
  | elevator (e : Shaft) (x : Elevator c.numFloors)
      (hx : elevStep t.sys.shutdown (t.elev e) = some x) :
      LiftMove t (.elevator e) (t.setElev e x)

theorem carrierStep_move {i : Fin c.letterCarriers} {rand : Fin c.numFloors}
    (hi : t.ride i = none) (hs : carrierStep t i rand = some t') :
    LiftMove t (.proc (.letterCarrier i rand)) t' := by
  unfold carrierStep at hs
  dsimp only at hs
  split at hs <;> rename_i hpc
  · obtain rfl := Option.some.inj hs
    exact .call i rand _ hi (Or.inl ⟨_, _, hpc⟩) rfl
  · obtain rfl := Option.some.inj hs
    exact .call i rand _ hi (Or.inr ⟨hpc, rand, rfl⟩) rfl
  · obtain ⟨sys, hsys, rfl⟩ := Option.map_eq_some_iff.mp hs
    refine .proc (.letterCarrier i rand) sys hsys fun j rand' hj => ?_
    obtain ⟨rfl, -⟩ := Act.letterCarrier.inj hj
    exact hi

/-- **What a step does.** -/
theorem liftMove_of_step (hs : liftStep t a = some t') : LiftMove t a t' := by
  unfold liftStep at hs
  split at hs
  · rename_i i rand
    split at hs
    · rename_i hi
      exact carrierStep_move hi hs
    · rename_i r hr
      obtain rfl := Option.some.inj hs
      exact .ride i rand r hr
  · rename_i b hb
    obtain ⟨sys, hsys, rfl⟩ := Option.map_eq_some_iff.mp hs
    exact .proc b sys hsys fun i rand hi => absurd hi (hb i rand)
  · rename_i e
    obtain ⟨x, hx, rfl⟩ := Option.map_eq_some_iff.mp hs
    exact .elevator e x hx

theorem ridesOk_move (h : RidesOk t) (hm : LiftMove t a t') : RidesOk t' := by
  cases hm with
  | proc b sys hs hb => exact ridesOk_step h hs hb
  | call i rand r hi hr => exact h.setRide hr
  | ride i rand r hr => exact ridesOk_rideStep h hr
  | elevator e x => exact h

/-- No step takes a shutdown back. -/
theorem shutdown_step {c : Setup} {s s' : Sys c} {b : Act c} (hs : step s b = some s')
    (hd : s'.shutdown = false) : s.shutdown = false := by
  cases b with
  | wordCarrier i =>
    cases wcMove_of_step hs <;> exact hd
  | letterCarrier i rand => cases lcMove_of_step hs <;> exact hd
  | sortingProc i => cases spMove_of_step hs <;> exact hd
  | monitor =>
    obtain ⟨-, rfl⟩ := monitor_of_step hs
    cases hd
  | sigint =>
    obtain rfl := Option.some.inj hs
    cases hd

theorem returnFrom_shutdown (i : Fin c.letterCarriers) (r : Ride c.numFloors) (arrived : Bool) :
    (t.returnFrom i r arrived).sys.shutdown = t.sys.shutdown := by
  unfold LiftSys.returnFrom
  dsimp only
  split <;> rfl

theorem rideStep_shutdown (i : Fin c.letterCarriers) (r : Ride c.numFloors) :
    (rideStep t i r).sys.shutdown = t.sys.shutdown := by
  unfold rideStep
  dsimp only
  split
  · rfl
  · split <;> rfl
  · split
    · exact returnFrom_shutdown ..
    · rfl
  · rfl
  · rfl
  · rfl
  · rfl
  · exact returnFrom_shutdown (t := t.setElev _ _) ..

theorem shutdown_move (hm : LiftMove t a t') (hd : t'.sys.shutdown = false) :
    t.sys.shutdown = false := by
  cases hm with
  | proc b sys hs => exact shutdown_step hs hd
  | call => exact hd
  | ride i rand r => exact (rideStep_shutdown i r).symm.trans hd
  | elevator => exact hd

/-- **The lifts refine `system`**: up to a shutdown, whatever they and the other processes do is a
run of `system`, in which the rides take no steps but their last. -/
theorem liftSystem_refines {t : LiftSys c} (h : (liftSystem c).Reachable t)
    (hd : t.sys.shutdown = false) : (system c.toSetup).Reachable t.sys := by
  have hinv : RidesOk t ∧ (t.sys.shutdown = false → (system c.toSetup).Reachable t.sys) := by
    refine h.induct (I := fun t => RidesOk t ∧
      (t.sys.shutdown = false → (system c.toSetup).Reachable t.sys))
      ⟨fun i r hr => ?_, fun _ => Machine.Reachable.init⟩ fun t a t' ih hs => ?_
    · cases hr
    · have hm := liftMove_of_step hs
      refine ⟨ridesOk_move ih.1 hm, fun hd' => ?_⟩
      have hd := shutdown_move hm hd'
      cases hm with
      | proc b sys hsys => exact (ih.2 hd).step hsys
      | call => exact ih.2 hd
      | ride i rand r hr =>
        rcases rideStep_refines ih.1 hr hd with heq | ⟨b, hb⟩
        · rw [heq]
          exact ih.2 hd
        · exact (ih.2 hd).step hb
      | elevator => exact ih.2 hd
  exact hinv.2 hd

/-! ## Stranded carriers -/

/-- The carrier has posted its request, and is in the arrival loop. -/
def RidePc.waits : RidePc → Bool
  | .riding => true
  | .polling => true
  | _ => false

/-- The carrier sees its request, or the elevator at its floor. -/
def Served (elev : Shaft → Elevator c.numFloors) (r : Ride c.numFloors) : Prop :=
  0 < (elev r.shaft).requests r.dest ∨ (elev r.shaft).currentFloor = r.dest

/-- Without a shutdown, every carrier that waits sees its request or the elevator. -/
def NoneStranded (t : LiftSys c) : Prop :=
  t.sys.shutdown = false → ∀ i r, t.ride i = some r → r.pc.waits = true → Served t.elev r

/-- The elevator's next move takes it off its floor. -/
def Elevator.leaves {nf : ℕ} (e : Elevator nf) : Prop :=
  e.pc = .moving ∧
    match e.redirect with
    | .up => e.currentFloor.val + 1 < nf
    | .down => 0 < e.currentFloor.val

/-- The elevator does not leave a floor that it has cleared while a carrier waits for it there, and
a carrier that comes to its arrival loop finds its request counted, or the elevator at its floor. -/
def WaitsForAll (t : LiftSys c) : LiftAct c → Prop
  | .proc (.letterCarrier i _) => t.sys.shutdown = false →
      ∀ r, t.ride i = some r → r.pc = .signalling → Served t.elev r
  | .proc _ => True
  | .elevator e => t.sys.shutdown = false → (t.elev e).leaves →
      ∀ i r, t.ride i = some r → r.shaft = e → r.pc.waits = true →
        r.dest = (t.elev e).currentFloor → 0 < (t.elev e).requests r.dest

/-- A step after which no elevator has moved or lost a request, and a carrier that waits waited
before or sees its request or the elevator. -/
structure Calm (t t' : LiftSys c) : Prop where
  currentFloor : ∀ e, (t'.elev e).currentFloor = (t.elev e).currentFloor
  requests : ∀ e f, (t.elev e).requests f ≤ (t'.elev e).requests f
  rides : ∀ i r', t'.ride i = some r' → r'.pc.waits = true →
    (∃ r, t.ride i = some r ∧ r.pc.waits = true ∧ r.shaft = r'.shaft ∧ r.dest = r'.dest) ∨
      Served t'.elev r'

theorem Calm.noneStranded (h : Calm t t') (hd : t'.sys.shutdown = false → t.sys.shutdown = false)
    (hn : NoneStranded t) : NoneStranded t' := by
  intro hd' i r' hr' hpost
  rcases h.rides i r' hr' hpost with ⟨r, hr, hp, hshaft, hdest⟩ | hserved
  · rcases hn (hd hd') i r hr hp with hreq | hfloor
    · rw [hshaft, hdest] at hreq
      exact Or.inl (hreq.trans_le (h.requests _ _))
    · rw [hshaft, hdest] at hfloor
      exact Or.inr ((h.currentFloor _).trans hfloor)
  · exact hserved

/-- The rides stay as they are, but for the one of carrier `i`. -/
theorem Calm.of_ride {i : Fin c.letterCarriers} {x : Option (Ride c.numFloors)}
    (hride : t'.ride = Function.update t.ride i x)
    (hfloor : ∀ e, (t'.elev e).currentFloor = (t.elev e).currentFloor)
    (hreq : ∀ e f, (t.elev e).requests f ≤ (t'.elev e).requests f)
    (hx : ∀ r', x = some r' → r'.pc.waits = true →
      (∃ r, t.ride i = some r ∧ r.pc.waits = true ∧ r.shaft = r'.shaft ∧ r.dest = r'.dest) ∨
        Served t'.elev r') : Calm t t' := by
  refine ⟨hfloor, hreq, ?_⟩
  rw [hride]
  exact (Function.forall_update_iff t.ride fun j x => ∀ r', x = some r' → r'.pc.waits = true →
    (∃ r, t.ride j = some r ∧ r.pc.waits = true ∧ r.shaft = r'.shaft ∧ r.dest = r'.dest) ∨
      Served t'.elev r').mpr
    ⟨hx, fun j _ r' hr' hp => Or.inl ⟨r', hr', hp, rfl, rfl⟩⟩

/-- Elevator `e` changes neither its floor nor takes a request away. -/
theorem grows_setElev (t : LiftSys c) (e : Shaft) (x : Elevator c.numFloors)
    (hfloor : x.currentFloor = (t.elev e).currentFloor)
    (hreq : ∀ f, (t.elev e).requests f ≤ x.requests f) :
    (∀ e', ((t.setElev e x).elev e').currentFloor = (t.elev e').currentFloor) ∧
      ∀ e' f, (t.elev e').requests f ≤ ((t.setElev e x).elev e').requests f :=
  ⟨(Function.forall_update_iff t.elev fun e' y => y.currentFloor = (t.elev e').currentFloor).mpr
      ⟨hfloor, fun _ _ => rfl⟩,
    (Function.forall_update_iff t.elev fun e' y => ∀ f, (t.elev e').requests f ≤ y.requests f).mpr
      ⟨hreq, fun _ _ _ => le_rfl⟩⟩

theorem Calm.returnFrom {x : Elevator c.numFloors} {e : Shaft} (i : Fin c.letterCarriers)
    (r : Ride c.numFloors) (arrived : Bool)
    (hfloor : x.currentFloor = (t.elev e).currentFloor)
    (hreq : ∀ f, (t.elev e).requests f ≤ x.requests f) :
    Calm t ((t.setElev e x).returnFrom i r arrived) := by
  obtain ⟨hfloors, hreqs⟩ := grows_setElev t e x hfloor hreq
  have hcalm : ∀ sys : Sys c.toSetup,
      Calm t { (t.setElev e x).setRide i none with sys := sys } := fun sys =>
    .of_ride rfl hfloors hreqs fun r' hr' => by cases hr'
  unfold LiftSys.returnFrom
  dsimp only
  split
  · exact hcalm _
  · exact hcalm _
  · exact hcalm _

/-- A ride goes on without a new request. -/
theorem Calm.setRide {i : Fin c.letterCarriers} {r : Ride c.numFloors} {x : Elevator c.numFloors}
    (hr : t.ride i = some r) (pc : RidePc) (hpc : pc.waits = true → r.pc.waits = true)
    (hfloor : x.currentFloor = (t.elev r.shaft).currentFloor)
    (hreq : ∀ f, (t.elev r.shaft).requests f ≤ x.requests f) :
    Calm t ((t.setElev r.shaft x).setRide i (some { r with pc := pc })) := by
  obtain ⟨hfloors, hreqs⟩ := grows_setElev t r.shaft x hfloor hreq
  refine .of_ride rfl hfloors hreqs fun r' hr' hp => Or.inl ⟨r, hr, ?_⟩
  obtain rfl := Option.some.inj hr'
  exact ⟨hpc hp, rfl, rfl⟩

/-- The `sem_post` of a carrier changes neither floors nor requests. -/
theorem served_signal (t : LiftSys c) (e : Shaft) (r : Ride c.numFloors) :
    Served (t.setElev e { t.elev e with requestSem := (t.elev e).requestSem + 1 }).elev r ↔
      Served t.elev r := by
  unfold Served LiftSys.setElev
  dsimp only
  by_cases he : r.shaft = e
  · rw [he, Function.update_self]
  · rw [Function.update_of_ne he]

/-- A ride's step, where a carrier that comes to its arrival loop is served. -/
theorem calm_rideStep {i : Fin c.letterCarriers} {r : Ride c.numFloors} (hr : t.ride i = some r)
    (h : r.pc = .signalling → Served t.elev r) : Calm t (rideStep t i r) := by
  have hsame : t.setElev r.shaft (t.elev r.shaft) = t := by
    rw [LiftSys.setElev, Function.update_eq_self]
  have hgo : ∀ pc : RidePc, (pc.waits = true → r.pc.waits = true) →
      Calm t (t.setRide i (some { r with pc := pc })) := fun pc hpc => by
    have := Calm.setRide hr pc hpc rfl fun _ => le_rfl
    rwa [hsame] at this
  unfold rideStep
  dsimp only
  split <;> rename_i hpc
  · exact hgo _ (by split <;> simp [RidePc.waits])
  · split
    · exact .setRide hr .boarded (by simp [RidePc.waits]) rfl fun _ => le_rfl
    · exact ⟨fun _ => rfl, fun _ _ => le_rfl, fun j r' hj hp => Or.inl ⟨r', hj, hp, rfl, rfl⟩⟩
  · split
    · have := Calm.returnFrom (t := t) i r false (e := r.shaft) rfl fun _ => le_rfl
      rwa [hsame] at this
    · exact hgo _ (by simp [RidePc.waits])
  · -- the carrier counts its request
    refine .setRide hr .signalling (by simp [RidePc.waits]) rfl fun f => ?_
    by_cases hf : f = r.dest
    · simp [hf]
    · simp [hf]
  · -- it comes to its arrival loop
    obtain ⟨hfloors, hreqs⟩ := grows_setElev t r.shaft
      { t.elev r.shaft with requestSem := (t.elev r.shaft).requestSem + 1 } rfl fun _ => le_rfl
    refine .of_ride rfl hfloors hreqs fun r' hr' _ => Or.inr ?_
    obtain rfl := Option.some.inj hr'
    exact (served_signal t r.shaft r).mpr (h hpc)
  · exact hgo _ (by simp [hpc, RidePc.waits])
  · exact hgo _ (by simp [hpc, RidePc.waits])
  · exact .returnFrom i r true rfl fun _ => le_rfl

/-! ## What an elevator's move does -/

theorem elevStep_cases {nf : ℕ} {e x : Elevator nf} {shutdown : Bool}
    (hx : elevStep shutdown e = some x) :
    e.pc = .moving ∧ x = e.move ∨
      e.pc ≠ .moving ∧ x.currentFloor = e.currentFloor ∧ x.requests = e.requests := by
  unfold elevStep at hx
  split at hx <;> rename_i hpc
  · obtain rfl := Option.some.inj hx
    exact Or.inr ⟨by simp [hpc], rfl, rfl⟩
  · split_ifs at hx
    obtain rfl := Option.some.inj hx
    exact Or.inr ⟨by simp [hpc], rfl, rfl⟩
  · obtain rfl := Option.some.inj hx
    exact Or.inr ⟨by simp [hpc], rfl, rfl⟩
  · obtain rfl := Option.some.inj hx
    exact Or.inl ⟨hpc, rfl⟩
  · split_ifs at hx <;>
      (obtain rfl := Option.some.inj hx
       exact Or.inr ⟨by simp [hpc], rfl, rfl⟩)
  · obtain rfl := Option.some.inj hx
    exact Or.inr ⟨by simp [hpc], rfl, rfl⟩
  · cases hx

/-- The floor a move takes the elevator to is its own exactly if it does not leave. -/
theorem move_currentFloor_eq_iff {nf : ℕ} {e : Elevator nf} (hpc : e.pc = .moving) :
    e.move.currentFloor = e.currentFloor ↔ ¬ e.leaves := by
  have hmove : e.move.currentFloor = (nextFloor e.currentFloor e.redirect).1 := rfl
  rw [hmove, Elevator.leaves, Fin.ext_iff]
  unfold nextFloor
  cases e.redirect with
  | up =>
    dsimp only
    split_ifs with hup <;> simp [hpc, hup]
  | down =>
    dsimp only
    split_ifs with hdown <;> simp [hpc, hdown]
    omega

/-- A move takes away the requests of the floor it gets to. -/
theorem move_requests {nf : ℕ} (e : Elevator nf) (f : Fin nf) :
    e.move.requests f = if f = e.move.currentFloor then 0 else e.requests f := by
  obtain ⟨floor, hfloor⟩ : ∃ floor, floor = (nextFloor e.currentFloor e.redirect).1 := ⟨_, rfl⟩
  have hcur : e.move.currentFloor = floor := hfloor.symm
  have hreq : e.move.requests =
      if 0 < e.requests floor then Function.update e.requests floor 0 else e.requests := by
    rw [hfloor]
    rfl
  rw [hcur, hreq]
  by_cases hf : f = floor
  · subst hf
    rw [if_pos rfl]
    split_ifs with hpos
    · exact Function.update_self ..
    · exact Nat.eq_zero_of_not_pos hpos
  · rw [if_neg hf]
    split_ifs
    · exact Function.update_of_ne hf ..
    · rfl

/-- **The exact step condition** for an elevator's move. -/
theorem noneStranded_move {e : Shaft} (hn : NoneStranded t) (hpc : (t.elev e).pc = .moving) :
    NoneStranded (t.setElev e (t.elev e).move) ↔ WaitsForAll t (.elevator e) := by
  have hmoved : (t.setElev e (t.elev e).move).elev e = (t.elev e).move := Function.update_self ..
  have hother : ∀ e', e' ≠ e → (t.setElev e (t.elev e).move).elev e' = t.elev e' :=
    fun e' he => Function.update_of_ne he ..
  constructor
  · rintro hn' hd hleaves i r hr rfl hpost hdest
    have hserved := hn' hd i r hr hpost
    unfold Served at hserved
    rw [hmoved, move_requests] at hserved
    have hgone : (t.elev r.shaft).move.currentFloor ≠ r.dest := fun heq =>
      (move_currentFloor_eq_iff hpc).mp (heq.trans hdest) hleaves
    rw [if_neg (Ne.symm hgone)] at hserved
    exact hserved.resolve_right hgone
  · intro hok hd i r hr hpost
    by_cases he : r.shaft = e
    · subst he
      unfold Served
      rw [hmoved, move_requests]
      by_cases hdest : r.dest = (t.elev r.shaft).move.currentFloor
      · exact Or.inr hdest.symm
      · rw [if_neg hdest]
        rcases hn hd i r hr hpost with hreq | hfloor
        · exact Or.inl hreq
        · -- the elevator was at the carrier's floor and is not there any more
          have hleaves : (t.elev r.shaft).leaves := by
            by_contra hstays
            exact hdest (hfloor.symm.trans ((move_currentFloor_eq_iff hpc).mpr hstays).symm)
          exact Or.inl (hok hd hleaves i r hr rfl hpost hfloor.symm)
    · unfold Served
      rw [hother _ he]
      exact hn hd i r hr hpost

/-- The exact step condition for a carrier on its ride. -/
theorem noneStranded_ride {i : Fin c.letterCarriers} {r : Ride c.numFloors} (rand : Fin c.numFloors)
    (hn : NoneStranded t) (hr : t.ride i = some r) :
    NoneStranded (rideStep t i r) ↔ WaitsForAll t (.proc (.letterCarrier i rand)) := by
  have hdown := rideStep_shutdown (t := t) i r
  constructor
  · intro hn' hd r' hr' hpc
    obtain rfl := Option.some.inj (hr.symm.trans hr')
    have hstep : rideStep t i r =
        (t.setElev r.shaft { t.elev r.shaft with
          requestSem := (t.elev r.shaft).requestSem + 1 }).setRide i
            (some { r with pc := .riding }) := by
      unfold rideStep
      rw [hpc]
    have hserved := hn' (hdown.trans hd) i { r with pc := .riding } (by
      rw [hstep]
      exact Function.update_self ..) rfl
    rw [hstep] at hserved
    exact (served_signal t r.shaft r).mp hserved
  · intro hok hd
    have hd' := hdown.symm.trans hd
    exact (calm_rideStep hr (hok hd' r hr)).noneStranded (fun _ => hd') hn hd

theorem noneStranded_step (hn : NoneStranded t) (hs : liftStep t a = some t') :
    NoneStranded t' ↔ WaitsForAll t a := by
  have hm := liftMove_of_step hs
  have hd := shutdown_move hm
  cases hm with
  | proc b sys hs hb =>
    have hcalm : Calm t { t with sys := sys } :=
      ⟨fun _ => rfl, fun _ _ => le_rfl, fun i r hr hp => Or.inl ⟨r, hr, hp, rfl, rfl⟩⟩
    refine iff_of_true (hcalm.noneStranded hd hn) ?_
    cases b with
    | letterCarrier i rand =>
      intro _ r hr
      rw [hb i rand rfl] at hr
      cases hr
    | _ => trivial
  | call i rand r hi hr hpc =>
    have hcalm : Calm t (t.setRide i (some r)) :=
      .of_ride rfl (fun _ => rfl) (fun _ _ => le_rfl) fun r' hr' hp => by
        obtain rfl := Option.some.inj hr'
        rw [hpc] at hp
        cases hp
    refine iff_of_true (hcalm.noneStranded hd hn) fun _ r' hr' => ?_
    rw [hi] at hr'
    cases hr'
  | ride i rand r hr => exact noneStranded_ride rand hn hr
  | elevator e x hx =>
    rcases elevStep_cases hx with ⟨hpc, rfl⟩ | ⟨hpc, hfloor, hreq⟩
    · exact noneStranded_move hn hpc
    · obtain ⟨hfloors, hreqs⟩ := grows_setElev t e x hfloor fun f => by rw [hreq]
      have hcalm : Calm t (t.setElev e x) :=
        ⟨hfloors, hreqs, fun i r hr hp => Or.inl ⟨r, hr, hp, rfl, rfl⟩⟩
      exact iff_of_true (hcalm.noneStranded hd hn) fun _ hleaves => absurd hleaves.1 hpc

/-- **No carrier is stranded** in exactly the runs in which no elevator leaves a floor it has
cleared while a carrier waits for it there. -/
theorem no_stranded_iff {t : LiftSys c} {as : List (LiftAct c)}
    (h : (liftSystem c).runs (liftSystem c).init as = some t) :
    (liftSystem c).AllStates NoneStranded (liftSystem c).init as ↔
      (liftSystem c).AllSteps WaitsForAll (liftSystem c).init as :=
  Machine.allStates_iff (J := fun _ => True) (fun _ _ _ _ _ => trivial)
    (fun _ _ _ _ hn hs => noneStranded_step hn hs) trivial
    (fun _ i r hr => by cases hr) h

/-- Three floors, and a word of two letters to carry from the floor `ground` to the floor `first`.
-/
def twoLetters (ground first : Fin 3) : Building where
  numFloors := 3
  maxWordsPerFloor := 2
  totalWords := 1
  input := fun _ => { word := cstr "ab", sortingFloor := first, length_le := by decide }
  wordCarriers := 1
  wordCarrierFloor := fun _ => ground
  letterCarriers := 2
  letterCarrierFloor := fun _ => ground
  sortingProcs := 1
  sortingProcFloor := fun _ => first
  one_le_max := by decide
  deliveryElevatorCapacity := 2
  repositionElevatorCapacity := 2
  one_le_floors := by decide
  one_le_delivery := by decide
  one_le_reposition := by decide

/-- Both carriers request the floor `first` and wait; the elevator gets there, and goes on to the
floor above with the second token before they poll. -/
def twoLettersRun {ground first : Fin 3} (w : Fin 1) (i j : Fin 2) :
    List (LiftAct (twoLetters ground first)) :=
  List.replicate 12 (.proc (.wordCarrier w)) ++
    List.replicate 12 (.proc (.letterCarrier i ground)) ++
    List.replicate 13 (.proc (.letterCarrier j ground)) ++
    List.replicate 13 (.elevator .delivery)

/-- The letter carrier waits at the head of its arrival loop, and neither sees its request nor the
elevator. -/
theorem runs_twoLetters :
    ∃ t, (liftSystem (twoLetters 0 1)).runs (liftSystem (twoLetters 0 1)).init
        (twoLettersRun 0 0 1) = some t ∧
      ¬ NoneStranded t := by
  have hrun : ((liftSystem (twoLetters 0 1)).runs (liftSystem (twoLetters 0 1)).init
      (twoLettersRun 0 0 1)).map
      (fun t => (t.sys.shutdown,
        (t.ride (0 : Fin 2)).map fun r =>
          (r.pc, (t.elev r.shaft).requests r.dest, (t.elev r.shaft).currentFloor.val,
            r.dest.val))) =
        some (false, some (.riding, 0, 2, 1)) := by decide +kernel
  obtain ⟨t, ht, he⟩ := Option.map_eq_some_iff.mp hrun
  obtain ⟨hd, hride⟩ := Prod.mk.inj he
  obtain ⟨r, hr, hat⟩ := Option.map_eq_some_iff.mp hride
  obtain ⟨hpc, hreq, hfloor, hdest⟩ : r.pc = .riding ∧ (t.elev r.shaft).requests r.dest = 0 ∧
      (t.elev r.shaft).currentFloor.val = 2 ∧ r.dest.val = 1 := by
    simpa only [Prod.mk.injEq] using hat
  refine ⟨t, ht, fun hn => ?_⟩
  rcases hn hd (0 : Fin 2) r hr (by rw [hpc]; rfl) with hpos | hfar
  · omega
  · have := congrArg Fin.val hfar
    omega

theorem not_noneStranded_twoLetters :
    ∃ t, (liftSystem (twoLetters 0 1)).Reachable t ∧ ¬ NoneStranded t := by
  obtain ⟨t, ht, hn⟩ := runs_twoLetters
  exact ⟨t, Machine.runs_reachable ht, hn⟩

theorem not_waitsForAll_twoLetters :
    ¬ (liftSystem (twoLetters 0 1)).AllSteps WaitsForAll (liftSystem (twoLetters 0 1)).init
      (twoLettersRun 0 0 1) := by
  obtain ⟨t, ht, hn⟩ := runs_twoLetters
  exact fun hall => hn (((no_stranded_iff ht).mpr hall).last ht)

end Cse344.HW3
