import Cse344.HW3.Elevator
import Cse344.Lib.Totals

/-!
# The load of the elevators

`wait_for_capacity` (`HW3/src/processes/letter_carrier.c` 64-76) counts a carrier in `current_load`;
`request_delivery` and `request_reposition` (78-155) take it off again in another section of the
`mutex`, many steps later, or never: a carrier that finds `shutdown` set after `wait_for_capacity`
returns at once.

* `aboard` is a carrier between the two sections of its ride.
* The invariant `LoadOk` counts two groups of carriers. Those aboard are the load as long as nobody
  leaves by the test of `shutdown`. Those past that test are never more than the load, so that every
  decrement has its increment.

Results:
* `loadOk_move`: every move of a carrier and of an elevator keeps the count.
* **`load_bounded`**: in every state of `liftSystem` the load of each elevator is between zero and
  its capacity, and up to a shutdown it is the number of carriers aboard.

Out of scope: a carrier that is killed aboard, which keeps its place.
-/

namespace Cse344.HW3

open Cse344.Lib

variable {c : Building} {t t' : LiftSys c}

/-- `wait_for_capacity` has let the carrier in, and it has not given its place back. -/
def RidePc.aboard : RidePc → Bool
  | .calling => false
  | .boarding => false
  | _ => true

/-- The carrier is past the test of `shutdown` that follows `wait_for_capacity`. -/
def RidePc.committed : RidePc → Bool
  | .calling => false
  | .boarding => false
  | .boarded => false
  | _ => true

/-- The ride is on shaft `e`, at a point in `p`. -/
def Rides {nf : ℕ} (p : RidePc → Bool) (e : Shaft) (x : Option (Ride nf)) : Prop :=
  ∃ r, x = some r ∧ r.shaft = e ∧ p r.pc = true

instance {nf : ℕ} (p : RidePc → Bool) (e : Shaft) : (x : Option (Ride nf)) → Decidable (Rides p e x)
  | none => .isFalse fun ⟨_, h, _⟩ => nomatch h
  | some r => decidable_of_iff (r.shaft = e ∧ p r.pc = true)
      ⟨fun h => ⟨r, rfl, h⟩, fun ⟨_, h, hr⟩ => Option.some.inj h ▸ hr⟩

/-- The number of carriers on shaft `e` at a point in `p`. -/
def LiftSys.riders (t : LiftSys c) (p : RidePc → Bool) (e : Shaft) : ℕ :=
  (Finset.univ.filter fun i => Rides p e (t.ride i)).card

/-- One for a ride on shaft `e` at a point in `p`. -/
def place {nf : ℕ} (p : RidePc → Bool) (e : Shaft) (x : Option (Ride nf)) : ℤ :=
  if Rides p e x then 1 else 0

theorem place_none {nf : ℕ} (p : RidePc → Bool) (e : Shaft) :
    place p e (none : Option (Ride nf)) = 0 :=
  if_neg fun ⟨_, h, _⟩ => nomatch h

theorem place_some {nf : ℕ} (p : RidePc → Bool) (e : Shaft) (r : Ride nf) :
    place p e (some r) = if r.shaft = e ∧ p r.pc = true then 1 else 0 := by
  unfold place
  refine if_congr ⟨?_, fun h => ⟨r, rfl, h⟩⟩ rfl rfl
  rintro ⟨r', hr', h⟩
  exact Option.some.inj hr' ▸ h

theorem riders_eq_sum (t : LiftSys c) (p : RidePc → Bool) (e : Shaft) :
    (t.riders p e : ℤ) = ∑ i, place p e (t.ride i) := by
  rw [LiftSys.riders, Finset.card_filter, Nat.cast_sum]
  refine Finset.sum_congr rfl fun i _ => ?_
  rw [place]
  split_ifs <;> rfl

/-- One carrier goes on: the others stay where they are. -/
theorem riders_update {i : Fin c.letterCarriers} {x : Option (Ride c.numFloors)}
    (hride : t'.ride = Function.update t.ride i x) (p : RidePc → Bool) (e : Shaft) :
    (t'.riders p e : ℤ) + place p e (t.ride i) = t.riders p e + place p e x := by
  rw [riders_eq_sum, riders_eq_sum, hride]
  exact sum_update_add (place p e) t.ride i x

/-! ## The invariant -/

structure LoadOk (t : LiftSys c) : Prop where
  load_le : ∀ e, (t.elev e).currentLoad ≤ c.capacity e
  committed_le : ∀ e, (t.riders RidePc.committed e : ℤ) ≤ (t.elev e).currentLoad
  aboard_eq : t.sys.shutdown = false →
    ∀ e, (t.elev e).currentLoad = t.riders RidePc.aboard e

theorem committed_le_aboard (t : LiftSys c) (e : Shaft) :
    t.riders RidePc.committed e ≤ t.riders RidePc.aboard e := by
  refine Finset.card_le_card (Finset.monotone_filter_right _ fun i _ => ?_)
  rintro ⟨r, hr, he, hp⟩
  refine ⟨r, hr, he, ?_⟩
  revert hp
  cases r.pc <;> simp [RidePc.committed, RidePc.aboard]

/-- Neither the loads nor the rides change. -/
theorem LoadOk.of_same (h : LoadOk t) (hride : t'.ride = t.ride)
    (hload : ∀ e, (t'.elev e).currentLoad = (t.elev e).currentLoad)
    (hd : t'.sys.shutdown = false → t.sys.shutdown = false) : LoadOk t' := by
  have hsame : ∀ p e, t'.riders p e = t.riders p e := fun p e => by
    rw [LiftSys.riders, LiftSys.riders, hride]
  constructor
  · intro e
    rw [hload]
    exact h.load_le e
  · intro e
    rw [hload, hsame]
    exact h.committed_le e
  · intro hd' e
    rw [hload, hsame]
    exact h.aboard_eq (hd hd') e

/-- Carrier `i` goes on, and the loads change by `δ`, which pays for the places it takes. -/
theorem LoadOk.of_ride {i : Fin c.letterCarriers} {x : Option (Ride c.numFloors)} {δ : Shaft → ℤ}
    (h : LoadOk t) (hride : t'.ride = Function.update t.ride i x)
    (hload : ∀ e, (t'.elev e).currentLoad = (t.elev e).currentLoad + δ e)
    (hcap : ∀ e, (t.elev e).currentLoad + δ e ≤ c.capacity e)
    (hd : t'.sys.shutdown = t.sys.shutdown)
    (hcommitted : t.sys.shutdown = true →
      ∀ e, place RidePc.committed e x ≤ place RidePc.committed e (t.ride i) + δ e)
    (haboard : t.sys.shutdown = false →
      ∀ e, place RidePc.aboard e x = place RidePc.aboard e (t.ride i) + δ e) : LoadOk t' := by
  have hexact : t'.sys.shutdown = false →
      ∀ e, (t'.elev e).currentLoad = t'.riders RidePc.aboard e := by
    intro hd' e
    have hsum := riders_update hride RidePc.aboard e
    have heq := h.aboard_eq (hd ▸ hd') e
    have hplace := haboard (hd ▸ hd') e
    rw [hload]
    omega
  refine ⟨fun e => (hload e).trans_le (hcap e), fun e => ?_, hexact⟩
  cases hd' : t'.sys.shutdown with
  | false =>
    rw [hexact hd' e]
    exact_mod_cast committed_le_aboard t' e
  | true =>
    have hsum := riders_update hride RidePc.committed e
    have hle := h.committed_le e
    have hplace := hcommitted (hd ▸ hd') e
    rw [hload]
    omega

/-- One for a carrier at a point in `p`. -/
def RidePc.weight (p : RidePc → Bool) : Option RidePc → ℤ
  | none => 0
  | some pc => if p pc then 1 else 0

theorem place_map {nf : ℕ} (p : RidePc → Bool) (e : Shaft) (r : Ride nf) (o : Option RidePc) :
    place p e (o.map fun pc => { r with pc := pc }) =
      if e = r.shaft then RidePc.weight p o else 0 := by
  cases o with
  | none => exact (place_none p e).trans (ite_self 0).symm
  | some pc =>
    rw [Option.map_some, place_some, RidePc.weight]
    by_cases he : e = r.shaft
    · simp [he]
    · simp [he, Ne.symm he]

/-- A ride goes on to `o`, or ends, and the load of its elevator changes by `d`. -/
theorem LoadOk.of_move {i : Fin c.letterCarriers} {r : Ride c.numFloors} (h : LoadOk t)
    (hr : t.ride i = some r) (o : Option RidePc) (d : ℤ)
    (hride : t'.ride = Function.update t.ride i (o.map fun pc => { r with pc := pc }))
    (hload : ∀ e, (t'.elev e).currentLoad =
      (t.elev e).currentLoad + if e = r.shaft then d else 0)
    (hcap : (t.elev r.shaft).currentLoad + d ≤ c.capacity r.shaft)
    (hd : t'.sys.shutdown = t.sys.shutdown)
    (hcommitted : t.sys.shutdown = true →
      RidePc.weight RidePc.committed o ≤ RidePc.weight RidePc.committed (some r.pc) + d)
    (haboard : t.sys.shutdown = false →
      RidePc.weight RidePc.aboard o = RidePc.weight RidePc.aboard (some r.pc) + d) :
    LoadOk t' := by
  have hbefore : ∀ p e, place p e (t.ride i) =
      if e = r.shaft then RidePc.weight p (some r.pc) else 0 := fun p e => by
    rw [hr]
    exact place_map p e r (some r.pc)
  refine h.of_ride hride hload (fun e => ?_) hd (fun hs e => ?_) fun hs e => ?_
  · split_ifs with he
    · exact he ▸ hcap
    · exact (add_zero _).trans_le (h.load_le e)
  · rw [place_map, hbefore]
    split_ifs
    · exact hcommitted hs
    · exact le_refl _
  · rw [place_map, hbefore]
    split_ifs
    · exact haboard hs
    · rfl

/-! ## Every step keeps it -/

theorem elevStep_currentLoad {nf : ℕ} {e x : Elevator nf} {shutdown : Bool}
    (hx : elevStep shutdown e = some x) : x.currentLoad = e.currentLoad := by
  unfold elevStep at hx
  split at hx
  · obtain rfl := Option.some.inj hx
    rfl
  · split_ifs at hx
    obtain rfl := Option.some.inj hx
    rfl
  · obtain rfl := Option.some.inj hx
    rfl
  · obtain rfl := Option.some.inj hx
    rfl
  · split_ifs at hx <;>
      (obtain rfl := Option.some.inj hx
       rfl)
  · obtain rfl := Option.some.inj hx
    rfl
  · cases hx

/-- A return ends the ride and touches no elevator. -/
theorem returnFrom_frame (i : Fin c.letterCarriers) (r : Ride c.numFloors) (arrived : Bool) :
    (t.returnFrom i r arrived).ride = Function.update t.ride i none ∧
      (t.returnFrom i r arrived).elev = t.elev := by
  unfold LiftSys.returnFrom
  dsimp only
  split <;> exact ⟨rfl, rfl⟩

/-- The load of one elevator changes by `d`. -/
theorem load_setElev (t : LiftSys c) (e : Shaft) (x : Elevator c.numFloors) (d : ℤ)
    (hx : x.currentLoad = (t.elev e).currentLoad + d) (e' : Shaft) :
    ((t.setElev e x).elev e').currentLoad =
      (t.elev e').currentLoad + if e' = e then d else 0 := by
  show (Function.update t.elev e x e').currentLoad = _
  split_ifs with he
  · rw [he, Function.update_self, hx]
  · rw [Function.update_of_ne he, add_zero]

/-- A load that stays. -/
theorem load_same (t : LiftSys c) (e e' : Shaft) :
    (t.elev e').currentLoad = (t.elev e').currentLoad + if e' = e then (0 : ℤ) else 0 := by
  rw [ite_self, add_zero]

/-- A ride goes on, and neither takes nor gives back a place. -/
theorem LoadOk.go {i : Fin c.letterCarriers} {r : Ride c.numFloors} (h : LoadOk t)
    (hr : t.ride i = some r) (pc : RidePc)
    (hride : t'.ride = Function.update t.ride i (some { r with pc := pc }))
    (hload : ∀ e, (t'.elev e).currentLoad =
      (t.elev e).currentLoad + if e = r.shaft then 0 else 0)
    (hd : t'.sys.shutdown = t.sys.shutdown)
    (hcommitted : t.sys.shutdown = true → pc.committed = true → r.pc.committed = true)
    (haboard : t.sys.shutdown = false → pc.aboard = r.pc.aboard) : LoadOk t' := by
  refine h.of_move hr (some pc) 0 hride hload (by rw [add_zero]; exact h.load_le _) hd ?_ ?_
  · intro hs
    have hle := hcommitted hs
    rw [add_zero, RidePc.weight, RidePc.weight]
    split_ifs with hpc hrpc
    · exact le_refl _
    · exact absurd (hle hpc) hrpc
    · exact Int.one_nonneg
    · exact le_refl _
  · intro hs
    rw [add_zero, RidePc.weight, RidePc.weight, haboard hs]

theorem loadOk_rideStep (h : LoadOk t) {i : Fin c.letterCarriers} {r : Ride c.numFloors}
    (hr : t.ride i = some r) : LoadOk (rideStep t i r) := by
  unfold rideStep
  dsimp only
  split <;> rename_i hpc
  · -- the flag is read: a carrier that finds it set boards without a place
    refine h.go hr _ rfl (load_same t r.shaft) rfl ?_ ?_
    · intro hs
      simp [hs, RidePc.committed]
    · intro hs
      simp [hs, hpc, RidePc.aboard]
  · split_ifs with hroom
    · refine h.of_move hr (some .boarded) 1 rfl (load_setElev t r.shaft _ 1 rfl) hroom rfl ?_ ?_
      · intro _
        simp [hpc, RidePc.weight, RidePc.committed]
      · intro _
        simp [hpc, RidePc.weight, RidePc.aboard]
    · exact h
  · split_ifs with hs
    · -- the place of a carrier that returns here is lost
      obtain ⟨hride, helev⟩ := returnFrom_frame (t := t) i r false
      refine h.of_move hr none 0 hride (fun e => ?_) ?_ (returnFrom_shutdown i r false) ?_ ?_
      · rw [helev]
        exact load_same t r.shaft e
      · rw [add_zero]
        exact h.load_le _
      · intro _
        simp [hpc, RidePc.weight, RidePc.committed]
      · intro hs'
        rw [hs] at hs'
        cases hs'
    · refine h.go hr _ rfl (load_same t r.shaft) rfl ?_ ?_
      · intro hs'
        exact absurd hs' hs
      · intro _
        simp [hpc, RidePc.aboard]
  · exact h.go hr _ rfl (load_setElev t r.shaft _ 0 (add_zero _).symm) rfl
      (by simp [hpc, RidePc.committed]) (by simp [hpc, RidePc.aboard])
  · exact h.go hr _ rfl (load_setElev t r.shaft _ 0 (add_zero _).symm) rfl
      (by simp [hpc, RidePc.committed]) (by simp [hpc, RidePc.aboard])
  · refine h.go hr _ rfl (load_same t r.shaft) rfl ?_ ?_
    · intro hs
      simp [hs, hpc, RidePc.committed]
    · intro hs
      simp [hs, hpc, RidePc.aboard]
  · refine h.go hr _ rfl (load_same t r.shaft) rfl ?_ ?_
    · intro _
      split_ifs <;> simp [hpc, RidePc.committed]
    · intro _
      split_ifs <;> simp [hpc, RidePc.aboard]
  · obtain ⟨hride, helev⟩ := returnFrom_frame (t := t.setElev r.shaft
      { t.elev r.shaft with currentLoad := (t.elev r.shaft).currentLoad - 1 }) i r true
    refine h.of_move hr none (-1) hride (fun e => ?_) ?_ (returnFrom_shutdown i r true) ?_ ?_
    · rw [helev]
      exact load_setElev t r.shaft _ (-1) rfl e
    · have := h.load_le r.shaft
      omega
    · intro _
      simp [hpc, RidePc.weight, RidePc.committed]
    · intro _
      simp [hpc, RidePc.weight, RidePc.aboard]

theorem loadOk_move {a : LiftAct c} (h : LoadOk t) (hm : LiftMove t a t') : LoadOk t' := by
  cases hm with
  | proc b sys hs hb => exact h.of_same rfl (fun _ => rfl) (shutdown_step hs)
  | call i rand r hi hr hpc =>
    have hplace : ∀ p : RidePc → Bool, p .calling = false → ∀ e,
        place p e (some r) = place p e (t.ride i) + 0 := fun p hp e => by
      rw [hi, place_none, place_some, hpc, hp]
      simp
    exact h.of_ride rfl (fun _ => (add_zero _).symm) (fun e => by rw [add_zero]; exact h.load_le e)
      rfl (fun _ e => (hplace _ rfl e).le) fun _ e => hplace _ rfl e
  | ride i rand r hr => exact loadOk_rideStep h hr
  | elevator e x hx =>
    refine h.of_same rfl (fun e' => ?_) id
    have := load_setElev t e x 0 ((elevStep_currentLoad hx).trans (add_zero _).symm) e'
    rwa [ite_self, add_zero] at this

theorem loadOk_init : LoadOk (liftSystem c).init := by
  have hnone : ∀ p e, (liftSystem c).init.riders p e = 0 := fun p e => by
    refine Finset.card_eq_zero.mpr (Finset.filter_eq_empty_iff.mpr fun i _ => ?_)
    rintro ⟨r, hr, -⟩
    cases hr
  refine ⟨fun e => ?_, fun e => ?_, fun _ e => ?_⟩
  · cases e with
    | delivery => exact zero_le_one.trans c.one_le_delivery
    | reposition => exact zero_le_one.trans c.one_le_reposition
  · rw [hnone]
    exact le_refl _
  · rw [hnone]
    rfl

theorem loadOk_reachable (h : (liftSystem c).Reachable t) : LoadOk t :=
  h.induct loadOk_init fun _ _ _ ih hs => loadOk_move ih (liftMove_of_step hs)

/-- **The load bound.** Whatever the carriers and the elevators do, and whenever a shutdown comes,
each load stays between zero and the capacity; up to a shutdown it counts the carriers aboard. -/
theorem load_bounded (h : (liftSystem c).Reachable t) (e : Shaft) :
    0 ≤ (t.elev e).currentLoad ∧ (t.elev e).currentLoad ≤ c.capacity e ∧
      (t.sys.shutdown = false → (t.elev e).currentLoad = t.riders RidePc.aboard e) := by
  have hok := loadOk_reachable h
  exact ⟨(Int.natCast_nonneg _).trans (hok.committed_le e), hok.load_le e,
    fun hd => hok.aboard_eq hd e⟩

theorem load_bounded_twoLetters : ∃ t, (liftSystem (twoLetters 0 1)).runs
      (liftSystem (twoLetters 0 1)).init (twoLettersRun 0 0 1) = some t ∧
    0 ≤ (t.elev .delivery).currentLoad ∧ (t.elev .delivery).currentLoad ≤ 2 ∧
      (t.sys.shutdown = false →
        (t.elev .delivery).currentLoad = t.riders RidePc.aboard .delivery) := by
  have hrun : ((liftSystem (twoLetters 0 1)).runs (liftSystem (twoLetters 0 1)).init
      (twoLettersRun 0 0 1)).isSome = true := by decide +kernel
  obtain ⟨t, ht⟩ := Option.isSome_iff_exists.mp hrun
  exact ⟨t, ht, load_bounded (Machine.runs_reachable ht) .delivery⟩

end Cse344.HW3
