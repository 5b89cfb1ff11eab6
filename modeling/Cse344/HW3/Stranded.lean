import Cse344.HW3.Elevator

/-!
# When all letter carriers are stranded

The wait for the arrival in `request_delivery` and `request_reposition`
(`HW3/src/processes/letter_carrier.c` 78-155) has no end but the arrival and the shutdown. An
elevator that has left a floor before the carriers there have polled does not come back for them: it
goes on only while there are requests, and a carrier requests its floor once. Nor does a carrier
that rides leave any room to those that wait in `wait_for_capacity`. The monitor replaces a carrier
only when it has ended.

* `Hangs` is one carrier that waits so: in a loop for the arrival, its request cleared and the
  elevator elsewhere, or for room in a full elevator.
* `AllHang` says it of all carriers, of elevators that rest: no requests, no token of `request_sem`.

Results:
* `allHang_step`: a step that is no signal delivers nothing, and all go on waiting.
* **`stranded_for_ever`**: while a letter is left and no signal comes, no letter is delivered any
  more, the word of that letter is never completed, and the run does not end.

Out of scope: `SIGINT`, which ends all waits.
-/

namespace Cse344.HW3

open Cse344.Lib

variable {c : Building} {t t' : LiftSys c} {a : LiftAct c}

/-- The ride goes on only when an elevator moves or another carrier leaves one. -/
inductive Hangs (elev : Shaft → Elevator c.numFloors) (r : Ride c.numFloors) : Prop
  /-- in the arrival loop, its request cleared and the elevator elsewhere -/
  | arrival (hpc : r.pc = .riding ∨ r.pc = .polling) (hreq : (elev r.shaft).requests r.dest = 0)
      (hfloor : (elev r.shaft).currentFloor ≠ r.dest)
  /-- in the loop of `wait_for_capacity`, the elevator full -/
  | full (hpc : r.pc = .boarding) (hload : c.capacity r.shaft ≤ (elev r.shaft).currentLoad)

/-- An elevator is in a part of its loop in which it does not move. -/
def ElevPc.rests : ElevPc → Bool
  | .top => true
  | .waiting => true
  | .looking _ => true
  | _ => false

/-- The elevator has no request and no token to move on, and does not post one. -/
structure Elevator.Rests {nf : ℕ} (e : Elevator nf) : Prop where
  tokens : e.requestSem = 0
  requests : ∀ f, e.requests f = 0
  pc : e.pc.rests = true

structure AllHang (t : LiftSys c) : Prop where
  carriers : ∀ i, ∃ r, t.ride i = some r ∧ Hangs t.elev r
  elevators : ∀ e, (t.elev e).Rests

instance (elev : Shaft → Elevator c.numFloors) (r : Ride c.numFloors) :
    Decidable (Hangs elev r) :=
  decidable_of_iff (((r.pc = .riding ∨ r.pc = .polling) ∧ (elev r.shaft).requests r.dest = 0 ∧
      (elev r.shaft).currentFloor ≠ r.dest) ∨
        (r.pc = .boarding ∧ c.capacity r.shaft ≤ (elev r.shaft).currentLoad))
    ⟨fun h => h.elim (fun h => .arrival h.1 h.2.1 h.2.2) fun h => .full h.1 h.2,
      fun h => by
        cases h with
        | arrival hpc hreq hfloor => exact .inl ⟨hpc, hreq, hfloor⟩
        | full hpc hload => exact .inr ⟨hpc, hload⟩⟩

instance {nf : ℕ} (e : Elevator nf) : Decidable e.Rests :=
  decidable_of_iff (e.requestSem = 0 ∧ (∀ f, e.requests f = 0) ∧ e.pc.rests = true)
    ⟨fun h => ⟨h.1, h.2.1, h.2.2⟩, fun h => ⟨h.tokens, h.requests, h.pc⟩⟩

instance (t : LiftSys c) : Decidable (AllHang t) :=
  decidable_of_iff ((∀ i, (t.ride i).any (fun r => decide (Hangs t.elev r)) = true) ∧
      (t.elev .delivery).Rests ∧ (t.elev .reposition).Rests)
    ⟨fun h => ⟨fun i => by simpa [Option.any_eq_true] using h.1 i,
        fun e => by cases e <;> [exact h.2.1; exact h.2.2]⟩,
      fun h => ⟨fun i => by simpa [Option.any_eq_true] using h.carriers i,
        h.elevators .delivery, h.elevators .reposition⟩⟩

/-- Same letters to deliver, and the same ones delivered. -/
def SameDeliveries (s s' : Sys c.toSetup) : Prop :=
  ∀ w, (s'.words w).wordLen = (s.words w).wordLen ∧
    ∀ k, ((s'.words w).tasks k).delivered = ((s.words w).tasks k).delivered

theorem SameDeliveries.of_keepsTasks {s s' : Sys c.toSetup}
    (h : ∀ w, (s.words w).KeepsTasks (s'.words w)) : SameDeliveries s s' :=
  fun w => ⟨(h w).wordLen_eq, (h w).delivered_eq⟩

/-- An elevator that rests goes on resting, where it is. -/
theorem rests_elevStep {nf : ℕ} {e x : Elevator nf} (h : e.Rests)
    (hs : elevStep false e = some x) :
    x.Rests ∧ x.currentFloor = e.currentFloor ∧ x.currentLoad = e.currentLoad := by
  obtain ⟨htok, hreq, hrest⟩ := h
  cases hpc : e.pc with
  | top =>
    simp only [elevStep, hpc, Bool.false_eq_true, if_false, Option.some.injEq] at hs
    subst hs
    exact ⟨⟨htok, hreq, rfl⟩, rfl, rfl⟩
  | waiting => simp [elevStep, hpc, htok] at hs
  | looking i =>
    simp only [elevStep, hpc, hreq, Nat.lt_irrefl, if_false] at hs
    split_ifs at hs <;> obtain rfl := Option.some.inj hs <;> exact ⟨⟨htok, hreq, rfl⟩, rfl, rfl⟩
  | _ =>
    rw [hpc] at hrest
    cases hrest

/-- What a ride waits for is in the shaft alone. -/
theorem Hangs.of_elev {elev elev' : Shaft → Elevator c.numFloors} {r : Ride c.numFloors}
    (h : Hangs elev r) (hreq : (elev' r.shaft).requests r.dest = (elev r.shaft).requests r.dest)
    (hfloor : (elev' r.shaft).currentFloor = (elev r.shaft).currentFloor)
    (hload : (elev' r.shaft).currentLoad = (elev r.shaft).currentLoad) : Hangs elev' r := by
  cases h with
  | arrival hpc h0 hne => exact .arrival hpc (hreq.trans h0) (hfloor ▸ hne)
  | full hpc hle => exact .full hpc (hload ▸ hle)

/-- A carrier that waits goes round its loop. -/
theorem hangs_rideStep {i : Fin c.letterCarriers} {r : Ride c.numFloors}
    (hd : t.sys.shutdown = false) (h : Hangs t.elev r) :
    rideStep t i r = t ∨ ∃ r', rideStep t i r = t.setRide i (some r') ∧ Hangs t.elev r' := by
  cases h with
  | arrival hpc hreq hfloor =>
    refine .inr ?_
    rcases hpc with hpc | hpc
    · exact ⟨{ r with pc := .polling }, by simp [rideStep, hpc, hd],
        .arrival (.inr rfl) hreq hfloor⟩
    · exact ⟨{ r with pc := .riding }, by simp [rideStep, hpc, hreq, hfloor],
        .arrival (.inl rfl) hreq hfloor⟩
  | full hpc hload =>
    refine .inl ?_
    simp only [rideStep, hpc]
    rw [if_neg (not_lt.mpr hload)]

/-- **A step that is no signal delivers nothing**, and all go on waiting. -/
theorem allHang_step (h : AllHang t) (hd : t.sys.shutdown = false)
    (hmon : step t.sys .monitor = none) (ha : a ≠ .proc .sigint) (hs : liftStep t a = some t') :
    AllHang t' ∧ t'.sys.shutdown = false ∧ SameDeliveries t.sys t'.sys := by
  have hsame : SameDeliveries t.sys t.sys := fun _ => ⟨rfl, fun _ => rfl⟩
  cases liftMove_of_step hs with
  | proc b sys hsys hb =>
    cases b with
    | wordCarrier i =>
      refine ⟨⟨h.carriers, h.elevators⟩, ?_, .of_keepsTasks (wcStep_keepsTasks hsys).2⟩
      show sys.shutdown = false
      cases wcMove_of_step hsys <;> exact hd
    | letterCarrier i rand =>
      obtain ⟨r, hr, -⟩ := h.carriers i
      rw [hb i rand rfl] at hr
      cases hr
    | sortingProc i =>
      refine ⟨⟨h.carriers, h.elevators⟩, ?_, .of_keepsTasks (spStep_keepsTasks hsys).2⟩
      show sys.shutdown = false
      cases spMove_of_step hsys <;> exact hd
    | monitor =>
      rw [hmon] at hsys
      cases hsys
    | sigint => exact absurd rfl ha
  | call i rand r hi =>
    obtain ⟨r', hr', -⟩ := h.carriers i
    rw [hi] at hr'
    cases hr'
  | ride i rand r hr =>
    obtain ⟨r₀, hr₀, hhang⟩ := h.carriers i
    obtain rfl := Option.some.inj (hr₀.symm.trans hr)
    rcases hangs_rideStep hd hhang with heq | ⟨r', heq, hhang'⟩ <;> rw [heq]
    · exact ⟨h, hd, hsame⟩
    · refine ⟨⟨fun j => ?_, h.elevators⟩, hd, hsame⟩
      by_cases hj : j = i
      · rw [hj]
        exact ⟨r', Function.update_self .., hhang'⟩
      · obtain ⟨q, hq, hhang⟩ := h.carriers j
        exact ⟨q, (Function.update_of_ne hj ..).trans hq, hhang⟩
  | elevator e x hx =>
    rw [hd] at hx
    obtain ⟨hrests, hfloor, hload⟩ := rests_elevStep (h.elevators e) hx
    have hupd : ∀ e', (Function.update t.elev e x e').Rests ∧
        (Function.update t.elev e x e').currentFloor = (t.elev e').currentFloor ∧
        (Function.update t.elev e x e').currentLoad = (t.elev e').currentLoad :=
      (Function.forall_update_iff t.elev fun e' y => y.Rests ∧
        y.currentFloor = (t.elev e').currentFloor ∧ y.currentLoad = (t.elev e').currentLoad).mpr
        ⟨⟨hrests, hfloor, hload⟩, fun e' _ => ⟨h.elevators e', rfl, rfl⟩⟩
    refine ⟨⟨fun i => ?_, fun e' => (hupd e').1⟩, hd, hsame⟩
    obtain ⟨r, hr, hhang⟩ := h.carriers i
    refine ⟨r, hr, hhang.of_elev ?_ (hupd r.shaft).2.1 (hupd r.shaft).2.2⟩
    exact ((hupd r.shaft).1.requests r.dest).trans ((h.elevators r.shaft).requests r.dest).symm

/-- With a letter left, the word is not completed and the monitor does not end the run. -/
theorem unfinished_of_undelivered {s : Sys c.toSetup} (hr : (system c.toSetup).Reachable s)
    {w : Fin c.totalWords} {k : ℕ} (hk : k < (s.words w).wordLen)
    (hw : ((s.words w).tasks k).delivered = false) :
    (s.words w).completed = false ∧ s.doneCount < c.totalWords ∧ step s .monitor = none := by
  have ht := tally_reachable hr
  have hc : (s.words w).completed = false := by
    by_contra hc
    have := (((ht.sound w).completed_ok (Bool.eq_true_of_not_eq_false hc)) k hk).2
    rw [hw] at this
    cases this
  have hlt : ∑ v, (s.words v).completedCount < c.totalWords := by
    calc ∑ v, (s.words v).completedCount
        < ∑ _v : Fin c.totalWords, 1 := by
          refine Finset.sum_lt_sum (fun v _ => ?_) ⟨w, Finset.mem_univ w, ?_⟩
          · unfold Word.completedCount
            split_ifs <;> omega
          · simp [Word.completedCount, hc]
      _ = c.totalWords := by simp
  have hcounts := ht.counts
  have hdone : s.doneCount < c.totalWords := by omega
  exact ⟨hc, hdone, by rw [step, if_neg (by omega)]⟩

/-- **Stranded for ever.** Once every letter carrier waits for an elevator that rests, the carriers
wait in every later state, no letter is delivered, no word with a letter left is completed, and
without SIGINT the run goes on. -/
theorem stranded_for_ever (hr : (liftSystem c).Reachable t) (hd : t.sys.shutdown = false)
    (h : AllHang t) {w : Fin c.totalWords} {k : ℕ} (hk : k < (t.sys.words w).wordLen)
    (hw : ((t.sys.words w).tasks k).delivered = false)
    (hst : Relation.ReflTransGen ((liftSystem c).StepIf fun _ a => a ≠ .proc .sigint) t t') :
    AllHang t' ∧ SameDeliveries t.sys t'.sys ∧ (t'.sys.words w).completed = false ∧
      t'.sys.doneCount < c.totalWords ∧ t'.sys.shutdown = false := by
  -- what is left to say of a state in which as much is delivered as in `t`
  have hleft : ∀ {u : LiftSys c}, (liftSystem c).Reachable u → u.sys.shutdown = false →
      SameDeliveries t.sys u.sys → (u.sys.words w).completed = false ∧
        u.sys.doneCount < c.totalWords ∧ step u.sys .monitor = none := fun hu hdu hsame =>
    unfinished_of_undelivered (liftSystem_refines hu hdu) (by rw [(hsame w).1]; exact hk)
      (by rw [(hsame w).2, hw])
  have hall : (liftSystem c).Reachable t' ∧ AllHang t' ∧ t'.sys.shutdown = false ∧
      SameDeliveries t.sys t'.sys := by
    induction hst with
    | refl => exact ⟨hr, h, hd, fun _ => ⟨rfl, fun _ => rfl⟩⟩
    | tail hmid hlast ih =>
      obtain ⟨b, hb, hs⟩ := hlast
      obtain ⟨hru, hhang, hdu, hsame⟩ := ih
      obtain ⟨hhang', hdu', hstep⟩ := allHang_step hhang hdu (hleft hru hdu hsame).2.2 hb hs
      exact ⟨hru.step hs, hhang', hdu', fun v => ⟨(hstep v).1.trans (hsame v).1,
        fun j => ((hstep v).2 j).trans ((hsame v).2 j)⟩⟩
  obtain ⟨hru, hhang, hdu, hsame⟩ := hall
  obtain ⟨hc, hdone, -⟩ := hleft hru hdu hsame
  exact ⟨hhang, hsame, hc, hdone, hdu⟩

/-- The elevator looks for requests and waits, a carrier polls, and the sorting process passes over
the word. -/
def twoLettersRest {ground first : Fin 3} (i : Fin 2) (j : Fin 1) :
    List (LiftAct (twoLetters ground first)) :=
  List.replicate 3 (.elevator .delivery) ++ List.replicate 2 (.proc (.letterCarrier i ground)) ++
    List.replicate 2 (.proc (.sortingProc j))

theorem stranded_for_ever_twoLetters :
    ∃ t t', (liftSystem (twoLetters 0 1)).runs (liftSystem (twoLetters 0 1)).init
        (twoLettersRun 0 0 1) = some t ∧
      (liftSystem (twoLetters 0 1)).runs t (twoLettersRest 0 0) = some t' ∧
      AllHang t' ∧ SameDeliveries t.sys t'.sys ∧
        (t'.sys.words (0 : Fin 1)).completed = false ∧ t'.sys.doneCount < 1 ∧
        t'.sys.shutdown = false := by
  have hrun : ((liftSystem (twoLetters 0 1)).runs (liftSystem (twoLetters 0 1)).init
      (twoLettersRun 0 0 1)).map (fun t => (decide (AllHang t), t.sys.shutdown,
        (t.sys.words (0 : Fin 1)).wordLen, ((t.sys.words (0 : Fin 1)).tasks 0).delivered,
        ((liftSystem (twoLetters 0 1)).runs t (twoLettersRest 0 0)).isSome)) =
      some (true, false, 2, false, true) := by decide +kernel
  obtain ⟨t, ht, h⟩ := Option.map_eq_some_iff.mp hrun
  simp only [Prod.mk.injEq, decide_eq_true_eq] at h
  obtain ⟨hhang, hd, hlen, hw, hrest⟩ := h
  obtain ⟨t', ht'⟩ := Option.isSome_iff_exists.mp hrest
  have hst : Relation.ReflTransGen ((liftSystem (twoLetters 0 1)).StepIf fun _ a =>
      a ≠ .proc .sigint) t t' :=
    Machine.stepsIf_of_runs ht' (Machine.AllSteps.of_forall (by decide))
  exact ⟨t, t', ht, ht', stranded_for_ever (Machine.runs_reachable ht) hd hhang
    (by rw [hlen]; exact Nat.two_pos) hw hst⟩

end Cse344.HW3
