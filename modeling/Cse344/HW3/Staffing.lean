import Cse344.Lib.Machine
import Mathlib.Data.List.Forall2
import Mathlib.Logic.Function.Basic

/-!
# The monitor of the letter carriers

Model of `spawn_all`, `count_live_lc_on_floor`, `spawn_replacement_lc` and `monitor_loop`
(`HW3/src/processes/process_spawn.c` 85-240) for the table `lc_states`. The parent zeroes it, forks
the letter carriers of every floor and enters `monitor_loop`, which goes over the floors: where
`count_live_lc_on_floor` is 0 it forks `letter_carriers_per_floor` replacements.

* The count looks at each slot of the table in up to four steps: it reads `pid`, then
  `current_floor`, asks `waitpid` about the process, and sets `pid` to 0 if it has ended.
* The carriers themselves fill the table: after the fork a carrier writes its `pid` into its slot,
  and then its floor. All replacements of a floor have one slot, the floor's first.
* A process is its index among the carriers, and no index is used twice. A carrier may end at any
  point of its program (`die`), and a fork of the monitor may fail.
* `Staffed` is what the monitor is for. `NoneMissed` says of a step that the monitor, its count
  still 0, does not pass over the slot of a live carrier of the floor.

Results:
* **`staffing_kept`**: in a run of such steps, no floor ever has more than `perFloor` live carriers,
  and a replacement is forked only when none but the replacements just forked is alive.
* **`staffing_broken`**: a monitor that looks before the first carrier has written its `pid` forks a
  second one.

Out of scope: what the carriers do for the words, which is `Cse344.HW3.System`.
-/

namespace Cse344.HW3.Staffing

open Cse344.Lib

/-- The part of `t_config` the monitor reads. -/
structure Config where
  numFloors : ℕ
  perFloor : ℕ

/-- `total_lc`. -/
def Config.totalLc (c : Config) : ℕ := c.numFloors * c.perFloor

/-- How far a letter carrier is after its fork. -/
inductive Stage
  /-- It has written nothing. -/
  | forked
  /-- `lc_states[lc_idx].pid` is written. -/
  | pidWritten
  /-- `lc_states[lc_idx].current_floor` is written; `run_letter_carrier` leaves the table alone. -/
  | running
  deriving DecidableEq

/-- A letter carrier: the floor it was started for, its `lc_idx`, and whether it still lives. -/
structure Carrier where
  floor : ℕ
  slot : ℕ
  stage : Stage
  alive : Bool
  deriving DecidableEq

/-- `t_lc_state`. A `pid` of 0 is `none`. -/
structure Slot where
  pid : Option ℕ
  floor : ℕ
  deriving DecidableEq

/-- Where `monitor_loop` stands; `i` is the slot looked at and `count` the count so far. -/
inductive MonitorPc
  /-- The head of the loop. -/
  | round
  /-- About to read `lc_states[i].pid`. -/
  | scan (floor i count : ℕ)
  /-- About to read `lc_states[i].current_floor`. -/
  | readFloor (floor i count pid : ℕ)
  /-- About to call `waitpid`. -/
  | wait (floor i count pid : ℕ)
  /-- About to set `lc_states[i].pid` to 0. -/
  | clear (floor i count : ℕ)
  /-- No one was counted, and `i` replacements have been tried. -/
  | spawn (floor i : ℕ)
  /-- Past the loop. -/
  | left
  deriving DecidableEq

structure St where
  carriers : List Carrier
  lcStates : ℕ → Slot
  pc : MonitorPc

inductive Act
  /-- One step of the monitor. At the head of the loop `ok` says whether it goes on, and at a fork
  whether that succeeds. -/
  | monitor (ok : Bool)
  /-- Carrier `k` makes its next write to the table. -/
  | carrier (k : ℕ)
  /-- Carrier `k` ends. -/
  | die (k : ℕ)
  deriving DecidableEq

/-- `spawn_letter_carrier`, with `proc_index` `i`. -/
def spawnLetterCarrier (c : Config) (f i : ℕ) : Carrier :=
  { floor := f, slot := f * c.perFloor + i, stage := .forked, alive := true }

/-- `spawn_replacement_lc`: whichever replacement it is, it gets the floor's first slot. -/
def spawnReplacementLc (c : Config) (f : ℕ) : Carrier :=
  { floor := f, slot := f * c.perFloor, stage := .forked, alive := true }

/-- The letter carriers of `spawn_all`. -/
def spawnAll (c : Config) : List Carrier :=
  (List.range c.numFloors).flatMap fun f => (List.range c.perFloor).map (spawnLetterCarrier c f)

namespace St

/-- Whether `waitpid` with `WNOHANG` returns 0. -/
def isAlive (s : St) (k : ℕ) : Bool := (s.carriers[k]?.map Carrier.alive).getD false

/-- The number of live letter carriers started for floor `f`. -/
def live (s : St) (f : ℕ) : ℕ := s.carriers.countP fun k => k.alive && k.floor == f

def setCarrier (s : St) (k : ℕ) (x : Carrier) : St := { s with carriers := s.carriers.set k x }

def setSlot (s : St) (i : ℕ) (x : Slot) : St :=
  { s with lcStates := Function.update s.lcStates i x }

/-- One more letter carrier. -/
def fork (s : St) (x : Carrier) : St := { s with carriers := s.carriers ++ [x] }

def goto (s : St) (pc : MonitorPc) : St := { s with pc }

end St

/-- The `for` loop over the floors, about to look at `f`. -/
def atFloor (c : Config) (f : ℕ) : MonitorPc :=
  if f < c.numFloors then .scan f 0 0 else .round

/-- One step of `monitor_loop`, `count_live_lc_on_floor` included. -/
def monitorStep (c : Config) (s : St) (ok : Bool) : Option St :=
  match s.pc with
  | .round => some (s.goto (if ok then atFloor c 0 else .left))
  | .scan f i count =>
    if i < c.totalLc then
      match (s.lcStates i).pid with
      | none => some (s.goto (.scan f (i + 1) count))
      | some pid => some (s.goto (.readFloor f i count pid))
    else if count = 0 then some (s.goto (.spawn f 0))
    else some (s.goto (atFloor c (f + 1)))
  | .readFloor f i count pid =>
    if (s.lcStates i).floor = f then some (s.goto (.wait f i count pid))
    else some (s.goto (.scan f (i + 1) count))
  | .wait f i count pid =>
    if s.isAlive pid then some (s.goto (.scan f (i + 1) (count + 1)))
    else some (s.goto (.clear f i count))
  | .clear f i count =>
    some ((s.setSlot i { s.lcStates i with pid := none }).goto (.scan f (i + 1) count))
  | .spawn f i =>
    if i < c.perFloor then
      if ok then some ((s.fork (spawnReplacementLc c f)).goto (.spawn f (i + 1)))
      else some (s.goto (.spawn f (i + 1)))
    else some (s.goto (atFloor c (f + 1)))
  | .left => none

/-- The next write of carrier `k` to the table. -/
def carrierStep (s : St) (k : ℕ) : Option St :=
  match s.carriers[k]? with
  | none => none
  | some x =>
    if x.alive then
      match x.stage with
      | .forked => some ((s.setSlot x.slot { s.lcStates x.slot with pid := some k }).setCarrier k
          { x with stage := .pidWritten })
      | .pidWritten => some ((s.setSlot x.slot
          { s.lcStates x.slot with floor := x.floor }).setCarrier k { x with stage := .running })
      | .running => none
    else none

/-- Carrier `k` ends. -/
def dieStep (s : St) (k : ℕ) : Option St :=
  match s.carriers[k]? with
  | none => none
  | some x => if x.alive then some (s.setCarrier k { x with alive := false }) else none

/-- The monitor and the letter carriers, from the end of `spawn_all`. -/
def machine (c : Config) : Machine St Act where
  init := { carriers := spawnAll c, lcStates := fun _ => { pid := none, floor := 0 }, pc := .round }
  step s a :=
    match a with
    | .monitor ok => monitorStep c s ok
    | .carrier k => carrierStep s k
    | .die k => dieStep s k

/-! ## The configured staffing -/

/-- No floor has more than `perFloor` live carriers. When the monitor has found a floor empty, none
of its carriers is alive but the replacements forked since. -/
structure Staffed (c : Config) (s : St) : Prop where
  le : ∀ f, s.live f ≤ c.perFloor
  spawn : ∀ f i, s.pc = .spawn f i → s.live f ≤ i

/-- The floor and the slot that a step passes over without counting it, the count being 0. -/
def passesOver (c : Config) (s : St) (a : Act) : Option (ℕ × ℕ) :=
  match a, s.pc with
  | .monitor _, .scan f i 0 =>
    if i < c.totalLc ∧ (s.lcStates i).pid = none then some (f, i) else none
  | .monitor _, .readFloor f i 0 _ => if (s.lcStates i).floor = f then none else some (f, i)
  | .monitor _, .wait f i 0 pid => if s.isAlive pid then none else some (f, i)
  | _, _ => none

/-- The slot passed over is not that of a live carrier of the floor. -/
def NoneMissed (c : Config) (s : St) (a : Act) : Prop :=
  ∀ x ∈ passesOver c s a, ∀ k ∈ s.carriers, k.alive = true → k.floor = x.1 → k.slot ≠ x.2

instance (c : Config) (s : St) (a : Act) : Decidable (NoneMissed c s a) :=
  inferInstanceAs (Decidable (∀ x ∈ passesOver c s a, ∀ k ∈ s.carriers,
    k.alive = true → k.floor = x.1 → k.slot ≠ x.2))

variable {c : Config} {s s' : St}

/-! ## What becomes of the carriers -/

/-- `x'` is `x` later on. -/
def Later (x x' : Carrier) : Prop :=
  x'.floor = x.floor ∧ x'.slot = x.slot ∧ (x'.alive = true → x.alive = true)

theorem Later.refl (x : Carrier) : Later x x := ⟨rfl, rfl, id⟩

theorem later_set {l : List Carrier} {k : ℕ} {x x' : Carrier} (hx : l[k]? = some x)
    (h : Later x x') : List.Forall₂ Later l (l.set k x') := by
  induction l generalizing k with
  | nil => cases hx
  | cons y ys ih =>
    cases k with
    | zero =>
      obtain rfl := Option.some.inj hx
      exact .cons h (List.forall₂_same.mpr fun z _ => Later.refl z)
    | succ k => exact .cons (Later.refl y) (ih hx)

theorem exists_earlier {l l' : List Carrier} (h : List.Forall₂ Later l l') {x' : Carrier}
    (hx : x' ∈ l') : ∃ x ∈ l, Later x x' := by
  induction h with
  | nil => cases hx
  | cons hh _ ih =>
    rcases List.mem_cons.mp hx with rfl | hx
    · exact ⟨_, List.mem_cons_self, hh⟩
    · obtain ⟨x, hmem, hl⟩ := ih hx
      exact ⟨x, List.mem_cons_of_mem _ hmem, hl⟩

theorem countP_later {l l' : List Carrier} (h : List.Forall₂ Later l l') (f : ℕ) :
    l'.countP (fun k => k.alive && k.floor == f) ≤
      l.countP fun k => k.alive && k.floor == f := by
  induction h with
  | nil => exact Nat.le_refl _
  | @cons x x' xs xs' hh _ ih =>
    obtain ⟨hfloor, -, halive⟩ := hh
    rw [List.countP_cons, List.countP_cons, hfloor]
    cases h' : x'.alive with
    | true =>
      rw [halive h']
      exact Nat.add_le_add_right ih _
    | false => exact Nat.le_trans ih (Nat.le_add_right _ _)

/-- The carriers only write and end; the monitor stands still. -/
theorem later_of_not_monitor {a : Act} (h : (machine c).step s a = some s')
    (ha : ∀ ok, a ≠ .monitor ok) : List.Forall₂ Later s.carriers s'.carriers ∧ s'.pc = s.pc := by
  cases a with
  | monitor ok => exact absurd rfl (ha ok)
  | carrier k =>
    replace h : carrierStep s k = some s' := h
    unfold carrierStep at h
    split at h
    · cases h
    · rename_i x hx
      split_ifs at h
      split at h <;> cases h <;> exact ⟨later_set hx ⟨rfl, rfl, id⟩, rfl⟩
  | die k =>
    replace h : dieStep s k = some s' := h
    unfold dieStep at h
    split at h
    · cases h
    · rename_i x hx
      split_ifs at h with halive
      cases h
      exact ⟨later_set hx ⟨rfl, rfl, fun _ => halive⟩, rfl⟩

/-! ## What the monitor has passed over -/

/-- The floor the monitor is at. -/
def MonitorPc.floor : MonitorPc → Option ℕ
  | .scan f _ _ => some f
  | .readFloor f _ _ _ => some f
  | .wait f _ _ _ => some f
  | .clear f _ _ => some f
  | .spawn f _ => some f
  | _ => none

/-- The floor and the number of slots done, as long as the count is 0. -/
def MonitorPc.passed : MonitorPc → Option (ℕ × ℕ)
  | .scan f i 0 => some (f, i)
  | .readFloor f i 0 _ => some (f, i)
  | .wait f i 0 _ => some (f, i)
  | .clear f i 0 => some (f, i + 1)
  | _ => none

theorem MonitorPc.passed_scan (f i count : ℕ) :
    (MonitorPc.scan f i count).passed = if count = 0 then some (f, i) else none := by
  cases count <;> rfl

theorem MonitorPc.passed_readFloor (f i count pid : ℕ) :
    (MonitorPc.readFloor f i count pid).passed = if count = 0 then some (f, i) else none := by
  cases count <;> rfl

theorem MonitorPc.passed_wait (f i count pid : ℕ) :
    (MonitorPc.wait f i count pid).passed = if count = 0 then some (f, i) else none := by
  cases count <;> rfl

theorem MonitorPc.passed_clear (f i count : ℕ) :
    (MonitorPc.clear f i count).passed = if count = 0 then some (f, i + 1) else none := by
  cases count <;> rfl

/-- The live carriers of floor `f` all have slots from `i` on. -/
def From (l : List Carrier) (f i : ℕ) : Prop :=
  ∀ k ∈ l, k.alive = true → k.floor = f → i ≤ k.slot

theorem From.succ {l : List Carrier} {f i : ℕ} (h : From l f i)
    (hi : ∀ k ∈ l, k.alive = true → k.floor = f → k.slot ≠ i) : From l f (i + 1) :=
  fun k hk halive hf => Nat.lt_of_le_of_ne (h k hk halive hf) (hi k hk halive hf).symm

/-- As long as it has counted no one, the live carriers of the floor have slots that the monitor has
not passed over. -/
structure Inv (c : Config) (s : St) : Prop where
  slot : ∀ k ∈ s.carriers, k.slot < c.totalLc
  floor : ∀ f, s.pc.floor = some f → f < c.numFloors
  passed : ∀ f i, s.pc.passed = some (f, i) → From s.carriers f i
  staffed : Staffed c s

theorem Inv.goto (h : Inv c s) {pc : MonitorPc} (hc : s'.carriers = s.carriers) (hpc : s'.pc = pc)
    (hfloor : ∀ f, pc.floor = some f → f < c.numFloors)
    (hpassed : ∀ f i, pc.passed = some (f, i) → From s.carriers f i)
    (hspawn : ∀ f i, pc = .spawn f i → s.live f ≤ i) : Inv c s' := by
  have hlive : ∀ f, s'.live f = s.live f := fun f => by rw [St.live, hc, St.live]
  refine ⟨by rw [hc]; exact h.slot, by rw [hpc]; exact hfloor, ?_, fun f => ?_, fun f i hf => ?_⟩
  · rw [hpc, hc]
    exact hpassed
  · rw [hlive]
    exact h.staffed.le f
  · rw [hlive]
    exact hspawn f i (hpc.symm.trans hf)

/-- At the head of the loop, or past it. -/
theorem Inv.outside (h : Inv c s) {pc : MonitorPc} (hc : s'.carriers = s.carriers)
    (hpc : s'.pc = pc) (hout : pc = .round ∨ pc = .left) : Inv c s' := by
  rcases hout with rfl | rfl
  · refine h.goto hc hpc ?_ ?_ ?_ <;> intros <;> contradiction
  · refine h.goto hc hpc ?_ ?_ ?_ <;> intros <;> contradiction

/-- On to the next floor, or to the next round. -/
theorem Inv.atFloor (h : Inv c s) {f : ℕ} (hc : s'.carriers = s.carriers)
    (hpc : s'.pc = atFloor c f) : Inv c s' := by
  unfold Staffing.atFloor at hpc
  split at hpc
  · rename_i hf
    refine h.goto hc hpc (fun g hg => ?_) (fun g i hg k _ _ _ => ?_) fun g i hg => ?_
    · obtain rfl := Option.some.inj hg
      exact hf
    · obtain ⟨rfl, rfl⟩ := Prod.mk.inj (Option.some.inj hg)
      exact Nat.zero_le _
    · cases hg
  · exact h.outside hc hpc (.inl rfl)

theorem Inv.later (h : Inv c s) (hl : List.Forall₂ Later s.carriers s'.carriers)
    (hpc : s'.pc = s.pc) : Inv c s' := by
  refine ⟨fun k hk => ?_, by rw [hpc]; exact h.floor, fun f i hp k hk halive hf => ?_,
    fun f => Nat.le_trans (countP_later hl f) (h.staffed.le f),
    fun f i hp => Nat.le_trans (countP_later hl f) (h.staffed.spawn f i (hpc.symm.trans hp))⟩
  · obtain ⟨x, hx, -, hslot, -⟩ := exists_earlier hl hk
    rw [hslot]
    exact h.slot x hx
  · obtain ⟨x, hx, hfloor, hslot, hal⟩ := exists_earlier hl hk
    rw [hpc] at hp
    rw [hslot]
    exact h.passed f i hp x hx (hal halive) (hfloor.symm.trans hf)

/-- Within the count of a floor: either someone has been counted, or the live carriers of the floor
have slots from `j` on. -/
theorem Inv.counting (h : Inv c s) {pc : MonitorPc} {f j count : ℕ} (hf : s.pc.floor = some f)
    (hc : s'.carriers = s.carriers) (hpc : s'.pc = pc) (hfloor : pc.floor = some f)
    (hpassed : pc.passed = if count = 0 then some (f, j) else none)
    (hspawn : ∀ g i, pc ≠ .spawn g i) (hfrom : count = 0 → From s.carriers f j) : Inv c s' := by
  refine h.goto hc hpc (fun g hg => ?_) (fun g i hp => ?_) fun g i hp => absurd hp (hspawn g i)
  · obtain rfl := Option.some.inj (hfloor.symm.trans hg)
    exact h.floor f hf
  · rw [hpassed] at hp
    split_ifs at hp with h0
    obtain ⟨rfl, rfl⟩ := Prod.mk.inj (Option.some.inj hp)
    exact hfrom h0

/-- On to the next slot. -/
theorem Inv.nextSlot (h : Inv c s) {f i count : ℕ} (hf : s.pc.floor = some f)
    (hc : s'.carriers = s.carriers) (hpc : s'.pc = .scan f (i + 1) count)
    (hfrom : count = 0 → From s.carriers f (i + 1)) : Inv c s' :=
  h.counting hf hc hpc rfl (MonitorPc.passed_scan f (i + 1) count)
    (fun _ _ => MonitorPc.noConfusion) hfrom

/-- On to the forks, or to the next of them. -/
theorem Inv.spawning (h : Inv c s) {f i : ℕ} (hf : s.pc.floor = some f)
    (hc : s'.carriers = s.carriers) (hpc : s'.pc = .spawn f i) (hlive : s.live f ≤ i) :
    Inv c s' := by
  refine h.goto hc hpc (fun g hg => ?_) (fun g j hp => (by cases hp)) fun g j hp => ?_
  · obtain rfl := Option.some.inj hg
    exact h.floor f hf
  · obtain ⟨rfl, rfl⟩ := MonitorPc.spawn.inj hp
    exact hlive

/-- A replacement is forked. -/
theorem Inv.replace (h : Inv c s) {f i : ℕ} (hpc : s.pc = .spawn f i) (hi : i < c.perFloor) :
    Inv c ((s.fork (spawnReplacementLc c f)).goto (.spawn f (i + 1))) := by
  have hf : f < c.numFloors := h.floor f (by rw [hpc]; rfl)
  have hlive : ∀ g, ((s.fork (spawnReplacementLc c f)).goto (.spawn f (i + 1))).live g =
      s.live g + if f = g then 1 else 0 := fun g => by
    simp [St.live, St.fork, St.goto, spawnReplacementLc, List.countP_cons]
  have hspawn := h.staffed.spawn f i hpc
  refine ⟨fun k hk => ?_, fun g hg => ?_, fun g j hp => (by cases hp), fun g => ?_,
    fun g j hg => ?_⟩
  · rcases List.mem_append.mp hk with hk | hk
    · exact h.slot k hk
    · obtain rfl := List.mem_singleton.mp hk
      exact Nat.lt_of_lt_of_le (Nat.lt_add_of_pos_right (Nat.zero_lt_of_lt hi))
        (Nat.le_trans (Nat.le_of_eq (Nat.succ_mul f c.perFloor).symm)
          (Nat.mul_le_mul_right c.perFloor hf))
  · obtain rfl := Option.some.inj hg
    exact hf
  · rw [hlive]
    split
    · rename_i hfg
      subst hfg
      omega
    · exact h.staffed.le g
  · obtain ⟨rfl, rfl⟩ := MonitorPc.spawn.inj hg
    rw [hlive, if_pos rfl]
    omega

/-- A floor where no one was counted has no live carrier. -/
theorem live_eq_zero (h : Inv c s) {f i : ℕ} (hi : c.totalLc ≤ i) (hfrom : From s.carriers f i) :
    s.live f = 0 := by
  refine List.countP_eq_zero.mpr fun k hk hlive => ?_
  obtain ⟨halive, hf⟩ := Bool.and_eq_true_iff.mp hlive
  have hge := hfrom k hk halive (beq_iff_eq.mp hf)
  have hlt := h.slot k hk
  omega

theorem Inv.monitorStep {ok : Bool} (h : Inv c s) (hok : NoneMissed c s (.monitor ok))
    (hs : monitorStep c s ok = some s') : Inv c s' := by
  unfold Staffing.monitorStep at hs
  unfold NoneMissed passesOver at hok
  split at hs <;> rename_i hpc
  · -- `round`
    split_ifs at hs with hb <;> cases hs
    · exact h.atFloor rfl rfl
    · exact h.outside rfl rfl (.inr rfl)
  · -- `scan`
    rename_i f i count
    have hf : s.pc.floor = some f := by rw [hpc]; rfl
    have hfrom : count = 0 → From s.carriers f i := fun h0 =>
      h.passed f i (by rw [hpc, h0]; rfl)
    split_ifs at hs with hi h0
    · split at hs <;> rename_i hpid <;> cases hs
      · refine h.nextSlot hf rfl rfl fun h0 => (hfrom h0).succ ?_
        subst h0
        exact hok (f, i) (by rw [hpc]; exact if_pos ⟨hi, hpid⟩)
      · exact h.counting hf rfl rfl rfl (MonitorPc.passed_readFloor _ _ _ _)
          (fun _ _ => MonitorPc.noConfusion) hfrom
    · cases hs
      exact h.spawning hf rfl rfl (Nat.le_of_eq (live_eq_zero h (Nat.le_of_not_lt hi) (hfrom h0)))
    · cases hs
      exact h.atFloor rfl rfl
  · -- `readFloor`
    rename_i f i count pid
    have hf : s.pc.floor = some f := by rw [hpc]; rfl
    have hfrom : count = 0 → From s.carriers f i := fun h0 =>
      h.passed f i (by rw [hpc, h0]; rfl)
    split_ifs at hs with hfloor <;> cases hs
    · exact h.counting hf rfl rfl rfl (MonitorPc.passed_wait _ _ _ _)
        (fun _ _ => MonitorPc.noConfusion) hfrom
    · refine h.nextSlot hf rfl rfl fun h0 => (hfrom h0).succ ?_
      subst h0
      exact hok (f, i) (by rw [hpc]; exact if_neg hfloor)
  · -- `wait`
    rename_i f i count pid
    have hf : s.pc.floor = some f := by rw [hpc]; rfl
    have hfrom : count = 0 → From s.carriers f i := fun h0 =>
      h.passed f i (by rw [hpc, h0]; rfl)
    split_ifs at hs with halive <;> cases hs
    · exact h.nextSlot hf rfl rfl fun h0 => (Nat.succ_ne_zero count h0).elim
    · refine h.counting hf rfl rfl rfl (MonitorPc.passed_clear _ _ _)
        (fun _ _ => MonitorPc.noConfusion) fun h0 => (hfrom h0).succ ?_
      subst h0
      exact hok (f, i) (by rw [hpc]; exact if_neg halive)
  · -- `clear`
    rename_i f i count
    cases hs
    exact h.nextSlot (by rw [hpc]; rfl) rfl rfl fun h0 => h.passed f (i + 1) (by rw [hpc, h0]; rfl)
  · -- `spawn`
    rename_i f i
    have hf : s.pc.floor = some f := by rw [hpc]; rfl
    split_ifs at hs with hi hb <;> cases hs
    · exact h.replace hpc hi
    · exact h.spawning hf rfl rfl (Nat.le_succ_of_le (h.staffed.spawn f i hpc))
    · exact h.atFloor rfl rfl
  · cases hs

theorem Inv.step {a : Act} (h : Inv c s) (hok : NoneMissed c s a)
    (hs : (machine c).step s a = some s') : Inv c s' := by
  cases a with
  | monitor ok => exact h.monitorStep hok hs
  | carrier k =>
    obtain ⟨hl, hpc⟩ := later_of_not_monitor hs fun ok => Act.noConfusion
    exact h.later hl hpc
  | die k =>
    obtain ⟨hl, hpc⟩ := later_of_not_monitor hs fun ok => Act.noConfusion
    exact h.later hl hpc

/-! ## From the end of `spawn_all` -/

theorem mem_spawnAll {k : Carrier} : k ∈ spawnAll c ↔
    ∃ f < c.numFloors, ∃ i < c.perFloor, spawnLetterCarrier c f i = k := by
  simp only [spawnAll, List.mem_flatMap, List.mem_map, List.mem_range]

theorem countP_spawnAll (f : ℕ) :
    (spawnAll c).countP (fun k => k.alive && k.floor == f) ≤ c.perFloor := by
  have hone : ∀ g, ((List.range c.perFloor).map (spawnLetterCarrier c g)).countP
      (fun k => k.alive && k.floor == f) = if g = f then c.perFloor else 0 := fun g => by
    rw [List.countP_map]
    split
    · rename_i hg
      rw [List.countP_eq_length.mpr fun i _ => by simp [spawnLetterCarrier, hg], List.length_range]
    · rename_i hg
      exact List.countP_eq_zero.mpr fun i _ => by simp [spawnLetterCarrier, hg]
  rw [spawnAll, List.countP_flatMap]
  have hsum : ∀ n, ((List.range n).map fun g => if g = f then c.perFloor else 0).sum =
      if f < n then c.perFloor else 0 := fun n => by
    induction n with
    | zero => rfl
    | succ n ih =>
      rw [List.range_succ, List.map_append, List.sum_append, ih]
      simp only [List.map_cons, List.map_nil, List.sum_cons, List.sum_nil]
      split_ifs <;> omega
  calc ((List.range c.numFloors).map _).sum
      = ((List.range c.numFloors).map fun g => if g = f then c.perFloor else 0).sum :=
        congrArg _ (List.map_congr_left fun g _ => hone g)
    _ = if f < c.numFloors then c.perFloor else 0 := hsum _
    _ ≤ c.perFloor := by split <;> omega

theorem inv_init (c : Config) : Inv c (machine c).init where
  slot := fun k hk => by
    obtain ⟨f, hf, i, hi, rfl⟩ := mem_spawnAll.mp hk
    calc f * c.perFloor + i
        < (f + 1) * c.perFloor := by rw [Nat.succ_mul]; omega
      _ ≤ c.numFloors * c.perFloor := Nat.mul_le_mul_right _ hf
  floor := fun f hf => by cases hf
  passed := fun f i hp => by cases hp
  staffed := ⟨countP_spawnAll, fun f i hp => by cases hp⟩

/-- **The staffing is kept** in every run where the monitor, having counted no one, passes over no
slot of a live carrier of the floor. -/
theorem staffing_kept (c : Config) (as : List Act)
    (h : (machine c).AllSteps (NoneMissed c) (machine c).init as) :
    (machine c).AllStates (Staffed c) (machine c).init as :=
  h.allStates (fun _ _ _ hI hok hs => hI.step hok hs) (fun _ hI => hI.staffed) (inv_init c)

/-- One floor with one letter carrier. -/
def oneCarrier : Config := { numFloors := 1, perFloor := 1 }

/-- The carrier fills its slot and is counted; it ends, and the next round forks another one. -/
def countedRun : List Act :=
  [.carrier 0, .carrier 0, .monitor true, .monitor true, .monitor true, .monitor true,
    .monitor true, .die 0, .monitor true, .monitor true, .monitor true, .monitor true,
    .monitor true, .monitor true, .monitor true]

theorem staffing_kept_countedRun :
    (machine oneCarrier).AllSteps (NoneMissed oneCarrier) (machine oneCarrier).init countedRun ∧
      (machine oneCarrier).AllStates (Staffed oneCarrier) (machine oneCarrier).init countedRun ∧
      ∃ s, (machine oneCarrier).runs (machine oneCarrier).init countedRun = some s ∧
        s.carriers.length = 2 ∧ s.live 0 = 1 :=
  have h : (machine oneCarrier).AllSteps (NoneMissed oneCarrier) (machine oneCarrier).init
      countedRun := by decide
  ⟨h, staffing_kept oneCarrier countedRun h, _, rfl, rfl, rfl⟩

/-- The monitor looks at the slot before the carrier has written its `pid`. -/
theorem staffing_broken : ∃ as s, (machine oneCarrier).runs (machine oneCarrier).init as = some s ∧
    oneCarrier.perFloor < s.live 0 :=
  ⟨[.monitor true, .monitor true, .monitor true, .monitor true], _, rfl, by decide⟩

end Cse344.HW3.Staffing
