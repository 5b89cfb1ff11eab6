import Cse344.HW3.Sorting

/-!
# Who works on a word

What a step of the word carriers (`HW3/src/processes/word_carrier.c` 56-111) and of the sorting
processes (`sorting_proc.c` 34-116) needs of a word. A word carrier claims a word before it admits
it, and a sorting process works on admitted words of its own floor.

* `WcMove` lists the moves of a word carrier, with all that each changes.
* `LcFrame` is what a letter carrier leaves as it is: it changes no flag of a word.
* `Held`: a claimed word is in the hands of one word carrier, and an admitted one stays claimed.
* `Sorters`: a sorting process past the first test of `sort_step` is at an admitted word of its
  floor, and only admitted words are completed.

Results:
* `wcMove_of_step`, `lcStep_frame`: every step of theirs is such a move.
* `held_step`, `sorters_spStep`: the two invariants are kept by every step.

Out of scope: the counters, which are in `Cse344.HW3.Admission` and `Cse344.HW3.Floors`.
-/

namespace Cse344.HW3

open Cse344.Lib

variable {c : Setup}

/-! ## The moves of a word carrier -/

/-- The word a carrier has claimed. -/
def WcPc.held {words : ℕ} : WcPc words → Option (Fin words)
  | .admitting w => some w
  | .setArrival w => some w
  | .setAdmitted w => some w
  | .setSrc w _ => some w
  | .incAdmitted w => some w
  | .refused w => some w
  | _ => none

inductive WcMove (s : Sys c) (i : Fin c.wordCarriers) : Sys c → Prop
  /-- The carrier holds no word. -/
  | walk (pc : WcPc c.totalWords) (rr : ℕ) (hfrom : (s.wc i).held = none) (hto : pc.held = none) :
      WcMove s i { s.setWc i pc with rrIndex := rr }
  | claim (w : Fin c.totalWords) (hpc : s.wc i = .claim w) (hcl : (s.words w).claimed = false)
      (had : (s.words w).admitted = false) :
      WcMove s i ((s.setWord w { s.words w with claimed := true }).setWc i (.admitting w))
  | admits (w : Fin c.totalWords) (floors : Fin c.numFloors → ℤ) (hpc : s.wc i = .admitting w)
      (ht : tryAdmit c.maxWordsPerFloor s.floors (s.words w).sortingFloor (c.wordCarrierFloor i) =
        some floors) : WcMove s i { s.setWc i (.setArrival w) with floors := floors }
  | refuse (w : Fin c.totalWords) (hpc : s.wc i = .admitting w) :
      WcMove s i (s.setWc i (.refused w))
  | arrive (w : Fin c.totalWords) (hpc : s.wc i = .setArrival w) :
      WcMove s i ((s.setWord w
        { s.words w with arrivalFloor := some (c.wordCarrierFloor i) }).setWc i (.setAdmitted w))
  | admitted (w : Fin c.totalWords) (hpc : s.wc i = .setAdmitted w) :
      WcMove s i ((s.setWord w { s.words w with admitted := true }).setWc i (.setSrc w 0))
  | source (w : Fin c.totalWords) (j : ℕ) (hpc : s.wc i = .setSrc w j) :
      WcMove s i ((s.setWord w (setSrcFloor (s.words w) j (c.wordCarrierFloor i))).setWc i
        (.setSrc w (j + 1)))
  | sourced (w : Fin c.totalWords) (j : ℕ) (hpc : s.wc i = .setSrc w j) :
      WcMove s i (s.setWc i (.incAdmitted w))
  | count (w : Fin c.totalWords) (hpc : s.wc i = .incAdmitted w) :
      WcMove s i { s.setWc i .top with admittedCount := s.admittedCount + 1 }
  | unclaim (w : Fin c.totalWords) (hpc : s.wc i = .refused w) :
      WcMove s i ((s.setWord w { s.words w with claimed := false }).setWc i .top)

theorem wcMove_of_step {s s' : Sys c} {i : Fin c.wordCarriers} (h : wcStep s i = some s') :
    WcMove s i s' := by
  unfold wcStep at h
  dsimp only at h
  split at h <;> rename_i hpc
  · obtain rfl := Option.some.inj h
    exact .walk _ s.rrIndex (by rw [hpc]; rfl) (by split <;> rfl)
  · obtain rfl := Option.some.inj h
    exact .walk _ s.rrIndex (by rw [hpc]; rfl) (by split <;> rfl)
  · obtain rfl := Option.some.inj h
    exact .walk _ _ (by rw [hpc]; rfl) rfl
  · split_ifs at h <;>
      (obtain rfl := Option.some.inj h; exact .walk _ s.rrIndex (by rw [hpc]; rfl) rfl)
  · rename_i w
    split_ifs at h with hcl <;> obtain rfl := Option.some.inj h
    · exact .walk _ s.rrIndex (by rw [hpc]; rfl) rfl
    · simp only [Bool.or_eq_true, not_or, Bool.not_eq_true] at hcl
      exact .claim w hpc hcl.1 hcl.2
  · rename_i w
    split at h
    · rename_i floors ht
      obtain rfl := Option.some.inj h
      exact .admits w floors hpc ht
    · obtain rfl := Option.some.inj h
      exact .refuse w hpc
  · obtain rfl := Option.some.inj h
    exact .arrive _ hpc
  · obtain rfl := Option.some.inj h
    exact .admitted _ hpc
  · split_ifs at h <;> obtain rfl := Option.some.inj h
    · exact .source _ _ hpc
    · exact .sourced _ _ hpc
  · obtain rfl := Option.some.inj h
    exact .count _ hpc
  · obtain rfl := Option.some.inj h
    exact .unclaim _ hpc
  · cases h

/-- A letter carrier changes no flag of a word, and nothing the word carriers or the floors have. -/
structure LcFrame (s s' : Sys c) : Prop where
  words : ∀ w, (s.words w).SameFlags (s'.words w)
  floors : s'.floors = s.floors
  wc : s'.wc = s.wc
  sp : s'.sp = s.sp

theorem LcFrame.of_word {s s' : Sys c} {w : Fin c.totalWords} {x : Word c.numFloors}
    (hw : s'.words = Function.update s.words w x) (hx : (s.words w).SameFlags x)
    (hf : s'.floors = s.floors) (hwc : s'.wc = s.wc) (hsp : s'.sp = s.sp) : LcFrame s s' := by
  refine ⟨?_, hf, hwc, hsp⟩
  rw [hw]
  exact rel_update (fun _ => .rfl) hx

theorem lcStep_frame {s s' : Sys c} {i : Fin c.letterCarriers} {rand : Fin c.numFloors}
    (h : lcStep s i rand = some s') : LcFrame s s' := by
  unfold lcStep at h
  dsimp only at h
  split at h
  case h_5 w t _ =>
    split_ifs at h <;> obtain rfl := Option.some.inj h
    · exact .of_word rfl (claimTask_sameFlags _ _) rfl rfl rfl
    · exact ⟨fun _ => .rfl, rfl, rfl, rfl⟩
  case h_9 w t _ =>
    obtain rfl := Option.some.inj h
    exact .of_word rfl (placeChar_sameFlags _ _) rfl rfl rfl
  all_goals
    first
    | (split_ifs at h <;> (obtain rfl := Option.some.inj h; exact ⟨fun _ => .rfl, rfl, rfl, rfl⟩))
    | (obtain rfl := Option.some.inj h; exact ⟨fun _ => .rfl, rfl, rfl, rfl⟩)
    | cases h

/-! ## Who holds a word -/

/-- The word a sorting process is at, past the first test of `sort_step`. -/
def SpPc.at {words : ℕ} : SpPc words → Option (Fin words)
  | .trylock w => some w
  | .sorting w => some w
  | .leaveFloor w => some w
  | .countDone w => some w
  | .release w => some w
  | _ => none

/-- What a word carrier's position says of the word it holds. -/
def WcPc.Ok {words nf : ℕ} (x : Fin words → Word nf) (myFloor : Fin nf) : WcPc words → Prop
  | .admitting w => (x w).claimed = true ∧ (x w).admitted = false
  | .setArrival w => (x w).claimed = true ∧ (x w).admitted = false
  | .setAdmitted w =>
    (x w).claimed = true ∧ (x w).admitted = false ∧ (x w).arrivalFloor = some myFloor
  | .refused w => (x w).claimed = true ∧ (x w).admitted = false
  | .setSrc w _ => (x w).claimed = true
  | .incAdmitted w => (x w).claimed = true
  | _ => True

/-- An admitted word stays claimed, and has arrived. -/
def Word.ArrivedIfAdmitted {nf : ℕ} (x : Word nf) : Prop :=
  x.admitted = true → x.claimed = true ∧ ∃ f, x.arrivalFloor = some f

/-- A claimed word is in the hands of one word carrier. -/
structure Held (s : Sys c) : Prop where
  ok : ∀ i, (s.wc i).Ok s.words (c.wordCarrierFloor i)
  unique : ∀ i j w, (s.wc i).held = some w → (s.wc j).held = some w → i = j
  arrived : ∀ w, (s.words w).ArrivedIfAdmitted

/-- The position of a carrier only speaks of the word it holds. -/
theorem WcPc.Ok.congr {words nf : ℕ} {x y : Fin words → Word nf} {f : Fin nf} {pc : WcPc words}
    (h : pc.Ok x f) (hxy : ∀ w, pc.held = some w → (x w).SameAdmission (y w)) : pc.Ok y f := by
  cases pc <;> simp only [WcPc.Ok, WcPc.held, Option.some.injEq, forall_eq'] at h hxy ⊢ <;>
    simp only [hxy.claimed_eq, hxy.admitted_eq, hxy.arrivalFloor_eq] <;> exact h

theorem WcPc.Ok.claimed {words nf : ℕ} {x : Fin words → Word nf} {f : Fin nf} {pc : WcPc words}
    {w : Fin words} (h : pc.Ok x f) (hw : pc.held = some w) : (x w).claimed = true := by
  cases pc <;> simp only [WcPc.Ok, WcPc.held, Option.some.injEq, reduceCtorEq] at h hw <;>
    subst hw
  all_goals first
    | exact h
    | exact h.1

/-- Carrier `i` moves, and leaves word `w` as `x`. No other carrier holds `w`. -/
theorem Held.of_move {s s' : Sys c} {i : Fin c.wordCarriers} {pc : WcPc c.totalWords}
    {w : Fin c.totalWords} {x : Word c.numFloors} (h : Held s)
    (hwords : s'.words = Function.update s.words w x) (hwc : s'.wc = Function.update s.wc i pc)
    (hother : ∀ j, (s.wc j).held = some w → j = i) (hheld : pc.held = none ∨ pc.held = some w)
    (hi : pc.Ok s'.words (c.wordCarrierFloor i)) (hx : x.ArrivedIfAdmitted) : Held s' where
  ok := by
    rw [hwc]
    refine (Function.forall_update_iff s.wc fun j pc => pc.Ok s'.words (c.wordCarrierFloor j)).mpr
      ⟨hi, fun j hji => (h.ok j).congr fun v hv => ?_⟩
    have hvw : v ≠ w := fun hvw => hji (hother j (hvw ▸ hv))
    rw [hwords, Function.update_of_ne hvw]
    exact .rfl
  unique := by
    -- the mover holds `w` or nothing, and nobody else holds `w`
    have hmover : ∀ j v, j ≠ i → (s.wc j).held = some v → pc.held ≠ some v := by
      intro j v hji hv hpc
      rcases hheld with hn | hw
      · rw [hn] at hpc
        cases hpc
      · obtain rfl := Option.some.inj (hw.symm.trans hpc)
        exact hji (hother j hv)
    rw [hwc]
    exact unique_update h.unique hmover
  arrived := by
    rw [hwords]
    exact (Function.forall_update_iff s.words fun _ y => y.ArrivedIfAdmitted).mpr
      ⟨hx, fun v _ => h.arrived v⟩

/-- Carrier `i` moves and leaves the words alone. -/
theorem Held.of_walk {s s' : Sys c} {i : Fin c.wordCarriers} {pc : WcPc c.totalWords}
    (h : Held s) (hwords : s'.words = s.words) (hwc : s'.wc = Function.update s.wc i pc)
    (hheld : pc.held = none ∨ pc.held = (s.wc i).held)
    (hi : pc.Ok s.words (c.wordCarrierFloor i)) : Held s' where
  ok := by
    rw [hwc, hwords]
    exact (Function.forall_update_iff s.wc fun j pc => pc.Ok s.words (c.wordCarrierFloor j)).mpr
      ⟨hi, fun j _ => h.ok j⟩
  unique := by
    have hback : ∀ j v, (s'.wc j).held = some v → (s.wc j).held = some v := by
      rw [hwc]
      refine (Function.forall_update_iff s.wc fun j pc => ∀ v, pc.held = some v →
        (s.wc j).held = some v).mpr ⟨fun v hv => ?_, fun _ _ _ => id⟩
      rcases hheld with hn | he
      · rw [hn] at hv
        cases hv
      · rw [← he, hv]
    exact fun j k v hj hk => h.unique j k v (hback j v hj) (hback k v hk)
  arrived := by rw [hwords]; exact h.arrived

/-- A step that changes no word carrier and nothing a word carrier sets. -/
theorem Held.of_same {s s' : Sys c} (h : Held s) (hwc : s'.wc = s.wc)
    (hw : ∀ w, (s.words w).SameAdmission (s'.words w)) : Held s' where
  ok := fun i => by
    rw [hwc]
    exact (h.ok i).congr fun w _ => hw w
  unique := by rw [hwc]; exact h.unique
  arrived := fun w => by
    unfold Word.ArrivedIfAdmitted
    rw [(hw w).admitted_eq, (hw w).claimed_eq, (hw w).arrivalFloor_eq]
    exact h.arrived w

/-- What holds of the sorting processes, and of the words they complete. -/
structure Sorters (s : Sys c) : Prop where
  sortingFloor : ∀ w, (s.words w).sortingFloor = (c.input w).sortingFloor
  admitted : ∀ i w, (s.sp i).at = some w →
    (s.words w).admitted = true ∧ (c.input w).sortingFloor = c.sortingProcFloor i
  completed : ∀ w, (s.words w).completed = true → (s.words w).admitted = true

/-- A step that changes no sorting process, completes no word and takes no admission back. -/
theorem Sorters.of_quiet {s s' : Sys c} (h : Sorters s) (hq : Quiet s s')
    (ha : ∀ w, (s.words w).admitted = true → (s'.words w).admitted = true) : Sorters s' where
  sortingFloor := fun w => by rw [(hq.words w).extends_.sortingFloor_eq, h.sortingFloor]
  admitted := fun i w hw => by
    rw [hq.sp] at hw
    exact ⟨ha w (h.admitted i w hw).1, (h.admitted i w hw).2⟩
  completed := fun w hw => ha w (h.completed w (by rw [← (hq.words w).completed_eq]; exact hw))

/-- A sorting process moves, and leaves word `w` as `x`. -/
theorem Sorters.of_move {s s' : Sys c} {i : Fin c.sortingProcs} {pc : SpPc c.totalWords}
    {w : Fin c.totalWords} {x : Word c.numFloors} (h : Sorters s)
    (hwords : s'.words = Function.update s.words w x) (hsp : s'.sp = Function.update s.sp i pc)
    (hf : x.sortingFloor = (s.words w).sortingFloor) (ha : x.admitted = (s.words w).admitted)
    (hc : x.completed = true → (s.words w).admitted = true)
    (hpc : ∀ v, pc.at = some v →
      (s.words v).admitted = true ∧ (c.input v).sortingFloor = c.sortingProcFloor i) :
    Sorters s' where
  sortingFloor := by
    rw [hwords]
    exact (Function.forall_update_iff s.words fun v y =>
      y.sortingFloor = (c.input v).sortingFloor).mpr
        ⟨hf.trans (h.sortingFloor w), fun v _ => h.sortingFloor v⟩
  admitted := by
    have hsame : ∀ v, (s'.words v).admitted = (s.words v).admitted := by
      rw [hwords]
      exact rel_update (R := fun y z : Word c.numFloors => z.admitted = y.admitted)
        (fun _ => rfl) ha
    simp only [hsame, hsp]
    exact (Function.forall_update_iff s.sp fun j pc => ∀ v, pc.at = some v →
      (s.words v).admitted = true ∧ (c.input v).sortingFloor = c.sortingProcFloor j).mpr
        ⟨hpc, fun j _ => h.admitted j⟩
  completed := by
    rw [hwords]
    refine (Function.forall_update_iff s.words fun _ y => y.completed = true →
      y.admitted = true).mpr ⟨fun hx => ?_, fun v _ => h.completed v⟩
    rw [ha]
    exact hc hx

end Cse344.HW3
