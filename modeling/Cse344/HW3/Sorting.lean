import Cse344.HW3.System

/-!
# Words are sorted correctly and counted once

The moves of `sort_step` (`HW3/src/processes/sorting_proc.c` 34-101) in the whole system, and the
counter `done_count`.

* Carriers keep every word as it is but for its deliveries and its admission (`Kept`); a sorting
  process takes one of the moves of `SpMove`.
* A word's mutex is held from the pass to the count, so that nobody completes a word twice.
* `Tally` relates the number of completed words to `done_count`: they differ by the sorting
  processes that have completed a word and not counted it.

Results:
* `tally_step`: every step keeps the words sound and the count.
* **`sorting_correct`**: in every reachable state a completed word is sorted and delivered, words
  complete at most once, and `done_count` is the number of completed words whenever no `sort_step`
  is in progress.

Out of scope: that words are completed at all; that is `Cse344.HW3.Progress`.
-/

namespace Cse344.HW3

open Cse344.Lib

variable {c : Setup}

/-! ## What the carriers keep -/

theorem setSrcFloor_kept {nf : ℕ} (x : Word nf) (j : ℕ) (f : Fin nf) :
    x.Kept (setSrcFloor x j f) := by
  refine .of_fields rfl rfl rfl rfl rfl rfl (fun k => ?_) rfl
  by_cases hkj : k = j
  · subst hkj
    simp [setSrcFloor]
  · simp [setSrcFloor, hkj]

/-- A step that keeps every word, every sorting process and `done_count`. -/
structure Quiet (s s' : Sys c) : Prop where
  words : ∀ w, (s.words w).Kept (s'.words w)
  sp : s'.sp = s.sp
  doneCount : s'.doneCount = s.doneCount

theorem Quiet.of_words {s s' : Sys c} (hw : s'.words = s.words) (hsp : s'.sp = s.sp)
    (hd : s'.doneCount = s.doneCount) : Quiet s s' :=
  ⟨fun w => by rw [hw]; exact .rfl, hsp, hd⟩

theorem Quiet.of_word {s s' : Sys c} {w : Fin c.totalWords} {x : Word c.numFloors}
    (hw : s'.words = Function.update s.words w x) (hx : (s.words w).Kept x) (hsp : s'.sp = s.sp)
    (hd : s'.doneCount = s.doneCount) : Quiet s s' := by
  refine ⟨?_, hsp, hd⟩
  rw [hw]
  exact rel_update (fun _ => .rfl) hx

theorem wcStep_quiet {s s' : Sys c} {i : Fin c.wordCarriers} (h : wcStep s i = some s') :
    Quiet s s' := by
  unfold wcStep at h
  dsimp only at h
  split at h
  · obtain rfl := Option.some.inj h
    exact .of_words rfl rfl rfl
  · obtain rfl := Option.some.inj h
    exact .of_words rfl rfl rfl
  · obtain rfl := Option.some.inj h
    exact .of_words rfl rfl rfl
  · split_ifs at h <;>
      (obtain rfl := Option.some.inj h; exact .of_words rfl rfl rfl)
  · split_ifs at h <;> obtain rfl := Option.some.inj h
    · exact .of_words rfl rfl rfl
    · exact .of_word rfl (.of_fields rfl rfl rfl rfl rfl rfl (fun _ => rfl) rfl) rfl rfl
  · split at h <;>
      (obtain rfl := Option.some.inj h; exact .of_words rfl rfl rfl)
  · obtain rfl := Option.some.inj h
    exact .of_word rfl (.of_fields rfl rfl rfl rfl rfl rfl (fun _ => rfl) rfl) rfl rfl
  · obtain rfl := Option.some.inj h
    exact .of_word rfl (.of_fields rfl rfl rfl rfl rfl rfl (fun _ => rfl) rfl) rfl rfl
  · split_ifs at h <;> obtain rfl := Option.some.inj h
    · exact .of_word rfl (setSrcFloor_kept _ _ _) rfl rfl
    · exact .of_words rfl rfl rfl
  · obtain rfl := Option.some.inj h
    exact .of_words rfl rfl rfl
  · obtain rfl := Option.some.inj h
    exact .of_word rfl (.of_fields rfl rfl rfl rfl rfl rfl (fun _ => rfl) rfl) rfl rfl
  · cases h

theorem lcStep_quiet {s s' : Sys c} {i : Fin c.letterCarriers} {rand : Fin c.numFloors}
    (h : lcStep s i rand = some s') : Quiet s s' := by
  unfold lcStep at h
  dsimp only at h
  split at h
  case h_5 w t _ =>
    split_ifs at h <;> obtain rfl := Option.some.inj h
    · exact .of_word rfl (claimTask_kept _ _) rfl rfl
    · exact .of_words rfl rfl rfl
  case h_9 w t _ =>
    obtain rfl := Option.some.inj h
    exact .of_word rfl (placeChar_kept _ _) rfl rfl
  all_goals
    first
    | (split_ifs at h <;> (obtain rfl := Option.some.inj h; exact .of_words rfl rfl rfl))
    | (obtain rfl := Option.some.inj h; exact .of_words rfl rfl rfl)
    | cases h

/-! ## The moves of a sorting process -/

inductive SpMove (s : Sys c) (i : Fin c.sortingProcs) : Sys c → Prop
  /-- Only the process itself moves, to a place where it has no word. -/
  | idle (pc : SpPc c.totalWords) (hfrom : ∀ w, s.sp i ≠ .leaveFloor w ∧ s.sp i ≠ .countDone w)
      (hto : pc = .top ∨ pc = .exited ∨ ∃ k, pc = .visit k) : SpMove s i (s.setSp i pc)
  | enter (w : Fin c.totalWords) (hpc : s.sp i = .visit w)
      (hfloor : (s.words w).sortingFloor = c.sortingProcFloor i)
      (hadm : (s.words w).admitted = true) : SpMove s i (s.setSp i (.trylock w))
  | lock (w : Fin c.totalWords) (hpc : s.sp i = .trylock w) :
      SpMove s i ((s.setLock w true).setSp i (.sorting w))
  | complete (w : Fin c.totalWords) (hpc : s.sp i = .sorting w)
      (hc : (sortPass (s.words w)).completes = true) :
      SpMove s i ((s.setWord w { sortPass (s.words w) with completed := true }).setSp i
        (.leaveFloor w))
  | pass (w : Fin c.totalWords) (hpc : s.sp i = .sorting w)
      (hc : (sortPass (s.words w)).completes = false) :
      SpMove s i ((s.setWord w (sortPass (s.words w))).setSp i (.release w))
  | leave (w : Fin c.totalWords) (hpc : s.sp i = .leaveFloor w) :
      SpMove s i { s.setSp i (.countDone w) with
        floors := Function.update s.floors (c.sortingProcFloor i)
          (s.floors (c.sortingProcFloor i) - 1) }
  | count (w : Fin c.totalWords) (hpc : s.sp i = .countDone w) :
      SpMove s i { s.setSp i (.release w) with doneCount := s.doneCount + 1 }
  | unlock (w : Fin c.totalWords) (hpc : s.sp i = .release w) :
      SpMove s i ((s.setLock w false).setSp i (.visit (w + 1)))

theorem spMove_of_step {s s' : Sys c} {i : Fin c.sortingProcs} (h : spStep s i = some s') :
    SpMove s i s' := by
  unfold spStep at h
  dsimp only at h
  split at h <;> rename_i hpc
  · obtain rfl := Option.some.inj h
    refine .idle _ (fun w => by simp [hpc]) ?_
    split
    · exact Or.inr (Or.inl rfl)
    · exact Or.inr (Or.inr ⟨0, rfl⟩)
  · rename_i k
    split_ifs at h with hk hskip <;> obtain rfl := Option.some.inj h
    · exact .idle _ (fun w => by simp [hpc]) (Or.inr (Or.inr ⟨_, rfl⟩))
    · simp only [not_or, not_not, Bool.not_eq_false] at hskip
      exact .enter ⟨k, hk⟩ hpc hskip.1 hskip.2.1
    · exact .idle _ (fun w => by simp [hpc]) (Or.inl rfl)
  · rename_i w
    split_ifs at h <;> obtain rfl := Option.some.inj h
    · exact .idle _ (fun w => by simp [hpc]) (Or.inr (Or.inr ⟨_, rfl⟩))
    · exact .lock w hpc
  · rename_i w
    split_ifs at h with hc <;> obtain rfl := Option.some.inj h
    · exact .complete w hpc hc
    · exact .pass w hpc (Bool.not_eq_true _ ▸ hc)
  · obtain rfl := Option.some.inj h
    exact .leave _ hpc
  · obtain rfl := Option.some.inj h
    exact .count _ hpc
  · obtain rfl := Option.some.inj h
    exact .unlock _ hpc
  · cases h

/-! ## Counting completed words -/

/-- A sorting process has completed a word and not counted it yet. -/
def SpPc.uncounted {words : ℕ} : SpPc words → ℕ
  | .leaveFloor _ => 1
  | .countDone _ => 1
  | _ => 0

/-- A `sort_step` is in progress, past its first test. -/
def SpPc.InSortStep {words : ℕ} : SpPc words → Prop
  | .top => False
  | .visit _ => False
  | .exited => False
  | _ => True

def Word.completedCount {nf : ℕ} (x : Word nf) : ℕ := if x.completed then 1 else 0

structure Tally (s : Sys c) : Prop where
  sound : ∀ w, (s.words w).Sound
  counts : s.doneCount + ∑ i, (s.sp i).uncounted = ∑ w, (s.words w).completedCount

theorem Tally.of_quiet {s s' : Sys c} (h : Tally s) (hq : Quiet s s') : Tally s' where
  sound := fun w => (hq.words w).sound (h.sound w)
  counts := by
    have hw : ∀ w, (s'.words w).completedCount = (s.words w).completedCount := fun w => by
      unfold Word.completedCount
      rw [(hq.words w).completed_eq]
    rw [hq.doneCount, hq.sp, Finset.sum_congr rfl fun w _ => hw w, h.counts]

/-- A sorting process moves, and leaves word `w` as `x`. -/
theorem Tally.of_sort {s s' : Sys c} {i : Fin c.sortingProcs} {pc : SpPc c.totalWords}
    {w : Fin c.totalWords} {x : Word c.numFloors} (h : Tally s)
    (hw : s'.words = Function.update s.words w x) (hsp : s'.sp = Function.update s.sp i pc)
    (hx : x.Sound) (hd : s'.doneCount + pc.uncounted + (s.words w).completedCount =
      s.doneCount + (s.sp i).uncounted + x.completedCount) : Tally s' where
  sound := by
    rw [hw]
    exact (Function.forall_update_iff s.words fun _ y => y.Sound).mpr ⟨hx, fun v _ => h.sound v⟩
  counts := by
    have h1 := sum_update_add SpPc.uncounted s.sp i pc
    have h2 := sum_update_add Word.completedCount s.words w x
    have h3 := h.counts
    rw [hw, hsp]
    omega

/-- A sorting process moves, and leaves the words alone. -/
theorem Tally.of_sp {s s' : Sys c} {i : Fin c.sortingProcs} {pc : SpPc c.totalWords}
    (h : Tally s) (hw : s'.words = s.words) (hsp : s'.sp = Function.update s.sp i pc)
    (hd : s'.doneCount + pc.uncounted = s.doneCount + (s.sp i).uncounted) : Tally s' where
  sound := by rw [hw]; exact h.sound
  counts := by
    have h1 := sum_update_add SpPc.uncounted s.sp i pc
    have h3 := h.counts
    rw [hw, hsp]
    omega

theorem tally_spStep {s s' : Sys c} {i : Fin c.sortingProcs} (h : Tally s)
    (hs : spStep s i = some s') : Tally s' := by
  cases spMove_of_step hs with
  | idle pc hfrom hto =>
    have hu : pc.uncounted = 0 := by
      rcases hto with rfl | rfl | ⟨k, rfl⟩ <;> rfl
    have hu' : (s.sp i).uncounted = 0 := by
      unfold SpPc.uncounted
      split
      · rename_i w hpc
        exact absurd hpc (hfrom w).1
      · rename_i w hpc
        exact absurd hpc (hfrom w).2
      · rfl
    exact h.of_sp rfl rfl (by rw [hu, hu']; rfl)
  | enter w hpc hfloor hadm => exact h.of_sp rfl rfl (by rw [hpc]; rfl)
  | lock w hpc => exact h.of_sp rfl rfl (by rw [hpc]; rfl)
  | complete w hpc hc =>
    have hkept := sortPass_kept (s.words w)
    refine h.of_sort rfl rfl ((hkept.sound (h.sound w)).complete hc) ?_
    have hnot : (s.words w).completed = false := by
      rw [← hkept.completed_eq]
      simp only [Word.completes, Bool.and_eq_true, Bool.not_eq_true'] at hc
      exact hc.2
    rw [hpc]
    simp only [Word.completedCount, hnot, SpPc.uncounted]
    rfl
  | pass w hpc hc =>
    have hkept := sortPass_kept (s.words w)
    refine h.of_sort rfl rfl (hkept.sound (h.sound w)) ?_
    rw [hpc]
    simp only [Word.completedCount, hkept.completed_eq, SpPc.uncounted]
    rfl
  | leave w hpc => exact h.of_sp rfl rfl (by rw [hpc]; rfl)
  | count w hpc => exact h.of_sp rfl rfl (by rw [hpc]; rfl)
  | unlock w hpc => exact h.of_sp rfl rfl (by rw [hpc]; rfl)

/-- **Every step keeps the words sound and the count.** -/
theorem tally_step {s s' : Sys c} {a : Act c} (h : Tally s) (hs : step s a = some s') :
    Tally s' := by
  cases a with
  | wordCarrier i => exact h.of_quiet (wcStep_quiet hs)
  | letterCarrier i rand => exact h.of_quiet (lcStep_quiet hs)
  | sortingProc i => exact tally_spStep h hs
  | monitor =>
    obtain ⟨-, rfl⟩ := monitor_of_step hs
    exact h.of_quiet (.of_words rfl rfl rfl)
  | sigint =>
    obtain rfl := Option.some.inj hs
    exact h.of_quiet (.of_words rfl rfl rfl)

theorem tally_reachable {s : Sys c} (h : (system c).Reachable s) : Tally s := by
  refine h.induct ⟨fun w => initWordInfo_sound _, ?_⟩ fun _ _ _ => tally_step
  simp [system, SpPc.uncounted, Word.completedCount, initWordInfo]

/-- No step takes `completed` back. -/
theorem completed_mono {s s' : Sys c} {a : Act c} (hs : step s a = some s')
    (w : Fin c.totalWords) (hw : (s.words w).completed = true) :
    (s'.words w).completed = true := by
  have hquiet : ∀ {t : Sys c}, Quiet s t → (t.words w).completed = true := fun hq => by
    rw [(hq.words w).completed_eq, hw]
  cases a with
  | wordCarrier i => exact hquiet (wcStep_quiet hs)
  | letterCarrier i rand => exact hquiet (lcStep_quiet hs)
  | sortingProc i =>
    cases spMove_of_step hs with
    | complete v hpc hc =>
      by_cases hv : w = v
      · simp [Sys.setWord, Sys.setSp, hv]
      · simpa [Sys.setWord, Sys.setSp, hv] using hw
    | pass v hpc hc =>
      by_cases hv : w = v
      · subst hv
        simpa [Sys.setWord, Sys.setSp, (sortPass_kept _).completed_eq] using hw
      · simpa [Sys.setWord, Sys.setSp, hv] using hw
    | _ => exact hw
  | monitor =>
    obtain ⟨-, rfl⟩ := monitor_of_step hs
    exact hw
  | sigint =>
    obtain rfl := Option.some.inj hs
    exact hw

/-! ## Sorting is correct and counted once -/

structure SortedAndCounted (s : Sys c) : Prop where
  sorted : ∀ w, (s.words w).completed = true →
    ∀ j < (s.words w).wordLen, (s.words w).sortingArea j = (s.words w).original j
  delivered : ∀ w, (s.words w).completed = true →
    ∀ t < (s.words w).wordLen, ((s.words w).tasks t).delivered = true
  counted : (∀ i, ¬ (s.sp i).InSortStep) →
    s.doneCount = (Finset.univ.filter fun w => (s.words w).completed = true).card

/-- **Sorting is correct and counted once**, for every setup and at the end of every run. -/
theorem sorting_correct {s : Sys c} {as : List (Act c)}
    (h : (system c).runs (system c).init as = some s) :
    SortedAndCounted s ∧
      ∀ w, (system c).rises (fun s => (s.words w).completed) (system c).init as ≤ 1 := by
  have ht := tally_reachable (Machine.runs_reachable h)
  refine ⟨⟨fun w hw j hj => ?_, fun w hw t htl => ?_, fun hidle => ?_⟩, fun w => ?_⟩
  · obtain ⟨hf, -⟩ := (ht.sound w).completed_ok hw j hj
    exact ((ht.sound w).fixed_ok j hf).2
  · exact ((ht.sound w).completed_ok hw t htl).2
  · have hzero : ∑ i, (s.sp i).uncounted = 0 := Finset.sum_eq_zero fun i _ => by
      have := hidle i
      cases hpc : s.sp i <;> simp_all [SpPc.InSortStep, SpPc.uncounted]
    have := ht.counts
    rw [hzero, Nat.add_zero] at this
    rw [this, Finset.card_filter]
    rfl
  · refine (Machine.rises_le_one (fun s a s' hs hw => completed_mono hs w hw) as _).trans ?_
    split_ifs
    · exact Nat.zero_le _
    · exact le_rfl

/-- One floor, one process of each kind, and the word `a`. -/
def oneLetter : Setup where
  numFloors := 1
  maxWordsPerFloor := 1
  totalWords := 1
  input := fun _ => { word := cstr "a", sortingFloor := 0, length_le := by decide }
  wordCarriers := 1
  wordCarrierFloor := fun _ => 0
  letterCarriers := 1
  letterCarrierFloor := fun _ => 0
  sortingProcs := 1
  sortingProcFloor := fun _ => 0
  one_le_max := le_rfl

/-- The word is admitted, its letter placed, and the word completed. -/
def oneLetterRun : List (Act oneLetter) :=
  List.replicate 11 (.wordCarrier (0 : Fin 1)) ++
    List.replicate 8 (.letterCarrier (0 : Fin 1) (0 : Fin 1)) ++
    List.replicate 7 (.sortingProc (0 : Fin 1))

theorem sorting_correct_oneLetter :
    ∃ s, (system oneLetter).runs (system oneLetter).init oneLetterRun = some s ∧
      (s.words (0 : Fin 1)).completed = true ∧ SortedAndCounted s ∧
      ∀ w, (system oneLetter).rises (fun s => (s.words w).completed) (system oneLetter).init
        oneLetterRun ≤ 1 := by
  have hrun : ((system oneLetter).runs (system oneLetter).init oneLetterRun).map
      (fun s => (s.words (0 : Fin 1)).completed) = some true := by decide +kernel
  obtain ⟨s, hs, hc⟩ := Option.map_eq_some_iff.mp hrun
  exact ⟨s, hs, hc, sorting_correct hs⟩

end Cse344.HW3
