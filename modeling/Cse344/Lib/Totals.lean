import Mathlib.Algebra.BigOperators.Fin
import Mathlib.Algebra.BigOperators.Group.Finset.Basic
import Mathlib.Algebra.Order.BigOperators.Group.Finset
import Mathlib.Data.Fintype.Card

/-!
# Totals over processes

The processes of a machine are a finite family `c : ι → α` of local states, and one step changes one
of them: `Function.update c i x`.

Results:
* `sum_update_add'`, `sum_update_add`: how a total over the family changes, in a form without
  subtraction.
* `rel_update`: how each process is related to what it was.
* **`unique_update`**: what only one of them holds stays so.
* `all_of_card_le_sum`, `existsUnique_of_sum_eq_one`: what a total says of the processes.

Out of scope: steps that change several processes; they are several updates.
-/

namespace Cse344.Lib

variable {ι α M : Type*} [Fintype ι] [DecidableEq ι]

/-- Replacing `c i` by `x` exchanges `g i (c i)` for `g i x` in the total. -/
theorem sum_update_add' [AddCommMonoid M] (g : ι → α → M) (c : ι → α) (i : ι) (x : α) :
    (∑ j, g j (Function.update c i x j)) + g i (c i) = (∑ j, g j (c j)) + g i x := by
  have hrest : ∑ j ∈ Finset.univ.erase i, g j (Function.update c i x j) =
      ∑ j ∈ Finset.univ.erase i, g j (c j) :=
    Finset.sum_congr rfl fun j hj => by rw [Function.update_of_ne (Finset.ne_of_mem_erase hj)]
  rw [← Finset.add_sum_erase _ _ (Finset.mem_univ i), ← Finset.add_sum_erase _ (fun j => g j (c j))
    (Finset.mem_univ i), hrest, Function.update_self]
  simp only [add_comm, add_left_comm]

/-- `sum_update_add'` for a summand that depends on the local state alone. -/
theorem sum_update_add [AddCommMonoid M] (g : α → M) (c : ι → α) (i : ι) (x : α) :
    (∑ j, g (Function.update c i x j)) + g (c i) = (∑ j, g (c j)) + g x :=
  sum_update_add' (fun _ => g) c i x

omit [Fintype ι] in
/-- A relation that nothing changes while a process does not move. -/
theorem rel_update {R : α → α → Prop} (hrefl : ∀ a, R a a) {c : ι → α} {i : ι} {x : α}
    (hx : R (c i) x) : ∀ j, R (c j) (Function.update c i x j) :=
  (Function.forall_update_iff c fun j y => R (c j) y).mpr ⟨hx, fun j _ => hrefl (c j)⟩

omit [Fintype ι] in
/-- **One holder each**: it stays so, if the process that moves takes nothing another one holds. -/
theorem unique_update {β : Type*} {g : α → Option β} {c : ι → α} {i : ι} {x : α}
    (h : ∀ j k b, g (c j) = some b → g (c k) = some b → j = k)
    (hx : ∀ j b, j ≠ i → g (c j) = some b → g x ≠ some b) :
    ∀ j k b, g (Function.update c i x j) = some b → g (Function.update c i x k) = some b →
      j = k := by
  intro j k b hj hk
  by_cases hji : j = i
  · by_cases hki : k = i
    · rw [hji, hki]
    · rw [hji, Function.update_self] at hj
      rw [Function.update_of_ne hki] at hk
      exact absurd hj (hx k b hki hk)
  · rw [Function.update_of_ne hji] at hj
    by_cases hki : k = i
    · rw [hki, Function.update_self] at hk
      exact absurd hk (hx j b hji hj)
    · rw [Function.update_of_ne hki] at hk
      exact h j k b hj hk

omit [DecidableEq ι] in
/-- A count that reaches the number of processes counts them all. -/
theorem all_of_card_le_sum {p : ι → Prop} [DecidablePred p]
    (h : Fintype.card ι ≤ ∑ i, if p i then 1 else 0) (i : ι) : p i := by
  rw [← Finset.card_filter] at h
  have hcard := le_antisymm (Finset.card_filter_le Finset.univ p) h
  exact Finset.card_filter_eq_iff.mp hcard i (Finset.mem_univ i)

omit [DecidableEq ι] in
/-- A total of `1` is one process's `1`. -/
theorem existsUnique_of_sum_eq_one {f : ι → ℕ} (h : ∑ i, f i = 1) : ∃! i, 0 < f i := by
  classical
  have hpos : ∃ i, 0 < f i := by
    by_contra hno
    have : ∑ i, f i = 0 := Finset.sum_eq_zero fun i _ => by
      by_contra hi
      exact hno ⟨i, Nat.pos_of_ne_zero hi⟩
    omega
  obtain ⟨i, hi⟩ := hpos
  refine ⟨i, hi, fun j hj => ?_⟩
  by_contra hji
  have h2 : f i + f j ≤ ∑ k, f k := by
    rw [← Finset.sum_pair (Ne.symm hji)]
    exact Finset.sum_le_sum_of_subset (Finset.subset_univ _)
  dsimp only at hj
  omega

end Cse344.Lib
