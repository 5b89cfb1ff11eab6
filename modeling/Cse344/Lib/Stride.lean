import Mathlib.Algebra.BigOperators.Fin
import Mathlib.Algebra.BigOperators.Group.Finset.Basic
import Mathlib.Data.Nat.ModEq

/-!
# Round-robin shares

`stride n len i` lists the indices `i, i + n, i + 2 * n, …` below `len`: the share of worker `i`
when `len` items are dealt to `n` workers in turn.

* It is the loop; `strideSet` is the set of its indices, by their remainders.

Results:
* `sum_map_stride`: a sum over the loop is one over the set.
* **`sum_stride`**: the shares of the `n` workers together are all items, each once.

Out of scope: no workers; the loop is empty then.
-/

namespace Cse344.Lib

/-- The loop `for (j = i; j < len; j += n)`. -/
def stride (n len i : ℕ) : List ℕ :=
  if i < len ∧ 0 < n then i :: stride n len (i + n) else []
termination_by len - i

/-- The indices from `i` on that are congruent to it. -/
def strideSet (n len i : ℕ) : Finset ℕ := (Finset.range len).filter fun j => i ≤ j ∧ j % n = i % n

theorem strideSet_succ {n len i : ℕ} (hn : 0 < n) (hi : i < len) :
    strideSet n len i = insert i (strideSet n len (i + n)) := by
  ext j
  simp only [strideSet, Finset.mem_filter, Finset.mem_range, Finset.mem_insert,
    Nat.add_mod_right]
  constructor
  · rintro ⟨hj, hij, hmod⟩
    rcases Nat.eq_or_lt_of_le hij with rfl | hlt
    · exact Or.inl rfl
    · -- two congruent numbers lie at least `n` apart
      have hdvd : n ∣ j - i := (Nat.modEq_iff_dvd' hij).mp hmod.symm
      have := Nat.le_of_dvd (by omega) hdvd
      exact Or.inr ⟨hj, by omega, hmod⟩
  · rintro (rfl | ⟨hj, hij, hmod⟩)
    · exact ⟨hi, le_rfl, rfl⟩
    · exact ⟨hj, by omega, hmod⟩

theorem strideSet_of_le {n len i : ℕ} (hi : len ≤ i) : strideSet n len i = ∅ := by
  refine Finset.filter_eq_empty_iff.mpr fun j hj => ?_
  have := Finset.mem_range.mp hj
  omega

variable {M : Type*} [AddCommMonoid M]

theorem sum_map_stride {n len : ℕ} (hn : 0 < n) (f : ℕ → M) (i : ℕ) :
    ((stride n len i).map f).sum = ∑ j ∈ strideSet n len i, f j := by
  induction i using stride.induct n len with
  | case1 i h ih =>
    rw [stride, if_pos h, List.map_cons, List.sum_cons, ih, strideSet_succ hn h.1,
      Finset.sum_insert]
    simp only [strideSet, Finset.mem_filter, not_and]
    omega
  | case2 i h =>
    rw [stride, if_neg h, strideSet_of_le (by omega)]
    rfl

/-- **The shares of `n` workers are all `len` items, each once.** -/
theorem sum_stride {n : ℕ} (hn : 0 < n) (len : ℕ) (f : ℕ → M) :
    ∑ i : Fin n, ((stride n len i).map f).sum = ∑ j ∈ Finset.range len, f j := by
  have hmaps : ∀ j ∈ Finset.range len, j % n ∈ Finset.range n := fun j _ =>
    Finset.mem_range.mpr (Nat.mod_lt j hn)
  rw [← Finset.sum_fiberwise_of_maps_to hmaps f, Finset.sum_range]
  refine Finset.sum_congr rfl fun i _ => ?_
  rw [sum_map_stride hn]
  refine Finset.sum_congr (Finset.filter_congr fun j _ => ?_) fun _ _ => rfl
  rw [Nat.mod_eq_of_lt i.isLt]
  constructor
  · exact fun h => h.2
  · exact fun h => ⟨h ▸ Nat.mod_le j n, h⟩

end Cse344.Lib
