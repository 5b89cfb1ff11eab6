import Mathlib.Algebra.BigOperators.Group.Finset.Piecewise
import Mathlib.Algebra.Order.Group.Multiset
import Mathlib.Data.Finset.Card

/-!
# Slots that hold a value or are free

`contents slots occ val` are the values in the occupied ones of the slots `slots`, as a multiset;
what a free slot has for a value does not count.

Results:
* `contents_fill`: filling a free slot adds its value.
* `contents_exchange`, with its cases `contents_move` and `contents_swap`: what exchanges two slots
  without losing a value keeps the contents.
* `contents_full`: where no slot is free, the contents are all values.
* `exists_free`: when there are fewer values than slots, one is free.

Out of scope: emptying a slot.
-/

namespace Cse344.Lib

variable {ι α : Type*}

/-- What one slot holds. -/
def slotContents (occ : ι → Bool) (val : ι → α) (i : ι) : Multiset α :=
  if occ i then {val i} else 0

/-- The values in the occupied slots. -/
def contents (slots : Finset ι) (occ : ι → Bool) (val : ι → α) : Multiset α :=
  ∑ i ∈ slots, slotContents occ val i

variable {slots : Finset ι} {occ occ' : ι → Bool} {val val' : ι → α} {i k : ι}

theorem slotContents_free (h : occ i = false) : slotContents occ val i = 0 := by
  simp [slotContents, h]

theorem slotContents_occupied (h : occ i = true) : slotContents occ val i = {val i} := by
  simp [slotContents, h]

theorem slotContents_congr (ho : occ' i = occ i) (hv : val' i = val i) :
    slotContents occ' val' i = slotContents occ val i := by
  rw [slotContents, slotContents, ho, hv]

/-- There are as many values as occupied slots. -/
theorem card_contents (slots : Finset ι) (occ : ι → Bool) (val : ι → α) :
    (contents slots occ val).card = (slots.filter fun i => occ i = true).card := by
  rw [contents, Finset.card_filter, Multiset.card_sum]
  refine Finset.sum_congr rfl fun i _ => ?_
  unfold slotContents
  split <;> rfl

theorem contents_congr (h : ∀ i ∈ slots, occ' i = occ i ∧ val' i = val i) :
    contents slots occ' val' = contents slots occ val :=
  Finset.sum_congr rfl fun i hi => slotContents_congr (h i hi).1 (h i hi).2

/-- Where every slot is occupied, the contents are the values. -/
theorem contents_full (h : ∀ i ∈ slots, occ i = true) :
    contents slots occ val = slots.val.map val := by
  have hsum : contents slots occ val = ∑ i ∈ slots, {val i} :=
    Finset.sum_congr rfl fun i hi => slotContents_occupied (h i hi)
  rw [hsum, Finset.sum_eq_multiset_sum]
  exact (congrArg Multiset.sum (Multiset.map_map ..).symm).trans (Multiset.sum_map_singleton _)

variable [DecidableEq ι]

/-- Filling a free slot adds its value. -/
theorem contents_fill (hi : i ∈ slots) (hocc : occ i = false) (hocc' : occ' i = true)
    (h : ∀ j, j ≠ i → occ' j = occ j ∧ val' j = val j) :
    contents slots occ' val' = contents slots occ val + {val' i} := by
  have hrest : ∑ j ∈ slots.erase i, slotContents occ' val' j =
      ∑ j ∈ slots.erase i, slotContents occ val j :=
    Finset.sum_congr rfl fun j hj =>
      slotContents_congr (h j (Finset.ne_of_mem_erase hj)).1 (h j (Finset.ne_of_mem_erase hj)).2
  rw [contents, contents, ← Finset.sum_erase_add _ _ hi,
    ← Finset.sum_erase_add _ (slotContents occ val) hi, hrest, slotContents_free hocc,
    slotContents_occupied hocc', add_zero]

/-- What exchanges two slots keeps the contents. -/
theorem contents_exchange (hi : i ∈ slots) (hk : k ∈ slots) (hki : k ≠ i)
    (h : ∀ j, j ≠ i → j ≠ k → occ' j = occ j ∧ val' j = val j)
    (hpair : slotContents occ' val' i + slotContents occ' val' k =
      slotContents occ val i + slotContents occ val k) :
    contents slots occ' val' = contents slots occ val := by
  have hk' : k ∈ slots.erase i := Finset.mem_erase.mpr ⟨hki, hk⟩
  have hrest : ∑ j ∈ (slots.erase i).erase k, slotContents occ' val' j =
      ∑ j ∈ (slots.erase i).erase k, slotContents occ val j := by
    refine Finset.sum_congr rfl fun j hj => ?_
    obtain ⟨hjk, hj⟩ := Finset.mem_erase.mp hj
    have hji := Finset.ne_of_mem_erase hj
    exact slotContents_congr (h j hji hjk).1 (h j hji hjk).2
  have hsplit : ∀ g : ι → Multiset α,
      ∑ j ∈ slots, g j = (g i + g k) + ∑ j ∈ (slots.erase i).erase k, g j := fun g => by
    rw [← Finset.add_sum_erase _ _ hi, ← Finset.add_sum_erase _ _ hk', add_assoc]
  rw [contents, contents, hsplit, hsplit, hpair, hrest]

/-- The value of slot `i` moves to the free slot `k`. -/
theorem contents_move (hi : i ∈ slots) (hk : k ∈ slots) (hki : k ≠ i) (hocc : occ i = true)
    (hfree : occ k = false) (z : α) :
    contents slots (Function.update (Function.update occ k true) i false)
        (Function.update (Function.update val k (val i)) i z) =
      contents slots occ val := by
  refine contents_exchange hi hk hki (fun j hji hjk => by simp [hji, hjk]) ?_
  rw [slotContents_free (by simp), slotContents_occupied (by simp [hki]),
    slotContents_occupied hocc, slotContents_free hfree]
  simp [hki]

/-- Two occupied slots swap their values. -/
theorem contents_swap (hi : i ∈ slots) (hk : k ∈ slots) (hki : k ≠ i) (hocc : occ i = true)
    (hocc' : occ k = true) :
    contents slots occ (Function.update (Function.update val k (val i)) i (val k)) =
      contents slots occ val := by
  refine contents_exchange hi hk hki (fun j hji hjk => by simp [hji, hjk]) ?_
  rw [slotContents_occupied hocc, slotContents_occupied hocc', slotContents_occupied hocc,
    slotContents_occupied hocc']
  simp [hki, add_comm]

omit [DecidableEq ι] in
/-- With fewer values than slots, one slot is free. -/
theorem exists_free (h : (contents slots occ val).card < slots.card) :
    ∃ i ∈ slots, occ i = false := by
  by_contra hno
  have hall : slots.filter (fun i => occ i = true) = slots := by
    refine Finset.filter_true_of_mem fun i hi => ?_
    by_contra hocc
    exact hno ⟨i, hi, Bool.eq_false_iff.mpr hocc⟩
  rw [card_contents, hall] at h
  exact lt_irrefl _ h

end Cse344.Lib
