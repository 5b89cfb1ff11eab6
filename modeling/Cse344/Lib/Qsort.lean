import Mathlib.Data.List.Perm.Basic
import Mathlib.Data.List.Sort
import Mathlib.Order.Defs.LinearOrder

/-!
# `qsort`

`QsortResult` is what `qsort` promises: a permutation, sorted if the comparison orders the elements.
C leaves open what becomes of a list that the comparison does not order; some permutation is all
that is assumed of it.

* A comparison function orders the elements of a list when its sign is that of a total preorder on
  them (`TotalPreorderOn`).

Results:
* **`TotalPreorderOn.of_key`**: a comparison of keys of a linear order is one.
* `exists_qsortResult`: there always is a result.

Out of scope: the order of elements that compare equal, and a comparison that changes them.
-/

namespace Cse344.Lib

variable {α β : Type*} {cmp : α → α → ℤ} {l r : List α}

/-- The sign of `cmp` is that of a total preorder on the elements of `l`. -/
structure TotalPreorderOn (cmp : α → α → ℤ) (l : List α) : Prop where
  swap : ∀ a ∈ l, ∀ b ∈ l, cmp a b ≤ 0 ↔ 0 ≤ cmp b a
  total : ∀ a ∈ l, ∀ b ∈ l, cmp a b ≤ 0 ∨ cmp b a ≤ 0
  trans : ∀ a ∈ l, ∀ b ∈ l, ∀ c ∈ l, cmp a b ≤ 0 → cmp b c ≤ 0 → cmp a c ≤ 0

/-- What `qsort` may make of `l`. -/
structure QsortResult (cmp : α → α → ℤ) (l r : List α) : Prop where
  perm : r.Perm l
  sorted : TotalPreorderOn cmp l → r.Pairwise fun a b => cmp a b ≤ 0

/-- **A comparison of keys.** -/
theorem TotalPreorderOn.of_key [LinearOrder β] (key : α → β)
    (hle : ∀ a ∈ l, ∀ b ∈ l, cmp a b ≤ 0 ↔ key a ≤ key b)
    (hge : ∀ a ∈ l, ∀ b ∈ l, 0 ≤ cmp a b ↔ key b ≤ key a) : TotalPreorderOn cmp l where
  swap := fun a ha b hb => (hle a ha b hb).trans (hge b hb a ha).symm
  total := fun a ha b hb => by
    rw [hle a ha b hb, hle b hb a ha]
    exact le_total _ _
  trans := fun a ha b hb c hc hab hbc => by
    rw [hle a ha b hb] at hab
    rw [hle b hb c hc] at hbc
    exact (hle a ha c hc).mpr (hab.trans hbc)

/-- A list that the comparison orders can be sorted. -/
theorem TotalPreorderOn.exists_sorted (h : TotalPreorderOn cmp l) :
    ∃ r : List α, r.Perm l ∧ r.Pairwise fun a b => cmp a b ≤ 0 := by
  -- the comparison is an order only on the elements of the list
  let le : {x // x ∈ l} → {x // x ∈ l} → Prop := fun a b => cmp a b ≤ 0
  have htotal : Std.Total le := ⟨fun a b => h.total a a.2 b b.2⟩
  have htrans : IsTrans _ le := ⟨fun a b c => h.trans a a.2 b b.2 c c.2⟩
  refine ⟨(l.attach.insertionSort le).map Subtype.val, ?_, ?_⟩
  · have hperm := (List.perm_insertionSort le l.attach).map Subtype.val
    rwa [List.attach_map_subtype_val] at hperm
  · exact List.pairwise_map.mpr (List.pairwise_insertionSort le l.attach)

theorem exists_qsortResult (cmp : α → α → ℤ) (l : List α) : ∃ r, QsortResult cmp l r := by
  by_cases h : TotalPreorderOn cmp l
  · obtain ⟨r, hperm, hsorted⟩ := h.exists_sorted
    exact ⟨r, hperm, fun _ => hsorted⟩
  · exact ⟨l, List.Perm.refl l, fun hyes => absurd hyes h⟩

/-- A permutation of an image is the image of a permutation. -/
theorem exists_perm_of_perm_map {f : β → α} {l : List β} (h : r.Perm (l.map f)) :
    ∃ l' : List β, l'.Perm l ∧ r = l'.map f := by
  have hcomp := congrFun (congrFun (List.eq_map_comp_perm f) r) l
  obtain ⟨l', hr, hperm⟩ := hcomp.mpr h
  exact ⟨l', hperm, hr⟩

end Cse344.Lib
