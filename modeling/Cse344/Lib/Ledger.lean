import Mathlib.Algebra.BigOperators.Group.List.Basic
import Mathlib.Data.List.Nodup
import Mathlib.Data.List.Perm.Basic
import Mathlib.Tactic.Ring

/-!
# Lists of entries with a key and a quantity

What a list holds under a key is `keySum`, whether it is an account with an entry for each key or
the history of what was added and taken.

* Programs keep an account as a list in which they change an entry, add one, or put the last one in
  the place of one they remove (`swapRemove`).
* None of this depends on the order (`keySum_perm`).

Results:
* `keySum_set`, `keySum_concat`, `keySum_eraseIdx`: what each of the three does to the sums.
* `swapRemove_perm`, `swapRemove_set_perm`: what is left is what was there without the entry.
* `keySum_of_get`: where the keys are different, an entry is all that is held under its key.

Out of scope: which quantities an entry may have; they are integers here.
-/

namespace Cse344.Lib

variable {α κ : Type*}

/-! ## Changes in place, up to order -/

/-- Entry `idx` becomes the last entry, and the last place is given up. -/
def swapRemove (l : List α) (idx : ℕ) : List α :=
  match l.getLast? with
  | none => l
  | some last => (l.set idx last).dropLast

/-- Setting an entry, up to order. -/
theorem set_perm {l : List α} (idx : Fin l.length) (e : α) :
    (l.set idx e).Perm (e :: l.eraseIdx idx) := by
  have hlt : (idx : ℕ) < (l.set idx e).length := by simp
  have h := (List.getElem_cons_eraseIdx_perm hlt).symm
  rwa [List.getElem_set_self, List.eraseIdx_set_eq] at h

theorem perm_eraseIdx {l : List α} (idx : Fin l.length) : l.Perm (l[idx] :: l.eraseIdx idx) :=
  (List.getElem_cons_eraseIdx_perm idx.isLt).symm

/-- Removing by the last entry, up to order. -/
theorem swapRemove_perm {l : List α} {idx : ℕ} (h : idx < l.length) :
    (swapRemove l idx).Perm (l.eraseIdx idx) := by
  rcases l.eq_nil_or_concat with rfl | ⟨init, last, rfl⟩
  · cases h
  · rw [List.concat_eq_append] at h ⊢
    rw [List.length_append, List.length_singleton] at h
    unfold swapRemove
    rw [List.getLast?_concat]
    dsimp only
    rcases Nat.lt_or_eq_of_le (Nat.le_of_lt_succ h) with hlt | rfl
    · rw [List.set_append_left _ _ hlt, List.dropLast_concat, List.eraseIdx_append_of_lt_length hlt]
      exact (set_perm ⟨idx, hlt⟩ last).trans (List.perm_append_singleton _ _).symm
    · rw [List.set_append_right _ _ (le_refl _), List.eraseIdx_append_of_length_le (le_refl _)]
      simp

/-- Removing an entry that was just set, up to order. -/
theorem swapRemove_set_perm {l : List α} (idx : Fin l.length) (e : α) :
    (swapRemove (l.set idx e) idx).Perm (l.eraseIdx idx) := by
  have hlt : (idx : ℕ) < (l.set idx e).length := by simp
  have := swapRemove_perm hlt
  rwa [List.eraseIdx_set_eq] at this

/-- An entry with a key of its own. -/
theorem nodup_map_cons {key : α → κ} {e : α} {l : List α} :
    ((e :: l).map key).Nodup ↔ (∀ x ∈ l, key x ≠ key e) ∧ (l.map key).Nodup := by
  rw [List.map_cons, List.nodup_cons, List.mem_map]
  refine and_congr_left fun _ => ?_
  constructor
  · rintro hno x hx heq
    exact hno ⟨x, hx, heq⟩
  · rintro hne ⟨x, hx, heq⟩
    exact hne x hx heq

/-! ## What a list holds -/

variable [DecidableEq κ] {key : α → κ} {qty : α → ℤ} {l l' : List α} {e : α} {k : κ}

/-- What a list of entries holds under the key `k`. -/
def keySum (key : α → κ) (qty : α → ℤ) (l : List α) (k : κ) : ℤ :=
  ((l.filter fun e => key e = k).map qty).sum

@[simp] theorem keySum_nil (k : κ) : keySum key qty [] k = 0 := rfl

theorem keySum_cons (e : α) (l : List α) (k : κ) :
    keySum key qty (e :: l) k = (if key e = k then qty e else 0) + keySum key qty l k := by
  by_cases h : key e = k <;> simp [keySum, h]

theorem keySum_perm (h : l.Perm l') (k : κ) : keySum key qty l k = keySum key qty l' k :=
  ((h.filter _).map _).sum_eq

theorem keySum_concat (l : List α) (e : α) (k : κ) :
    keySum key qty (l ++ [e]) k = keySum key qty l k + if key e = k then qty e else 0 := by
  rw [keySum_perm (List.perm_append_singleton e l), keySum_cons, add_comm]

/-- Nothing is held under a key the list does not have. -/
theorem keySum_eq_zero (h : ∀ e ∈ l, key e ≠ k) : keySum key qty l k = 0 := by
  rw [keySum, List.filter_eq_nil_iff.mpr fun e he => by simpa using h e he]
  rfl

variable (key qty) in
/-- Setting an entry changes what is held under its key. -/
theorem keySum_set (idx : Fin l.length) (hkey : key e = key l[idx]) (k : κ) :
    keySum key qty (l.set idx e) k =
      keySum key qty l k + if key l[idx] = k then qty e - qty l[idx] else 0 := by
  rw [keySum_perm (set_perm idx e), keySum_perm (perm_eraseIdx idx), keySum_cons, keySum_cons, hkey]
  split_ifs <;> ring

/-- Removing an entry removes what it holds. -/
theorem keySum_eraseIdx (idx : Fin l.length) (k : κ) :
    keySum key qty (l.eraseIdx idx) k =
      keySum key qty l k - if key l[idx] = k then qty l[idx] else 0 := by
  rw [keySum_perm (perm_eraseIdx idx) (l := l), keySum_cons]
  ring

/-- With different keys, an entry is all that is held under its key. -/
theorem keySum_of_get (h : (l.map key).Nodup) (idx : Fin l.length) :
    keySum key qty l (key l[idx]) = qty l[idx] := by
  have hne := (nodup_map_cons.mp (((perm_eraseIdx idx).map key).nodup_iff.mp h)).1
  rw [keySum_perm (perm_eraseIdx idx), keySum_cons, if_pos rfl, keySum_eq_zero hne, add_zero]

end Cse344.Lib
