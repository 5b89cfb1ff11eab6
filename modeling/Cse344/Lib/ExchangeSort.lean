import Mathlib.Data.Fintype.Basic
import Mathlib.Data.List.FinRange
import Mathlib.Data.List.Range
import Mathlib.Logic.Equiv.Basic

/-!
# Exchange sort

Two nested loops over the places of an array: for each `i`, for each `j` behind it, exchange the two
entries if the one at `j` belongs before the one at `i`.

* The array is a function on `Fin n`, and an exchange composes it with a swap.
* `Sinks` says what the loop over `j` does to the entries: it moves those from `i` on, and leaves at
  `i` one that none of those it has met belongs before.
* `Settled` says of the loop over `i` that the places before `i` have what belongs there.

Results:
* **`exchangeSort_perm`**: the result has the entries of the array, for any `before`.
* **`exchangeSort_sorted`**: they are in order, where `before` compares ranks.

Out of scope: the order of entries of one rank; the sort is not stable.
-/

namespace Cse344.Lib

variable {n : ℕ} {α : Type*} (before : α → α → Bool)

/-- Exchange the entries at `i` and `j` if that at `j` belongs before the other. -/
def compareExchange (i : Fin n) (order : Fin n → α) (j : Fin n) : Fin n → α :=
  if before (order j) (order i) then order ∘ Equiv.swap i j else order

/-- The loop over `j`. -/
def exchangePass (order : Fin n → α) (i : Fin n) : Fin n → α :=
  ((List.finRange n).filter fun j => i < j).foldl (compareExchange before i) order

def exchangeSort (order : Fin n → α) : Fin n → α :=
  (List.finRange n).foldl (exchangePass before) order

/-! ## One pass -/

/-- What the loop over the places `js` makes of `o`. -/
structure Sinks (i : Fin n) (js : List (Fin n)) (o o' : Fin n → α) : Prop where
  /-- Entries are moved, and none from before `i`. -/
  moved : ∃ σ : Equiv.Perm (Fin n), o' = o ∘ σ ∧ ∀ k < i, σ k = k
  /-- Other places keep their entries. -/
  kept : ∀ k, k ≠ i → k ∉ js → o' k = o k

variable {before}

theorem sinks_compareExchange {i j : Fin n} (hij : i < j) (o : Fin n → α) :
    Sinks i [j] o (compareExchange before i o j) := by
  unfold compareExchange
  split_ifs
  · refine ⟨⟨Equiv.swap i j, rfl, fun k hk => ?_⟩, fun k hki hkj => ?_⟩
    · exact Equiv.swap_apply_of_ne_of_ne hk.ne (hk.trans hij).ne
    · rw [Function.comp_apply,
        Equiv.swap_apply_of_ne_of_ne hki fun h => hkj (h ▸ List.mem_singleton_self j)]
  · exact ⟨⟨Equiv.refl _, rfl, fun _ _ => rfl⟩, fun _ _ _ => rfl⟩

theorem Sinks.trans {i : Fin n} {js ks : List (Fin n)} {o p q : Fin n → α} (h : Sinks i js o p)
    (h' : Sinks i ks p q) : Sinks i (js ++ ks) o q := by
  obtain ⟨⟨σ, rfl, hσ⟩, hkept⟩ := h
  obtain ⟨⟨τ, rfl, hτ⟩, hkept'⟩ := h'
  refine ⟨⟨τ.trans σ, rfl, fun k hk => ?_⟩, fun k hki hk => ?_⟩
  · rw [Equiv.trans_apply, hτ k hk, hσ k hk]
  · rw [List.mem_append, not_or] at hk
    rw [hkept' k hki hk.2, hkept k hki hk.1]

theorem sinks_foldl {i : Fin n} : ∀ {js : List (Fin n)} {o : Fin n → α}, (∀ j ∈ js, i < j) →
    Sinks i js o (js.foldl (compareExchange before i) o)
  | [], _, _ => ⟨⟨Equiv.refl _, rfl, fun _ _ => rfl⟩, fun _ _ _ => rfl⟩
  | j :: _, o, h => (sinks_compareExchange (h j List.mem_cons_self) o).trans
      (sinks_foldl fun k hk => h k (List.mem_cons_of_mem _ hk))

variable (before) in
theorem sinks_pass (o : Fin n → α) (i : Fin n) :
    Sinks i ((List.finRange n).filter fun j => i < j) o (exchangePass before o i) :=
  sinks_foldl fun j hj => by simpa using hj

variable (before) in
/-- **The entries stay the same.** -/
theorem exchangeSort_perm (o : Fin n → α) :
    ∃ σ : Equiv.Perm (Fin n), exchangeSort before o = o ∘ σ := by
  unfold exchangeSort
  induction List.finRange n generalizing o with
  | nil => exact ⟨Equiv.refl _, rfl⟩
  | cons i is ih =>
    obtain ⟨σ, hσ, -⟩ := (sinks_pass before o i).moved
    obtain ⟨τ, hτ⟩ := ih (exchangePass before o i)
    exact ⟨τ.trans σ, by rw [List.foldl_cons, hτ, hσ]; rfl⟩

/-! ## The order -/

section Ranks

variable {β : Type*} [LinearOrder β] {rank : α → β}

/-- The entry at `i` rises: after the loop no entry at a place it has met ranks below it. -/
theorem foldl_le (hrank : ∀ a b, before a b = true ↔ rank a < rank b) {i : Fin n} :
    ∀ {js : List (Fin n)} {o : Fin n → α}, (∀ j ∈ js, i < j) →
      rank (js.foldl (compareExchange before i) o i) ≤ rank (o i) ∧
        ∀ j ∈ js, rank (js.foldl (compareExchange before i) o i) ≤
          rank (js.foldl (compareExchange before i) o j)
  | [], _, _ => ⟨le_rfl, fun _ hj => by cases hj⟩
  | j :: js, o, h => by
    have hjs : ∀ k ∈ js, i < k := fun k hk => h k (List.mem_cons_of_mem _ hk)
    have hij : i < j := h j List.mem_cons_self
    obtain ⟨hle, hall⟩ := foldl_le hrank (o := compareExchange before i o j) hjs
    have hone : rank (compareExchange before i o j i) ≤ rank (o i) ∧
        rank (compareExchange before i o j i) ≤ rank (compareExchange before i o j j) := by
      unfold compareExchange
      split_ifs with hb
      · rw [hrank] at hb
        simp only [Function.comp_apply, Equiv.swap_apply_left, Equiv.swap_apply_right]
        exact ⟨hb.le, hb.le⟩
      · rw [hrank, not_lt] at hb
        exact ⟨le_rfl, hb⟩
    refine ⟨hle.trans hone.1, fun k hk => ?_⟩
    by_cases hmem : k ∈ js
    · exact hall k hmem
    · obtain rfl : k = j := (List.mem_cons.mp hk).resolve_right hmem
      rw [List.foldl_cons, (sinks_foldl hjs).kept k hij.ne' hmem]
      exact hle.trans hone.2

/-- The places before `i` hold what they will hold: nothing behind them ranks below. -/
def Settled (rank : α → β) (o : Fin n → α) (i : ℕ) : Prop :=
  ∀ a b : Fin n, a < i → a < b → rank (o a) ≤ rank (o b)

theorem settled_pass (hrank : ∀ a b, before a b = true ↔ rank a < rank b) {o : Fin n → α}
    {i : Fin n} (h : Settled rank o i) : Settled rank (exchangePass before o i) (i + 1) := by
  have hjs : ∀ j ∈ (List.finRange n).filter fun j => i < j, i < j := fun j hj => by simpa using hj
  obtain ⟨⟨σ, hσ, hfix⟩, hkept⟩ := sinks_pass before o i
  intro a b ha hab
  rcases Nat.lt_succ_iff_lt_or_eq.mp ha with hlt | heq
  · -- an entry before `i` stays, and what is behind it comes from behind it
    have hai : a < i := hlt
    rw [hσ, Function.comp_apply, Function.comp_apply, hfix a hai]
    refine h a (σ b) hlt ?_
    by_contra hle
    have hσb : σ b < i := (not_lt.mp hle).trans_lt hai
    have : σ (σ b) = σ b := hfix _ hσb
    rw [σ.injective this] at hle
    exact hle hab
  · obtain rfl : a = i := Fin.ext heq
    exact (foldl_le hrank hjs).2 b (by simpa using hab)

theorem settled_foldl (hrank : ∀ a b, before a b = true ↔ rank a < rank b) :
    ∀ {is : List (Fin n)} {i : ℕ} {o : Fin n → α},
      is.map Fin.val = List.range' i is.length → Settled rank o i →
        Settled rank (is.foldl (exchangePass before) o) (i + is.length)
  | [], _, _, _, h => h
  | k :: is, i, o, hval, h => by
    rw [List.map_cons, List.length_cons, List.range'_succ, List.cons.injEq] at hval
    obtain ⟨rfl, hval⟩ := hval
    rw [List.length_cons, ← Nat.add_assoc, Nat.add_right_comm]
    exact settled_foldl hrank hval (settled_pass hrank h)

/-- **The entries are in order.** -/
theorem exchangeSort_sorted (hrank : ∀ a b, before a b = true ↔ rank a < rank b) (o : Fin n → α) :
    Monotone fun i => rank (exchangeSort before o i) := by
  have hval : (List.finRange n).map Fin.val = List.range' 0 (List.finRange n).length := by
    rw [List.length_finRange, ← List.range_eq_range']
    exact List.map_coe_finRange_eq_range
  have h := settled_foldl hrank hval (o := o) fun a _ ha => absurd ha (Nat.not_lt_zero _)
  rw [List.length_finRange, Nat.zero_add] at h
  intro a b hab
  rcases hab.lt_or_eq with hlt | rfl
  · exact h a b a.isLt hlt
  · exact le_rfl

end Ranks

end Cse344.Lib
