import Mathlib.Algebra.BigOperators.Group.Finset.Defs
import Mathlib.Data.Multiset.Basic
import Mathlib.Data.List.Sort
import Mathlib.Data.Multiset.Range

/-!
# Binary heaps over an array with a fill mark

The array is a function `h : ℕ → α` of which the cells `0, …, n - 1` are in use, so a swap needs no
bounds. The order is a comparison `less` that ranks by a key (`Ranks`): elements with one key are
interchangeable for the heap.

* `siftUp`, `siftDown` are the loops that swap along one branch of the tree; `insert`, `extract` and
  `drain` are the queue operations built from them.
* `Ordered` is the heap property, `elems` the multiset of cells in use. What an operation does to
  `elems` needs no order.
* In the loops the property fails at one cell: `UpOrder` and `DownOrder` say which.

Results:
* **`ordered_insert`**, **`ordered_extract`**: the operations keep the heap property.
* **`elems_insert`**, **`elems_extract`**: they change the contents by one element.
* **`root_le`**: the root is minimal.
* `drain_perm`, **`drain_sorted`**: repeated extraction sorts.

Out of scope: arrays that grow, and changing the key of an element that is in the heap.
-/

namespace Cse344.Lib.BinaryHeap

variable {α κ : Type*}

/-- Exchange two cells. -/
def swapAt (h : ℕ → α) (i j : ℕ) : ℕ → α :=
  fun k => if k = i then h j else if k = j then h i else h k

/-- The parent of a cell. -/
def parent (i : ℕ) : ℕ := (i - 1) / 2

section Ops

variable (less : α → α → Bool)

/-- Swap the cell `i` with its parent until it is not less than it. -/
def siftUp (h : ℕ → α) (i : ℕ) : ℕ → α :=
  if 0 < i then
    if less (h i) (h (parent i)) then siftUp (swapAt h i (parent i)) (parent i) else h
  else h
termination_by i
decreasing_by unfold parent; omega

/-- The cell among `i` and its children that no other of them is less than. -/
def bestOf (h : ℕ → α) (size i : ℕ) : ℕ :=
  let left := 2 * i + 1
  let right := 2 * i + 2
  let best := if left < size ∧ less (h left) (h i) then left else i
  if right < size ∧ less (h right) (h best) then right else best

theorem bestOf_cases (h : ℕ → α) (size i : ℕ) :
    bestOf less h size i = i ∨
      ((bestOf less h size i = 2 * i + 1 ∨ bestOf less h size i = 2 * i + 2) ∧
        bestOf less h size i < size) := by
  unfold bestOf
  dsimp only
  split_ifs with hl hr hr
  · exact Or.inr ⟨Or.inr rfl, hr.1⟩
  · exact Or.inr ⟨Or.inl rfl, hl.1⟩
  · exact Or.inr ⟨Or.inr rfl, hr.1⟩
  · exact Or.inl rfl

/-- Swap the cell `i` with its best child until it is the best itself. -/
def siftDown (h : ℕ → α) (size i : ℕ) : ℕ → α :=
  if bestOf less h size i = i then h
  else siftDown (swapAt h i (bestOf less h size i)) size (bestOf less h size i)
termination_by size - i
decreasing_by have := bestOf_cases less h size i; omega

/-- Append `x` after the `n` cells in use and sift it up. -/
def insert (h : ℕ → α) (n : ℕ) (x : α) : ℕ → α :=
  siftUp less (Function.update h n x) n

/-- Take the root of the `n + 1` cells in use: the last cell moves to the root and sifts down. -/
def extract (h : ℕ → α) (n : ℕ) : ℕ → α :=
  if 0 < n then siftDown less (Function.update h 0 (h n)) n 0 else h

/-- Extract all `n` cells in use: the elements in the order they leave, and the array left. -/
def drain : (ℕ → α) → ℕ → List α × (ℕ → α)
  | h, 0 => ([], h)
  | h, n + 1 => (h 0 :: (drain (extract less h n) n).1, (drain (extract less h n) n).2)

end Ops

/-! ## The contents -/

/-- The elements of the cells in use. -/
def elems (h : ℕ → α) (n : ℕ) : Multiset α := (Multiset.range n).map h

theorem elems_succ (h : ℕ → α) (n : ℕ) : elems h (n + 1) = h n ::ₘ elems h n := by
  simp [elems, Multiset.range_succ]

theorem elems_succ_root (h : ℕ → α) (n : ℕ) :
    elems h (n + 1) = h 0 ::ₘ (Multiset.range n).map fun i => h (i + 1) := by
  induction n with
  | zero => rfl
  | succ n ih =>
    rw [elems_succ, ih, Multiset.range_succ, Multiset.map_cons, Multiset.cons_swap]

@[simp] theorem card_elems (h : ℕ → α) (n : ℕ) : (elems h n).card = n := by simp [elems]

theorem mem_elems {h : ℕ → α} {n : ℕ} {x : α} : x ∈ elems h n ↔ ∃ i < n, h i = x := by
  simp [elems]

theorem elems_congr {h h' : ℕ → α} {n : ℕ} (hh : ∀ i < n, h i = h' i) :
    elems h n = elems h' n :=
  Multiset.map_congr rfl fun i hi => hh i (Multiset.mem_range.mp hi)

theorem swapAt_eq_comp (h : ℕ → α) (i j : ℕ) : swapAt h i j = h ∘ Equiv.swap i j := by
  funext k
  simp only [swapAt, Function.comp, Equiv.swap_apply_def]
  split_ifs <;> rfl

theorem elems_swapAt {h : ℕ → α} {n i j : ℕ} (hi : i < n) (hj : j < n) :
    elems (swapAt h i j) n = elems h n := by
  have hperm : (Finset.range n).map (Equiv.swap i j).toEmbedding = Finset.range n := by
    apply Finset.map_perm
    intro k hk
    rcases Equiv.swap_apply_ne_self_iff.mp hk with ⟨-, rfl | rfl⟩
    · simpa using hi
    · simpa using hj
  have hval := congrArg (fun s => s.val.map h) hperm
  simp only [Finset.map_val, Multiset.map_map] at hval
  rw [swapAt_eq_comp]
  exact hval

variable {less : α → α → Bool}

theorem elems_siftUp {h : ℕ → α} {n i : ℕ} (hi : i < n) :
    elems (siftUp less h i) n = elems h n := by
  induction h, i using siftUp.induct less with
  | case1 h i hpos hless ih =>
    have hp : parent i < i := by unfold parent; omega
    rw [siftUp, if_pos hpos, if_pos hless, ih (hp.trans hi), elems_swapAt hi (hp.trans hi)]
  | case2 h i hpos hless => rw [siftUp, if_pos hpos, if_neg hless]
  | case3 h i hpos => rw [siftUp, if_neg hpos]

theorem elems_siftDown {h : ℕ → α} {size i : ℕ} (hi : i < size) :
    elems (siftDown less h size i) size = elems h size := by
  induction h, i using siftDown.induct less size with
  | case1 h i hbest => rw [siftDown, if_pos hbest]
  | case2 h i hbest ih =>
    have hlt : bestOf less h size i < size := by
      have := bestOf_cases less h size i
      omega
    rw [siftDown, if_neg hbest, ih hlt, elems_swapAt hi hlt]

/-- **Insertion adds one element.** -/
theorem elems_insert (h : ℕ → α) (n : ℕ) (x : α) :
    elems (insert less h n x) (n + 1) = x ::ₘ elems h n := by
  unfold insert
  rw [elems_siftUp (Nat.lt_succ_self n), elems_succ, Function.update_self]
  congr 1
  exact elems_congr fun i hi => Function.update_of_ne (by omega) _ _

/-- **Extraction removes the root**, and nothing else. -/
theorem elems_extract (less : α → α → Bool) (h : ℕ → α) (n : ℕ) :
    elems h (n + 1) = h 0 ::ₘ elems (extract less h n) n := by
  unfold extract
  split_ifs with hn
  · obtain ⟨m, rfl⟩ : ∃ m, n = m + 1 := ⟨n - 1, by omega⟩
    rw [elems_siftDown hn, elems_succ, elems_succ_root, elems_succ_root, Function.update_self,
      Multiset.cons_swap]
    rfl
  · obtain rfl : n = 0 := by omega
    rfl

/-! ## The heap property -/

variable [LinearOrder κ] {key : α → κ}

/-- The comparison ranks elements by their key. -/
def Ranks (less : α → α → Bool) (key : α → κ) : Prop := ∀ a b, less a b = true ↔ key a < key b

/-- The heap property: no cell in use ranks below its parent. -/
def Ordered (key : α → κ) (h : ℕ → α) (n : ℕ) : Prop :=
  ∀ i, 0 < i → i < n → key (h (parent i)) ≤ key (h i)

/-- What `siftUp` needs at `i`: only `i` may rank below its parent, and `i`'s children do not rank
below `i`'s parent. -/
structure UpOrder (key : α → κ) (h : ℕ → α) (n i : ℕ) : Prop where
  except : ∀ k, 0 < k → k < n → k ≠ i → key (h (parent k)) ≤ key (h k)
  grand : 0 < i → ∀ c, 0 < c → c < n → parent c = i → key (h (parent i)) ≤ key (h c)

/-- What `siftDown` needs at `i`: only `i`'s children may rank below `i`, and they do not rank
below `i`'s parent. -/
structure DownOrder (key : α → κ) (h : ℕ → α) (n i : ℕ) : Prop where
  except : ∀ k, 0 < k → k < n → parent k ≠ i → key (h (parent k)) ≤ key (h k)
  grand : 0 < i → ∀ c, 0 < c → c < n → parent c = i → key (h (parent i)) ≤ key (h c)

theorem swapAt_left (h : ℕ → α) (i j : ℕ) : swapAt h i j i = h j := by simp [swapAt]

theorem swapAt_right (h : ℕ → α) (i j : ℕ) : swapAt h i j j = h i := by
  unfold swapAt
  split_ifs with hij hjj
  · rw [hij]
  · rfl
  · exact absurd rfl hjj

theorem swapAt_other (h : ℕ → α) {i j k : ℕ} (hi : k ≠ i) (hj : k ≠ j) :
    swapAt h i j k = h k := by simp [swapAt, hi, hj]

theorem UpOrder.move {h : ℕ → α} {n i : ℕ} (o : UpOrder key h n i) (hpos : 0 < i) (hi : i < n)
    (hlt : key (h i) < key (h (parent i))) : UpOrder key (swapAt h i (parent i)) n (parent i) := by
  have hp : parent i < i := by unfold parent; omega
  constructor
  · intro k hk hkn hkp
    by_cases hki : k = i
    · rw [hki, swapAt_left, swapAt_right]
      exact hlt.le
    · rw [swapAt_other h hki hkp]
      by_cases hpk : parent k = i
      · rw [hpk, swapAt_left]
        exact o.grand hpos k hk hkn hpk
      · by_cases hpp : parent k = parent i
        · rw [hpp, swapAt_right]
          exact hlt.le.trans (hpp ▸ o.except k hk hkn hki)
        · rw [swapAt_other h hpk hpp]
          exact o.except k hk hkn hki
  · intro hp0 c hc hcn hcp
    have hpp : parent (parent i) < parent i := by unfold parent at *; omega
    have hup := o.except (parent i) hp0 (by omega) (by omega)
    rw [swapAt_other h (by omega) (by omega)]
    by_cases hci : c = i
    · rw [hci, swapAt_left]
      exact hup
    · have hcne : c ≠ parent i := by
        intro hcc
        rw [hcc] at hcp
        omega
      rw [swapAt_other h hci hcne]
      exact hup.trans (hcp ▸ o.except c hc hcn hci)

theorem ordered_siftUp (hr : Ranks less key) {h : ℕ → α} {n i : ℕ} (hi : i < n)
    (o : UpOrder key h n i) : Ordered key (siftUp less h i) n := by
  induction h, i using siftUp.induct less with
  | case1 h i hpos hless ih =>
    rw [siftUp, if_pos hpos, if_pos hless]
    exact ih (by unfold parent; omega) (o.move hpos hi ((hr _ _).mp hless))
  | case2 h i hpos hless =>
    rw [siftUp, if_pos hpos, if_neg hless]
    intro k hk hkn
    by_cases hki : k = i
    · rw [hki]
      exact not_lt.mp fun hlt => hless ((hr _ _).mpr hlt)
    · exact o.except k hk hkn hki
  | case3 h i hpos =>
    rw [siftUp, if_neg hpos]
    exact fun k hk hkn => o.except k hk hkn (by omega)

/-- The best cell ranks at or below `i` and all of `i`'s children. -/
theorem bestOf_le (hr : Ranks less key) (h : ℕ → α) (size i : ℕ) :
    key (h (bestOf less h size i)) ≤ key (h i) ∧
      ∀ c, 0 < c → c < size → parent c = i → key (h (bestOf less h size i)) ≤ key (h c) := by
  have hchild : ∀ c, 0 < c → parent c = i → c = 2 * i + 1 ∨ c = 2 * i + 2 := by
    intro c hc hp
    unfold parent at hp
    omega
  unfold bestOf
  simp only [hr _ _]
  split_ifs with hL hR hR
  · refine ⟨(hR.2.trans hL.2).le, fun c hc hcs hp => ?_⟩
    rcases hchild c hc hp with rfl | rfl
    · exact hR.2.le
    · exact le_refl _
  · refine ⟨hL.2.le, fun c hc hcs hp => ?_⟩
    rcases hchild c hc hp with rfl | rfl
    · exact le_refl _
    · exact not_lt.mp fun hlt => hR ⟨hcs, hlt⟩
  · refine ⟨hR.2.le, fun c hc hcs hp => ?_⟩
    rcases hchild c hc hp with rfl | rfl
    · exact hR.2.le.trans (not_lt.mp fun hlt => hL ⟨hcs, hlt⟩)
    · exact le_refl _
  · refine ⟨le_refl _, fun c hc hcs hp => ?_⟩
    rcases hchild c hc hp with rfl | rfl
    · exact not_lt.mp fun hlt => hL ⟨hcs, hlt⟩
    · exact not_lt.mp fun hlt => hR ⟨hcs, hlt⟩

theorem DownOrder.move {h : ℕ → α} {n i b : ℕ} (o : DownOrder key h n i)
    (hb : b = 2 * i + 1 ∨ b = 2 * i + 2) (hbn : b < n) (hle : key (h b) ≤ key (h i))
    (hmin : ∀ c, 0 < c → c < n → parent c = i → key (h b) ≤ key (h c)) :
    DownOrder key (swapAt h i b) n b := by
  have hpb : parent b = i := by unfold parent; omega
  constructor
  · intro k hk hkn hpk
    by_cases hpi : parent k = i
    · rw [hpi, swapAt_left]
      by_cases hkb : k = b
      · rw [hkb, swapAt_right]
        exact hle
      · have hki : k ≠ i := by
          intro hki
          rw [hki] at hpi hk
          unfold parent at hpi
          omega
        rw [swapAt_other h hki hkb]
        exact hmin k hk hkn hpi
    · rw [swapAt_other h hpi hpk]
      by_cases hki : k = i
      · rw [hki, swapAt_left]
        exact o.grand (by omega) b (by omega) hbn hpb
      · have hkb : k ≠ b := fun hkb => hpi (hkb ▸ hpb)
        rw [swapAt_other h hki hkb]
        exact o.except k hk hkn hpi
  · intro _ c hc hcn hpc
    have hcb : c ≠ b := by
      intro hcb
      rw [hcb] at hpc
      omega
    have hci : c ≠ i := by
      intro hci
      rw [hci] at hpc
      unfold parent at hpc
      omega
    rw [hpb, swapAt_left, swapAt_other h hci hcb]
    exact hpc ▸ o.except c hc hcn (by omega)

theorem ordered_siftDown (hr : Ranks less key) {h : ℕ → α} {size i : ℕ}
    (o : DownOrder key h size i) : Ordered key (siftDown less h size i) size := by
  induction h, i using siftDown.induct less size with
  | case1 h i hbest =>
    rw [siftDown, if_pos hbest]
    intro k hk hkn
    by_cases hpk : parent k = i
    · have := (bestOf_le hr h size i).2 k hk hkn hpk
      rw [hbest] at this
      rwa [hpk]
    · exact o.except k hk hkn hpk
  | case2 h i hbest ih =>
    rw [siftDown, if_neg hbest]
    obtain ⟨hb, hbs⟩ := (bestOf_cases less h size i).resolve_left hbest
    obtain ⟨hle, hmin⟩ := bestOf_le hr h size i
    exact ih (o.move hb hbs hle hmin)

/-- **Insertion keeps the heap property.** -/
theorem ordered_insert (hr : Ranks less key) {h : ℕ → α} {n : ℕ} (o : Ordered key h n) (x : α) :
    Ordered key (insert less h n x) (n + 1) := by
  refine ordered_siftUp hr (Nat.lt_succ_self n) ⟨fun k hk hkn hkne => ?_, fun hn c hc hcn hpc => ?_⟩
  · have hp : parent k < n := by unfold parent; omega
    rw [Function.update_of_ne hp.ne, Function.update_of_ne hkne]
    exact o k hk (by omega)
  · unfold parent at hpc
    omega

/-- **Extraction keeps the heap property.** -/
theorem ordered_extract (hr : Ranks less key) {h : ℕ → α} {n : ℕ} (o : Ordered key h (n + 1)) :
    Ordered key (extract less h n) n := by
  unfold extract
  split_ifs with hn
  · refine ordered_siftDown hr ⟨fun k hk hkn hpk => ?_, fun h0 => absurd h0 (lt_irrefl 0)⟩
    rw [Function.update_of_ne hpk, Function.update_of_ne (by omega)]
    exact o k hk (by omega)
  · intro k hk hkn
    omega

/-- **The root is minimal.** -/
theorem root_le {h : ℕ → α} {n : ℕ} (o : Ordered key h n) : ∀ i < n, key (h 0) ≤ key (h i) := by
  intro i
  induction i using Nat.strongRecOn with
  | ind i ih =>
    intro hi
    rcases Nat.eq_zero_or_pos i with rfl | hpos
    · exact le_refl _
    · have hp : parent i < i := by unfold parent; omega
      exact (ih (parent i) hp (hp.trans hi)).trans (o i hpos hi)

theorem root_le_of_mem {h : ℕ → α} {n : ℕ} (o : Ordered key h n) {x : α} (hx : x ∈ elems h n) :
    key (h 0) ≤ key x := by
  obtain ⟨i, hi, rfl⟩ := mem_elems.mp hx
  exact root_le o i hi

/-! ## Draining sorts -/

theorem drain_perm : ∀ (n : ℕ) (h : ℕ → α), ((drain less h n).1 : Multiset α) = elems h n
  | 0, _ => rfl
  | n + 1, h => by
    rw [drain, ← Multiset.cons_coe, drain_perm n, ← elems_extract]

/-- **Draining a heap yields its elements in key order.** -/
theorem drain_sorted (hr : Ranks less key) : ∀ (n : ℕ) (h : ℕ → α), Ordered key h n →
    (drain less h n).1.Pairwise fun a b => key a ≤ key b
  | 0, _, _ => List.Pairwise.nil
  | n + 1, h, o => by
    refine List.Pairwise.cons (fun b hb => ?_) (drain_sorted hr n _ (ordered_extract hr o))
    have hb' : b ∈ ((drain less (extract less h n) n).1 : Multiset α) := hb
    rw [drain_perm] at hb'
    refine root_le_of_mem o ?_
    rw [elems_extract less]
    exact Multiset.mem_cons_of_mem hb'

end Cse344.Lib.BinaryHeap
