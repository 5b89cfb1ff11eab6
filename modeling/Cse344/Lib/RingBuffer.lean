import Mathlib.Data.List.Basic
import Mathlib.Data.Nat.ModEq
import Mathlib.Logic.Function.Basic

/-!
# Ring buffers

A `RingBuffer` is an array with a head, a tail and a count; its fields say that the tail is `count`
places after the head, so no other ring can be built.

* The array is a function of which the cells below `capacity` are used.
* `toList` is the queue it stands for, from the head on.

Results:
* **`toList_push`**: a push appends to the queue.
* **`toList_pop`**: a pop takes its first element; `pop_eq_none_iff`: it finds none exactly in an
  empty queue.

Out of scope: sequences of calls, which are the subject of `Fifo`.
-/

namespace Cse344.Lib

structure RingBuffer (α : Type*) where
  data : ℕ → α
  head : ℕ
  tail : ℕ
  count : ℕ
  capacity : ℕ
  head_lt : head < capacity
  count_le : count ≤ capacity
  tail_eq : tail = (head + count) % capacity

namespace RingBuffer

variable {α : Type*}

/-- An empty ring, whose array holds `x`. -/
def empty (x : α) (capacity : ℕ) (h : 0 < capacity) : RingBuffer α where
  data := fun _ => x
  head := 0
  tail := 0
  count := 0
  capacity := capacity
  head_lt := h
  count_le := Nat.zero_le _
  tail_eq := by rw [Nat.zero_mod]

/-- Write `x` at the tail, `none` when the ring is full. -/
def push (r : RingBuffer α) (x : α) : Option (RingBuffer α) :=
  if h : r.count = r.capacity then none
  else some
    { r with
      data := Function.update r.data r.tail x
      tail := (r.tail + 1) % r.capacity
      count := r.count + 1
      count_le := by have := r.count_le; omega
      tail_eq := by rw [r.tail_eq, Nat.mod_add_mod, Nat.add_assoc] }

/-- Read the head, `none` when the ring is empty. -/
def pop (r : RingBuffer α) : Option (α × RingBuffer α) :=
  if h : r.count = 0 then none
  else some (r.data r.head,
    { r with
      head := (r.head + 1) % r.capacity
      count := r.count - 1
      head_lt := Nat.mod_lt _ (Nat.lt_of_le_of_lt (Nat.zero_le _) r.head_lt)
      count_le := by have := r.count_le; omega
      tail_eq := by
        rw [r.tail_eq, Nat.mod_add_mod]
        congr 1
        omega })

/-- The elements from head to tail. -/
def toList (r : RingBuffer α) : List α :=
  (List.range r.count).map fun k => r.data ((r.head + k) % r.capacity)

@[simp] theorem length_toList (r : RingBuffer α) : r.toList.length = r.count := by simp [toList]

/-- Places less than the capacity apart are different. -/
theorem place_ne {head i j capacity : ℕ} (hi : i < capacity) (hj : j < capacity) (hij : i ≠ j) :
    (head + i) % capacity ≠ (head + j) % capacity := by
  intro h
  have hmod : i ≡ j [MOD capacity] := Nat.ModEq.add_left_cancel' head h
  rw [Nat.ModEq, Nat.mod_eq_of_lt hi, Nat.mod_eq_of_lt hj] at hmod
  exact hij hmod

/-- **A push appends.** -/
theorem toList_push {r r' : RingBuffer α} {x : α} (h : r.push x = some r') :
    r'.toList = r.toList ++ [x] := by
  unfold push at h
  split at h
  · cases h
  · rename_i hfull
    obtain rfl := Option.some.inj h
    have hlt : r.count < r.capacity := lt_of_le_of_ne r.count_le hfull
    simp only [toList, List.range_succ, List.map_append, List.map_cons, List.map_nil]
    rw [← r.tail_eq, Function.update_self]
    congr 1
    refine List.map_congr_left fun k hk => ?_
    have hk : k < r.count := List.mem_range.mp hk
    rw [r.tail_eq, Function.update_of_ne]
    exact place_ne (hk.trans hlt) hlt hk.ne

theorem pop_eq_none_iff {r : RingBuffer α} : r.pop = none ↔ r.toList = [] := by
  unfold pop
  rw [← List.length_eq_zero_iff, length_toList]
  split <;> simp_all

/-- **A pop takes the first element.** -/
theorem toList_pop {r r' : RingBuffer α} {x : α} (h : r.pop = some (x, r')) :
    r.toList = x :: r'.toList := by
  unfold pop at h
  split at h
  · cases h
  · rename_i hne
    rw [Option.some.injEq, Prod.mk.injEq] at h
    obtain ⟨rfl, rfl⟩ := h
    obtain ⟨k, hk⟩ : ∃ k, r.count = k + 1 := ⟨r.count - 1, by omega⟩
    simp only [toList, hk, Nat.add_sub_cancel, List.range_succ_eq_map, List.map_cons, List.map_map,
      Nat.add_zero, Nat.mod_eq_of_lt r.head_lt]
    congr 1
    refine List.map_congr_left fun j _ => ?_
    simp only [Function.comp, Nat.mod_add_mod]
    congr 2
    omega

end RingBuffer

end Cse344.Lib
