import Mathlib.Algebra.BigOperators.Group.Finset.Basic
import Mathlib.Data.Fintype.BigOperators
import Mathlib.Logic.Function.Basic

/-!
# Interleavings of lists

`Interleaves parts l`: the list `l` consists of the lists `parts i`, each in its own order. It is
what a queue holds that several processes write to, each its own elements.

* There are tags for the elements of `l`, the index of the part each is of; `parts i` is what has
  the tag `i`.

Results:
* `Interleaves.push`: an interleaving grows by one element at its end, that of any one part.
* **`Interleaves.coe_eq_sum`**: it has the elements of all parts, as often as they have them.

Out of scope: which interleavings a scheduler may make; any is one here.
-/

namespace Cse344.Lib

variable {ι α : Type*} [DecidableEq ι]

/-- Every element of `l` is from one of the parts, and what is from part `i` is `parts i`. -/
def Interleaves (parts : ι → List α) (l : List α) : Prop :=
  ∃ tagged : List (ι × α), tagged.map Prod.snd = l ∧
    ∀ i, (tagged.filter fun x => x.1 = i).map Prod.snd = parts i

namespace Interleaves

variable {parts : ι → List α} {l : List α}

theorem nil : Interleaves (fun _ : ι => ([] : List α)) [] := ⟨[], rfl, fun _ => rfl⟩

/-- One more element of part `i`. -/
theorem push (h : Interleaves parts l) (i : ι) (x : α) :
    Interleaves (Function.update parts i (parts i ++ [x])) (l ++ [x]) := by
  obtain ⟨tagged, hl, hparts⟩ := h
  refine ⟨tagged ++ [(i, x)], by rw [List.map_append, hl]; rfl, fun j => ?_⟩
  rw [List.filter_append, List.map_append, hparts j]
  by_cases hij : j = i
  · subst hij
    simp
  · simp [hij, Ne.symm hij]

/-- The elements of a tagged list, tag by tag. -/
theorem sum_filter_tag [Fintype ι] (tagged : List (ι × α)) :
    ((tagged.map Prod.snd : List α) : Multiset α) =
      ∑ i, (((tagged.filter fun x => x.1 = i).map Prod.snd : List α) : Multiset α) := by
  induction tagged with
  | nil => simp
  | cons x rest ih =>
    have hcons : ∀ i, (((x :: rest).filter fun y => y.1 = i).map Prod.snd : Multiset α) =
        (if x.1 = i then {x.2} else 0) +
          ((rest.filter fun y => y.1 = i).map Prod.snd : Multiset α) := by
      intro i
      by_cases hi : x.1 = i
      · simp only [List.filter_cons, hi, decide_true, if_true, List.map_cons]
        rfl
      · simp only [List.filter_cons, hi, decide_false, Bool.false_eq_true, if_false, zero_add]
    simp only [hcons, Finset.sum_add_distrib, ← ih, Finset.sum_ite_eq, Finset.mem_univ, if_true]
    rfl

/-- What a function of the elements adds up to, tag by tag. -/
theorem sum_map_filter_tag {M : Type*} [AddCommMonoid M] [Fintype ι] (tagged : List (ι × α))
    (f : α → M) :
    ∑ i, (((tagged.filter fun x => x.1 = i).map Prod.snd).map f).sum =
      ((tagged.map Prod.snd).map f).sum := by
  induction tagged with
  | nil => simp
  | cons x rest ih =>
    have hcons : ∀ i, ((((x :: rest).filter fun y => y.1 = i).map Prod.snd).map f).sum =
        (if x.1 = i then f x.2 else 0) +
          (((rest.filter fun y => y.1 = i).map Prod.snd).map f).sum := by
      intro i
      by_cases hi : x.1 = i
      · simp [hi]
      · simp [hi]
    simp only [hcons, Finset.sum_add_distrib, ih, Finset.sum_ite_eq, Finset.mem_univ, if_true,
      List.map_cons, List.sum_cons]

/-- **Nothing is lost or doubled.** -/
theorem coe_eq_sum [Fintype ι] (h : Interleaves parts l) :
    (l : Multiset α) = ∑ i, (parts i : Multiset α) := by
  obtain ⟨tagged, rfl, hparts⟩ := h
  rw [sum_filter_tag]
  exact Finset.sum_congr rfl fun i _ => congrArg _ (hparts i)

end Interleaves

end Cse344.Lib
