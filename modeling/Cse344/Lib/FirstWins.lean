import Mathlib.Data.List.Basic
import Mathlib.Data.Nat.Notation

/-!
# The first of each key

`firstWins` keeps from a list the elements whose keys were not seen before.

* `seenAfter` are the keys seen after some elements, so that a list may be read in parts.
* The elements may come from sources, each of which gives some of them (`numbered`: with the number
  of the source they come from).

Results:
* `firstWins_append`: part by part.
* **`firstWins_eq_option_iff`**: when one element is kept, at most.
* **`firstWins_numbered_iff`**: two ways to read the sources keep the same elements of the same
  sources if and only if they do for each source, after what is kept of those before it.

Out of scope: keeping the last of each key.
-/

namespace Cse344.Lib

variable {α β κ : Type*} [DecidableEq κ] {key : α → κ}

/-- The elements whose keys are new, after the keys `seen`. -/
def firstWins (key : α → κ) (seen : List κ) : List α → List α
  | [] => []
  | a :: l =>
    if key a ∈ seen then firstWins key seen l else a :: firstWins key (seen ++ [key a]) l

/-- The keys seen after some elements. -/
def seenAfter (key : α → κ) (seen : List κ) (l : List α) : List κ :=
  seen ++ (firstWins key seen l).map key

theorem firstWins_append (seen : List κ) (l l' : List α) : firstWins key seen (l ++ l') =
    firstWins key seen l ++ firstWins key (seenAfter key seen l) l' := by
  induction l generalizing seen with
  | nil =>
    rw [List.nil_append, seenAfter, firstWins, List.map_nil, List.append_nil, List.nil_append]
  | cons a l ih =>
    rw [List.cons_append, seenAfter, firstWins, firstWins]
    split_ifs with ha
    · rw [ih, seenAfter]
    · rw [ih, seenAfter, List.cons_append, List.map_cons, List.append_assoc]
      rfl

theorem seenAfter_append (seen : List κ) (l l' : List α) : seenAfter key seen (l ++ l') =
    seenAfter key (seenAfter key seen l) l' := by
  rw [seenAfter, firstWins_append, List.map_append, ← List.append_assoc]
  rfl

/-- What is kept has new keys, all different. -/
theorem firstWins_nodup (seen : List κ) (l : List α) :
    ((firstWins key seen l).map key).Nodup ∧ ∀ a ∈ firstWins key seen l, key a ∉ seen := by
  induction l generalizing seen with
  | nil => exact ⟨List.nodup_nil, fun a ha => absurd ha List.not_mem_nil⟩
  | cons a l ih =>
    rw [firstWins]
    split_ifs with ha
    · exact ih seen
    · obtain ⟨hnodup, hnew⟩ := ih (seen ++ [key a])
      refine ⟨?_, ?_⟩
      · rw [List.map_cons, List.nodup_cons]
        refine ⟨fun hmem => ?_, hnodup⟩
        obtain ⟨b, hb, heq⟩ := List.mem_map.mp hmem
        exact hnew b hb (List.mem_append_right _ (List.mem_singleton.mpr heq))
      · intro b hb
        rcases List.mem_cons.mp hb with rfl | hb
        · exact ha
        · exact fun hmem => hnew b hb (List.mem_append_left _ hmem)

theorem firstWins_eq_nil_iff {seen : List κ} {l : List α} :
    firstWins key seen l = [] ↔ ∀ a ∈ l, key a ∈ seen := by
  induction l with
  | nil => exact ⟨fun _ a ha => absurd ha List.not_mem_nil, fun _ => rfl⟩
  | cons a l ih =>
    rw [firstWins, List.forall_mem_cons]
    split_ifs with ha
    · rw [ih, and_iff_right ha]
    · exact ⟨False.elim, fun h => ha h.1⟩

theorem firstWins_map {f : β → α} (seen : List κ) (l : List β) :
    firstWins key seen (l.map f) = (firstWins (fun b => key (f b)) seen l).map f := by
  induction l generalizing seen with
  | nil => rfl
  | cons b l ih =>
    rw [List.map_cons, firstWins, firstWins]
    split_ifs
    · exact ih seen
    · rw [ih, List.map_cons]

/-- An element with a new key is all that is kept if no other key is new, and it is the first with
its key. -/
theorem firstWins_eq_singleton_iff {seen : List κ} {l : List α} {b : α} (hb : key b ∉ seen) :
    firstWins key seen l = [b] ↔
      (∀ a ∈ l, key a ∈ seen ∨ key a = key b) ∧ (l.find? fun a => key a = key b) = some b := by
  induction l with
  | nil => simp [firstWins]
  | cons a l ih =>
    rw [firstWins, List.forall_mem_cons, List.find?_cons]
    by_cases ha : key a ∈ seen
    · have hne : key a ≠ key b := fun heq => hb (heq ▸ ha)
      rw [if_pos ha, decide_eq_false hne]
      exact ih.trans (and_congr_left fun _ => (and_iff_right (.inl ha)).symm)
    · rw [if_neg ha, List.cons_eq_cons, firstWins_eq_nil_iff]
      by_cases hkey : key a = key b
      · rw [decide_eq_true hkey, hkey]
        simp only [List.mem_append, List.mem_singleton, Option.some.injEq, or_true, true_and]
        exact and_comm
      · refine iff_of_false (fun h => hkey (congrArg key h.1)) fun h => ?_
        exact h.1.1.elim ha hkey

/-- **When one element is kept**, at most: every new key is its key, and the first element with that
key is the one. -/
theorem firstWins_eq_option_iff {seen : List κ} {l : List α} {o : Option α} :
    firstWins key seen l = firstWins key seen o.toList ↔
      (∀ a ∈ l, key a ∈ seen ∨ ∃ b ∈ o, key a = key b) ∧
        ∀ b ∈ o, key b ∉ seen → (l.find? fun a => key a = key b) = some b := by
  cases o with
  | none =>
    rw [Option.toList_none, firstWins, firstWins_eq_nil_iff]
    simp
  | some b =>
    have hone : firstWins key seen (some b).toList = if key b ∈ seen then [] else [b] := rfl
    rw [hone]
    simp only [Option.mem_some, exists_eq_left', forall_eq']
    by_cases hb : key b ∈ seen
    · rw [if_pos hb, firstWins_eq_nil_iff]
      constructor
      · exact fun h => ⟨fun a ha => .inl (h a ha), fun hnew => absurd hb hnew⟩
      · rintro ⟨h, -⟩ a ha
        rcases h a ha with hseen | heq
        · exact hseen
        · rwa [heq]
    · rw [if_neg hb, firstWins_eq_singleton_iff hb]
      exact and_congr_right fun _ => (imp_iff_right hb).symm

/-! ## Sources -/

/-- What sources give, each with the number of its source, from `i` on. -/
def numbered (f : β → List α) (i : ℕ) : List β → List (ℕ × α)
  | [] => []
  | x :: xs => (f x).map (Prod.mk i) ++ numbered f (i + 1) xs

theorem le_of_mem_numbered {f : β → List α} {i : ℕ} {xs : List β} {y : ℕ × α}
    (h : y ∈ numbered f i xs) : i ≤ y.1 := by
  induction xs generalizing i with
  | nil => cases h
  | cons x xs ih =>
    rcases List.mem_append.mp h with h | h
    · obtain ⟨a, -, rfl⟩ := List.mem_map.mp h
      exact Nat.le_refl _
    · exact Nat.le_of_succ_le (ih h)

theorem map_snd_numbered (f : β → List α) (i : ℕ) (xs : List β) :
    (numbered f i xs).map Prod.snd = xs.flatMap f := by
  induction xs generalizing i with
  | nil => rfl
  | cons x xs ih =>
    rw [numbered, List.map_append, ih, List.map_map, List.flatMap_cons]
    congr 1
    exact List.map_id _

theorem mem_of_mem_firstWins {seen : List κ} {l : List α} {a : α}
    (h : a ∈ firstWins key seen l) : a ∈ l := by
  induction l generalizing seen with
  | nil => cases h
  | cons b l ih =>
    rw [firstWins] at h
    split_ifs at h
    · exact List.mem_cons_of_mem _ (ih h)
    · rcases List.mem_cons.mp h with rfl | h
      · exact List.mem_cons_self
      · exact List.mem_cons_of_mem _ (ih h)

/-- The first part of a list is told from the rest by its number. -/
theorem append_numbered_inj {i : ℕ} {a c : List α} {b d : List (ℕ × α)} (hb : ∀ y ∈ b, y.1 ≠ i)
    (hd : ∀ y ∈ d, y.1 ≠ i) :
    a.map (Prod.mk i) ++ b = c.map (Prod.mk i) ++ d ↔ a = c ∧ b = d := by
  constructor
  · intro h
    have hfirst : ∀ (x : List α) (y : List (ℕ × α)), (∀ z ∈ y, z.1 ≠ i) →
        ((x.map (Prod.mk i) ++ y).filter fun z => z.1 = i) = x.map (Prod.mk i) := by
      intro x y hy
      rw [List.filter_append, List.filter_eq_self.mpr, List.filter_eq_nil_iff.mpr,
        List.append_nil]
      · exact fun z hz => by simpa using hy z hz
      · intro z hz
        obtain ⟨w, -, rfl⟩ := List.mem_map.mp hz
        simp
    have hmap : a.map (Prod.mk i) = c.map (Prod.mk i) := by
      rw [← hfirst a b hb, h, hfirst c d hd]
    rw [hmap] at h
    have hinj : Function.Injective (Prod.mk i : α → ℕ × α) := fun x y hxy => (Prod.mk.inj hxy).2
    exact ⟨List.map_injective_iff.mpr hinj hmap, List.append_cancel_left h⟩
  · rintro ⟨rfl, rfl⟩
    rfl

/-- What is kept of the first source, and then of the others. -/
theorem firstWins_numbered_cons (f : β → List α) (i : ℕ) (seen : List κ) (x : β) (xs : List β) :
    firstWins (fun y => key y.2) seen (numbered f i (x :: xs)) =
      (firstWins key seen (f x)).map (Prod.mk i) ++
        firstWins (fun y => key y.2) (seenAfter key seen (f x)) (numbered f (i + 1) xs) := by
  have hseen : seenAfter (fun y : ℕ × α => key y.2) seen ((f x).map (Prod.mk i)) =
      seenAfter key seen (f x) := by
    rw [seenAfter, firstWins_map, List.map_map]
    rfl
  rw [numbered, firstWins_append, hseen, firstWins_map]

theorem seenAfter_eq_of_firstWins_eq {seen : List κ} {l l' : List α}
    (h : firstWins key seen l = firstWins key seen l') :
    seenAfter key seen l = seenAfter key seen l' := by
  rw [seenAfter, h]
  rfl

/-- **Source by source**: the same elements are kept of the same sources if and only if what is kept
of each source, after those before it, is the same. -/
theorem firstWins_numbered_iff (f g : β → List α) (i : ℕ) (seen : List κ) (xs : List β) :
    firstWins (fun y => key y.2) seen (numbered f i xs) =
      firstWins (fun y => key y.2) seen (numbered g i xs) ↔
    ∀ before x after, xs = before ++ x :: after →
      firstWins key (seenAfter key seen (before.flatMap g)) (f x) =
        firstWins key (seenAfter key seen (before.flatMap g)) (g x) := by
  induction xs generalizing i seen with
  | nil => exact iff_of_true rfl fun before x after h => by simp at h
  | cons x xs ih =>
    have hnumber : ∀ (h : β → List α) (s : List κ), ∀ y ∈ firstWins (fun y : ℕ × α => key y.2) s
        (numbered h (i + 1) xs), y.1 ≠ i := fun h s y hy =>
      Nat.ne_of_gt (le_of_mem_numbered (mem_of_mem_firstWins hy))
    have hnone : seenAfter key seen ([].flatMap g) = seen := List.append_nil seen
    rw [firstWins_numbered_cons, firstWins_numbered_cons,
      append_numbered_inj (hnumber f _) (hnumber g _)]
    constructor
    · rintro ⟨hhead, htail⟩ before x' after heq
      rcases before with _ | ⟨y, before⟩
      · obtain ⟨rfl, rfl⟩ := List.cons.inj heq
        rwa [hnone]
      · obtain ⟨rfl, rfl⟩ := List.cons.inj heq
        rw [seenAfter_eq_of_firstWins_eq hhead] at htail
        rw [List.flatMap_cons, seenAfter_append]
        exact (ih (i + 1) _).mp htail before x' after rfl
    · intro h
      have hhead : firstWins key seen (f x) = firstWins key seen (g x) := by
        have h0 := h [] x xs rfl
        rwa [hnone] at h0
      refine ⟨hhead, ?_⟩
      rw [seenAfter_eq_of_firstWins_eq hhead]
      refine (ih (i + 1) _).mpr fun before x' after heq => ?_
      have hstep := h (x :: before) x' after (congrArg (x :: ·) heq)
      rwa [List.flatMap_cons, seenAfter_append] at hstep

end Cse344.Lib
