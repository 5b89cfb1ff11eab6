import Cse344.Lib.CString
import Mathlib.Data.List.Basic
import Mathlib.Logic.Function.Basic

/-!
# A word of HW3 and its sorting area

Model of `t_word` and `t_char_task` (`HW3/inc/structs.h`), `init_word_info`
(`HW3/src/shared_memory/shm_init_utils.c` 23-49) and of the parts of `sort_step`
(`HW3/src/processes/sorting_proc.c` 34-86), `place_char` and `find_task` (`letter_carrier.c` 7-62)
that run under the word's mutex.

* The arrays of a word are functions on their indices; a floor is an element of `Fin nf`, and `none`
  is the floor `-1` of a word that has not arrived.
* `sortPass` is the loop of `sort_step` over the slots, `sortSlot` one round of it,
  `findCorrectSlot` the search for the slot a letter belongs to.
* `Word.Sound` ties `fixed`, `occupied` and `sorting_area` together: a fixed slot is occupied by its
  letter.

Results:
* `sortSlot_cases`: a round fixes its slot, or swaps two unfixed slots, or leaves all as it is.
* **`sortPass_kept`**, `placeChar_kept`: no operation touches a fixed slot or takes back a delivery.

Out of scope: `word_id` and `original_index`, which only the log and the output file read, and
`changed`, which only decides whether a sorting process sleeps.
-/

namespace Cse344.HW3

open Cse344.Lib

variable {nf : ℕ}

/-- `MAX_WORD_LEN`. -/
def maxWordLen : ℕ := 64

structure CharTask (nf : ℕ) where
  character : UInt8
  srcFloor : Option (Fin nf)
  destFloor : Fin nf
  claimed : Bool
  delivered : Bool

structure Word (nf : ℕ) where
  original : ℕ → UInt8
  wordLen : ℕ
  arrivalFloor : Option (Fin nf)
  sortingFloor : Fin nf
  sortingArea : ℕ → UInt8
  occupied : ℕ → Bool
  fixed : ℕ → Bool
  tasks : ℕ → CharTask nf
  claimed : Bool
  admitted : Bool
  completed : Bool

/-- A line of the input file, with its word of at most `MAX_WORD_LEN` letters. -/
structure WordInput (nf : ℕ) where
  word : CStr
  sortingFloor : Fin nf
  length_le : word.length ≤ maxWordLen

/-- What `strncpy` leaves in `original`: the last byte is always NUL. -/
def originalOf (word : CStr) (j : ℕ) : UInt8 := if j < maxWordLen - 1 then word.getD j 0 else 0

def initWordInfo (input : WordInput nf) : Word nf where
  original := originalOf input.word
  wordLen := input.word.length
  arrivalFloor := none
  sortingFloor := input.sortingFloor
  sortingArea := fun _ => 0
  occupied := fun _ => false
  fixed := fun _ => false
  tasks := fun j =>
    { character := originalOf input.word j
      srcFloor := none
      destFloor := input.sortingFloor
      claimed := false
      delivered := false }
  claimed := false
  admitted := false
  completed := false

/-! ## Sorting -/

/-- The slots other than `i` that `find_correct_slot` looks at. -/
def Word.candidates (w : Word nf) (i : ℕ) : List ℕ :=
  (List.range w.wordLen).filter fun j =>
    decide (w.original j = w.sortingArea i) && !w.fixed j && decide (j ≠ i)

def findCorrectSlot (w : Word nf) (i : ℕ) : Option ℕ :=
  if w.original i = w.sortingArea i ∧ w.fixed i = false then some i
  else
    match (w.candidates i).find? fun j => !w.occupied j with
    | some bestEmpty => some bestEmpty
    | none => (w.candidates i).find? fun j => w.occupied j

/-- The body of the loop of `sort_step`. -/
def sortSlot (w : Word nf) (i : ℕ) : Word nf :=
  if !w.occupied i || w.fixed i then w
  else
    let c := w.sortingArea i
    match findCorrectSlot w i with
    | none => w
    | some correct =>
      if correct = i then { w with fixed := Function.update w.fixed i true }
      else if !w.occupied correct then
        { w with
          sortingArea := Function.update (Function.update w.sortingArea correct c) i 0
          occupied := Function.update (Function.update w.occupied correct true) i false }
      else if !w.fixed correct then
        { w with
          sortingArea :=
            Function.update (Function.update w.sortingArea correct c) i (w.sortingArea correct) }
      else w

/-- The loop of `sort_step`. -/
def sortPass (w : Word nf) : Word nf := (List.range w.wordLen).foldl sortSlot w

def Word.allDelivered (w : Word nf) : Bool :=
  (List.range w.wordLen).all fun i => (w.tasks i).delivered

def Word.allFixed (w : Word nf) : Bool := (List.range w.wordLen).all fun i => w.fixed i

/-- The test that completes a word, after the loop. -/
def Word.completes (w : Word nf) : Bool := w.allDelivered && w.allFixed && !w.completed

/-! ## Letters -/

/-- The slot `place_char` finds. -/
def Word.freeSlot (w : Word nf) : Option ℕ :=
  (List.range w.wordLen).find? fun i => !w.occupied i && !w.fixed i

def placeChar (w : Word nf) (t : ℕ) : Word nf :=
  match w.freeSlot with
  | some slot =>
    { w with
      sortingArea := Function.update w.sortingArea slot (w.tasks t).character
      occupied := Function.update w.occupied slot true
      tasks := Function.update w.tasks t { w.tasks t with delivered := true } }
  | none => w

/-- `find_task` claims task `t`. -/
def claimTask (w : Word nf) (t : ℕ) : Word nf :=
  { w with tasks := Function.update w.tasks t { w.tasks t with claimed := true } }

/-! ## Fixed slots -/

/-- Every fixed slot is occupied by its letter, and a completed word is fixed and delivered. -/
structure Word.Sound (w : Word nf) : Prop where
  fixed_ok : ∀ j, w.fixed j = true → w.occupied j = true ∧ w.sortingArea j = w.original j
  completed_ok : w.completed = true →
    ∀ j < w.wordLen, w.fixed j = true ∧ (w.tasks j).delivered = true

/-- `w'` is `w` after operations that keep its letters, its fixed slots and its deliveries. -/
structure Word.Extends (w w' : Word nf) : Prop where
  original_eq : w'.original = w.original
  wordLen_eq : w'.wordLen = w.wordLen
  sortingFloor_eq : w'.sortingFloor = w.sortingFloor
  fixed_mono : ∀ j, w.fixed j = true → w'.fixed j = true
  delivered_mono : ∀ j, (w.tasks j).delivered = true → (w'.tasks j).delivered = true

theorem Word.Extends.rfl {w : Word nf} : w.Extends w :=
  ⟨Eq.refl _, Eq.refl _, Eq.refl _, fun _ h => h, fun _ h => h⟩

theorem Word.Extends.trans {u v w : Word nf} (h : u.Extends v) (h' : v.Extends w) : u.Extends w :=
  ⟨h'.original_eq.trans h.original_eq, h'.wordLen_eq.trans h.wordLen_eq,
    h'.sortingFloor_eq.trans h.sortingFloor_eq, fun j hj => h'.fixed_mono j (h.fixed_mono j hj),
    fun j hj => h'.delivered_mono j (h.delivered_mono j hj)⟩

/-- The correct slot takes the letter of slot `i` and is not fixed. -/
theorem findCorrectSlot_some {w : Word nf} {i k : ℕ} (h : findCorrectSlot w i = some k) :
    w.original k = w.sortingArea i ∧ w.fixed k = false ∧ (k = i ∨ k < w.wordLen) := by
  have hcand : ∀ j ∈ w.candidates i, w.original j = w.sortingArea i ∧ w.fixed j = false ∧
      (j = i ∨ j < w.wordLen) := by
    intro j hj
    simp only [Word.candidates, List.mem_filter, List.mem_range, Bool.and_eq_true,
      decide_eq_true_eq, Bool.not_eq_true'] at hj
    exact ⟨hj.2.1.1, hj.2.1.2, Or.inr hj.1⟩
  unfold findCorrectSlot at h
  split_ifs at h with hi
  · obtain rfl := Option.some.inj h
    exact ⟨hi.1, hi.2, Or.inl rfl⟩
  · split at h
    · rename_i best hbest
      obtain rfl := Option.some.inj h
      exact hcand _ (List.mem_of_find?_eq_some hbest)
    · exact hcand _ (List.mem_of_find?_eq_some h)

/-- The four things `sort_step` can do with a slot. -/
theorem sortSlot_cases (w : Word nf) (i : ℕ) :
    sortSlot w i = w ∨
    (w.occupied i = true ∧ w.sortingArea i = w.original i ∧
      sortSlot w i = { w with fixed := Function.update w.fixed i true }) ∨
    (∃ k, k ≠ i ∧ k < w.wordLen ∧ (w.occupied i = true ∧ w.occupied k = false) ∧
      w.fixed i = false ∧ w.fixed k = false ∧
      sortSlot w i = { w with
        sortingArea := Function.update (Function.update w.sortingArea k (w.sortingArea i)) i 0
        occupied := Function.update (Function.update w.occupied k true) i false }) ∨
    (∃ k, k ≠ i ∧ k < w.wordLen ∧ (w.occupied i = true ∧ w.occupied k = true) ∧
      w.fixed i = false ∧ w.fixed k = false ∧
      sortSlot w i = { w with
        sortingArea := Function.update (Function.update w.sortingArea k (w.sortingArea i)) i
          (w.sortingArea k) }) := by
  unfold sortSlot
  split_ifs with hskip
  · exact Or.inl rfl
  · simp only [Bool.or_eq_true, Bool.not_eq_true', not_or, Bool.not_eq_false,
      Bool.not_eq_true] at hskip
    obtain ⟨hocc, hfix⟩ := hskip
    dsimp only
    cases hk : findCorrectSlot w i with
    | none => exact Or.inl rfl
    | some k =>
      obtain ⟨horig, hkfix, hklt⟩ := findCorrectSlot_some hk
      dsimp only
      split_ifs with hki hko
      · subst hki
        exact Or.inr (Or.inl ⟨hocc, horig.symm, rfl⟩)
      · rw [Bool.not_eq_true'] at hko
        exact Or.inr (Or.inr (Or.inl
          ⟨k, hki, hklt.resolve_left hki, ⟨hocc, hko⟩, hfix, hkfix, rfl⟩))
      · rw [Bool.not_eq_true', Bool.not_eq_false] at hko
        exact Or.inr (Or.inr (Or.inr
          ⟨k, hki, hklt.resolve_left hki, ⟨hocc, hko⟩, hfix, hkfix, rfl⟩))
      · exact Or.inl rfl

/-- `w'` is `w` after operations that keep it sound and do not complete it. -/
structure Word.Kept (w w' : Word nf) : Prop where
  sound : w.Sound → w'.Sound
  extends_ : w.Extends w'
  completed_eq : w'.completed = w.completed

theorem Word.Kept.rfl {w : Word nf} : w.Kept w := ⟨id, .rfl, Eq.refl _⟩

theorem Word.Kept.trans {u v w : Word nf} (h : u.Kept v) (h' : v.Kept w) : u.Kept w :=
  ⟨fun hs => h'.sound (h.sound hs), h.extends_.trans h'.extends_,
    h'.completed_eq.trans h.completed_eq⟩

/-- An operation that leaves the fixed slots occupied by their letters. -/
theorem Word.Extends.kept {w w' : Word nf} (he : w.Extends w')
    (hc : w'.completed = w.completed) (hfix : w.Sound → ∀ j, w'.fixed j = true →
      w'.occupied j = true ∧ w'.sortingArea j = w'.original j) : w.Kept w' where
  sound := fun h => ⟨hfix h, fun hcomp j hj => by
    obtain ⟨hf, hd⟩ := h.completed_ok (hc ▸ hcomp) j (he.wordLen_eq ▸ hj)
    exact ⟨he.fixed_mono j hf, he.delivered_mono j hd⟩⟩
  extends_ := he
  completed_eq := hc

theorem sortSlot_kept (w : Word nf) (i : ℕ) : w.Kept (sortSlot w i) := by
  rcases sortSlot_cases w i with hs | ⟨hocc, harea, hs⟩ | ⟨k, hki, -, -, hi, hk, hs⟩ |
      ⟨k, hki, -, -, hi, hk, hs⟩ <;> rw [hs]
  · exact .rfl
  · refine Word.Extends.kept ⟨rfl, rfl, rfl, fun j hj => ?_, fun _ h => h⟩ rfl fun h j hj => ?_
    · by_cases hji : j = i
      · simp [hji]
      · simpa [hji] using hj
    · by_cases hji : j = i
      · rw [hji]
        exact ⟨hocc, harea⟩
      · exact h.fixed_ok j (by simpa [hji] using hj)
  -- a fixed slot is neither `i` nor the correct slot
  all_goals
    refine Word.Extends.kept ⟨rfl, rfl, rfl, fun _ h => h, fun _ h => h⟩ rfl fun h j hj => ?_
    have hji : j ≠ i := fun hji => by simp [hji, hi] at hj
    have hjk : j ≠ k := fun hjk => by simp [hjk, hk] at hj
    simpa [hji, hjk] using h.fixed_ok j hj

theorem foldl_sortSlot_kept : ∀ (slots : List ℕ) (w : Word nf), w.Kept (slots.foldl sortSlot w)
  | [], _ => .rfl
  | i :: slots, w => (sortSlot_kept w i).trans (foldl_sortSlot_kept slots (sortSlot w i))

/-- **A pass keeps the word sound**, its letters, its fixed slots and its deliveries. -/
theorem sortPass_kept (w : Word nf) : w.Kept (sortPass w) := foldl_sortSlot_kept _ w

theorem placeChar_kept (w : Word nf) (t : ℕ) : w.Kept (placeChar w t) := by
  unfold placeChar
  split
  · rename_i slot hslot
    have hfree := List.find?_some hslot
    simp only [Bool.and_eq_true, Bool.not_eq_true'] at hfree
    refine Word.Extends.kept ⟨rfl, rfl, rfl, fun _ h => h, fun j hj => ?_⟩ rfl fun h j hj => ?_
    · by_cases hjt : j = t
      · simp [hjt]
      · simpa [hjt] using hj
    · have hjs : j ≠ slot := fun hjs => by simp [hjs, hfree.2] at hj
      simpa [hjs] using h.fixed_ok j hj
  · exact .rfl

/-- An operation on anything but the arrays of the sorting area and `delivered`. -/
theorem Word.Kept.of_fields {x y : Word nf} (ho : y.original = x.original)
    (hl : y.wordLen = x.wordLen) (hs : y.sortingFloor = x.sortingFloor)
    (ha : y.sortingArea = x.sortingArea) (hocc : y.occupied = x.occupied)
    (hf : y.fixed = x.fixed) (hd : ∀ j, (y.tasks j).delivered = (x.tasks j).delivered)
    (hc : y.completed = x.completed) : x.Kept y := by
  refine Word.Extends.kept ⟨ho, hl, hs, fun j hj => by rw [hf]; exact hj,
    fun j hj => by rw [hd]; exact hj⟩ hc fun h j hj => ?_
  rw [hocc, ha, ho]
  exact h.fixed_ok j (hf ▸ hj)

theorem claimTask_kept (x : Word nf) (t : ℕ) : x.Kept (claimTask x t) := by
  refine .of_fields rfl rfl rfl rfl rfl rfl (fun j => ?_) rfl
  by_cases hjt : j = t
  · subst hjt
    simp [claimTask]
  · simp [claimTask, hjt]

/-- The fields a word carrier sets. -/
structure Word.SameAdmission (w w' : Word nf) : Prop where
  arrivalFloor_eq : w'.arrivalFloor = w.arrivalFloor
  claimed_eq : w'.claimed = w.claimed
  admitted_eq : w'.admitted = w.admitted

theorem Word.SameAdmission.rfl {w : Word nf} : w.SameAdmission w :=
  ⟨Eq.refl _, Eq.refl _, Eq.refl _⟩

/-- The operations on the sorting area and the tasks change none of these. -/
structure Word.SameFlags (w w' : Word nf) : Prop extends w.SameAdmission w' where
  sortingFloor_eq : w'.sortingFloor = w.sortingFloor
  completed_eq : w'.completed = w.completed

theorem Word.SameFlags.rfl {w : Word nf} : w.SameFlags w := ⟨.rfl, Eq.refl _, Eq.refl _⟩

theorem Word.SameFlags.trans {u v w : Word nf} (h : u.SameFlags v) (h' : v.SameFlags w) :
    u.SameFlags w where
  arrivalFloor_eq := h'.arrivalFloor_eq.trans h.arrivalFloor_eq
  claimed_eq := h'.claimed_eq.trans h.claimed_eq
  admitted_eq := h'.admitted_eq.trans h.admitted_eq
  sortingFloor_eq := h'.sortingFloor_eq.trans h.sortingFloor_eq
  completed_eq := h'.completed_eq.trans h.completed_eq

theorem placeChar_sameFlags (w : Word nf) (t : ℕ) : w.SameFlags (placeChar w t) := by
  unfold placeChar
  split
  · exact ⟨⟨rfl, rfl, rfl⟩, rfl, rfl⟩
  · exact .rfl

theorem claimTask_sameFlags (w : Word nf) (t : ℕ) : w.SameFlags (claimTask w t) :=
  ⟨⟨rfl, rfl, rfl⟩, rfl, rfl⟩

/-- A word that completes is fixed and delivered. -/
theorem Word.Sound.complete {w : Word nf} (h : w.Sound) (hc : w.completes = true) :
    ({ w with completed := true } : Word nf).Sound := by
  refine ⟨h.fixed_ok, fun _ j hj => ?_⟩
  simp only [Word.completes, Word.allDelivered, Word.allFixed, Bool.and_eq_true, List.all_eq_true,
    List.mem_range] at hc
  exact ⟨hc.1.2 j hj, hc.1.1 j hj⟩

theorem initWordInfo_sound (input : WordInput nf) : (initWordInfo input).Sound :=
  ⟨fun _ h => (Bool.false_ne_true h).elim, fun h => (Bool.false_ne_true h).elim⟩

end Cse344.HW3
