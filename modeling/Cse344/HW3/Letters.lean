import Cse344.HW3.Carriers
import Cse344.Lib.Slots

/-!
# Letters are conserved

The letters between the carriers (`HW3/src/processes/letter_carrier.c`) and the sorting area of a
word. A delivered task has its letter in one occupied slot: `place_char` (39-62) fills a free slot,
and `sort_step` (`sorting_proc.c` 34-101) moves and swaps what the slots hold.

* `Word.Conserved` says so of one word: the letters of the occupied slots are those of the delivered
  tasks, and as many slots are occupied.
* `LcMove` lists the moves of a letter carrier; between claiming a task and placing its letter the
  carrier carries the task (`LcPc.carried`), and nobody else does (`Letters`).

Results:
* `sortPass_keepsTasks`: a pass keeps the letters.
* `letters_step`: every step conserves the letters.
* **`characters_conserved`**: in every reachable state the letters in the sorting area are those of
  the delivered tasks, each task is claimed and placed at most once, and `place_char` finds a free
  slot.

Out of scope: whether a letter is ever delivered; see `Cse344.HW3.Stranded`.
-/

namespace Cse344.HW3

open Cse344.Lib

/-! ## The letters of a word -/

section Words

variable {nf : ℕ}

/-- The letters in the sorting area. -/
def Word.placedLetters (x : Word nf) : Multiset UInt8 :=
  contents (Finset.range x.wordLen) x.occupied x.sortingArea

/-- The letters of the delivered tasks. -/
def Word.deliveredLetters (x : Word nf) : Multiset UInt8 :=
  contents (Finset.range x.wordLen) (fun t => (x.tasks t).delivered)
    fun t => (x.tasks t).character

/-- The letters in the sorting area are the delivered ones. -/
structure Word.Conserved (x : Word nf) : Prop where
  letters : x.placedLetters = x.deliveredLetters
  occupied_lt : ∀ j, x.occupied j = true → j < x.wordLen

/-- `y` is `x` after an operation that touches no task, and keeps the letters in the sorting area.
-/
structure Word.KeepsTasks (x y : Word nf) : Prop where
  wordLen_eq : y.wordLen = x.wordLen
  claimed_eq : ∀ t, (y.tasks t).claimed = (x.tasks t).claimed
  delivered_eq : ∀ t, (y.tasks t).delivered = (x.tasks t).delivered
  conserved : x.Conserved → y.Conserved

theorem Word.KeepsTasks.rfl {x : Word nf} : x.KeepsTasks x :=
  ⟨Eq.refl _, fun _ => Eq.refl _, fun _ => Eq.refl _, id⟩

theorem Word.KeepsTasks.trans {x y z : Word nf} (h : x.KeepsTasks y) (h' : y.KeepsTasks z) :
    x.KeepsTasks z where
  wordLen_eq := h'.wordLen_eq.trans h.wordLen_eq
  claimed_eq := fun t => (h'.claimed_eq t).trans (h.claimed_eq t)
  delivered_eq := fun t => (h'.delivered_eq t).trans (h.delivered_eq t)
  conserved := fun hx => h'.conserved (h.conserved hx)

/-- An operation on the sorting area that keeps its letters, and its free slots behind the word. -/
theorem Word.KeepsTasks.of_area {x y : Word nf} (hl : y.wordLen = x.wordLen)
    (ht : ∀ t, (y.tasks t).claimed = (x.tasks t).claimed ∧
      (y.tasks t).delivered = (x.tasks t).delivered ∧
      (y.tasks t).character = (x.tasks t).character)
    (hp : y.placedLetters = x.placedLetters)
    (ho : (∀ j, x.occupied j = true → j < x.wordLen) →
      ∀ j, y.occupied j = true → j < x.wordLen) : x.KeepsTasks y where
  wordLen_eq := hl
  claimed_eq := fun t => (ht t).1
  delivered_eq := fun t => (ht t).2.1
  conserved := fun hx => by
    refine ⟨?_, fun j hj => hl ▸ ho hx.occupied_lt j hj⟩
    have hd : y.deliveredLetters = x.deliveredLetters := by
      unfold Word.deliveredLetters
      rw [hl]
      exact contents_congr fun t _ => (ht t).2
    rw [hp, hd, hx.letters]

theorem sortSlot_keepsTasks (x : Word nf) {i : ℕ} (hi : i < x.wordLen) :
    x.KeepsTasks (sortSlot x i) := by
  have hmem : ∀ {j : ℕ}, j < x.wordLen → j ∈ Finset.range x.wordLen := Finset.mem_range.mpr
  rcases sortSlot_cases x i with hs | ⟨-, -, hs⟩ | ⟨k, hki, hk, ⟨hocc, hfree⟩, -, -, hs⟩ |
      ⟨k, hki, hk, ⟨hocc, hocc'⟩, -, -, hs⟩ <;> rw [hs]
  · exact .rfl
  · exact .of_area rfl (fun _ => ⟨rfl, rfl, rfl⟩) rfl id
  · refine .of_area rfl (fun _ => ⟨rfl, rfl, rfl⟩)
      (contents_move (hmem hi) (hmem hk) hki hocc hfree 0) fun ho j hj => ?_
    by_cases hjk : j = k
    · exact hjk ▸ hk
    · by_cases hji : j = i
      · exact hji ▸ hi
      · exact ho j (by simpa [hjk, hji] using hj)
  · exact .of_area rfl (fun _ => ⟨rfl, rfl, rfl⟩)
      (contents_swap (hmem hi) (hmem hk) hki hocc hocc') id

/-- **A pass keeps the letters.** -/
theorem sortPass_keepsTasks (x : Word nf) : x.KeepsTasks (sortPass x) := by
  unfold sortPass
  have hslots : ∀ i ∈ List.range x.wordLen, i < x.wordLen := fun i => List.mem_range.mp
  revert hslots
  generalize List.range x.wordLen = slots
  induction slots generalizing x with
  | nil => exact fun _ => .rfl
  | cons i slots ih =>
    intro hslots
    have hslot := sortSlot_keepsTasks x (hslots i List.mem_cons_self)
    refine hslot.trans (ih (sortSlot x i) fun j hj => ?_)
    rw [hslot.wordLen_eq]
    exact hslots j (List.mem_cons_of_mem i hj)

/-- An operation on the flags of a word. -/
theorem Word.KeepsTasks.of_fields {x y : Word nf} (hl : y.wordLen = x.wordLen)
    (ht : ∀ t, (y.tasks t).claimed = (x.tasks t).claimed ∧
      (y.tasks t).delivered = (x.tasks t).delivered ∧
      (y.tasks t).character = (x.tasks t).character)
    (ha : y.sortingArea = x.sortingArea) (ho : y.occupied = x.occupied) : x.KeepsTasks y :=
  .of_area hl ht (by unfold Word.placedLetters; rw [hl, ha, ho]) (by rw [ho]; exact id)

/-- While a task is not delivered, `place_char` finds a free slot. -/
theorem Word.Conserved.freeSlot {x : Word nf} (h : x.Conserved) (hs : x.Sound) {t : ℕ}
    (ht : t < x.wordLen) (hd : (x.tasks t).delivered = false) :
    ∃ slot, x.freeSlot = some slot := by
  have hlt : x.placedLetters.card < (Finset.range x.wordLen).card := by
    rw [h.letters, Word.deliveredLetters, card_contents]
    refine Finset.card_lt_card (Finset.filter_ssubset.mpr ⟨t, Finset.mem_range.mpr ht, ?_⟩)
    rw [hd]
    exact Bool.false_ne_true
  obtain ⟨i, hi, hocc⟩ := exists_free hlt
  -- a free slot is not fixed, since fixed slots are occupied
  have hfix : x.fixed i = false := Bool.eq_false_iff.mpr fun hf => by
    rw [(hs.fixed_ok i hf).1] at hocc
    cases hocc
  refine Option.isSome_iff_exists.mp (List.find?_isSome.mpr ⟨i, ?_, by simp [hocc, hfix]⟩)
  exact List.mem_range.mpr (Finset.mem_range.mp hi)

/-- What `place_char` does to a task that is not delivered. -/
theorem Word.Conserved.placeChar {x : Word nf} (h : x.Conserved) (hs : x.Sound) {t : ℕ}
    (ht : t < x.wordLen) (hd : (x.tasks t).delivered = false) :
    (placeChar x t).Conserved ∧ (placeChar x t).wordLen = x.wordLen ∧
      ((placeChar x t).tasks t).delivered = true ∧
      (∀ u, ((placeChar x t).tasks u).claimed = (x.tasks u).claimed) ∧
      ∀ u, u ≠ t → ((placeChar x t).tasks u).delivered = (x.tasks u).delivered := by
  obtain ⟨slot, hslot⟩ := h.freeSlot hs ht hd
  have hlt : slot < x.wordLen := List.mem_range.mp (List.mem_of_find?_eq_some hslot)
  have hfree : x.occupied slot = false := by
    have := List.find?_some hslot
    simp only [Bool.and_eq_true, Bool.not_eq_true'] at this
    exact this.1
  simp only [HW3.placeChar, hslot]
  refine ⟨⟨?_, fun j hj => ?_⟩, trivial, by simp, fun u => ?_, fun u hu => by simp [hu]⟩
  · have hplaced : contents (Finset.range x.wordLen) (Function.update x.occupied slot true)
        (Function.update x.sortingArea slot (x.tasks t).character) =
          x.placedLetters + {(x.tasks t).character} := by
      have := contents_fill (Finset.mem_range.mpr hlt) hfree
        (Function.update_self slot true x.occupied)
        fun j (hj : j ≠ slot) => ⟨Function.update_of_ne hj .., Function.update_of_ne hj
          (x.tasks t).character x.sortingArea⟩
      rwa [Function.update_self] at this
    -- the tasks after the placement: only `t` is not as it was
    obtain ⟨tasks, htasks⟩ : ∃ tasks, tasks =
      Function.update x.tasks t { x.tasks t with delivered := true } := ⟨_, rfl⟩
    have hself : tasks t = { x.tasks t with delivered := true } := by
      rw [htasks, Function.update_self]
    have hother : ∀ u, u ≠ t → tasks u = x.tasks u := fun u hu => by
      rw [htasks, Function.update_of_ne hu]
    have hdelivered : contents (Finset.range x.wordLen) (fun u => (tasks u).delivered)
        (fun u => (tasks u).character) = x.deliveredLetters + {(x.tasks t).character} := by
      have hfill : contents (Finset.range x.wordLen) (fun u => (tasks u).delivered)
          (fun u => (tasks u).character) = x.deliveredLetters + {(tasks t).character} :=
        contents_fill (Finset.mem_range.mpr ht) hd (by rw [hself])
          fun u hu => by simp only [hother u hu, and_self]
      rwa [hself] at hfill
    rw [Word.placedLetters, Word.deliveredLetters, hplaced, ← htasks, hdelivered, h.letters]
  · by_cases hjs : j = slot
    · exact hjs ▸ hlt
    · exact h.occupied_lt j (by simpa [hjs] using hj)
  · by_cases hu : u = t
    · subst hu
      simp
    · simp [hu]

theorem initWordInfo_conserved (input : WordInput nf) : (initWordInfo input).Conserved := by
  refine ⟨?_, fun j hj => (Bool.false_ne_true hj).elim⟩
  simp [Word.placedLetters, Word.deliveredLetters, contents, slotContents, initWordInfo]

end Words

/-! ## The moves of a letter carrier -/

variable {c : Setup} {s s' : Sys c} {a : Act c}

/-- The task a carrier has claimed and not placed yet. -/
def LcPc.carried {words : ℕ} : LcPc words → Option (Fin words × ℕ)
  | .found w t => some (w, t)
  | .riding w t => some (w, t)
  | .lockPlace w t => some (w, t)
  | .placing w t => some (w, t)
  | _ => none

/-- The task a carrier has seen free. -/
def LcPc.aims {words : ℕ} : LcPc words → Option (Fin words × ℕ)
  | .lockTask w t => some (w, t)
  | .claiming w t => some (w, t)
  | _ => none

inductive LcMove (s : Sys c) (i : Fin c.letterCarriers) : Sys c → Prop
  /-- The carrier has no task. -/
  | walk (l : LetterCarrier c) (hfrom : (s.lc i).pc.carried = none) (hto : l.pc.carried = none)
      (haim : ∀ w t, l.pc.aims = some (w, t) → t < (s.words w).wordLen) :
      LcMove s i (s.setLc i l)
  | lock (w : Fin c.totalWords) (t : ℕ) (hpc : (s.lc i).pc = .lockTask w t)
      (hfree : s.locked w = false) :
      LcMove s i ((s.setLock w true).setLc i { s.lc i with pc := .claiming w t })
  | claim (w : Fin c.totalWords) (t : ℕ) (hpc : (s.lc i).pc = .claiming w t)
      (hcl : ((s.words w).tasks t).claimed = false)
      (hd : ((s.words w).tasks t).delivered = false) :
      LcMove s i (((s.setWord w (claimTask (s.words w) t)).setLock w false).setLc i
        { s.lc i with pc := .found w t, idleTicks := 0 })
  | pass (w : Fin c.totalWords) (t : ℕ) (hpc : (s.lc i).pc = .claiming w t)
      (htaken : ((s.words w).tasks t).claimed = true ∨ ((s.words w).tasks t).delivered = true) :
      LcMove s i ((s.setLock w false).setLc i { s.lc i with pc := .scanTask w (t + 1) })
  /-- The carrier goes on with its task. -/
  | carry (w : Fin c.totalWords) (t : ℕ) (l : LetterCarrier c)
      (hfrom : (s.lc i).pc.carried = some (w, t)) (hto : l.pc.carried = some (w, t))
      (hpc : (s.lc i).pc ≠ .placing w t) : LcMove s i (s.setLc i l)
  | enter (w : Fin c.totalWords) (t : ℕ) (hpc : (s.lc i).pc = .lockPlace w t)
      (hfree : s.locked w = false) :
      LcMove s i ((s.setLock w true).setLc i { s.lc i with pc := .placing w t })
  | place (w : Fin c.totalWords) (t : ℕ) (hpc : (s.lc i).pc = .placing w t) :
      LcMove s i (((s.setWord w (placeChar (s.words w) t)).setLock w false).setLc i
        { s.lc i with pc := .top })

theorem lcMove_of_step {i : Fin c.letterCarriers} {rand : Fin c.numFloors}
    (h : lcStep s i rand = some s') : LcMove s i s' := by
  unfold lcStep at h
  dsimp only at h
  split at h <;> rename_i hpc
  · obtain rfl := Option.some.inj h
    refine .walk _ (by rw [hpc]; rfl) (by split <;> rfl) fun w t => ?_
    split <;> rintro ⟨⟩
  · split_ifs at h <;>
      (obtain rfl := Option.some.inj h
       exact .walk _ (by rw [hpc]; rfl) rfl fun w t => by rintro ⟨⟩)
  · split_ifs at h with ht <;> obtain rfl := Option.some.inj h
    · exact .walk _ (by rw [hpc]; rfl) rfl fun w t => by rintro ⟨⟩
    · exact .walk _ (by rw [hpc]; rfl) rfl fun w t => by rintro ⟨⟩
    · exact .walk _ (by rw [hpc]; rfl) rfl fun w t => by rintro ⟨⟩; exact ht
    · exact .walk _ (by rw [hpc]; rfl) rfl fun w t => by rintro ⟨⟩
  · rename_i w t
    split_ifs at h with hlock
    obtain rfl := Option.some.inj h
    exact .lock w t hpc (Bool.eq_false_iff.mpr hlock)
  · rename_i w t
    split_ifs at h with hfree <;> obtain rfl := Option.some.inj h
    · simp only [Bool.and_eq_true, Bool.not_eq_true'] at hfree
      exact .claim w t hpc hfree.1 hfree.2
    · refine .pass w t hpc ?_
      simpa only [Bool.and_eq_true, Bool.not_eq_true', not_and_or, Bool.not_eq_false] using hfree
  · rename_i w t
    split_ifs at h <;> obtain rfl := Option.some.inj h
    · exact .carry w t _ (by rw [hpc]; rfl) rfl (by simp [hpc])
    · exact .carry w t _ (by rw [hpc]; rfl) rfl (by simp [hpc])
  · rename_i w t
    obtain rfl := Option.some.inj h
    exact .carry w t _ (by rw [hpc]; rfl) rfl (by simp [hpc])
  · rename_i w t
    split_ifs at h with hlock
    obtain rfl := Option.some.inj h
    exact .enter w t hpc (Bool.eq_false_iff.mpr hlock)
  · rename_i w t
    obtain rfl := Option.some.inj h
    exact .place w t hpc
  · obtain rfl := Option.some.inj h
    exact .walk _ (by rw [hpc]; rfl) rfl fun w t => by rintro ⟨⟩
  · cases h

/-! ## Who carries a task -/

/-- A task a carrier aims at is one of its word; a carried one is claimed and not delivered. -/
structure LcPc.TaskOk {words nf : ℕ} (x : Fin words → Word nf) (pc : LcPc words) : Prop where
  aims : ∀ w t, pc.aims = some (w, t) → t < (x w).wordLen
  carried : ∀ w t, pc.carried = some (w, t) →
    t < (x w).wordLen ∧ ((x w).tasks t).claimed = true ∧ ((x w).tasks t).delivered = false

/-- The letters of every word are conserved, and a task is carried by one carrier. -/
structure Letters (s : Sys c) : Prop where
  words : ∀ w, (s.words w).Conserved
  ok : ∀ i, (s.lc i).pc.TaskOk s.words
  unique : ∀ i j p, (s.lc i).pc.carried = some p → (s.lc j).pc.carried = some p → i = j

/-- A step of another process, which keeps the tasks of every word. -/
theorem Letters.of_keeps (h : Letters s) (hlc : s'.lc = s.lc)
    (hw : ∀ w, (s.words w).KeepsTasks (s'.words w)) : Letters s' where
  words := fun w => (hw w).conserved (h.words w)
  ok := fun i => by
    rw [hlc]
    refine ⟨fun w t hp => ?_, fun w t hp => ?_⟩
    · rw [(hw w).wordLen_eq]
      exact (h.ok i).aims w t hp
    · rw [(hw w).wordLen_eq, (hw w).claimed_eq, (hw w).delivered_eq]
      exact (h.ok i).carried w t hp
  unique := by rw [hlc]; exact h.unique

/-- Carrier `i` moves, and leaves the words alone. -/
theorem Letters.of_walk (h : Letters s) {i : Fin c.letterCarriers} {l : LetterCarrier c}
    (hwords : s'.words = s.words) (hlc : s'.lc = Function.update s.lc i l)
    (haims : ∀ w t, l.pc.aims = some (w, t) → t < (s.words w).wordLen)
    (hcarried : l.pc.carried = none ∨ l.pc.carried = (s.lc i).pc.carried) : Letters s' where
  words := by rw [hwords]; exact h.words
  ok := by
    rw [hwords, hlc]
    refine (Function.forall_update_iff s.lc fun _ l => l.pc.TaskOk s.words).mpr
      ⟨⟨haims, fun w t hp => ?_⟩, fun j _ => h.ok j⟩
    rcases hcarried with hn | he
    · rw [hn] at hp
      cases hp
    · exact (h.ok i).carried w t (he ▸ hp)
  unique := by
    -- who carries a task after the step carried it before
    have hback : ∀ j p, (s'.lc j).pc.carried = some p → (s.lc j).pc.carried = some p := by
      rw [hlc]
      refine (Function.forall_update_iff s.lc fun j l' => ∀ p, l'.pc.carried = some p →
        (s.lc j).pc.carried = some p).mpr ⟨fun p hp => ?_, fun _ _ _ hp => hp⟩
      rcases hcarried with hn | he
      · rw [hn] at hp
        cases hp
      · exact he ▸ hp
    exact fun j k p hj hk => h.unique j k p (hback j p hj) (hback k p hk)

/-- Carrier `i` claims task `t` of word `w`, or places its letter. -/
theorem Letters.of_task (h : Letters s) {i : Fin c.letterCarriers} {l : LetterCarrier c}
    {w : Fin c.totalWords} {t : ℕ} {x : Word c.numFloors}
    (hwords : s'.words = Function.update s.words w x) (hlc : s'.lc = Function.update s.lc i l)
    (hx : x.Conserved) (hlen : x.wordLen = (s.words w).wordLen)
    (hother : ∀ j, j ≠ i → (s.lc j).pc.carried ≠ some (w, t))
    (hcl : ∀ u, u ≠ t → (x.tasks u).claimed = ((s.words w).tasks u).claimed)
    (hd : ∀ u, u ≠ t → (x.tasks u).delivered = ((s.words w).tasks u).delivered)
    (haims : l.pc.aims = none)
    (hcarried : ∀ p, l.pc.carried = some p → p = (w, t) ∧ t < x.wordLen ∧
      (x.tasks t).claimed = true ∧ (x.tasks t).delivered = false) : Letters s' where
  words := by
    rw [hwords]
    exact (Function.forall_update_iff s.words fun _ x => x.Conserved).mpr
      ⟨hx, fun v _ => h.words v⟩
  ok := by
    have hlens : ∀ v, (s'.words v).wordLen = (s.words v).wordLen := by
      rw [hwords]
      exact rel_update (R := fun x y : Word c.numFloors => y.wordLen = x.wordLen)
        (fun _ => rfl) hlen
    rw [hlc]
    refine (Function.forall_update_iff s.lc fun _ l => l.pc.TaskOk s'.words).mpr
      ⟨⟨fun v u hp => ?_, fun v u hp => ?_⟩, fun j hj => ⟨fun v u hp => ?_, fun v u hp => ?_⟩⟩
    · rw [haims] at hp
      cases hp
    · obtain ⟨he, ht, hcl', hd'⟩ := hcarried _ hp
      obtain ⟨rfl, rfl⟩ := Prod.mk.inj he
      rw [hwords, Function.update_self]
      exact ⟨ht, hcl', hd'⟩
    · rw [hlens v]
      exact (h.ok j).aims v u hp
    · rw [hlens v]
      obtain ⟨hu, hcl', hd'⟩ := (h.ok j).carried v u hp
      refine ⟨hu, ?_⟩
      rw [hwords]
      by_cases hv : v = w
      · subst hv
        have hut : u ≠ t := fun hut => hother j hj (hut ▸ hp)
        rw [Function.update_self, hcl u hut, hd u hut]
        exact ⟨hcl', hd'⟩
      · rw [Function.update_of_ne hv]
        exact ⟨hcl', hd'⟩
  unique := by
    have hmover : ∀ j p, j ≠ i → (s.lc j).pc.carried = some p → l.pc.carried ≠ some p := by
      intro j p hj hp hl
      exact hother j hj ((hcarried p hl).1 ▸ hp)
    rw [hlc]
    exact unique_update (g := fun l : LetterCarrier c => l.pc.carried) h.unique hmover

theorem wcStep_keepsTasks {i : Fin c.wordCarriers} (hs : wcStep s i = some s') :
    s'.lc = s.lc ∧ ∀ w, (s.words w).KeepsTasks (s'.words w) := by
  have hset : ∀ (v : Fin c.totalWords) (x : Word c.numFloors), (s.words v).KeepsTasks x →
      ∀ w, (s.words w).KeepsTasks (Function.update s.words v x w) := fun _ _ =>
    rel_update fun _ => .rfl
  have hflags : ∀ (v : Fin c.totalWords) (x : Word c.numFloors), x.wordLen = (s.words v).wordLen →
      x.tasks = (s.words v).tasks → x.sortingArea = (s.words v).sortingArea →
      x.occupied = (s.words v).occupied → (s.words v).KeepsTasks x := fun v x hl ht ha ho =>
    .of_fields hl (fun t => by rw [ht]; exact ⟨rfl, rfl, rfl⟩) ha ho
  cases wcMove_of_step hs with
  | claim w => exact ⟨rfl, hset w _ (hflags w _ rfl rfl rfl rfl)⟩
  | arrive w => exact ⟨rfl, hset w _ (hflags w _ rfl rfl rfl rfl)⟩
  | admitted w => exact ⟨rfl, hset w _ (hflags w _ rfl rfl rfl rfl)⟩
  | unclaim w => exact ⟨rfl, hset w _ (hflags w _ rfl rfl rfl rfl)⟩
  | source w j =>
    refine ⟨rfl, hset w _ (.of_fields rfl (fun t => ?_) rfl rfl)⟩
    by_cases htj : t = j
    · subst htj
      simp [setSrcFloor]
    · simp [setSrcFloor, htj]
  | _ => exact ⟨rfl, fun _ => .rfl⟩

theorem spStep_keepsTasks {i : Fin c.sortingProcs} (hs : spStep s i = some s') :
    s'.lc = s.lc ∧ ∀ w, (s.words w).KeepsTasks (s'.words w) := by
  have hset : ∀ (v : Fin c.totalWords) (x : Word c.numFloors), (s.words v).KeepsTasks x →
      ∀ w, (s.words w).KeepsTasks (Function.update s.words v x w) := fun _ _ =>
    rel_update fun _ => .rfl
  cases spMove_of_step hs with
  | complete w =>
    exact ⟨rfl, hset w _ ((sortPass_keepsTasks _).trans
      (.of_fields rfl (fun _ => ⟨rfl, rfl, rfl⟩) rfl rfl))⟩
  | pass w => exact ⟨rfl, hset w _ (sortPass_keepsTasks _)⟩
  | _ => exact ⟨rfl, fun _ => .rfl⟩

/-- A claimed task in a word that is otherwise as it was. -/
theorem claimTask_conserved {nf : ℕ} {x : Word nf} (h : x.Conserved) (t : ℕ) :
    (claimTask x t).Conserved := by
  refine ⟨?_, h.occupied_lt⟩
  have hd : (claimTask x t).deliveredLetters = x.deliveredLetters := by
    refine contents_congr fun u _ => ?_
    by_cases hut : u = t
    · subst hut
      simp [claimTask]
    · simp [claimTask, hut]
  exact h.letters.trans hd.symm

theorem letters_lcStep {i : Fin c.letterCarriers} {rand : Fin c.numFloors} (h : Letters s)
    (hsound : ∀ w, (s.words w).Sound) (hs : lcStep s i rand = some s') : Letters s' := by
  cases lcMove_of_step hs with
  | walk l hfrom hto haim => exact h.of_walk rfl rfl haim (Or.inl hto)
  | lock w t hpc hfree =>
    exact h.of_walk rfl rfl (fun v u hp => (h.ok i).aims v u (by rw [hpc]; exact hp)) (Or.inl rfl)
  | pass w t hpc => exact h.of_walk rfl rfl (fun v u => by rintro ⟨⟩) (Or.inl rfl)
  | carry w t l hfrom hto hpc =>
    refine h.of_walk rfl rfl (fun v u hp => ?_) (Or.inr (hto.trans hfrom.symm))
    cases hl : l.pc <;> simp_all [LcPc.aims, LcPc.carried]
  | enter w t hpc =>
    exact h.of_walk rfl rfl (fun v u => by rintro ⟨⟩) (Or.inr (by rw [hpc]; rfl))
  | claim w t hpc hcl hd =>
    have ht : t < (s.words w).wordLen := (h.ok i).aims w t (by rw [hpc]; rfl)
    refine h.of_task (t := t) rfl rfl (claimTask_conserved (h.words w) t) rfl (fun j _ hj => ?_)
      (fun u hu => by simp [claimTask, hu]) (fun u hu => by simp [claimTask, hu]) rfl fun p hp => ?_
    · rw [((h.ok j).carried w t hj).2.1] at hcl
      cases hcl
    · exact ⟨(Option.some.inj hp).symm, ht, by simp [claimTask], by simpa [claimTask] using hd⟩
  | place w t hpc =>
    have hmine : (s.lc i).pc.carried = some (w, t) := by rw [hpc]; rfl
    obtain ⟨ht, hcl, hd⟩ := (h.ok i).carried w t hmine
    obtain ⟨hx, hlen, -, hclaimed, hother⟩ := (h.words w).placeChar (hsound w) ht hd
    exact h.of_task (t := t) rfl rfl hx hlen (fun j hj hj' => hj (h.unique j i _ hj' hmine))
      (fun u _ => hclaimed u) hother rfl fun p hp => by cases hp

/-- **Every step conserves the letters.** -/
theorem letters_step (h : Letters s) (hsound : ∀ w, (s.words w).Sound)
    (hs : step s a = some s') : Letters s' := by
  cases a with
  | wordCarrier i => exact h.of_keeps (wcStep_keepsTasks hs).1 (wcStep_keepsTasks hs).2
  | letterCarrier i rand => exact letters_lcStep h hsound hs
  | sortingProc i => exact h.of_keeps (spStep_keepsTasks hs).1 (spStep_keepsTasks hs).2
  | monitor =>
    obtain ⟨-, rfl⟩ := monitor_of_step hs
    exact h.of_keeps rfl fun _ => .rfl
  | sigint =>
    obtain rfl := Option.some.inj hs
    exact h.of_keeps rfl fun _ => .rfl

theorem letters_reachable (h : (system c).Reachable s) : Letters s := by
  refine h.induct_reachable ⟨fun w => initWordInfo_conserved _, fun i => ⟨?_, ?_⟩, ?_⟩
    fun s a s' hr hl hs => letters_step hl (tally_reachable hr).sound hs
  · rintro w t ⟨⟩
  · rintro w t ⟨⟩
  · rintro i j p ⟨⟩

/-! ## Claims and placements -/

/-- `find_task` claims task `t` of word `w` with this step. -/
def claimsTask (w : Fin c.totalWords) (t : ℕ) (s : Sys c) : Act c → Bool
  | .letterCarrier i _ => decide ((s.lc i).pc = .claiming w t) &&
      (!((s.words w).tasks t).claimed && !((s.words w).tasks t).delivered)
  | _ => false

/-- `place_char` runs for task `t` of word `w` with this step. -/
def placesTask (w : Fin c.totalWords) (t : ℕ) (s : Sys c) : Act c → Bool
  | .letterCarrier i _ => decide ((s.lc i).pc = .placing w t)
  | _ => false

/-- No step takes a claim back. -/
theorem claimed_mono (hr : (system c).Reachable s) (hs : step s a = some s')
    (w : Fin c.totalWords) (t : ℕ) (h : ((s.words w).tasks t).claimed = true) :
    ((s'.words w).tasks t).claimed = true := by
  have hl := letters_reachable hr
  cases a with
  | wordCarrier i => rw [((wcStep_keepsTasks hs).2 w).claimed_eq, h]
  | sortingProc i => rw [((spStep_keepsTasks hs).2 w).claimed_eq, h]
  | letterCarrier i rand =>
    cases lcMove_of_step hs with
    | claim v u =>
      refine (Function.forall_update_iff s.words fun v y => v = w → (y.tasks t).claimed = true).mpr
        ⟨fun hv => ?_, fun v _ hv => hv ▸ h⟩ w rfl
      by_cases htu : t = u
      · simp [claimTask, htu]
      · simpa [claimTask, htu, hv] using h
    | place v u hpc =>
      obtain ⟨hu, -, hd⟩ := (hl.ok i).carried v u (by rw [hpc]; rfl)
      have hclaimed := ((hl.words v).placeChar ((tally_reachable hr).sound v) hu hd).2.2.2.1
      refine (Function.forall_update_iff s.words fun v y => v = w → (y.tasks t).claimed = true).mpr
        ⟨fun hv => ?_, fun v _ hv => hv ▸ h⟩ w rfl
      rw [hclaimed, hv, h]
    | _ => exact h
  | monitor =>
    obtain ⟨-, rfl⟩ := monitor_of_step hs
    exact h
  | sigint =>
    obtain rfl := Option.some.inj hs
    exact h

/-- No step takes a delivery back. -/
theorem delivered_mono (hs : step s a = some s') (w : Fin c.totalWords) (t : ℕ)
    (h : ((s.words w).tasks t).delivered = true) : ((s'.words w).tasks t).delivered = true := by
  cases a with
  | wordCarrier i => exact ((wcStep_quiet hs).words w).extends_.delivered_mono t h
  | letterCarrier i rand => exact ((lcStep_quiet hs).words w).extends_.delivered_mono t h
  | sortingProc i => rw [((spStep_keepsTasks hs).2 w).delivered_eq, h]
  | monitor =>
    obtain ⟨-, rfl⟩ := monitor_of_step hs
    exact h
  | sigint =>
    obtain rfl := Option.some.inj hs
    exact h

/-- Claiming a task sets its `claimed`. -/
theorem claimed_of_claimsTask (hs : step s a = some s') {w : Fin c.totalWords} {t : ℕ}
    (h : claimsTask w t s a = true) :
    ((s.words w).tasks t).claimed = false ∧ ((s'.words w).tasks t).claimed = true := by
  cases a with
  | letterCarrier i rand =>
    simp only [claimsTask, Bool.and_eq_true, decide_eq_true_eq, Bool.not_eq_true'] at h
    obtain ⟨hpc, hcl, hd⟩ := h
    simp only [step, lcStep, hpc, hcl, hd] at hs
    obtain rfl := Option.some.inj hs
    exact ⟨hcl, by simp [Sys.setLc, Sys.setLock, Sys.setWord, claimTask]⟩
  | _ => cases h

/-- `place_char` delivers its task. -/
theorem delivered_of_placesTask (hr : (system c).Reachable s) (hs : step s a = some s')
    {w : Fin c.totalWords} {t : ℕ} (h : placesTask w t s a = true) :
    ((s.words w).tasks t).delivered = false ∧ ((s'.words w).tasks t).delivered = true := by
  have hl := letters_reachable hr
  cases a with
  | letterCarrier i rand =>
    simp only [placesTask, decide_eq_true_eq] at h
    obtain ⟨ht, -, hd⟩ := (hl.ok i).carried w t (by rw [h]; rfl)
    have hplace := ((hl.words w).placeChar ((tally_reachable hr).sound w) ht hd).2.2.1
    simp only [step, lcStep, h] at hs
    obtain rfl := Option.some.inj hs
    refine ⟨hd, ?_⟩
    simpa [Sys.setLc, Sys.setLock, Sys.setWord] using hplace
  | _ => cases h

/-! ## Letters are conserved -/

/-- The occupied slots of a word hold the letters of its delivered tasks, the fixed ones their own.
-/
structure LettersConserved {nf : ℕ} (x : Word nf) : Prop where
  counts : ((Finset.range x.wordLen).filter fun j => x.occupied j = true).card =
    ((Finset.range x.wordLen).filter fun t => (x.tasks t).delivered = true).card
  letters : x.placedLetters = x.deliveredLetters
  within : ∀ j, x.occupied j = true → j < x.wordLen
  fixed : ∀ j, x.fixed j = true → x.occupied j = true ∧ x.sortingArea j = x.original j

theorem Word.Conserved.lettersConserved {nf : ℕ} {x : Word nf} (h : x.Conserved) (hs : x.Sound) :
    LettersConserved x where
  counts := by
    have := congrArg Multiset.card h.letters
    rwa [Word.placedLetters, Word.deliveredLetters, card_contents, card_contents] at this
  letters := h.letters
  within := h.occupied_lt
  fixed := hs.fixed_ok

/-- The tasks in one state: each is carried by at most one carrier, and a carrier in `place_char`
has a task that is claimed and not delivered, and finds a free slot. -/
structure TasksHandled (s : Sys c) : Prop where
  unique : ∀ i j p, (s.lc i).pc.carried = some p → (s.lc j).pc.carried = some p → i = j
  placing : ∀ i w t, (s.lc i).pc = .placing w t →
    ((s.words w).tasks t).claimed = true ∧ ((s.words w).tasks t).delivered = false ∧
      (s.words w).freeSlot.isSome

/-- **Letters are conserved and each is delivered once**, for every setup and in every state of
every run. -/
theorem characters_conserved {s : Sys c} {as : List (Act c)}
    (h : (system c).runs (system c).init as = some s) :
    (∀ w, LettersConserved (s.words w)) ∧ TasksHandled s ∧
      ∀ w t, (system c).count (claimsTask w t) (system c).init as ≤ 1 ∧
        (system c).count (placesTask w t) (system c).init as ≤ 1 := by
  have hr := Machine.runs_reachable h
  have hl := letters_reachable hr
  have hsound := (tally_reachable hr).sound
  refine ⟨fun w => (hl.words w).lettersConserved (hsound w), ⟨hl.unique, fun i w t hpc => ?_⟩,
    fun w t => ⟨?_, ?_⟩⟩
  · obtain ⟨ht, hcl, hd⟩ := (hl.ok i).carried w t (by rw [hpc]; rfl)
    obtain ⟨slot, hslot⟩ := (hl.words w).freeSlot (hsound w) ht hd
    exact ⟨hcl, hd, Option.isSome_iff_exists.mpr ⟨slot, hslot⟩⟩
  · refine (Machine.count_le_one (J := (system c).Reachable)
      (q := fun s => ((s.words w).tasks t).claimed) (fun _ _ _ => Machine.Reachable.step)
      (fun s a s' hr hs => claimed_mono hr hs w t)
      (fun s a s' _ hs => claimed_of_claimsTask hs) as _ Machine.Reachable.init).trans ?_
    split <;> omega
  · refine (Machine.count_le_one (J := (system c).Reachable)
      (q := fun s => ((s.words w).tasks t).delivered) (fun _ _ _ => Machine.Reachable.step)
      (fun s a s' _ hs => delivered_mono hs w t)
      (fun s a s' hr hs => delivered_of_placesTask hr hs) as _ Machine.Reachable.init).trans ?_
    split <;> omega

/-- In the run that sorts the word `a`, its letter is claimed and placed. -/
theorem characters_conserved_oneLetter :
    ∃ s, (system oneLetter).runs (system oneLetter).init oneLetterRun = some s ∧
      (s.words (0 : Fin 1)).placedLetters = {97} ∧
      ((∀ w, LettersConserved (s.words w)) ∧ TasksHandled s ∧
        ∀ w t, (system oneLetter).count (claimsTask w t) (system oneLetter).init oneLetterRun ≤ 1 ∧
          (system oneLetter).count (placesTask w t) (system oneLetter).init oneLetterRun ≤ 1) := by
  have hrun : ((system oneLetter).runs (system oneLetter).init oneLetterRun).map
      (fun s => ((s.words (0 : Fin 1)).occupied 0, (s.words (0 : Fin 1)).sortingArea 0,
        (s.words (0 : Fin 1)).wordLen)) = some (true, 97, 1) := by decide +kernel
  obtain ⟨s, hs, he⟩ := Option.map_eq_some_iff.mp hrun
  simp only [Prod.mk.injEq] at he
  obtain ⟨hocc, harea, hlen⟩ := he
  refine ⟨s, hs, ?_, characters_conserved hs⟩
  simp [Word.placedLetters, contents, slotContents, hlen, hocc, harea]

end Cse344.HW3
