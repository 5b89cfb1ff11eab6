import Cse344.HW3.Letters

/-!
# Sorting makes progress and ends

A `sort_step` (`HW3/src/processes/sorting_proc.c` 34-101) on a word whose tasks are all delivered.
Every slot is occupied then, and the letters in the slots are the letters of the word in some order,
so a slot that does not hold its letter finds another one to swap with.

* `Word.fixedCount` is the number of fixed slots of a word, `Word.Full` a word with a letter in each
  slot, `Word.Spelled` one that still has the letters of the input.
* The first unfixed slot a pass gets to is fixed at once, or its letter is swapped into its place in
  a later slot; nothing takes a letter from its place (`settled_sortSlot`), so that slot is fixed
  when the pass gets there.

Results:
* `sortPass_progress`, `fixedCount_lt`: the pass fixes a slot.
* **`sorting_progresses`**: each such call raises the number of fixed slots, no run has more of them
  than the word has letters, and after that many the word is completed.

Out of scope: that such calls come; nothing is said of how the processes are scheduled. A word has a
letter (`is_valid_line`): one without would be completed by a call that fixes nothing.
-/

namespace Cse344.HW3

open Cse344.Lib

/-! ## One pass -/

section Words

variable {nf : ℕ} {x : Word nf}

/-- The number of fixed slots. -/
def Word.fixedCount (x : Word nf) : ℕ :=
  ((Finset.range x.wordLen).filter fun i => x.fixed i = true).card

/-- The slot holds its letter. -/
def Word.Settled (x : Word nf) (j : ℕ) : Prop :=
  x.occupied j = true ∧ x.sortingArea j = x.original j

/-- A slot that holds its letter keeps it, whatever slot `sort_step` is at. -/
theorem settled_sortSlot {i j : ℕ} (hji : j ≠ i) (h : x.Settled j) : (sortSlot x i).Settled j := by
  unfold sortSlot
  split_ifs
  · exact h
  · dsimp only
    cases hk : findCorrectSlot x i with
    | none => exact h
    | some k =>
      obtain ⟨horig, -, -⟩ := findCorrectSlot_some hk
      dsimp only
      split_ifs with hki hko
      · exact h
      · -- the letter moves to a free slot, which is not `j`
        have hjk : j ≠ k := fun hjk => by
          rw [← hjk, h.1] at hko
          cases hko
        exact ⟨by simpa [hji, hjk] using h.1, by simpa [hji, hjk] using h.2⟩
      · -- where the other slot is `j`, it gets the letter it has
        refine ⟨h.1, ?_⟩
        by_cases hjk : j = k
        · simp [hjk, hjk ▸ hji, horig]
        · simpa [hji, hjk] using h.2
      · exact h

/-- A slot that holds its letter is fixed when `sort_step` gets to it. -/
theorem fixed_of_settled {i : ℕ} (h : x.Settled i) : (sortSlot x i).fixed i = true := by
  unfold sortSlot
  cases hfix : x.fixed i with
  | true => simpa using hfix
  | false =>
    have hk : findCorrectSlot x i = some i := if_pos ⟨h.2.symm, hfix⟩
    simp [h.1, hk]

theorem foldl_settled {j : ℕ} : ∀ {slots : List ℕ} {x : Word nf}, x.Settled j → j ∈ slots →
    (slots.foldl sortSlot x).fixed j = true
  | i :: slots, x, h, hj => by
    rw [List.foldl_cons]
    by_cases hji : j = i
    · subst hji
      exact (foldl_sortSlot_kept slots _).extends_.fixed_mono j (fixed_of_settled h)
    · exact foldl_settled (settled_sortSlot hji h) ((List.mem_cons.mp hj).resolve_left hji)

/-- Every slot is occupied, and the letters in the slots are those of the word. -/
structure Word.Full (x : Word nf) : Prop where
  sound : x.Sound
  occupied : ∀ i < x.wordLen, x.occupied i = true
  letters : (Finset.range x.wordLen).val.map x.sortingArea =
    (Finset.range x.wordLen).val.map x.original

/-- A letter that is not in its place has a place that is not fixed: as many slots hold it as ask
for it, and the slot at hand does not ask for it. -/
theorem Word.Full.exists_place (h : x.Full) {i : ℕ} (hi : i < x.wordLen)
    (hne : x.original i ≠ x.sortingArea i) :
    ∃ j < x.wordLen, j ≠ i ∧ x.fixed j = false ∧ x.original j = x.sortingArea i := by
  by_contra hnone
  push Not at hnone
  have hcount := congrArg (Multiset.count (x.sortingArea i)) h.letters
  rw [Multiset.count_map, Multiset.count_map] at hcount
  refine absurd hcount (ne_of_gt (Finset.card_lt_card (t := (Finset.range x.wordLen).filter
    fun j => x.sortingArea i = x.sortingArea j) (s := (Finset.range x.wordLen).filter
    fun j => x.sortingArea i = x.original j) (Finset.ssubset_iff_of_subset ?_ |>.mpr ?_)))
  · intro j hj
    obtain ⟨hj, hask⟩ := Finset.mem_filter.mp hj
    have hji : j ≠ i := fun hji => hne (by rw [← hji] at hask ⊢; exact hask.symm)
    have hfix : x.fixed j = true :=
      Bool.of_not_eq_false fun hf => hnone j (Finset.mem_range.mp hj) hji hf hask.symm
    exact Finset.mem_filter.mpr ⟨hj, hask.trans (h.sound.fixed_ok j hfix).2.symm⟩
  · refine ⟨i, Finset.mem_filter.mpr ⟨Finset.mem_range.mpr hi, rfl⟩, fun hmem => ?_⟩
    exact hne (Finset.mem_filter.mp hmem).2.symm

theorem findCorrectSlot_ne_none {i j : ℕ} (hj : j < x.wordLen) (hji : j ≠ i)
    (hfix : x.fixed j = false) (hocc : x.occupied j = true)
    (horig : x.original j = x.sortingArea i) : findCorrectSlot x i ≠ none := by
  have hmem : j ∈ x.candidates i := List.mem_filter.mpr ⟨List.mem_range.mpr hj, by
    simp [horig, hfix, hji]⟩
  unfold findCorrectSlot
  split_ifs
  · exact Option.some_ne_none i
  · split
    · exact Option.some_ne_none _
    · intro hnone
      exact List.find?_eq_none.mp hnone j hmem hocc

/-- At an unfixed slot, `sort_step` fixes it or puts its letter in its place in another one. -/
theorem Word.Full.sortSlot_progress (h : x.Full) {i : ℕ} (hi : i < x.wordLen)
    (hfix : x.fixed i = false) : (sortSlot x i).fixed i = true ∨
      ∃ j < x.wordLen, j ≠ i ∧ x.fixed j = false ∧ (sortSlot x i).Settled j := by
  by_cases hown : x.original i = x.sortingArea i
  · exact Or.inl (fixed_of_settled ⟨h.occupied i hi, hown.symm⟩)
  · obtain ⟨j, hj, hji, hjfix, horig⟩ := h.exists_place hi hown
    obtain ⟨k, hk⟩ := Option.ne_none_iff_exists'.mp
      (findCorrectSlot_ne_none hj hji hjfix (h.occupied j hj) horig)
    obtain ⟨hkorig, hkfix, hk'⟩ := findCorrectSlot_some hk
    have hki : k ≠ i := fun hki => hown (by rw [← hkorig, hki])
    have hklt := hk'.resolve_left hki
    refine Or.inr ⟨k, hklt, hki, hkfix, ?_⟩
    have hocc := h.occupied k hklt
    have hslot : sortSlot x i = { x with
        sortingArea := Function.update (Function.update x.sortingArea k (x.sortingArea i)) i
          (x.sortingArea k) } := by
      unfold sortSlot
      simp [h.occupied i hi, hfix, hk, hki, hocc, hkfix]
    rw [hslot]
    exact ⟨hocc, by simp [hki, hkorig]⟩

theorem exists_fixed_foldl (h : x.Full) : ∀ {slots : List ℕ},
    (∀ i ∈ slots, i < x.wordLen) → (∀ i < x.wordLen, x.fixed i = false → i ∈ slots) →
    (∃ i < x.wordLen, x.fixed i = false) →
    ∃ j < x.wordLen, x.fixed j = false ∧ (slots.foldl sortSlot x).fixed j = true
  | [], _, hall, ⟨i, hi, hfix⟩ => absurd (hall i hi hfix) List.not_mem_nil
  | i :: slots, hlt, hall, hsome => by
    rw [List.foldl_cons]
    cases hfix : x.fixed i with
    | true =>
      have hskip : sortSlot x i = x := if_pos (by rw [hfix, Bool.or_true])
      rw [hskip]
      refine exists_fixed_foldl h (fun j hj => hlt j (List.mem_cons_of_mem i hj))
        (fun j hj hf => (List.mem_cons.mp (hall j hj hf)).resolve_left fun hji => ?_) hsome
      rw [hji, hfix] at hf
      cases hf
    | false =>
      have hi := hlt i List.mem_cons_self
      rcases h.sortSlot_progress hi hfix with hfixed | ⟨j, hj, hji, hjfix, hsettled⟩
      · exact ⟨i, hi, hfix, (foldl_sortSlot_kept slots _).extends_.fixed_mono i hfixed⟩
      · exact ⟨j, hj, hjfix,
          foldl_settled hsettled ((List.mem_cons.mp (hall j hj hjfix)).resolve_left hji)⟩

/-- Fixed slots stay fixed. -/
theorem Word.Extends.fixedCount_le {y : Word nf} (h : x.Extends y) :
    x.fixedCount ≤ y.fixedCount := by
  unfold Word.fixedCount
  rw [h.wordLen_eq]
  exact Finset.card_le_card (Finset.monotone_filter_right _ fun j _ => h.fixed_mono j)

/-- **A pass fixes a slot.** -/
theorem sortPass_progress (h : x.Full) (hsome : ∃ i < x.wordLen, x.fixed i = false) :
    x.fixedCount < (sortPass x).fixedCount := by
  have hext := (sortPass_kept x).extends_
  obtain ⟨j, hj, hunfixed, hfixed⟩ := exists_fixed_foldl h
    (fun i (hi : i ∈ List.range x.wordLen) => List.mem_range.mp hi)
    (fun i hi _ => List.mem_range.mpr hi) hsome
  unfold Word.fixedCount
  rw [hext.wordLen_eq]
  refine Finset.card_lt_card ((Finset.ssubset_iff_of_subset ?_).mpr ⟨j, ?_, fun hmem => ?_⟩)
  · exact Finset.monotone_filter_right _ fun i _ => hext.fixed_mono i
  · exact Finset.mem_filter.mpr ⟨Finset.mem_range.mpr hj, hfixed⟩
  · rw [(Finset.mem_filter.mp hmem).2] at hunfixed
    cases hunfixed

end Words

/-! ## The letters of the tasks are those of the word -/

section Spelling

variable {nf : ℕ} {input : WordInput nf} {x y : Word nf}

/-- What the processes keep of a word: the letters of its tasks, and that it is completed when its
last slot is fixed. -/
structure Word.Spelled (input : WordInput nf) (x : Word nf) : Prop where
  wordLen_eq : x.wordLen = input.word.length
  character : ∀ t, (x.tasks t).character = x.original t
  finished : input.word ≠ [] → (∀ i < x.wordLen, x.fixed i = true) → x.completed = true

/-- An operation that fixes and completes nothing, and leaves the letters of the tasks alone. -/
structure Word.SameSpelling (x y : Word nf) : Prop where
  original_eq : y.original = x.original
  wordLen_eq : y.wordLen = x.wordLen
  fixed_eq : y.fixed = x.fixed
  completed_eq : y.completed = x.completed
  character_eq : ∀ t, (y.tasks t).character = (x.tasks t).character

theorem Word.SameSpelling.rfl : x.SameSpelling x :=
  ⟨Eq.refl _, Eq.refl _, Eq.refl _, Eq.refl _, fun _ => Eq.refl _⟩

theorem Word.Spelled.of_same (h : x.Spelled input) (hs : x.SameSpelling y) : y.Spelled input where
  wordLen_eq := hs.wordLen_eq.trans h.wordLen_eq
  character := fun t => by rw [hs.character_eq, hs.original_eq, h.character]
  finished := fun hne hall => by
    rw [hs.completed_eq]
    rw [hs.wordLen_eq, hs.fixed_eq] at hall
    exact h.finished hne hall

theorem setSrcFloor_sameSpelling (x : Word nf) (j : ℕ) (f : Fin nf) :
    x.SameSpelling (setSrcFloor x j f) := by
  refine ⟨rfl, rfl, rfl, rfl, fun t => ?_⟩
  by_cases htj : t = j
  · simp [setSrcFloor, htj]
  · simp [setSrcFloor, htj]

theorem claimTask_sameSpelling (x : Word nf) (u : ℕ) : x.SameSpelling (claimTask x u) := by
  refine ⟨rfl, rfl, rfl, rfl, fun t => ?_⟩
  by_cases htu : t = u
  · simp [claimTask, htu]
  · simp [claimTask, htu]

theorem placeChar_sameSpelling (x : Word nf) (u : ℕ) : x.SameSpelling (placeChar x u) := by
  unfold placeChar
  split
  · refine ⟨rfl, rfl, rfl, rfl, fun t => ?_⟩
    by_cases htu : t = u
    · simp [htu]
    · simp [htu]
  · exact .rfl

theorem foldl_sortSlot_tasks : ∀ (slots : List ℕ) (x : Word nf),
    (slots.foldl sortSlot x).tasks = x.tasks
  | [], _ => rfl
  | i :: slots, x => by
    rw [List.foldl_cons, foldl_sortSlot_tasks slots]
    rcases sortSlot_cases x i with hs | ⟨-, -, hs⟩ | ⟨k, -, -, -, -, -, hs⟩ |
        ⟨k, -, -, -, -, -, hs⟩ <;> rw [hs]

theorem sortPass_tasks (x : Word nf) : (sortPass x).tasks = x.tasks := foldl_sortSlot_tasks _ x

theorem allFixed_iff : x.allFixed = true ↔ ∀ i < x.wordLen, x.fixed i = true := by
  simp [Word.allFixed]

theorem allDelivered_iff :
    x.allDelivered = true ↔ ∀ t < x.wordLen, (x.tasks t).delivered = true := by
  simp [Word.allDelivered]

/-- The tasks of a word of which every slot is occupied are delivered, and the other way round. -/
theorem Word.Conserved.occupied_iff (h : x.Conserved) :
    (∀ i < x.wordLen, x.occupied i = true) ↔ x.allDelivered = true := by
  have hcard := congrArg Multiset.card h.letters
  rw [Word.placedLetters, Word.deliveredLetters, card_contents, card_contents] at hcard
  have hfull : ∀ p : ℕ → Bool, ((Finset.range x.wordLen).filter fun i => p i = true).card =
      (Finset.range x.wordLen).card ↔ ∀ i < x.wordLen, p i = true := fun p => by
    rw [Finset.card_filter_eq_iff]
    exact forall_congr' fun i => by rw [Finset.mem_range]
  rw [allDelivered_iff, ← hfull, ← hfull, hcard]

theorem Word.Spelled.full (h : x.Spelled input) (hc : x.Conserved) (hs : x.Sound)
    (hd : x.allDelivered = true) : x.Full where
  sound := hs
  occupied := hc.occupied_iff.mpr hd
  letters := by
    have hplaced := hc.letters
    rw [Word.placedLetters, Word.deliveredLetters,
      contents_full fun i hi => hc.occupied_iff.mpr hd i (Finset.mem_range.mp hi),
      contents_full fun t ht => allDelivered_iff.mp hd t (Finset.mem_range.mp ht)] at hplaced
    rw [hplaced]
    exact Multiset.map_congr rfl fun t _ => h.character t

/-- A pass that does not complete the word leaves a slot that is not fixed. -/
theorem Word.Spelled.sortPass (h : x.Spelled input) (hc : x.Conserved) (hs : x.Sound) :
    ({ sortPass x with completed := (sortPass x).completed || (sortPass x).completes } :
      Word nf).Spelled input := by
  have hkept := sortPass_kept x
  refine ⟨hkept.extends_.wordLen_eq.trans h.wordLen_eq, fun t => ?_, fun _ hall => ?_⟩
  · show ((HW3.sortPass x).tasks t).character = (HW3.sortPass x).original t
    rw [sortPass_tasks, hkept.extends_.original_eq, h.character]
  · have hsound := hkept.sound hs
    have hd : (HW3.sortPass x).allDelivered = true :=
      ((sortPass_keepsTasks x).conserved hc).occupied_iff.mp fun i hi =>
        (hsound.fixed_ok i (hall i hi)).1
    have hf : (HW3.sortPass x).allFixed = true := allFixed_iff.mpr hall
    show ((HW3.sortPass x).completed || (HW3.sortPass x).completes) = true
    rw [Word.completes, hd, hf]
    cases (HW3.sortPass x).completed <;> rfl

theorem initWordInfo_spelled (input : WordInput nf) : (initWordInfo input).Spelled input := by
  refine ⟨rfl, fun _ => rfl, fun hne hall => ?_⟩
  exact absurd (hall 0 (List.length_pos_of_ne_nil hne)) Bool.false_ne_true

end Spelling

/-! ## Every step keeps the spelling -/

variable {c : Setup} {s s' : Sys c} {a : Act c}

def Spelled (s : Sys c) : Prop := ∀ w, (s.words w).Spelled (c.input w)

theorem Spelled.setWord (h : Spelled s) {w : Fin c.totalWords} {x : Word c.numFloors}
    (hw : s'.words = Function.update s.words w x) (hx : x.Spelled (c.input w)) : Spelled s' := by
  unfold Spelled
  rw [hw]
  exact (Function.forall_update_iff s.words fun v y => y.Spelled (c.input v)).mpr
    ⟨hx, fun v _ => h v⟩

theorem spelled_step (hr : (system c).Reachable s) (h : Spelled s) (hs : step s a = some s') :
    Spelled s' := by
  have hsame : ∀ (w : Fin c.totalWords) {x : Word c.numFloors} {t : Sys c},
      t.words = Function.update s.words w x → (s.words w).SameSpelling x → Spelled t :=
    fun w _ _ hw hx => h.setWord hw ((h w).of_same hx)
  cases a with
  | wordCarrier i =>
    cases wcMove_of_step hs with
    | claim w => exact hsame w rfl ⟨rfl, rfl, rfl, rfl, fun _ => rfl⟩
    | arrive w => exact hsame w rfl ⟨rfl, rfl, rfl, rfl, fun _ => rfl⟩
    | admitted w => exact hsame w rfl ⟨rfl, rfl, rfl, rfl, fun _ => rfl⟩
    | unclaim w => exact hsame w rfl ⟨rfl, rfl, rfl, rfl, fun _ => rfl⟩
    | source w j => exact hsame w rfl (setSrcFloor_sameSpelling _ j _)
    | _ => exact h
  | letterCarrier i rand =>
    cases lcMove_of_step hs with
    | claim w t => exact hsame w rfl (claimTask_sameSpelling _ t)
    | place w t => exact hsame w rfl (placeChar_sameSpelling _ t)
    | _ => exact h
  | sortingProc i =>
    have hpass : ∀ w, _ := fun w =>
      (h w).sortPass ((letters_reachable hr).words w) ((tally_reachable hr).sound w)
    cases spMove_of_step hs with
    | complete w hpc hc =>
      refine h.setWord rfl ?_
      have := hpass w
      rwa [hc, Bool.or_true] at this
    | pass w hpc hc =>
      refine h.setWord rfl ?_
      have := hpass w
      rwa [hc, Bool.or_false] at this
    | _ => exact h
  | monitor =>
    obtain ⟨-, rfl⟩ := monitor_of_step hs
    exact h
  | sigint =>
    obtain rfl := Option.some.inj hs
    exact h

theorem spelled_reachable (h : (system c).Reachable s) : Spelled s :=
  h.induct_reachable (fun _ => initWordInfo_spelled _) fun _ _ _ hr hi hs => spelled_step hr hi hs

/-! ## Sorting ends -/

/-- A `sort_step` has got the lock of word `w`, which is delivered and not completed, and passes
over it with this step. -/
def sortsDelivered (w : Fin c.totalWords) (s : Sys c) : Act c → Bool
  | .sortingProc i => decide (s.sp i = .sorting w) &&
      ((s.words w).allDelivered && !(s.words w).completed)
  | _ => false

theorem extends_step (hs : step s a = some s') (w : Fin c.totalWords) :
    (s.words w).Extends (s'.words w) := by
  have hset : ∀ (v : Fin c.totalWords) (x : Word c.numFloors), (s.words v).Extends x →
      (s.words w).Extends (Function.update s.words v x w) := fun v x hx =>
    rel_update (R := Word.Extends) (fun _ => .rfl) hx w
  cases a with
  | wordCarrier i => exact ((wcStep_quiet hs).words w).extends_
  | letterCarrier i rand => exact ((lcStep_quiet hs).words w).extends_
  | sortingProc i =>
    cases spMove_of_step hs with
    | complete v hpc hc =>
      refine hset v _ ((sortPass_kept (s.words v)).extends_.trans ?_)
      exact ⟨rfl, rfl, rfl, fun _ h => h, fun _ h => h⟩
    | pass v hpc hc => exact hset v _ (sortPass_kept (s.words v)).extends_
    | _ => exact .rfl
  | monitor =>
    obtain ⟨-, rfl⟩ := monitor_of_step hs
    exact .rfl
  | sigint =>
    obtain rfl := Option.some.inj hs
    exact .rfl

/-- A `sort_step` that holds the lock leaves the word as its pass does, up to `completed`. -/
theorem fixed_of_sorting {i : Fin c.sortingProcs} {w : Fin c.totalWords} (hpc : s.sp i = .sorting w)
    (hs : step s (.sortingProc i) = some s') :
    (s'.words w).fixedCount = (sortPass (s.words w)).fixedCount := by
  simp only [step, spStep, hpc] at hs
  split_ifs at hs <;>
    (obtain rfl := Option.some.inj hs
     simp [Sys.setWord, Sys.setSp, Word.fixedCount])

/-- **Such a call fixes a slot.** -/
theorem fixedCount_lt (hr : (system c).Reachable s) {i : Fin c.sortingProcs}
    {w : Fin c.totalWords} (hw : (c.input w).word ≠ []) (hpc : s.sp i = .sorting w)
    (hd : (s.words w).allDelivered = true) (hc : (s.words w).completed = false)
    (hs : step s (.sortingProc i) = some s') :
    (s.words w).fixedCount < (s'.words w).fixedCount := by
  have hspelled := spelled_reachable hr w
  have hfull := hspelled.full ((letters_reachable hr).words w) ((tally_reachable hr).sound w) hd
  rw [fixed_of_sorting hpc hs]
  refine sortPass_progress hfull ?_
  by_contra hall
  push Not at hall
  have := hspelled.finished hw fun j hj => Bool.of_not_eq_false (hall j hj)
  rw [hc] at this
  cases this

theorem fixedCount_le {nf : ℕ} (x : Word nf) : x.fixedCount ≤ x.wordLen :=
  (Finset.card_filter_le _ _).trans (Finset.card_range _).le

theorem fixed_of_wordLen_le {nf : ℕ} {x : Word nf} (h : x.wordLen ≤ x.fixedCount) :
    ∀ i < x.wordLen, x.fixed i = true := by
  have hcard : x.fixedCount = (Finset.range x.wordLen).card := by
    rw [Finset.card_range]
    exact le_antisymm (fixedCount_le x) h
  exact fun i hi => Finset.card_filter_eq_iff.mp hcard i (Finset.mem_range.mpr hi)

/-- **Sorting makes progress and ends.** In every run, a `sort_step` that has the lock of a
delivered word that is not completed fixes at least one of its slots; there are at most as many of
them as the word has letters, and after that many the word is completed. -/
theorem sorting_progresses {as : List (Act c)} (h : (system c).runs (system c).init as = some s)
    (w : Fin c.totalWords) (hw : (c.input w).word ≠ []) :
    (∀ i s', sortsDelivered w s (.sortingProc i) = true → step s (.sortingProc i) = some s' →
        (s.words w).fixedCount + 1 ≤ (s'.words w).fixedCount) ∧
      (system c).count (sortsDelivered w) (system c).init as ≤ (c.input w).word.length ∧
      ((system c).count (sortsDelivered w) (system c).init as = (c.input w).word.length →
        (s.words w).completed = true) := by
  have hone : ∀ {s : Sys c}, (system c).Reachable s → ∀ i s',
      sortsDelivered w s (.sortingProc i) = true → step s (.sortingProc i) = some s' →
        (s.words w).fixedCount + 1 ≤ (s'.words w).fixedCount := by
    intro s hr i s' hsorts hs
    simp only [sortsDelivered, Bool.and_eq_true, decide_eq_true_eq, Bool.not_eq_true'] at hsorts
    exact fixedCount_lt hr hw hsorts.1 hsorts.2.1 hsorts.2.2 hs
  have hcount := Machine.count_add_le (p := sortsDelivered w) (fun s => (s.words w).fixedCount)
    (fun _ _ _ hr hs => Machine.Reachable.step hr hs) (fun s a s' hr hs => by
      cases hp : sortsDelivered w s a with
      | false => exact (Nat.zero_add _).le.trans (extends_step hs w).fixedCount_le
      | true =>
        cases a with
        | sortingProc i => exact (Nat.add_comm _ _).le.trans (hone hr i s' hp hs)
        | _ => cases hp) h Machine.Reachable.init
  have hr := Machine.runs_reachable h
  have hlen := (spelled_reachable hr w).wordLen_eq
  have hle := fixedCount_le (s.words w)
  refine ⟨hone hr, by omega, fun heq => ?_⟩
  exact (spelled_reachable hr w).finished hw (fixed_of_wordLen_le (by omega))

theorem sorting_progresses_oneLetter :
    ∃ s, (system oneLetter).runs (system oneLetter).init oneLetterRun = some s ∧
      (system oneLetter).count (sortsDelivered (0 : Fin 1)) (system oneLetter).init oneLetterRun ≤
        1 ∧
      ((system oneLetter).count (sortsDelivered (0 : Fin 1)) (system oneLetter).init oneLetterRun =
        1 → (s.words (0 : Fin 1)).completed = true) := by
  have hrun : ((system oneLetter).runs (system oneLetter).init oneLetterRun).isSome = true := by
    decide +kernel
  obtain ⟨s, hs⟩ := Option.isSome_iff_exists.mp hrun
  exact ⟨s, hs, (sorting_progresses hs (0 : Fin 1) (List.cons_ne_nil _ _)).2⟩

end Cse344.HW3
