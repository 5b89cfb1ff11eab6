import Cse344.HW4.Pipeline
import Cse344.Lib.Totals

/-!
# End of file in the pipeline

The EOF entries of `parser_thread_func` (`HW4/src/utils/reader_thread_fun.c` 64-112) and the EOF
markers of `send_eof_to_region_b` (`HW4/src/processes/dispatcher.c` 19-31), in every run of the
pipeline and whatever the waits do.

* `Books.counted`: `eof_count_per_level` counts the parser threads that have pushed their EOF entry
  of the level.
* `Books.closed`: so a level the dispatcher closes gets no more entries.
* `Books.left`: the dispatcher leaves its loop only with all four levels closed.

Results:
* **`books_step`**: every step keeps the books. Each kind of step has its lemma: `Books.of_parser`,
  `Books.of_go`, `marked_pushB`, `Books.of_sendEof`.

Out of scope: the entries that are still in Region A then, which `Cse344.HW4.NoLoss` is about.
-/

namespace Cse344.HW4

open Cse344.Lib

variable {R W : ℕ} {u : Setup R W} {s s' : Pipeline R W} {act : Act R W}

/-- The parser thread has pushed its EOF entry of level `lv`. -/
def ParserPc.hasClosed : ParserPc → Level → Bool
  | .pushing _, _ => false
  | .closing rest, lv => decide (lv ∉ rest)
  | .exited, _ => true

/-- The dispatcher has left its loop. -/
def DispatcherPc.left : DispatcherPc → Bool
  | .forcing _ => true
  | .forcedEof _ _ => true
  | .finishing => true
  | .returned => true
  | _ => false

/-- The entry the dispatcher holds. -/
def DispatcherPc.hand : DispatcherPc → List LogEntry
  | .popped entry => [entry]
  | .pushingD entry _ => [entry]
  | .pushingB entry _ => [entry]
  | _ => []

/-- The number of parser threads that have pushed their EOF entry of level `lv`. -/
def Pipeline.closedCount (s : Pipeline R W) (lv : Level) : ℕ :=
  ∑ r, if (s.parsers r).hasClosed lv then 1 else 0

/-- When as many threads as there are have closed `lv`, all have. -/
theorem hasClosed_of_count {lv : Level} (h : R ≤ s.closedCount lv) (r : Fin R) :
    (s.parsers r).hasClosed lv = true := by
  have hcard : Fintype.card (Fin R) ≤ s.closedCount lv := (Fintype.card_fin R).le.trans h
  exact all_of_card_le_sum hcard r

structure ParserBooks (s : Pipeline R W) : Prop where
  counted : ∀ lv, s.a.eofCountPerLevel lv = s.closedCount lv
  nodup : ∀ r rest, s.parsers r = .closing rest → rest.Nodup

structure Books (s : Pipeline R W) : Prop extends ParserBooks s where
  finished : s.finishedLevels = ∑ lv, if s.eofForwarded lv then 1 else 0
  closed : ∀ lv, s.eofForwarded lv = true → ∀ r, (s.parsers r).hasClosed lv = true
  sending : ∀ lv, s.dispatcher = .sendingEof lv →
    s.eofForwarded lv = false ∧ ∀ r, (s.parsers r).hasClosed lv = true
  left : s.dispatcher.left = true → ∀ lv, s.eofForwarded lv = true
  unforced : ∀ lv rest, s.dispatcher ≠ .forcedEof lv rest
  posted : ∀ lv, (s.b lv).eofPosted = s.eofForwarded lv
  marked : ∀ lv, s.eofForwarded lv = true ↔ ∃ e ∈ s.pushedB lv, e.isEof = true
  holds : ∀ entry waited, s.dispatcher = .pushingD entry waited ∨
    s.dispatcher = .pushingB entry waited → entry.isEof = false

/-- A parser thread goes on: what it has closed stays closed. -/
theorem closedCount_setParser (s : Pipeline R W) (r : Fin R) (pc : ParserPc) (lv : Level) :
    (s.setParser r pc).closedCount lv + (if (s.parsers r).hasClosed lv then 1 else 0) =
      s.closedCount lv + if pc.hasClosed lv then 1 else 0 :=
  sum_update_add (fun pc : ParserPc => if pc.hasClosed lv then 1 else 0) s.parsers r pc

theorem closedCount_setParser_eq {r : Fin R} {pc : ParserPc} (lv : Level)
    (h : pc.hasClosed lv = (s.parsers r).hasClosed lv) :
    (s.setParser r pc).closedCount lv = s.closedCount lv := by
  have := closedCount_setParser s r pc lv
  rw [h] at this
  exact Nat.add_right_cancel this

theorem nodup_setParser {r : Fin R} {pc : ParserPc}
    (h : ∀ r rest, s.parsers r = .closing rest → rest.Nodup)
    (hpc : ∀ rest, pc = .closing rest → rest.Nodup) (r' : Fin R) (rest : List Level)
    (h' : (s.setParser r pc).parsers r' = .closing rest) : rest.Nodup := by
  exact (Function.forall_update_iff s.parsers fun _ pc => ∀ rest, pc = .closing rest →
    rest.Nodup).mpr ⟨hpc, fun r' _ => h r'⟩ r' rest h'

theorem hasClosed_setParser {r : Fin R} {pc : ParserPc} {lv : Level}
    (h : ∀ r, (s.parsers r).hasClosed lv = true)
    (hpc : (s.parsers r).hasClosed lv = true → pc.hasClosed lv = true) (r' : Fin R) :
    ((s.setParser r pc).parsers r').hasClosed lv = true := by
  exact (Function.forall_update_iff s.parsers fun _ pc => pc.hasClosed lv = true).mpr
    ⟨hpc (h r), fun r' _ => h r'⟩ r'

/-- A step of a parser thread, seen from the dispatcher. -/
theorem Books.of_parser (h : Books s) {r : Fin R} {pc : ParserPc} {a : RegionA}
    {pushedA : List LogEntry}
    (hp : ParserBooks { s.setParser r pc with a := a, pushedA := pushedA })
    (hpc : ∀ lv, (s.parsers r).hasClosed lv = true → pc.hasClosed lv = true) :
    Books { s.setParser r pc with a := a, pushedA := pushedA } where
  toParserBooks := hp
  finished := h.finished
  closed := fun lv hf => hasClosed_setParser (h.closed lv hf) (hpc lv)
  sending := fun lv hpcd =>
    ⟨(h.sending lv hpcd).1, hasClosed_setParser (h.sending lv hpcd).2 (hpc lv)⟩
  left := h.left
  unforced := h.unforced
  posted := h.posted
  marked := h.marked
  holds := h.holds

/-- The dispatcher goes on, touching nothing that is shared. -/
theorem Books.of_go (h : Books s) {pc : DispatcherPc} (hg : Goes u s act pc) :
    Books { s with dispatcher := pc } where
  toParserBooks := ⟨h.counted, h.nodup⟩
  finished := h.finished
  closed := h.closed
  sending := fun lv hpc => by
    cases hg with
    | close entry _ _ hf hc =>
      obtain rfl := DispatcherPc.sendingEof.inj hpc
      rw [h.counted] at hc
      exact ⟨hf, hasClosed_of_count hc⟩
    | _ => cases hpc
  left := fun hl lv => by
    cases hg with
    | leave _ h4 =>
      -- four levels are closed, and there are four
      have hcard : Fintype.card Level ≤ ∑ lv, if s.eofForwarded lv then 1 else 0 := by
        rw [← h.finished]
        exact h4
      exact all_of_card_le_sum hcard lv
    | expire _ hall => exact hall lv
    | closed _ _ hpc => exact h.left (by rw [hpc]; rfl) lv
    | force _ _ hpc => exact h.left (by rw [hpc]; rfl) lv
    | forced hpc => exact h.left (by rw [hpc]; rfl) lv
    | _ => cases hl
  unforced := fun lv rest hpc => by
    cases hg with
    | force lv' _ hpc' hf =>
      rw [h.left (by rw [hpc']; rfl) lv'] at hf
      cases hf
    | _ => cases hpc
  posted := h.posted
  marked := h.marked
  holds := fun entry waited hpc => by
    cases hg with
    | routeD _ _ he => rcases hpc with ⟨⟨⟩⟩ | ⟨⟨⟩⟩; exact he
    | routeB _ _ he => rcases hpc with ⟨⟨⟩⟩ | ⟨⟨⟩⟩; exact he
    | waitD _ hpc' => rcases hpc with ⟨⟨⟩⟩ | ⟨⟨⟩⟩; exact h.holds _ _ (.inl hpc')
    | dropD _ hpc' => rcases hpc with ⟨⟨⟩⟩ | ⟨⟨⟩⟩; exact h.holds _ _ (.inl hpc')
    | waitB _ hpc' => rcases hpc with ⟨⟨⟩⟩ | ⟨⟨⟩⟩; exact h.holds _ _ (.inr hpc')
    | _ => simp at hpc

/-- The dispatcher is back in its loop, with nothing to send. -/
theorem Books.inLoop (h : Books s) {pc : DispatcherPc}
    (hpc : pc = .looping ∨ ∃ entry, pc = .popped entry) : Books { s with dispatcher := pc } := by
  rcases hpc with rfl | ⟨entry, rfl⟩
  · exact { h with
      sending := by simp
      left := by simp [DispatcherPc.left]
      unforced := by simp
      holds := by simp }
  · exact { h with
      sending := by simp
      left := by simp [DispatcherPc.left]
      unforced := by simp
      holds := by simp }

/-- The dispatcher pushes to Region B of level `lv`: an EOF marker exactly when it closes the
level. -/
theorem marked_pushB (h : Books s) {lv : Level} {entry : LogEntry} (f : Level → Bool)
    (hf : ∀ lv', lv' ≠ lv → f lv' = s.eofForwarded lv')
    (hlv : f lv = (s.eofForwarded lv || entry.isEof)) (lv' : Level) :
    f lv' = true ↔
      ∃ e ∈ Function.update s.pushedB lv (s.pushedB lv ++ [entry]) lv', e.isEof = true := by
  by_cases hne : lv' = lv
  · subst hne
    rw [Function.update_self, hlv, Bool.or_eq_true, h.marked]
    simp only [List.mem_append, List.mem_singleton, or_and_right, exists_or, exists_eq_left]
  · rw [Function.update_of_ne hne, hf lv' hne]
    exact h.marked lv'

/-- Region B of one level changes, but not its `eof_posted`. -/
theorem posted_of_update (h : Books s) {lv : Level} {b : RegionB}
    (hp : b.eofPosted = (s.b lv).eofPosted) (lv' : Level) :
    (Function.update s.b lv b lv').eofPosted = s.eofForwarded lv' := by
  exact (Function.forall_update_iff s.b fun lv' b => b.eofPosted = s.eofForwarded lv').mpr
    ⟨hp.trans (h.posted lv), fun lv' _ => h.posted lv'⟩ lv'

/-- A parser thread has pushed its EOF entry of level `lv`, and is counted there. -/
theorem ParserBooks.counted_close (h : ParserBooks s) {r : Fin R} {lv : Level} {rest : List Level}
    (hpc : s.parsers r = .closing (lv :: rest)) (lv' : Level) :
    Function.update s.a.eofCountPerLevel lv (s.a.eofCountPerLevel lv + 1) lv' =
      (s.setParser r (.closing rest)).closedCount lv' := by
  have hnew : lv ∉ rest := (List.nodup_cons.mp (h.nodup r _ hpc)).1
  by_cases hne : lv' = lv
  · subst hne
    have hcount := closedCount_setParser s r (.closing rest) lv'
    rw [Function.update_self, h.counted]
    simp only [hpc, ParserPc.hasClosed, List.mem_cons, true_or, not_true, decide_false, hnew,
      not_false_iff, decide_true, if_true, Bool.false_eq_true, if_false] at hcount
    omega
  · rw [Function.update_of_ne hne, h.counted]
    exact (closedCount_setParser_eq lv' (by rw [hpc]; simp [ParserPc.hasClosed, hne])).symm

/-- The dispatcher sends the EOF of level `lv`: the level is closed from now on. -/
theorem Books.of_sendEof (h : Books s) {lv : Level} {b : RegionB}
    (hpc : s.dispatcher = .sendingEof lv) (hp : b.eofPosted = true) :
    Books
      { s.pushB lv b (eofEntry .error) with
        eofForwarded := Function.update s.eofForwarded lv true
        finishedLevels := s.finishedLevels + 1
        dispatcher := .looping } := by
  obtain ⟨hf, hcl⟩ := h.sending lv hpc
  exact { h.inLoop (.inl rfl) with
    finished := by
      have hsum := sum_update_add (fun x : Bool => if x then 1 else 0) s.eofForwarded lv true
      simp only [hf, Bool.false_eq_true, if_false, if_true] at hsum
      show s.finishedLevels + 1 = _
      rw [h.finished]
      exact hsum.symm
    closed := fun lv' hf' => by
      by_cases hne : lv' = lv
      · rw [hne]
        exact hcl
      · exact h.closed lv' ((Function.update_of_ne hne ..).symm.trans hf')
    sending := by simp
    left := by simp [DispatcherPc.left]
    posted := fun lv' => by
      show (Function.update s.b lv b lv').eofPosted = Function.update s.eofForwarded lv true lv'
      by_cases hne : lv' = lv
      · rw [hne, Function.update_self, Function.update_self, hp]
      · rw [Function.update_of_ne hne, Function.update_of_ne hne, h.posted]
    marked := marked_pushB h (Function.update s.eofForwarded lv true)
      (fun _ hne => Function.update_of_ne hne ..)
      (by rw [Function.update_self, eofEntry, Bool.or_true]) }

/-- **A step keeps the books.** -/
theorem books_step (h : Books s) (hm : Move u s act s') : Books s' := by
  cases hm with
  | push r entry rest a hpc ha hc =>
    refine h.of_parser ⟨fun lv => ?_, nodup_setParser h.nodup (by simp)⟩ fun lv hcl => ?_
    · rw [hc, h.counted]
      exact (closedCount_setParser_eq lv (by rw [hpc]; rfl)).symm
    · rw [hpc] at hcl
      cases hcl
  | pushed r hpc =>
    refine h.of_parser ⟨fun lv => ?_, nodup_setParser h.nodup ?_⟩ fun lv hcl => ?_
    · rw [h.counted]
      exact (closedCount_setParser_eq lv
        (by rw [hpc]; simp [ParserPc.hasClosed, Level.mem_all])).symm
    · rintro rest ⟨⟩
      exact Level.nodup_all
    · rw [hpc] at hcl
      cases hcl
  | close r lv rest a hpc ha hc =>
    refine h.of_parser ⟨fun lv' => ?_, nodup_setParser h.nodup ?_⟩ fun lv' hcl => ?_
    · exact (congrFun hc lv').trans (h.counted_close hpc lv')
    · rintro _ ⟨⟩
      exact (List.nodup_cons.mp (h.nodup r _ hpc)).2
    · rw [hpc] at hcl
      simp only [ParserPc.hasClosed, List.mem_cons, not_or, decide_eq_true_eq] at hcl ⊢
      exact hcl.2
  | parsed r hpc =>
    refine h.of_parser ⟨fun lv => ?_, nodup_setParser h.nodup (by simp)⟩ fun lv hcl => rfl
    rw [h.counted]
    exact (closedCount_setParser_eq lv (by rw [hpc]; rfl)).symm
  | go act pc hg => exact h.of_go hg
  | recheck => exact h
  | popA entry a hpc ha hc =>
    exact { h.inLoop (.inr ⟨entry, rfl⟩) with
      counted := fun lv => by
        show a.eofCountPerLevel lv = _
        rw [hc]
        exact h.counted lv }
  | sendEof lv b hpc hb hp => exact h.of_sendEof hpc hp
  | pushD entry waited d hpc =>
    exact { h with
      sending := by simp
      left := by simp [DispatcherPc.left]
      unforced := by simp
      holds := fun entry' waited' hpc' => by
        rcases hpc' with ⟨⟨⟩⟩ | ⟨⟨⟩⟩
        exact h.holds _ _ (.inl hpc) }
  | pushB entry waited b hpc hb hp =>
    exact { h.inLoop (.inl rfl) with
      posted := posted_of_update h hp
      marked := marked_pushB h s.eofForwarded (fun _ _ => rfl)
        (by rw [h.holds entry waited (.inr hpc), Bool.or_false]) }
  | giveUp entry hpc => exact h.inLoop (.inl rfl)
  | forcedEof lv rest b hpc => exact absurd hpc (h.unforced lv rest)
  | finish hpc =>
    exact { h with
      sending := by simp
      left := fun _ => h.left (by rw [hpc]; rfl)
      unforced := by simp
      holds := by simp }
  | popB lv w entry b hpc hb hp => exact { h with posted := posted_of_update h hp }
  | drained => exact { h with }
  | passed => exact { h with }
  | popD => exact { h with }
  | aggregate => exact { h with }

theorem books_init : Books (initial u) where
  counted := fun lv => by simp [initial, Pipeline.closedCount, ParserPc.hasClosed]
  nodup := by simp [initial]
  finished := by simp [initial]
  closed := by simp [initial]
  sending := by simp [initial]
  left := by simp [initial, DispatcherPc.left]
  unforced := by simp [initial]
  posted := fun _ => rfl
  marked := by simp [initial]
  holds := by simp [initial]

end Cse344.HW4
