import Cse344.HW4.Eofs

/-!
# No entry is lost in the pipeline, when no level is closed early

The dispatcher (`run_dispatcher`, `HW4/src/processes/dispatcher.c` 71-161) closes a level when it
pops an EOF entry of the level and `eof_count_per_level` has reached `total_readers` (112-121). The
counter runs ahead of Region A: entries of the level may still lie behind the EOF entry it has
popped.

* `Effect` is what a step does to one level: nothing, a push to Region A, a delivery to Region B, or
  the level's EOF marker. `Flow` is what has come of the entries of a level at any time.
* `Clean` says of a step that Region A holds no data of a level that it closes. Then a closed level
  has nothing pending (`Settled`).
* Otherwise entries that are pending when their level is closed stay in Region A or reach Region B
  after the EOF marker (`Dirty`).

Results:
* `effect_of_move`: what a step does to a level.
* `noEntryLost_of_settled`, `not_noEntryLost_of_dirty`: the two ways a run may go.
* **`no_entry_lost_iff`**: a completed run in which no `push_to_region_b` gave up loses no entry
  exactly when Region A held no data of a level each time the dispatcher closed it.

Out of scope: runs in which such a push gives up, which `Cse344.HW4.Safety` is about.
-/

namespace Cse344.HW4

open Cse344.Lib

variable {R W : ℕ} {u : Setup R W} {s s' : Pipeline R W} {act : Act R W}

/-- No `push_to_region_b` gives up. -/
def NoGiveUp (_ : Pipeline R W) (act : Act R W) : Prop := act ≠ .bTimeout

instance (s : Pipeline R W) (act : Act R W) : Decidable (NoGiveUp s act) :=
  inferInstanceAs (Decidable (act ≠ .bTimeout))

/-- The level the dispatcher closes with its next step. -/
def Pipeline.closes (s : Pipeline R W) : Option Level :=
  match s.dispatcher with
  | .popped entry =>
    if entry.isEof && !s.eofForwarded entry.level
        && decide (R ≤ s.a.eofCountPerLevel entry.level) then some entry.level
    else none
  | _ => none

/-- When the dispatcher closes a level, Region A holds no data of it. -/
def Clean (s : Pipeline R W) (act : Act R W) : Prop :=
  act = .dispatcher → ∀ lv, s.closes = some lv → dataOf lv s.a.toList = []

instance (s : Pipeline R W) (act : Act R W) : Decidable (Clean s act) :=
  inferInstanceAs (Decidable (act = .dispatcher → _))

/-- The dispatcher has left its loop, and the workers of all levels have exited. -/
structure Complete (s : Pipeline R W) : Prop where
  left : s.dispatcher.left = true
  exited : ∀ lv w, s.workers lv w = .exited

/-- No data follows an EOF marker. -/
def MarkedLast (l : List LogEntry) : Prop :=
  l.Pairwise fun x y => x.isEof = true → y.isEof = true

/-- Every data entry pushed to Region A was popped, by one worker of its level; no data entry was
pushed to a Region B after its EOF marker; Region A holds no data entry. -/
structure NoEntryLost (s : Pipeline R W) : Prop where
  popped : ∀ lv, (((s.poppedB lv).map Prod.snd).filter fun e => !e.isEof).Perm (dataOf lv s.pushedA)
  markedLast : ∀ lv, MarkedLast (s.pushedB lv)
  emptied : ∀ e ∈ s.a.toList, e.isEof = true

/-! ## What a step does to a level -/

/-- The data entries of level `lv` between the parser threads and Region B, oldest first. -/
def Pipeline.pending (s : Pipeline R W) (lv : Level) : List LogEntry :=
  dataOf lv s.dispatcher.hand ++ dataOf lv s.a.toList

/-- The dispatcher has closed `lv`, or is about to send its EOF marker. -/
def Pipeline.Closing (s : Pipeline R W) (lv : Level) : Prop :=
  s.eofForwarded lv = true ∨ s.dispatcher = .sendingEof lv

inductive Effect (s s' : Pipeline R W) (lv : Level) : Prop
  | keep (hp : s'.pending lv = s.pending lv) (ha : dataOf lv s'.pushedA = dataOf lv s.pushedA)
      (hb : s'.pushedB lv = s.pushedB lv)
  | arrive (new : List LogEntry) (hp : s'.pending lv = s.pending lv ++ new)
      (ha : dataOf lv s'.pushedA = dataOf lv s.pushedA ++ new) (hb : s'.pushedB lv = s.pushedB lv)
      (r : Fin R) (hr : (s.parsers r).hasClosed lv = false)
  | deliver (entry : LogEntry) (he : entry.isDataOf lv = true)
      (hp : s.pending lv = entry :: s'.pending lv)
      (ha : dataOf lv s'.pushedA = dataOf lv s.pushedA)
      (hb : s'.pushedB lv = s.pushedB lv ++ [entry]) (waited : Bool)
      (hpc : s.dispatcher = .pushingB entry waited)
  | mark (hp : s'.pending lv = s.pending lv) (ha : dataOf lv s'.pushedA = dataOf lv s.pushedA)
      (hb : s'.pushedB lv = s.pushedB lv ++ [eofEntry .error])
      (hpc : s.dispatcher = .sendingEof lv)

/-- Going on, the dispatcher keeps the data it holds. -/
theorem Goes.hand {pc : DispatcherPc} (hg : Goes u s act pc) (lv : Level) :
    dataOf lv pc.hand = dataOf lv s.dispatcher.hand := by
  cases hg with
  | close entry h he => rw [h]; exact (dataOf_eof lv he).symm
  | skip entry h he => rw [h]; exact (dataOf_eof lv he).symm
  | loop h => rw [h]; rfl
  | leave h => rw [h]; rfl
  | expire h => rw [h]; rfl
  | routeD _ h => rw [h]; rfl
  | routeB _ h => rw [h]; rfl
  | waitD _ h => rw [h]; rfl
  | dropD _ h => rw [h]; rfl
  | waitB _ h => rw [h]; rfl
  | closed _ _ h => rw [h]; rfl
  | force _ _ h => rw [h]; rfl
  | forced h => rw [h]; rfl

/-- A step of the dispatcher that keeps Region A and the data in its hand. -/
theorem Effect.of_hand {lv : Level}
    (hh : dataOf lv s'.dispatcher.hand = dataOf lv s.dispatcher.hand) (hl : s'.a = s.a)
    (ha : s'.pushedA = s.pushedA) (hb : s'.pushedB lv = s.pushedB lv) :
    Effect s s' lv :=
  .keep (by rw [Pipeline.pending, Pipeline.pending, hh, hl]) (by rw [ha]) hb

/-- **What a step does to a level.** -/
theorem effect_of_move (h : Books s) (hok : act ≠ .bTimeout) (hm : Move u s act s') (lv : Level) :
    Effect s s' lv := by
  cases hm with
  | push r entry rest a hpc ha hc =>
    refine .arrive (dataOf lv [entry]) ?_ (dataOf_append ..) rfl r (by rw [hpc]; rfl)
    show dataOf lv s.dispatcher.hand ++ dataOf lv a.toList = _
    rw [ha, dataOf_append, ← List.append_assoc, Pipeline.pending]
  | pushed => exact .keep rfl rfl rfl
  | close r lv' rest a hpc ha hc =>
    refine .keep ?_ ?_ rfl
    · show dataOf lv s.dispatcher.hand ++ dataOf lv a.toList = _
      rw [ha, dataOf_append, dataOf_eofEntry, List.append_nil, Pipeline.pending]
    · rw [dataOf_append, dataOf_eofEntry, List.append_nil]
  | parsed => exact .keep rfl rfl rfl
  | go act pc hg => exact .of_hand (hg.hand lv) rfl rfl rfl
  | recheck => exact .keep rfl rfl rfl
  | popA entry a hpc ha hc =>
    refine .keep ?_ rfl rfl
    rw [Pipeline.pending, Pipeline.pending, hpc, ha, dataOf_cons lv entry]
    rfl
  | sendEof lv' b hpc hb hp =>
    by_cases hne : lv = lv'
    · subst hne
      refine .mark ?_ rfl (Function.update_self ..) hpc
      rw [Pipeline.pending, Pipeline.pending, hpc]
      rfl
    · exact .of_hand (by rw [hpc]; rfl) rfl rfl (Function.update_of_ne hne ..)
  | pushD entry waited d hpc => exact .of_hand (by rw [hpc]; rfl) rfl rfl rfl
  | pushB entry waited b hpc hb hp =>
    have he : entry.isEof = false := h.holds entry waited (.inr hpc)
    by_cases hne : lv = entry.level
    · subst hne
      refine .deliver entry (isDataOf_iff.mpr ⟨he, rfl⟩) ?_ rfl (Function.update_self ..) waited hpc
      rw [Pipeline.pending, Pipeline.pending, hpc]
      show dataOf _ [entry] ++ _ = _
      rw [dataOf_self he]
      rfl
    · refine .of_hand ?_ rfl rfl (Function.update_of_ne hne ..)
      rw [hpc]
      exact (dataOf_other hne).symm
  | giveUp => exact absurd rfl hok
  | forcedEof lv' rest b hpc => exact absurd hpc (h.unforced lv' rest)
  | finish hpc => exact .of_hand (by rw [hpc]; rfl) rfl rfl rfl
  | popB => exact .keep rfl rfl rfl
  | drained => exact .keep rfl rfl rfl
  | passed => exact .keep rfl rfl rfl
  | popD => exact .keep rfl rfl rfl
  | aggregate => exact .keep rfl rfl rfl

/-- A closed level gets no more entries. -/
theorem Books.hasClosed (h : Books s) {lv : Level} (hc : s.Closing lv) (r : Fin R) :
    (s.parsers r).hasClosed lv = true :=
  hc.elim (fun hf => h.closed lv hf r) fun hpc => (h.sending lv hpc).2 r

/-! ## Where the entries are -/

structure Flow (s : Pipeline R W) : Prop where
  routed : ∀ lv, dataOf lv s.pushedA = dataOf lv (s.pushedB lv) ++ s.pending lv
  own : ∀ lv, ∀ e ∈ s.pushedB lv, e.isEof = false → e.level = lv
  popped : ∀ lv, s.pushedB lv = (s.poppedB lv).map Prod.snd ++ (s.b lv).toList

/-- What was pushed to Region B of each level was popped or is there. -/
theorem popped_step (h : Books s)
    (hpop : ∀ lv, s.pushedB lv = (s.poppedB lv).map Prod.snd ++ (s.b lv).toList)
    (hm : Move u s act s') (lv : Level) :
    s'.pushedB lv = (s'.poppedB lv).map Prod.snd ++ (s'.b lv).toList := by
  cases hm with
  | sendEof lv' b _ hb =>
    by_cases hne : lv = lv'
    · subst hne
      simp only [pushB_b, pushB_pushedB, Function.update_self, hb, hpop lv, List.append_assoc]
      rfl
    · simp only [pushB_b, pushB_pushedB, Function.update_of_ne hne]
      exact hpop lv
  | pushB entry waited b _ hb =>
    by_cases hne : lv = entry.level
    · subst hne
      simp only [pushB_b, pushB_pushedB, Function.update_self, hb, hpop entry.level,
        List.append_assoc]
      rfl
    · simp only [pushB_b, pushB_pushedB, Function.update_of_ne hne]
      exact hpop lv
  | popB lv' w entry b _ hb =>
    by_cases hne : lv = lv'
    · subst hne
      simp only [Function.update_self, List.map_append, List.map_cons, List.map_nil,
        List.append_assoc, List.singleton_append]
      rw [← hb]
      exact hpop lv
    · simp only [Function.update_of_ne hne]
      exact hpop lv
  | forcedEof lv' rest _ hpc => exact absurd hpc (h.unforced lv' rest)
  | _ => exact hpop lv

theorem flow_step (hbooks : Books s) (hok : act ≠ .bTimeout) (hm : Move u s act s') (h : Flow s) :
    Flow s' where
  routed := fun lv => by
    cases effect_of_move hbooks hok hm lv with
    | keep hp ha hb => rw [hp, ha, hb, h.routed]
    | arrive new hp ha hb => rw [hp, ha, hb, h.routed, List.append_assoc]
    | deliver entry he hp ha hb =>
      rw [ha, hb, h.routed, hp, dataOf_append, dataOf_of_isDataOf he, List.append_assoc]
      rfl
    | mark hp ha hb => rw [hp, ha, hb, h.routed, dataOf_append, dataOf_eofEntry, List.append_nil]
  own := fun lv e hmem hd => by
    cases effect_of_move hbooks hok hm lv with
    | keep _ _ hb => exact h.own lv e (hb ▸ hmem) hd
    | arrive _ _ _ hb => exact h.own lv e (hb ▸ hmem) hd
    | deliver entry he _ _ hb =>
      rw [hb, List.mem_append, List.mem_singleton] at hmem
      rcases hmem with hmem | rfl
      · exact h.own lv e hmem hd
      · exact (isDataOf_iff.mp he).2
    | mark _ _ hb =>
      rw [hb, List.mem_append, List.mem_singleton] at hmem
      rcases hmem with hmem | rfl
      · exact h.own lv e hmem hd
      · cases hd
  popped := popped_step hbooks h.popped hm

theorem flow_init : Flow (initial u) where
  routed := fun _ => rfl
  own := by simp [initial]
  popped := fun _ => rfl

/-! ## Closed cleanly -/

/-- The levels are closed, or closing, with nothing pending. -/
structure Settled (s : Pipeline R W) : Prop where
  drained : ∀ lv, s.Closing lv → s.pending lv = []
  marked : ∀ lv, s.eofForwarded lv = true →
    ∃ l, s.pushedB lv = l ++ [eofEntry .error] ∧ ∀ e ∈ l, e.isEof = false
  left : ∀ lv w, s.workers lv w ≠ .popping → s.eofForwarded lv = true ∧ (s.b lv).toList = []

/-- A level is closed by the step `closes` tells of, or was closing before. -/
theorem closing_of_move {lv : Level} (hm : Move u s act s') (h : s'.Closing lv) :
    s.Closing lv ∨ act = .dispatcher ∧ s.closes = some lv := by
  cases hm with
  | go act pc hg =>
    rcases h with hf | hpc
    · exact .inl (.inl hf)
    · cases hg with
      | close entry hpc' he hf hc =>
        obtain rfl := DispatcherPc.sendingEof.inj hpc
        exact .inr ⟨rfl, by simp [Pipeline.closes, hpc', he, hf, hc]⟩
      | _ => cases hpc
  | sendEof lv' b hpc =>
    refine .inl ?_
    rcases h with hf | hpc'
    · by_cases hne : lv = lv'
      · exact .inr (hne ▸ hpc)
      · exact .inl ((Function.update_of_ne hne ..).symm.trans hf)
    · cases hpc'
  | recheck => exact .inl h
  | push => exact .inl h
  | pushed => exact .inl h
  | close => exact .inl h
  | parsed => exact .inl h
  | popB => exact .inl h
  | drained => exact .inl h
  | passed => exact .inl h
  | popD => exact .inl h
  | aggregate => exact .inl h
  | _ => exact .inl (h.elim .inl fun hpc => by cases hpc)

theorem closes_spec {lv : Level} (h : s.closes = some lv) :
    ∃ entry, s.dispatcher = .popped entry ∧ entry.isEof = true ∧ R ≤ s.a.eofCountPerLevel lv := by
  unfold Pipeline.closes at h
  split at h
  · rename_i entry hpc
    split at h
    · rename_i hc
      obtain rfl := Option.some.inj h
      simp only [Bool.and_eq_true, decide_eq_true_eq] at hc
      exact ⟨entry, hpc, hc.1.1, hc.2⟩
    · cases h
  · cases h

/-- Nothing is pending of a level when a step has it closing. -/
theorem drained_step (hbooks : Books s) (hok : act ≠ .bTimeout) (hclean : Clean s act)
    (hm : Move u s act s') (h : ∀ lv, s.Closing lv → s.pending lv = []) (lv : Level)
    (hc : s'.Closing lv) : s'.pending lv = [] := by
  obtain ⟨hpend, hcl⟩ : s.pending lv = [] ∧ ∀ r, (s.parsers r).hasClosed lv = true := by
    rcases closing_of_move hm hc with hc | ⟨hact, hcloses⟩
    · exact ⟨h lv hc, hbooks.hasClosed hc⟩
    · obtain ⟨entry, hpc, he, hcount⟩ := closes_spec hcloses
      rw [hbooks.counted] at hcount
      refine ⟨?_, hasClosed_of_count hcount⟩
      rw [Pipeline.pending, hclean hact lv hcloses, hpc]
      exact congrArg (· ++ []) (dataOf_eof lv he)
  cases effect_of_move hbooks hok hm lv with
  | keep hp => rw [hp, hpend]
  | arrive new hp ha hb r hr =>
    rw [hcl r] at hr
    cases hr
  | deliver entry he hp =>
    rw [hpend] at hp
    cases hp
  | mark hp => rw [hp, hpend]

/-- The EOF marker of a closed level is the last entry of its Region B. -/
theorem marked_step (hbooks : Books s) (hbooks' : Books s') (hok : act ≠ .bTimeout)
    (hm : Move u s act s') (h : Settled s) (lv : Level) (hf : s'.eofForwarded lv = true) :
    ∃ l, s'.pushedB lv = l ++ [eofEntry .error] ∧ ∀ e ∈ l, e.isEof = false := by
  have hmarked := (hbooks'.marked lv).mp hf
  cases effect_of_move hbooks hok hm lv with
  | keep _ _ hb =>
    rw [hb] at hmarked ⊢
    exact h.marked lv ((hbooks.marked lv).mpr hmarked)
  | arrive _ _ _ hb =>
    rw [hb] at hmarked ⊢
    exact h.marked lv ((hbooks.marked lv).mpr hmarked)
  | deliver entry he hp _ hb =>
    -- the level was closed with this entry pending
    rw [hb] at hmarked
    obtain ⟨e, hmem, hee⟩ := hmarked
    rcases List.mem_append.mp hmem with hmem | hmem
    · have hf' := (hbooks.marked lv).mpr ⟨e, hmem, hee⟩
      rw [h.drained lv (.inl hf')] at hp
      cases hp
    · rw [List.mem_singleton.mp hmem, (isDataOf_iff.mp he).1] at hee
      cases hee
  | mark _ _ hb hpc =>
    refine ⟨s.pushedB lv, hb, fun e hmem => Bool.eq_false_iff.mpr fun hee => ?_⟩
    have hf' := (hbooks.marked lv).mpr ⟨e, hmem, hee⟩
    rw [(hbooks.sending lv hpc).1] at hf'
    cases hf'

/-- Nothing comes after an EOF marker that is last. -/
theorem nil_after_eof {p q l : List LogEntry} {x e : LogEntry} (h : p ++ e :: q = l ++ [x])
    (he : e.isEof = true) (hl : ∀ e ∈ l, e.isEof = false) : q = [] := by
  rcases q.eq_nil_or_concat with rfl | ⟨q, y, rfl⟩
  · rfl
  · rw [List.concat_eq_append, ← List.cons_append, ← List.append_assoc] at h
    have hmem : e ∈ l := (List.append_inj' h rfl).1 ▸ List.mem_append_right p List.mem_cons_self
    rw [hl e hmem] at he
    cases he

/-- A worker leaves its loop with its Region B closed and empty. -/
theorem left_step (hbooks : Books s) (hflow : Flow s) (hm : Move u s act s') (h : Settled s)
    (lv : Level) (w : Fin W) (hw : s'.workers lv w ≠ .popping) :
    s'.eofForwarded lv = true ∧ (s'.b lv).toList = [] := by
  cases hm with
  | sendEof lv' b hpc =>
    obtain ⟨hf, hb⟩ := h.left lv w hw
    have hne : lv ≠ lv' := by
      rintro rfl
      rw [(hbooks.sending lv hpc).1] at hf
      cases hf
    simp only [pushB_b, Function.update_of_ne hne]
    exact ⟨hf, hb⟩
  | pushB entry waited b hpc =>
    obtain ⟨hf, hb⟩ := h.left lv w hw
    have hne : lv ≠ entry.level := by
      rintro rfl
      have hp := h.drained _ (.inl hf)
      have he : entry.isEof = false := hbooks.holds entry waited (.inr hpc)
      rw [Pipeline.pending, hpc, DispatcherPc.hand, dataOf_self he] at hp
      cases hp
    simp only [pushB_b, Function.update_of_ne hne]
    exact ⟨hf, hb⟩
  | popB lv' w' entry b hpc hb =>
    by_cases hne : lv = lv'
    · subst hne
      have hpop : ∀ v, s.workers lv v = .popping := fun v => by
        by_contra hv
        rw [(h.left lv v hv).2] at hb
        cases hb
      -- so `w` is the worker that popped, and it popped the marker
      have he : entry.isEof = true := by
        by_contra he
        refine hw ?_
        simp only [setWorker_workers, Function.update_self, if_neg he]
        by_cases hv : w = w'
        · rw [hv, Function.update_self]
        · rw [Function.update_of_ne hv, hpop w]
      have hall := hflow.popped lv
      rw [hb] at hall
      have hf : s.eofForwarded lv = true := (hbooks.marked lv).mpr
        ⟨entry, hall ▸ List.mem_append_right _ List.mem_cons_self, he⟩
      obtain ⟨l, hl, hdata⟩ := h.marked lv hf
      simp only [Function.update_self]
      exact ⟨hf, nil_after_eof (hall.symm.trans hl) he hdata⟩
    · simp only [setWorker_workers, Function.update_of_ne hne] at hw ⊢
      exact h.left lv w hw
  | drained lv' w' hpc hb hp =>
    by_cases hne : lv = lv'
    · subst hne
      rw [hbooks.posted] at hp
      exact ⟨hp, hb⟩
    · simp only [setWorker_workers, Function.update_of_ne hne] at hw
      exact h.left lv w hw
  | passed lv' w' hpc =>
    by_cases hne : lv = lv'
    · subst hne
      exact h.left lv w' (by simp [hpc])
    · simp only [setWorker_workers, Function.update_of_ne hne] at hw
      exact h.left lv w hw
  | forcedEof lv' rest b hpc => exact absurd hpc (hbooks.unforced lv' rest)
  | _ => exact h.left lv w hw

theorem settled_step (hbooks : Books s) (hflow : Flow s) (hok : act ≠ .bTimeout)
    (hclean : Clean s act) (hm : Move u s act s') (h : Settled s) : Settled s' where
  drained := drained_step hbooks hok hclean hm h.drained
  marked := marked_step hbooks (books_step hbooks hm) hok hm h
  left := left_step hbooks hflow hm h

theorem settled_init : Settled (initial u) where
  drained := by simp [initial, Pipeline.Closing]
  marked := by simp [initial]
  left := by simp [initial]

theorem markedLast_append {l : List LogEntry} {x : LogEntry} (hl : ∀ e ∈ l, e.isEof = false) :
    MarkedLast (l ++ [x]) := by
  refine List.pairwise_append.mpr ⟨?_, List.pairwise_singleton _ _, fun e hmem _ _ he => ?_⟩
  · refine List.pairwise_of_forall_mem_list fun e hmem _ _ he => ?_
    rw [hl e hmem] at he
    cases he
  · rw [hl e hmem] at he
    cases he

/-- A complete run that closed its levels cleanly has lost nothing. -/
theorem noEntryLost_of_settled (hW : 0 < W) (hbooks : Books s) (hflow : Flow s) (h : Settled s)
    (hc : Complete s) : NoEntryLost s := by
  have hf : ∀ lv, s.eofForwarded lv = true := hbooks.left hc.left
  have hpend : ∀ lv, s.pending lv = [] := fun lv => h.drained lv (.inl (hf lv))
  refine ⟨fun lv => ?_, fun lv => ?_, fun e hmem => ?_⟩
  · have hempty : (s.b lv).toList = [] := (h.left lv ⟨0, hW⟩ (by simp [hc.exited])).2
    have hpop := hflow.popped lv
    rw [hempty, List.append_nil] at hpop
    have hdata : (s.pushedB lv).filter (fun e => !e.isEof) = dataOf lv (s.pushedB lv) := by
      refine List.filter_congr fun e hmem => ?_
      cases he : e.isEof with
      | true => simp [LogEntry.isDataOf, he]
      | false => simp [LogEntry.isDataOf, he, hflow.own lv e hmem he]
    rw [← hpop, hdata, hflow.routed, hpend, List.append_nil]
  · obtain ⟨l, hl, hdata⟩ := h.marked lv (hf lv)
    rw [hl]
    exact markedLast_append hdata
  · by_contra he
    have hmem' : e ∈ s.pending e.level := by
      refine List.mem_append_right _ (List.mem_filter.mpr ⟨hmem, ?_⟩)
      exact isDataOf_iff.mpr ⟨Bool.eq_false_iff.mpr he, rfl⟩
    rw [hpend] at hmem'
    cases hmem'

/-! ## Closed early -/

/-- Data is pending of a closing level, or has reached its Region B too late. -/
def Dirty (s : Pipeline R W) : Prop :=
  ∃ lv, (s.Closing lv ∧ s.pending lv ≠ []) ∨ ¬ MarkedLast (s.pushedB lv)

theorem closing_step {lv : Level} (hm : Move u s act s') (h : s.Closing lv) : s'.Closing lv := by
  rcases h with hf | hpc
  · cases hm with
    | sendEof lv' =>
      refine .inl ?_
      by_cases hne : lv = lv'
      · rw [hne]
        exact Function.update_self ..
      · exact (Function.update_of_ne hne ..).trans hf
    | _ => exact .inl hf
  · cases hm with
    | sendEof lv' b hpc' =>
      obtain rfl := DispatcherPc.sendingEof.inj (hpc'.symm.trans hpc)
      exact .inl (Function.update_self ..)
    | go _ _ hg => cases hg <;> simp_all
    | popA _ _ hpc' => simp_all
    | pushD _ _ _ hpc' => simp_all
    | pushB _ _ _ hpc' => simp_all
    | giveUp _ hpc' => simp_all
    | forcedEof _ _ _ hpc' => simp_all
    | finish hpc' => simp_all
    | _ => exact .inr hpc

theorem not_markedLast_append {l : List LogEntry} {x : LogEntry} (h : ¬ MarkedLast l) :
    ¬ MarkedLast (l ++ [x]) :=
  fun h' => h (List.pairwise_append.mp h').1

theorem dirty_step (hbooks : Books s) (hok : act ≠ .bTimeout) (hm : Move u s act s')
    (h : Dirty s) : Dirty s' := by
  rcases h with ⟨lv, ⟨hc, hp⟩ | hlast⟩
  · have hc' : s'.Closing lv := closing_step hm hc
    cases effect_of_move hbooks hok hm lv with
    | keep hp' => exact ⟨lv, .inl ⟨hc', hp' ▸ hp⟩⟩
    | arrive new hp' =>
      exact ⟨lv, .inl ⟨hc', fun hnil => hp (List.append_eq_nil_iff.mp (hp' ▸ hnil)).1⟩⟩
    | deliver entry he _ _ hb waited hpc =>
      -- the EOF marker is there already
      have hf : s.eofForwarded lv = true := hc.resolve_right (by simp [hpc])
      obtain ⟨e, hmem, hee⟩ := (hbooks.marked lv).mp hf
      refine ⟨lv, .inr fun hlast => ?_⟩
      rw [hb] at hlast
      have := (List.pairwise_append.mp hlast).2.2 e hmem entry List.mem_cons_self hee
      rw [(isDataOf_iff.mp he).1] at this
      cases this
    | mark hp' => exact ⟨lv, .inl ⟨hc', hp' ▸ hp⟩⟩
  · refine ⟨lv, .inr ?_⟩
    cases effect_of_move hbooks hok hm lv with
    | keep _ _ hb => exact hb ▸ hlast
    | arrive _ _ _ hb => exact hb ▸ hlast
    | deliver _ _ _ _ hb => exact hb ▸ not_markedLast_append hlast
    | mark _ _ hb => exact hb ▸ not_markedLast_append hlast

/-- A level closed with data in Region A. -/
theorem dirty_of_not_clean (h : ¬ Clean s act) (hs : pipelineStep u s act = some s') :
    Dirty s' := by
  simp only [Clean, not_forall] at h
  obtain ⟨rfl, lv, hcloses, ha⟩ := h
  have hs' : dispatcherStep u s = some { s with dispatcher := .sendingEof lv } := by
    unfold Pipeline.closes at hcloses
    split at hcloses
    · rename_i entry hpc
      split at hcloses
      · rename_i hc
        obtain rfl := Option.some.inj hcloses
        simp only [Bool.and_eq_true] at hc
        simp [dispatcherStep, hpc, hc]
      · cases hcloses
    · cases hcloses
  obtain rfl := Option.some.inj (hs.symm.trans hs')
  exact ⟨lv, .inl ⟨.inr rfl, ha⟩⟩

/-- A complete run that closed a level early has lost an entry. -/
theorem not_noEntryLost_of_dirty (h : Dirty s) (hc : Complete s) : ¬ NoEntryLost s := by
  intro hno
  rcases h with ⟨lv, ⟨_, hp⟩ | hlast⟩
  · refine hp ?_
    have hhand : s.dispatcher.hand = [] := by
      have hl := hc.left
      cases hpc : s.dispatcher <;> simp_all [DispatcherPc.left, DispatcherPc.hand]
    have ha : dataOf lv s.a.toList = [] := by
      refine List.filter_eq_nil_iff.mpr fun e hmem he => ?_
      have hdata := (isDataOf_iff.mp he).1
      rw [hno.emptied e hmem] at hdata
      cases hdata
    rw [Pipeline.pending, hhand, ha]
    rfl
  · exact hlast (hno.markedLast lv)

/-! ## No entry lost -/

/-- A complete run in which no `push_to_region_b` gives up loses no entry exactly when each level
was closed with none of its data in Region A. -/
theorem no_entry_lost_iff (u : Setup R W) (as : List (Act R W)) (s : Pipeline R W)
    (hrun : (pipeline u).runs (initial u) as = some s)
    (hgive : (pipeline u).AllSteps NoGiveUp (initial u) as) (hc : Complete s) :
    NoEntryLost s ↔ (pipeline u).AllSteps Clean (initial u) as := by
  constructor
  · intro hno
    by_contra hclean
    refine not_noEntryLost_of_dirty (Machine.of_not_allSteps (J := Books) ?_ ?_ ?_ books_init
      (.inr hclean) hrun hgive) hc hno
    · exact fun s a s' hb _ hs => books_step hb (pipelineStep_move hs)
    · exact fun s a s' _ _ hbad hs => dirty_of_not_clean hbad hs
    · exact fun s a s' hb hd hok hs => dirty_step hb hok (pipelineStep_move hs) hd
  · intro hclean
    have hreach := Machine.stepsIf_of_runs hrun (hgive.and hclean)
    obtain ⟨hbooks, hflow, hsettled⟩ : Books s ∧ Flow s ∧ Settled s := by
      refine Machine.ReachableIf.induct (I := fun s => Books s ∧ Flow s ∧ Settled s) hreach
        ⟨books_init, flow_init, settled_init⟩ fun s a s' ⟨hb, hf, hst⟩ ⟨hok, hcl⟩ hs => ?_
      have hm : Move u s a s' := pipelineStep_move hs
      exact ⟨books_step hb hm, flow_step hb hok hm hf, settled_step hb hf hok hcl hm hst⟩
    exact noEntryLost_of_settled u.workers_pos hbooks hflow hsettled hc

/-- `n` steps of the dispatcher. -/
def dispatcherSteps (n : ℕ) : List (Act R W) := List.replicate n .dispatcher

/-- The worker `w` of each level pops the EOF marker and exits. -/
def lastWorkerSteps (w : Fin W) : List (Act R W) :=
  Level.all.flatMap fun lv => [.worker lv w, .worker lv w]

def oneError : LogEntry where
  level := .error
  source := ⟨cstr "db", by decide⟩
  message := cstr "disk full"
  isEof := false

/-- One file of one entry. -/
def oneFile : Setup 1 1 where
  files := fun _ => [oneError]
  prioritySources := [cstr "db"]
  capA := 4
  capB := 4
  capD := 2
  files_parsed := by decide
  four_le_capA := by decide
  four_le_capB := by decide
  two_le_capD := by decide
  workers_pos := by decide

/-- The reader fills Region A, and the dispatcher empties it. -/
def oneFileRun (r : Fin R) (w : Fin W) : List (Act R W) :=
  List.replicate 5 (.parser r) ++ dispatcherSteps 5 ++ [.parser r] ++ dispatcherSteps 17 ++
    [.worker .error w] ++ lastWorkerSteps w

theorem no_entry_lost_oneFile :
    ∃ s, (pipeline oneFile).runs (initial oneFile) (oneFileRun 0 0) = some s ∧ NoEntryLost s := by
  have h : ((pipeline oneFile).runs (initial oneFile) (oneFileRun 0 0)).map (fun s =>
      (s.dispatcher.left, decide (∀ lv w, s.workers lv w = .exited))) = some (true, true) := by
    decide +kernel
  obtain ⟨s, hrun, hs⟩ := Option.map_eq_some_iff.mp h
  obtain ⟨hl, hex⟩ := Prod.mk.inj hs
  refine ⟨s, hrun, (no_entry_lost_iff oneFile (oneFileRun 0 0) s hrun (by decide +kernel)
    ⟨hl, of_decide_eq_true hex⟩).mpr (by decide +kernel)⟩

/-- Two files, the second of one entry. -/
def twoFiles : Setup 2 1 where
  files := fun r => if r = 0 then [] else [oneError]
  prioritySources := []
  capA := 4
  capB := 4
  capD := 2
  files_parsed := by decide
  four_le_capA := by decide
  four_le_capB := by decide
  two_le_capD := by decide
  workers_pos := by decide

/-- The reader `r₂` has pushed its entry and its EOF entry of the level when the dispatcher pops the
EOF entry of `r₁`. -/
def twoFilesRun (r₁ r₂ : Fin R) (w : Fin W) : List (Act R W) :=
  [.parser r₁, .parser r₁, .parser r₂, .parser r₂, .parser r₂] ++ dispatcherSteps 11 ++
    [.parser r₁, .parser r₁, .parser r₁, .parser r₁, .parser r₂] ++ dispatcherSteps 4 ++
    [.parser r₂] ++ dispatcherSteps 4 ++ [.parser r₂] ++ dispatcherSteps 5 ++ lastWorkerSteps w

/-- The entry stays in Region B behind the EOF marker, and no worker pops it. -/
theorem not_noEntryLost_twoFiles :
    ¬ ∀ (R W : ℕ) (u : Setup R W) (as : List (Act R W)) (s : Pipeline R W),
      (pipeline u).runs (initial u) as = some s →
      (pipeline u).AllSteps NoGiveUp (initial u) as → Complete s → NoEntryLost s := by
  intro hclaim
  have h : ((pipeline twoFiles).runs (initial twoFiles) (twoFilesRun 0 1 0)).map (fun s =>
      (s.dispatcher.left, decide (∀ lv w, s.workers lv w = .exited),
        ((s.poppedB .error).map Prod.snd).filter (fun e => !e.isEof), dataOf .error s.pushedA)) =
      some (true, true, [], [oneError]) := by decide +kernel
  obtain ⟨s, hrun, hs⟩ := Option.map_eq_some_iff.mp h
  simp only [Prod.mk.injEq] at hs
  obtain ⟨hl, hex, hpop, hpush⟩ := hs
  have hno := hclaim 2 1 twoFiles (twoFilesRun 0 1 0) s hrun (by decide +kernel)
    ⟨hl, of_decide_eq_true hex⟩
  have hperm := hno.popped .error
  rw [hpop, hpush] at hperm
  exact absurd hperm.nil_eq (by decide)

end Cse344.HW4
