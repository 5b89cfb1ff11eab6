import Cse344.HW4.NoLoss

/-!
# What no timeout breaks in the pipeline of HW4

`Cse344.HW4.NoLoss` is about runs in which no push to a Region B gives up. Here every timed wait of
`run_dispatcher` (`HW4/src/processes/dispatcher.c` 33-161) may expire. An expiry leaves an entry
out; it never doubles one or sends it elsewhere:

* what was popped of a Region B, what is in it and what is on its way there is, in order, part of
  the data of its level pushed to Region A (`Streams.routed`);
* the same for Region D and the data of the priority sources (`Streams.priority`);
* an EOF marker goes to a Region B that has none (`Streams.marked`).

Results:
* `effect_or_drop`: a step does to a level what it does without timeouts, or drops one entry.
* `streams_step`: every step keeps the streams.
* **`pipeline_safe`** draws the conclusions for every reachable state.

Out of scope: that anything arrives; a wait may expire for every entry.
-/

namespace Cse344.HW4

open Cse344.Lib

variable {R W : ℕ} {u : Setup R W} {s s' : Pipeline R W} {act : Act R W}

/-- A data entry of a source in `priority_sources`. -/
def isPriorityData (u : Setup R W) (e : LogEntry) : Bool := !e.isEof && isPrioritySource u e.source

/-- The data entries of the priority sources of a list. -/
def priorityOf (u : Setup R W) (l : List LogEntry) : List LogEntry := l.filter (isPriorityData u)

@[simp] theorem priorityOf_append (l m : List LogEntry) :
    priorityOf u (l ++ m) = priorityOf u l ++ priorityOf u m := List.filter_append l m

theorem priorityOf_cons (e : LogEntry) (l : List LogEntry) :
    priorityOf u (e :: l) = priorityOf u [e] ++ priorityOf u l := priorityOf_append [e] l

@[simp] theorem priorityOf_nil : priorityOf u [] = [] := rfl

@[simp] theorem priorityOf_eofEntry (lv : Level) : priorityOf u [eofEntry lv] = [] := rfl

theorem priorityOf_self {e : LogEntry} (he : e.isEof = false)
    (hp : isPrioritySource u e.source = true) : priorityOf u [e] = [e] := by
  simp [priorityOf, isPriorityData, he, hp]

/-- Nothing was doubled, sent to another level or marked twice. -/
structure Safe (u : Setup R W) (s : Pipeline R W) : Prop where
  levels : ∀ lv, (((s.poppedB lv).map Prod.snd ++ (s.b lv).toList).filter fun e => !e.isEof).Subperm
    (dataOf lv s.pushedA)
  priority : ((s.poppedD ++ s.d.toList).filter fun e => !e.isEof).Subperm (priorityOf u s.pushedA)
  marked : ∀ lv, (s.pushedB lv).countP LogEntry.isEof ≤ 1

/-! ## On the way to Region D -/

/-- What the dispatcher holds for Region D. -/
def DispatcherPc.handD (u : Setup R W) : DispatcherPc → List LogEntry
  | .popped entry => priorityOf u [entry]
  | .pushingD entry _ => [entry]
  | _ => []

def Pipeline.pendingD (u : Setup R W) (s : Pipeline R W) : List LogEntry :=
  s.dispatcher.handD u ++ priorityOf u s.a.toList

/-- Going on, the dispatcher may leave out what it holds for Region D. -/
theorem Goes.handD {pc : DispatcherPc} (hg : Goes u s act pc) :
    (pc.handD u).Sublist (s.dispatcher.handD u) := by
  cases hg with
  | routeD entry h he hp =>
    rw [h]
    show [entry].Sublist (priorityOf u [entry])
    rw [priorityOf_self he hp]
  | waitD entry h =>
    rw [h]
    exact List.Sublist.refl _
  | _ => exact List.nil_sublist _

/-- The entries for Region D stay in order: those that were consumed, those in it, and those on
their way there. -/
theorem priority_step
    (h : (s.poppedD ++ s.d.toList ++ s.pendingD u).Sublist (priorityOf u s.pushedA))
    (hm : Move u s act s') :
    (s'.poppedD ++ s'.d.toList ++ s'.pendingD u).Sublist (priorityOf u s'.pushedA) := by
  -- the dispatcher goes on with less for Region D in its hand
  have hgo : ∀ {pc : DispatcherPc}, (pc.handD u).Sublist (s.dispatcher.handD u) →
      (s.poppedD ++ s.d.toList ++ (pc.handD u ++ priorityOf u s.a.toList)).Sublist
        (priorityOf u s.pushedA) := fun hpc =>
    (((List.Sublist.refl _).append (hpc.append (List.Sublist.refl _)))).trans h
  cases hm with
  | push r entry rest a hpc ha hc =>
    have happ := h.append (List.Sublist.refl (priorityOf u [entry]))
    show (s.poppedD ++ s.d.toList ++ (s.dispatcher.handD u ++ priorityOf u a.toList)).Sublist
      (priorityOf u (s.pushedA ++ [entry]))
    rw [ha, priorityOf_append, priorityOf_append]
    simpa only [Pipeline.pendingD, List.append_assoc] using happ
  | close r lv rest a hpc ha hc =>
    rw [priorityOf_append, priorityOf_eofEntry, List.append_nil]
    have hsame : priorityOf u a.toList = priorityOf u s.a.toList := by
      rw [ha, priorityOf_append, priorityOf_eofEntry, List.append_nil]
    show (_ ++ (s.dispatcher.handD u ++ priorityOf u a.toList)).Sublist _
    rw [hsame]
    exact h
  | go act pc hg => exact hgo hg.handD
  | popA entry a hpc ha hc =>
    rw [Pipeline.pendingD, hpc, ha, priorityOf_cons] at h
    exact h
  | pushD entry waited d hpc hd =>
    rw [Pipeline.pendingD, hpc] at h
    show (s.poppedD ++ d.toList ++ ([] ++ priorityOf u s.a.toList)).Sublist _
    rw [hd]
    simpa only [DispatcherPc.handD, List.append_assoc, List.nil_append] using h
  | popD entry d hd =>
    rw [hd] at h
    show (s.poppedD ++ [entry] ++ d.toList ++ s.pendingD u).Sublist _
    simpa only [List.append_assoc, List.cons_append, List.nil_append] using h
  | sendEof => exact hgo (List.nil_sublist _)
  | pushB => exact hgo (List.nil_sublist _)
  | giveUp => exact hgo (List.nil_sublist _)
  | forcedEof => exact hgo (List.nil_sublist _)
  | finish => exact hgo (List.nil_sublist _)
  | _ => exact h

/-! ## On the way to the Regions B -/

/-- A step does to a level what it does without an expiry, or drops an entry. -/
theorem effect_or_drop (hbooks : Books s) (hm : Move u s act s') (lv : Level) :
    Effect s s' lv ∨
      (s'.pending lv).Sublist (s.pending lv) ∧ s'.pushedA = s.pushedA ∧
        s'.pushedB lv = s.pushedB lv := by
  by_cases hok : act = .bTimeout
  · subst hok
    cases hm with
    | giveUp entry hpc =>
      refine Or.inr ⟨?_, rfl, rfl⟩
      exact (List.nil_sublist _).append (List.Sublist.refl _)
    | go _ pc hg => cases hg
    | aggregate _ g h => rcases h with ⟨⟨⟩⟩ | ⟨⟨⟩⟩
  · exact Or.inl (effect_of_move hbooks hok hm lv)

/-- Everything on its way, in order. -/
structure Streams (u : Setup R W) (s : Pipeline R W) : Prop where
  routed : ∀ lv, (dataOf lv (s.pushedB lv) ++ s.pending lv).Sublist (dataOf lv s.pushedA)
  own : ∀ lv, ∀ e ∈ s.pushedB lv, e.isEof = false → e.level = lv
  popped : ∀ lv, s.pushedB lv = (s.poppedB lv).map Prod.snd ++ (s.b lv).toList
  priority : (s.poppedD ++ s.d.toList ++ s.pendingD u).Sublist (priorityOf u s.pushedA)
  marked : ∀ lv, (s.pushedB lv).countP LogEntry.isEof ≤ 1

theorem streams_step (hbooks : Books s) (h : Streams u s) (hm : Move u s act s') :
    Streams u s' where
  routed := fun lv => by
    rcases effect_or_drop hbooks hm lv with heff | ⟨hp, ha, hb⟩
    · cases heff with
      | keep hp ha hb =>
        rw [hp, ha, hb]
        exact h.routed lv
      | arrive new hp ha hb =>
        rw [hp, ha, hb, ← List.append_assoc]
        exact (h.routed lv).append (List.Sublist.refl _)
      | deliver entry he hp ha hb =>
        have hall := h.routed lv
        rw [hp] at hall
        rw [ha, hb, dataOf_append, dataOf_of_isDataOf he, List.append_assoc]
        exact hall
      | mark hp ha hb =>
        rw [hp, ha, hb, dataOf_append, dataOf_eofEntry, List.append_nil]
        exact h.routed lv
    · rw [ha, hb]
      exact ((List.Sublist.refl _).append hp).trans (h.routed lv)
  own := fun lv e hmem hd => by
    rcases effect_or_drop hbooks hm lv with heff | ⟨hp, ha, hb⟩
    · cases heff with
      | keep _ _ hb => exact h.own lv e (hb ▸ hmem) hd
      | arrive _ _ _ hb => exact h.own lv e (hb ▸ hmem) hd
      | deliver entry he _ _ hb =>
        rw [hb, List.mem_append, List.mem_singleton] at hmem
        rcases hmem with hmem | rfl
        · exact h.own lv e hmem hd
        · exact (isDataOf_iff.mp he).2
      | mark _ _ hb =>
        rw [hb, List.mem_append, List.mem_singleton] at hmem
        rcases hmem with hmem | rfl
        · exact h.own lv e hmem hd
        · cases hd
    · exact h.own lv e (hb ▸ hmem) hd
  popped := popped_step hbooks h.popped hm
  priority := priority_step h.priority hm
  marked := fun lv => by
    rcases effect_or_drop hbooks hm lv with heff | ⟨hp, ha, hb⟩
    · cases heff with
      | keep _ _ hb => exact hb ▸ h.marked lv
      | arrive _ _ _ hb => exact hb ▸ h.marked lv
      | deliver entry he _ _ hb =>
        have hdata : ¬ entry.isEof = true := by simp [(isDataOf_iff.mp he).1]
        rw [hb, List.countP_append, List.countP_cons_of_neg hdata]
        exact h.marked lv
      | mark _ _ hb hpc =>
        -- the level was not closed, so its Region B got no marker yet
        have hf : s.eofForwarded lv ≠ true := by simp [(hbooks.sending lv hpc).1]
        have hnone : (s.pushedB lv).countP LogEntry.isEof = 0 :=
          List.countP_eq_zero.mpr fun e hmem he => hf ((hbooks.marked lv).mpr ⟨e, hmem, he⟩)
        rw [hb, List.countP_append, hnone]
        exact le_rfl
    · exact hb ▸ h.marked lv

theorem streams_init : Streams u (initial u) where
  routed := fun _ => List.Sublist.refl _
  own := by simp [initial]
  popped := fun _ => rfl
  priority := List.Sublist.refl _
  marked := by simp [initial]

theorem Streams.safe (h : Streams u s) : Safe u s where
  levels := fun lv => by
    rw [← h.popped]
    have hdata : ((s.pushedB lv).filter fun e => !e.isEof) = dataOf lv (s.pushedB lv) :=
      List.filter_congr fun e hmem => by
        cases he : e.isEof with
        | false => simp [LogEntry.isDataOf, he, h.own lv e hmem he]
        | true => simp [LogEntry.isDataOf, he]
    rw [hdata]
    exact ((List.sublist_append_left _ _).trans (h.routed lv)).subperm
  priority :=
    (List.filter_sublist.trans ((List.sublist_append_left _ _).trans h.priority)).subperm
  marked := h.marked

/-- **Safety, whatever expires.** -/
theorem pipeline_safe (u : Setup R W) {s : Pipeline R W} (h : (pipeline u).Reachable s) :
    Safe u s := by
  have hinv : Books s ∧ Streams u s := by
    refine h.induct (I := fun s => Books s ∧ Streams u s) ⟨books_init, streams_init⟩ ?_
    rintro s a s' ⟨hbooks, hstreams⟩ hs
    have hm : Move u s a s' := pipelineStep_move hs
    exact ⟨books_step hbooks hm, streams_step hbooks hstreams hm⟩
  exact hinv.2.safe

/-- The only entry has been popped by its worker and consumed from Region D. -/
theorem pipeline_safe_oneFile :
    ∃ s, (pipeline oneFile).runs (initial oneFile) (oneFileRun 0 0 ++ [.aggregator]) = some s ∧
      s.poppedD = [oneError] ∧ Safe oneFile s := by
  have hrun : ((pipeline oneFile).runs (initial oneFile) (oneFileRun 0 0 ++ [.aggregator])).map
      Pipeline.poppedD = some [oneError] := by decide +kernel
  obtain ⟨s, hs, hpop⟩ := Option.map_eq_some_iff.mp hrun
  exact ⟨s, hs, hpop, pipeline_safe oneFile (Machine.runs_reachable hs)⟩

end Cse344.HW4
