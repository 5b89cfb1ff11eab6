import Cse344.HW4.Results
import Mathlib.Tactic.Abel

/-!
# What there is to report of the log files of HW4

`analysis` says what is to be reported of a level: how many entries the log files have of it, and
what its keywords score, counted in one scan of the multiset of entries.

* `totals` are the figures of a result of Region C that the report shows: the entries, the weighted
  score and the score of each keyword.
* `tls_destructor` (`HW4/src/processes/analyzer.c` 52-111) writes a result field by field, and the
  aggregator reads it without the mutex. A destructor is one step here, so that of a level that was
  not received each field is right by itself (`FieldsPartOf`); of one that was received, and in the
  parent's summary, all fields are of the same entries (`PartOf`).

Results:
* `totals_eq`: the result of a level is the analysis of what its workers have merged.
* **`overcounts_never`**: whatever expires and whatever fails in an analyzer, each reading of the
  aggregator finds the analysis of some of the entries of the files.

Out of scope: the sources; `Cse344.HW4.TopSources` is about one crew and its merges.
-/

namespace Cse344.HW4

open Cse344.Lib

variable {R W : ℕ}

/-! ## What is to be reported -/

/-- What the report says of a level but its sources and threads. -/
@[ext] structure LevelTotals where
  totalEntries : ℕ
  totalWeightedScore : ℕ
  perKeywordScore : ℕ → ℕ

def LevelResult.totals (r : LevelResult) : LevelTotals where
  totalEntries := r.totalEntries
  totalWeightedScore := r.totalWeightedScore
  perKeywordScore := r.perKeywordScore

/-- One scan of the entries of a level. -/
def analysis (args : Args) (lv : Level) (entries : Multiset LogEntry) : LevelTotals where
  totalEntries := entries.card
  totalWeightedScore := (entries.map (hitsOf args)).sum * getLevelWeight lv
  perKeywordScore := fun i => (entries.map (hitsAt args i)).sum * getLevelWeight lv

/-- The entries of level `lv` of all log files. -/
def entriesOf (u : Setup R W) (lv : Level) : Multiset LogEntry :=
  ∑ r, (dataOf lv (u.files r) : Multiset LogEntry)

/-! ## What the parser threads push -/

section Pipeline

variable {u : Setup R W} {s s' : Pipeline R W} {act : Act R W}

/-- What a parser thread has still to push of its file. -/
def ParserPc.rest : ParserPc → List LogEntry
  | .pushing rest => rest
  | _ => []

/-- The data of a level was pushed to Region A, or is to come. -/
def Parsing (u : Setup R W) (s : Pipeline R W) : Prop :=
  ∀ lv, (dataOf lv s.pushedA : Multiset LogEntry) +
    ∑ r, (dataOf lv (s.parsers r).rest : Multiset LogEntry) = entriesOf u lv

/-- A parser thread pushes `entry`, or nothing of level `lv`. -/
theorem parsing_of_thread {r : Fin R} (pc : ParserPc) (new : List LogEntry) (h : Parsing u s)
    {s' : Pipeline R W} (hp : s'.parsers = Function.update s.parsers r pc)
    (ha : s'.pushedA = s.pushedA ++ new)
    (hrest : ∀ lv, dataOf lv (s.parsers r).rest = dataOf lv new ++ dataOf lv pc.rest) :
    Parsing u s' := by
  intro lv
  have hsum := sum_update_add (fun pc : ParserPc => (dataOf lv pc.rest : Multiset LogEntry))
    s.parsers r pc
  rw [hrest lv, ← Multiset.coe_add] at hsum
  rw [hp, ha, dataOf_append, ← Multiset.coe_add, ← h lv]
  refine add_right_cancel (b := (dataOf lv pc.rest : Multiset LogEntry)) ?_
  rw [add_assoc (dataOf lv s.pushedA : Multiset LogEntry) (∑ r, _), ← hsum]
  abel

theorem parsing_step (h : Parsing u s) (hm : Move u s act s') : Parsing u s' := by
  cases hm with
  | push r entry rest a hpc =>
    refine parsing_of_thread (.pushing rest) [entry] h rfl rfl fun lv => ?_
    rw [hpc]
    exact dataOf_cons lv entry rest
  | pushed r hpc =>
    refine parsing_of_thread (.closing Level.all) [] h rfl
      (List.append_nil _).symm fun lv => ?_
    rw [hpc]
    rfl
  | close r lv' rest a hpc =>
    refine parsing_of_thread (.closing rest) [eofEntry lv'] h rfl rfl fun lv => ?_
    rw [hpc, dataOf_eofEntry]
    rfl
  | parsed r hpc =>
    refine parsing_of_thread .exited [] h rfl (List.append_nil _).symm
      fun lv => ?_
    rw [hpc]
    rfl
  | _ => exact h

theorem parsing_init : Parsing u (initial u) := fun _ => zero_add _

/-- All of a level has been pushed when all parser threads have closed it. -/
theorem Parsing.whole (h : Parsing u s) {lv : Level}
    (hc : ∀ r, (s.parsers r).hasClosed lv = true) :
    (dataOf lv s.pushedA : Multiset LogEntry) = entriesOf u lv := by
  have hrest : ∑ r, (dataOf lv (s.parsers r).rest : Multiset LogEntry) = 0 := by
    refine Finset.sum_eq_zero fun r _ => ?_
    have hr := hc r
    cases hpc : s.parsers r with
    | pushing rest => rw [hpc] at hr; cases hr
    | closing rest => rfl
    | exited => rfl
  rw [← h lv, hrest, add_zero]

theorem Parsing.le (h : Parsing u s) (lv : Level) :
    (dataOf lv s.pushedA : Multiset LogEntry) ≤ entriesOf u lv := by
  rw [← h lv]
  exact Multiset.le_add_right _ _

theorem parsing_reachable (h : (pipeline u).Reachable s) : Parsing u s :=
  h.induct parsing_init fun _ _ _ hI hs => parsing_step hI (pipelineStep_move hs)

/-! ## What the workers have taken -/

/-- The data entries a worker has popped. -/
def Pipeline.dataBy (s : Pipeline R W) (lv : Level) (w : Fin W) : Multiset LogEntry :=
  ((s.poppedBy lv w).filter fun e => !e.isEof : List LogEntry)

/-- The data of a level, worker by worker. -/
theorem sum_dataBy (s : Pipeline R W) (lv : Level) : ∑ w, s.dataBy lv w =
    (((s.poppedB lv).map Prod.snd).filter fun e => !e.isEof : List LogEntry) := by
  have hsingle : ∀ l : List LogEntry,
      ((l.filter fun e => !e.isEof : List LogEntry) : Multiset LogEntry) =
        (l.map fun e => if e.isEof then (0 : Multiset LogEntry) else {e}).sum := by
    intro l
    induction l with
    | nil => rfl
    | cons e l ih =>
      cases he : e.isEof with
      | true => simp [he, ih]
      | false => simp [he, ← ih]
  rw [hsingle, ← Interleaves.sum_map_filter_tag]
  exact Finset.sum_congr rfl fun w _ => hsingle _

theorem sum_dataBy_le (h : (pipeline u).Reachable s) (lv : Level) :
    ∑ w, s.dataBy lv w ≤ entriesOf u lv := by
  have hstreams : Streams u s := by
    refine (h.induct (I := fun s => Books s ∧ Streams u s) ⟨books_init, streams_init⟩ ?_).2
    rintro s a s' ⟨hbooks, hstreams⟩ hs
    have hm : Move u s a s' := pipelineStep_move hs
    exact ⟨books_step hbooks hm, streams_step hbooks hstreams hm⟩
  have hsafe := hstreams.safe.levels lv
  rw [List.filter_append] at hsafe
  rw [sum_dataBy]
  refine le_trans ?_ ((parsing_reachable h).le lv)
  exact ((List.sublist_append_left _ _).subperm.trans hsafe)

end Pipeline

/-! ## What the merges make of it -/

variable {u : RunSetup R W} {s s' : Run R W} {act : RunAct R W}

/-- The destructors add up the workers' data. -/
theorem foldl_tlsDestructor (args : Args) (tls : Fin W → TlsData) :
    ∀ (ws : List (Fin W)) (r : LevelResult),
      let r' := ws.foldl (fun r w => tlsDestructor args r (tls w)) r
      r'.totalEntries = r.totalEntries + (ws.map fun w => (tls w).entryCount).sum ∧
        r'.totalWeightedScore = r.totalWeightedScore + (ws.map fun w => (tls w).totalScore).sum ∧
        ∀ i, r'.perKeywordScore i = r.perKeywordScore i +
          if i < args.keywords.length then (ws.map fun w => (tls w).keywordScores i).sum else 0
  | [], r => by simp
  | w :: ws, r => by
    obtain ⟨hc, hs, hk⟩ := foldl_tlsDestructor args tls ws (tlsDestructor args r (tls w))
    refine ⟨hc.trans ?_, hs.trans ?_, fun i => (hk i).trans ?_⟩
    · simp only [tlsDestructor, List.map_cons, List.sum_cons]
      omega
    · simp only [tlsDestructor, List.map_cons, List.sum_cons]
      omega
    · simp only [tlsDestructor, List.map_cons, List.sum_cons]
      split_ifs
      · omega
      · rfl

/-- The entries the workers `ws` have merged. -/
def takenBy (s : Run R W) (lv : Level) (ws : List (Fin W)) : Multiset LogEntry :=
  (ws.map (s.pipeline.dataBy lv)).sum

/-- The hits of a keyword there is not. -/
theorem hitsAt_of_le {args : Args} {i : ℕ} (hi : args.keywords.length ≤ i) (entry : LogEntry) :
    hitsAt args i entry = 0 := by
  simp [hitsAt, hi]

/-- Over the workers, what one of them adds for the entries it has taken. -/
theorem sum_takenBy (s : Run R W) (lv : Level) (f : LogEntry → ℕ) (ws : List (Fin W)) :
    (ws.map fun w => ((s.pipeline.dataBy lv w).map f).sum).sum =
      ((takenBy s lv ws).map f).sum := by
  induction ws with
  | nil => rfl
  | cons w ws ih =>
    rw [List.map_cons, List.sum_cons, ih, takenBy, takenBy, List.map_cons, List.sum_cons,
      Multiset.map_add, Multiset.sum_add]

/-- **The result of a level is the analysis of what has been merged.** -/
theorem totals_eq (h : Reported u s) (lv : Level) :
    (s.results lv).totals = analysis u.args lv (takenBy s lv (s.mergeOrder lv)) := by
  -- each worker's own account
  have htls : ∀ w ∈ s.mergeOrder lv,
      (s.tls lv w).entryCount = ((s.pipeline.dataBy lv w).map fun _ => 1).sum ∧
        (s.tls lv w).totalScore =
          ((s.pipeline.dataBy lv w).map (hitsOf u.args)).sum * getLevelWeight lv ∧
        ∀ i, (s.tls lv w).keywordScores i =
          ((s.pipeline.dataBy lv w).map (hitsAt u.args i)).sum * getLevelWeight lv := by
    intro w hw
    have hscored := h.workers.scored lv w (.inr ((h.merges.merged lv w).mp hw))
    obtain ⟨hs, hk, hc, -⟩ := workerLoop_spec u.args (getLevelWeight lv)
      (s.pipeline.poppedBy lv w) (newTls w)
    rw [hscored, tlsOf]
    simp only [h.workers.looping.whole] at hs hk hc
    refine ⟨?_, ?_, fun i => ?_⟩
    · rw [hc]
      simp [newTls, Pipeline.dataBy]
    · rw [hs]
      simp [newTls, Pipeline.dataBy]
    · rw [hk i]
      simp [newTls, Pipeline.dataBy]
  obtain ⟨hc, hs, hk⟩ := foldl_tlsDestructor u.args (s.tls lv) (s.mergeOrder lv) noResult
  rw [← mergedResult, ← h.merges.result lv] at hc hs hk
  have hcount : ((takenBy s lv (s.mergeOrder lv)).map fun _ => 1).sum =
      (takenBy s lv (s.mergeOrder lv)).card := by simp
  ext i
  · show (s.results lv).totalEntries = _
    rw [hc, List.map_congr_left fun w hw => (htls w hw).1, sum_takenBy, hcount]
    exact Nat.zero_add _
  · show (s.results lv).totalWeightedScore = _
    rw [hs, List.map_congr_left fun w hw => (htls w hw).2.1, List.sum_map_mul_right, sum_takenBy]
    exact Nat.zero_add _
  · show (s.results lv).perKeywordScore i = _
    rw [hk i, List.map_congr_left fun w hw => (htls w hw).2.2 i, List.sum_map_mul_right,
      sum_takenBy]
    refine (Nat.zero_add _).trans ?_
    split_ifs with hi
    · rfl
    · have hzero : ∀ e, hitsAt u.args i e = 0 := hitsAt_of_le (Nat.le_of_not_lt hi)
      simp [analysis, hzero]

/-- What some workers of a level have taken is part of what all have. -/
theorem takenBy_le (s : Run R W) {lv : Level} {ws : List (Fin W)} (h : ws.Nodup) :
    takenBy s lv ws ≤ ∑ w, s.pipeline.dataBy lv w := by
  rw [takenBy, ← List.sum_toFinset _ h]
  exact Finset.sum_le_sum_of_subset (Finset.subset_univ _)

/-- Where all workers have merged, it is all. -/
theorem takenBy_all {lv : Level} {ws : List (Fin W)} (h : ws.Nodup) (hall : ∀ w, w ∈ ws) :
    takenBy s lv ws = ∑ w, s.pipeline.dataBy lv w := by
  rw [takenBy, ← List.sum_toFinset _ h, Finset.eq_univ_of_forall fun w => List.mem_toFinset.mpr
    (hall w)]

/-! ## Never too much -/

/-- What is reported of a level is the analysis of some of its entries. -/
def PartOf (u : RunSetup R W) (lv : Level) (r : LevelResult) : Prop :=
  ∃ m ≤ entriesOf u.toSetup lv, r.totals = analysis u.args lv m

theorem partOf_results (h : (program u).Reachable s) (lv : Level) : PartOf u lv (s.results lv) := by
  have hr := reported_reachable h
  refine ⟨takenBy s lv (s.mergeOrder lv), ?_, totals_eq hr lv⟩
  exact (takenBy_le s (hr.merges.nodup lv)).trans (sum_dataBy_le (pipeline_reachable h) lv)

/-- Each field of the result by itself is that of the analysis of some of the level's entries. -/
structure FieldsPartOf (u : RunSetup R W) (lv : Level) (r : LevelResult) : Prop where
  entries : ∃ m ≤ entriesOf u.toSetup lv, r.totalEntries = (analysis u.args lv m).totalEntries
  weighted : ∃ m ≤ entriesOf u.toSetup lv,
    r.totalWeightedScore = (analysis u.args lv m).totalWeightedScore
  keyword : ∀ i, ∃ m ≤ entriesOf u.toSetup lv,
    r.perKeywordScore i = (analysis u.args lv m).perKeywordScore i

theorem PartOf.fields {lv : Level} {r : LevelResult} (h : PartOf u lv r) : FieldsPartOf u lv r := by
  obtain ⟨m, hm, heq⟩ := h
  exact ⟨⟨m, hm, congrArg LevelTotals.totalEntries heq⟩,
    ⟨m, hm, congrArg LevelTotals.totalWeightedScore heq⟩,
    fun i => ⟨m, hm, congrFun (congrArg LevelTotals.perKeywordScore heq) i⟩⟩

/-- What Region C holds at the readings of the aggregator, and at the summary. -/
theorem partOf_read (h : (program u).Reachable s) (lv : Level) :
    (∀ x ∈ s.seen, PartOf u lv (x.2 lv)) ∧ ∀ r, s.summary = some r → PartOf u lv (r lv) := by
  refine h.induct_reachable (I := fun s => (∀ x ∈ s.seen, PartOf u lv (x.2 lv)) ∧
    ∀ r, s.summary = some r → PartOf u lv (r lv)) ⟨by simp [program, firstState],
      by simp [program, firstState]⟩ ?_
  rintro s a s' hr ⟨hseen, hsum⟩ hs
  cases runMove_of_step hs with
  | read r rest =>
    refine ⟨fun x hx => ?_, hsum⟩
    rcases List.mem_append.mp hx with hx | hx
    · exact hseen x hx
    · rw [List.mem_singleton.mp hx]
      exact partOf_results hr lv
  | summarize =>
    refine ⟨hseen, fun r hr' => ?_⟩
    rw [← Option.some.inj hr']
    exact partOf_results hr lv
  | _ => exact ⟨hseen, hsum⟩

/-- **The report never counts an entry that is in no file, and none twice**, whatever expires and
whatever fails: each field that the aggregator reads of a level is that of the analysis of some of
the entries the files have of it. The fields of a level that was received, which no destructor
writes any more, are those of one analysis, and so are those of the summary. -/
theorem overcounts_never (u : RunSetup R W) {s : Run R W} (h : (program u).Reachable s)
    (lv : Level) :
    (∀ x ∈ s.seen, FieldsPartOf u lv (x.2 lv) ∧
      (s.received lv = true → PartOf u lv (x.2 lv))) ∧
    ∀ r, s.summary = some r → PartOf u lv (r lv) := by
  obtain ⟨hseen, hsum⟩ := partOf_read h lv
  exact ⟨fun x hx => ⟨(hseen x hx).fields, fun _ => hseen x hx⟩, hsum⟩

theorem overcounts_never_oneRun :
    ∃ s, (program oneRun).runs (firstState oneRun) (oneRunStart ++ oneRunEnd) = some s ∧
      s.seen.length = 19 ∧
      (∀ x ∈ s.seen, FieldsPartOf oneRun .error (x.2 .error) ∧
        (s.received .error = true → PartOf oneRun .error (x.2 .error))) ∧
      ∀ r, s.summary = some r → PartOf oneRun .error (r .error) := by
  have h : ((program oneRun).runs (firstState oneRun) (oneRunStart ++ oneRunEnd)).map (fun s =>
      s.seen.length) = some 19 := by decide +kernel
  obtain ⟨s, hs, hlen⟩ := Option.map_eq_some_iff.mp h
  exact ⟨s, hs, hlen, overcounts_never oneRun (Machine.runs_reachable hs) .error⟩

end Cse344.HW4
