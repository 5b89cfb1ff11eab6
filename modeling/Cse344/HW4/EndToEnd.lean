import Cse344.HW4.Analysis
import Cse344.HW4.Delivery
import Cse344.HW4.Reading

/-!
# From the log files to the report

Reading, pipeline, merging and report together: what the aggregator and the parent of
`Cse344.HW4.Report` find in terms of the lines of the log files. The reader processes open their
file and start their threads (`ReadBy`), and no SIGINT comes.

* `AllKept` says of a step that no push to a Region B gives up in it, it closes no level with data
  in Region A, and no worker's `calloc` fails; `AllCreated` that no `pthread_create` of an analyzer
  fails either; `KeptD` that the waits around Region D do not expire.
* `ReadBy` says that each reader process, in some run of `Cse344.HW4.Delivery` over its file, has
  pushed the entries that the pipeline starts from.
* `linesOf` are the entries of the lines of the files. Lines are to be read whole, in one piece of
  at most 1023 bytes (`ReadWhole`).

Results:
* **`report_of_files`**, **`report_of_lines`**: an aggregator that has got all its levels has made
  all its readings of the analysis of the log files, of the entries or of the lines.
* **`summary_of_files`**: the summary of the parent is that of the files even if the aggregator's
  waits expired.
* **`high_priority_of_files`**: where the waits around Region D do not expire either, the
  high-priority score is that of the entries of the priority sources.

Out of scope: the sources of the report, and the text of the files.
-/

namespace Cse344.HW4

open Cse344.Lib

variable {R W : ℕ} {u : RunSetup R W} {s s' : Run R W} {act : RunAct R W}

/-! ## All of it -/

/-- No push to a Region B gives up, and a level is closed with none of its data in Region A. -/
def Kept (s : Pipeline R W) (act : Act R W) : Prop := NoGiveUp s act ∧ Clean s act

/-- The same in a run, where no worker's `calloc` fails. -/
def AllKept (s : Run R W) (act : RunAct R W) : Prop :=
  Lifted Kept s act ∧ ∀ lv w, act ≠ .callocFails lv w

instance (s : Pipeline R W) (act : Act R W) : Decidable (Kept s act) :=
  inferInstanceAs (Decidable (_ ∧ _))

instance (s : Run R W) (act : RunAct R W) : Decidable (AllKept s act) :=
  inferInstanceAs (Decidable (_ ∧ _))

/-- The pipeline after a run in which nothing was dropped. -/
structure KeptState (u : Setup R W) (s : Pipeline R W) : Prop where
  books : Books s
  flow : Flow s
  settled : Settled s
  parsing : Parsing u s

theorem keptState_reachable {u : Setup R W} {s : Pipeline R W}
    (h : (pipeline u).ReachableIf Kept s) : KeptState u s := by
  refine h.induct ⟨books_init, flow_init, settled_init, parsing_init⟩ fun s a s' hI hok hs => ?_
  have hm : Move u s a s' := pipelineStep_move hs
  exact ⟨books_step hI.books hm, flow_step hI.books hok.1 hm hI.flow,
    settled_step hI.books hI.flow hok.1 hok.2 hm hI.settled, parsing_step hI.parsing hm⟩

/-- A closed level has handed all its data to its Region B. -/
theorem KeptState.pushedB {u : Setup R W} {s : Pipeline R W} (h : KeptState u s) {lv : Level}
    (hf : s.eofForwarded lv = true) :
    (dataOf lv (s.pushedB lv) : Multiset LogEntry) = entriesOf u lv := by
  have hrouted := h.flow.routed lv
  rw [h.settled.drained lv (.inl hf), List.append_nil] at hrouted
  rw [← hrouted]
  exact h.parsing.whole (h.books.closed lv hf)

/-- Once a worker has left its loop, the workers of its level have popped all of it. -/
theorem KeptState.sum_dataBy {u : Setup R W} {s : Pipeline R W} (h : KeptState u s) {lv : Level}
    {w : Fin W} (hw : s.workers lv w ≠ .popping) : ∑ w, s.dataBy lv w = entriesOf u lv := by
  obtain ⟨hf, hempty⟩ := h.settled.left lv w hw
  have hpop := h.flow.popped lv
  rw [hempty, List.append_nil] at hpop
  have hdata : (s.pushedB lv).filter (fun e => !e.isEof) = dataOf lv (s.pushedB lv) :=
    List.filter_congr fun e hmem => by
      cases he : e.isEof with
      | true => simp [LogEntry.isDataOf, he]
      | false => simp [LogEntry.isDataOf, he, h.flow.own lv e hmem he]
  rw [Cse344.HW4.sum_dataBy, ← hpop, hdata, h.pushedB hf]

theorem not_failed (h : (program u).ReachableIf AllKept s) (lv : Level) (w : Fin W) :
    s.threads lv w ≠ .failed := by
  refine h.induct (I := fun s => ∀ lv w, s.threads lv w ≠ .failed)
    (fun _ _ => by simp [program, firstState]) (fun s a s' hI hok hs lv' w' => ?_) lv w
  cases runMove_of_step hs with
  | start lv w =>
    exact forall_setThread (P := fun _ _ pc => pc ≠ .failed) (by simp) (fun lv w _ => hI lv w)
      lv' w'
  | callocFails lv w => exact absurd rfl (hok.2 lv w)
  | merge lv w =>
    exact forall_setThread (P := fun _ _ pc => pc ≠ .failed) (by simp) (fun lv w _ => hI lv w)
      lv' w'
  | _ => exact hI lv' w'

/-- The result of a level all of whose workers have merged is the analysis of the files. -/
theorem totals_of_files (h : (program u).ReachableIf AllKept s) {lv : Level}
    (hall : ∀ w, s.threads lv w = .merged) :
    (s.results lv).totals = analysis u.args lv (entriesOf u.toSetup lv) := by
  have hr := reported_reachable h.reachable
  have hkept : (pipeline u.toSetup).ReachableIf Kept s.pipeline :=
    pipeline_reachableIf (h.mono fun _ _ hok => hok.1)
  have hmerged : ∀ w, w ∈ s.mergeOrder lv := fun w => (hr.merges.merged lv w).mpr (hall w)
  have hleft : s.pipeline.workers lv ⟨0, u.workers_pos⟩ ≠ .popping := by
    rw [hr.workers.gone lv _ (hall _)]
    simp
  rw [totals_eq hr, takenBy_all (hr.merges.nodup lv) hmerged,
    (keptState_reachable hkept).sum_dataBy hleft]

/-- What a reading finds at a level that was received is the analysis of the files. -/
theorem reading_of_files (h : (program u).ReachableIf AllKept s) {lv : Level}
    (hrec : s.received lv = true) {x : Reading × (Level → LevelResult)} (hx : x ∈ s.seen) :
    (x.2 lv).totals = analysis u.args lv (entriesOf u.toSetup lv) := by
  have hr := reported_reachable h.reachable
  rw [hr.published.found x hx lv hrec]
  rcases hr.merged_or_failed hrec with hall | hfailed
  · exact totals_of_files h hall
  · exact absurd (hfailed ⟨0, u.workers_pos⟩) (not_failed h lv _)

/-- What the aggregator has still to read. -/
def AggregatorMain.todo : AggregatorMain → List Reading
  | .writing rest => rest
  | .exited => []
  | _ => readings

/-- The aggregator makes its readings in their order. -/
theorem seen_todo (h : (program u).Reachable s) :
    s.seen.map Prod.fst ++ s.aggregator.todo = readings := by
  refine h.induct (I := fun s => s.seen.map Prod.fst ++ s.aggregator.todo = readings)
    (by simp [program, firstState, AggregatorMain.todo]) fun s a s' hI hs => ?_
  cases runMove_of_step hs with
  | receive lv rest hpc => rw [hpc] at hI; exact hI
  | waited hpc => rw [hpc] at hI; exact hI
  | expire lv rest hpc => rw [hpc] at hI; exact hI
  | highPriority hpc => rw [hpc] at hI; exact hI
  | read r rest hpc =>
    rw [hpc] at hI
    simpa [AggregatorMain.todo] using hI
  | written hpc => rw [hpc] at hI; exact hI
  | _ => exact hI

/-- An aggregator that has got all four levels has made all its readings of the final results. -/
theorem seen_of_received (h : (program u).Reachable s) (hx : s.aggregator = .exited)
    (hrec : ∀ lv, s.received lv = true) : s.seen = readings.map fun r => (r, s.results) := by
  have htodo := seen_todo h
  rw [hx, AggregatorMain.todo, List.append_nil] at htodo
  rw [← htodo, List.map_map]
  refine (List.map_id _).symm.trans (List.map_congr_left fun x hmem => ?_)
  exact Prod.ext rfl (funext fun lv => (reported_reachable h).published.found x hmem lv (hrec lv))

/-- The report is the analysis of what the parser threads were given. -/
theorem report_of_files (h : (program u).ReachableIf AllKept s) (hx : s.aggregator = .exited)
    (hrec : ∀ lv, s.received lv = true) :
    s.seen = readings.map (fun r => (r, s.results)) ∧
      ∀ lv, (s.results lv).totals = analysis u.args lv (entriesOf u.toSetup lv) := by
  have hseen := seen_of_received h.reachable hx hrec
  refine ⟨hseen, fun lv => ?_⟩
  refine reading_of_files h (hrec lv) (x := (.order, s.results)) ?_
  rw [hseen]
  exact List.mem_map_of_mem (List.mem_cons_self ..)

/-! ## From the lines of the files -/

/-- What thread `i` of `T` parses out of its range of the file. -/
def parsedBy (fp : CStr) (T : ℕ) (i : Fin T) : List LogEntry :=
  (readerThread fp (startByte fp T i) (endByte fp T i)).map ParsedLine.toLogEntry

/-- Reader `r` has opened the file `contents r` and started its `T` threads and its parser thread,
which has pushed the entries `files r` to Region A and then the EOF entries of the levels. -/
def ReadBy (u : Setup R W) (contents : Fin R → CStr) (T : ℕ) : Prop :=
  ∀ r, ∃ (a : RegionA) (capB : ℕ) (hB : 0 < capB) (s : Delivery T),
    (delivery (parsedBy (contents r) T) a capB hB).Reachable s ∧ s.proc.parser = .exited ∧
      s.pushed = u.files r ++ Level.all.map eofEntry

/-- The parser thread moves each thread's entries in order. -/
theorem ReadBy.interleaves {u : Setup R W} {contents : Fin R → CStr} {T : ℕ}
    (h : ReadBy u contents T) (r : Fin R) :
    Interleaves (parsedBy (contents r) T) (u.files r) := by
  obtain ⟨a, capB, hB, s, hs, hx, hpushed⟩ := h r
  obtain ⟨body, hbody, horder⟩ :=
    (delivery_ok (parsedBy (contents r) T) a capB hB hs).pushed_of_exited hx
  rw [hpushed] at hbody
  exact List.append_cancel_right hbody ▸ horder

/-- The entries of level `lv` that the lines of the files parse to. -/
def linesOf (contents : Fin R → CStr) (lv : Level) : Multiset LogEntry :=
  ∑ r, (dataOf lv (((lines (contents r)).filterMap lineEntry).map ParsedLine.toLogEntry) :
    Multiset LogEntry)

/-- What the threads of one reader push, as one list. -/
theorem readEntries_coe (fp : CStr) (T : ℕ) :
    ∑ i : Fin T, (parsedBy fp T i : Multiset LogEntry) =
      (((readEntries fp T).map ParsedLine.toLogEntry : List LogEntry) : Multiset LogEntry) := by
  unfold parsedBy
  rw [Fin.sum_univ_eq_sum_range (fun i => (((readerThread fp (startByte fp T i)
    (endByte fp T i)).map ParsedLine.toLogEntry : List LogEntry) : Multiset LogEntry)) T,
    readEntries, List.map_flatMap, ← Multiset.coe_bind]
  rfl

/-- Where every line is read whole, the threads hand on what the lines parse to. -/
theorem entriesOf_lines {u : Setup R W} {contents : Fin R → CStr} {T : ℕ} (hT : 1 ≤ T)
    (hread : ReadBy u contents T) (hwhole : ∀ r, ∀ l ∈ lines (contents r), ReadWhole l)
    (lv : Level) : entriesOf u lv = linesOf contents lv := by
  refine Finset.sum_congr rfl fun r _ => ?_
  have hperm : (u.files r : Multiset LogEntry) =
      (((lines (contents r)).filterMap lineEntry).map ParsedLine.toLogEntry : List LogEntry) := by
    rw [(hread.interleaves r).coe_eq_sum, readEntries_coe]
    exact Multiset.coe_eq_coe.mpr ((readEntries_of_readWhole (hwhole r) hT).map _)
  exact Multiset.coe_eq_coe.mpr ((Multiset.coe_eq_coe.mp hperm).filter _)

/-- **From the lines to the report.** Whatever the numbers of reader threads and workers and
whatever the schedule: in a run in which no push to a Region B gives up, each level is closed with
none of its data in Region A, and no `calloc` fails, an aggregator that has got all four levels and
exited has made all its readings of one and the same result, and that is what one scan of the lines
of the log files counts, where no line is longer than the readers' buffer. -/
theorem report_of_lines (u : RunSetup R W) {contents : Fin R → CStr} {T : ℕ} (hT : 1 ≤ T)
    (hread : ReadBy u.toSetup contents T)
    (hwhole : ∀ r, ∀ l ∈ lines (contents r), ReadWhole l) {s : Run R W}
    (h : (program u).ReachableIf AllKept s) (hx : s.aggregator = .exited)
    (hrec : ∀ lv, s.received lv = true) :
    s.seen = readings.map (fun r => (r, s.results)) ∧
      ∀ lv, (s.results lv).totals = analysis u.args lv (linesOf contents lv) := by
  obtain ⟨hseen, htotals⟩ := report_of_files h hx hrec
  exact ⟨hseen, fun lv => by rw [htotals, entriesOf_lines hT hread hwhole]⟩

/-- The log file of the one run. -/
def oneContents : Fin 1 → CStr := fun _ => cstr "[2026-03-01 10:00:00] [ERROR] [db] disk full\n"

/-- The run reads that file, keeps everything, and gets all four levels. -/
theorem oneRun_kept : ReadBy oneRun.toSetup oneContents 1 ∧
    (∀ r, ∀ l ∈ lines (oneContents r), ReadWhole l) ∧
    ∃ s, (program oneRun).ReachableIf AllKept s ∧ s.aggregator = .exited ∧
      ∀ lv, s.received lv = true := by
  have hread : ∀ r : Fin 1, ((delivery (parsedBy (oneContents r) 1) oneSlotA 1 Nat.one_pos).runs
      (delivery (parsedBy (oneContents r) 1) oneSlotA 1 Nat.one_pos).init
      ([.thread 0, .parser, .parser, .others oneSlotA, .thread 0, .parser] ++
        (List.replicate 4 [.parser, .others oneSlotA]).flatten ++ [.parser])).map
      (fun s => (s.proc.parser, s.pushed)) =
        some (.exited, oneRun.files r ++ Level.all.map eofEntry) := by
    decide +kernel
  have hshort : ∀ r, ((lines (oneContents r)).all fun l => l.length ≤ lineBufSize - 1) = true := by
    decide +kernel
  have h : ((program oneRun).runs (firstState oneRun) (oneRunStart ++ oneRunEnd)).map (fun s =>
      (s.aggregator, decide (∀ lv, s.received lv = true))) = some (.exited, true) := by
    decide +kernel
  obtain ⟨s, hs, h⟩ := Option.map_eq_some_iff.mp h
  obtain ⟨hx, hrec⟩ := Prod.mk.inj h
  refine ⟨fun r => ?_, fun r l hl => ?_, s, ?_, hx, of_decide_eq_true hrec⟩
  · obtain ⟨d, hd, he⟩ := Option.map_eq_some_iff.mp (hread r)
    obtain ⟨hexited, hpushed⟩ := Prod.mk.inj he
    exact ⟨oneSlotA, 1, Nat.one_pos, d, Machine.runs_reachable hd, hexited, hpushed⟩
  · exact readWhole_of_short (of_decide_eq_true (List.all_eq_true.mp (hshort r) l hl))
  · exact Machine.stepsIf_of_runs hs (by decide +kernel)

theorem report_of_lines_oneRun :
    ∃ s, (program oneRun).ReachableIf AllKept s ∧
      s.seen = readings.map (fun r => (r, s.results)) ∧
      ∀ lv, (s.results lv).totals = analysis diskArgs lv (linesOf oneContents lv) := by
  obtain ⟨hread, hwhole, s, hkept, hx, hrec⟩ := oneRun_kept
  exact ⟨s, hkept, report_of_lines oneRun le_rfl hread hwhole hkept hx hrec⟩

/-! ## The summary of the parent -/

/-- No `pthread_create` of an analyzer fails either. -/
def AllCreated (s : Run R W) (act : RunAct R W) : Prop :=
  AllKept s act ∧ ∀ lv, act ≠ .createFails lv

instance (s : Run R W) (act : RunAct R W) : Decidable (AllCreated s act) :=
  inferInstanceAs (Decidable (_ ∧ _))

/-- The main thread of an analyzer goes on to post. -/
def AnalyzerPc.OnTrack : AnalyzerPc → Prop
  | .abandoning _ _ => False
  | .gaveUp _ => False
  | _ => True

theorem onTrack (h : (program u).ReachableIf AllCreated s) (lv : Level) :
    (s.analyzers lv).OnTrack := by
  refine h.induct (I := fun s => ∀ lv, (s.analyzers lv).OnTrack) (fun _ => trivial)
    (fun s a s' hI hok hs lv' => ?_) lv
  have hset : ∀ {lv : Level} {pc : AnalyzerPc}, pc.OnTrack →
      (Function.update s.analyzers lv pc lv').OnTrack := by
    intro lv pc hpc
    exact (Function.forall_update_iff s.analyzers fun _ pc => pc.OnTrack).mpr
      ⟨hpc, fun lv _ => hI lv⟩ lv'
  cases runMove_of_step hs with
  | clear lv => exact hset trivial
  | publish lv => exact hset trivial
  | post lv => exact hset trivial
  | fail lv => exact absurd rfl (hok.2 lv)
  | main lv pc hgo =>
    refine hset ?_
    cases hgo with
    | abandon n k hpc =>
      have := hI lv
      rw [hpc] at this
      exact this.elim
    | giveUp n k hpc =>
      have := hI lv
      rw [hpc] at this
      exact this.elim
    | _ => trivial
  | _ => exact hI lv'

/-- An analyzer that has exited on its way has joined all its workers, and they have merged. -/
theorem merged_of_allExited (h : (program u).ReachableIf AllCreated s) (hx : s.allExited = true)
    (lv : Level) (w : Fin W) : s.threads lv w = .merged := by
  have hkept : (program u).ReachableIf AllKept s := h.mono fun _ _ hok => hok.1
  have hret : s.analyzers lv = .returned := by
    simp only [Run.allExited, Bool.and_eq_true] at hx
    have hlv := List.all_eq_true.mp hx.1.2 lv (Level.mem_all lv)
    have htrack := onTrack h lv
    cases hpc : s.analyzers lv with
    | returned => rfl
    | gaveUp n => rw [hpc] at htrack; exact htrack.elim
    | _ => rw [hpc] at hlv; cases hlv
  have hended := (reported_reachable h.reachable).published.joined lv w (by
    rw [hret]
    exact w.isLt)
  cases hw : s.threads lv w with
  | merged => rfl
  | failed => exact absurd hw (not_failed hkept lv w)
  | fresh => rw [hw] at hended; cases hended
  | running => rw [hw] at hended; cases hended

/-- **The summary is the analysis of the files**, at every level, whether or not the aggregator has
waited for it: the parent reads Region C when all its children have exited. -/
theorem summary_of_files (u : RunSetup R W) {s : Run R W}
    (h : (program u).ReachableIf AllCreated s) {r : Level → LevelResult}
    (hr : s.summary = some r) (lv : Level) :
    (r lv).totals = analysis u.args lv (entriesOf u.toSetup lv) := by
  refine h.induct_reachable (I := fun s => ∀ r, s.summary = some r →
    (r lv).totals = analysis u.args lv (entriesOf u.toSetup lv))
    (by simp [program, firstState]) (fun s a s' hreach hI hok hs => ?_) r hr
  cases runMove_of_step hs with
  | summarize hx =>
    intro r hr
    have hkept : (program u).ReachableIf AllKept s := hreach.mono fun _ _ hok => hok.1
    rw [← Option.some.inj hr]
    exact totals_of_files hkept (merged_of_allExited hreach hx lv)
  | _ => exact hI

theorem summary_of_files_oneRun :
    ∃ s r, (program oneRun).ReachableIf AllCreated s ∧ s.summary = some r ∧
      (r .error).totals = analysis diskArgs .error (entriesOf oneFile .error) := by
  have h : ((program oneRun).runs (firstState oneRun) (oneRunStart ++ oneRunEnd)).map (fun s =>
      s.summary.isSome) = some true := by decide +kernel
  obtain ⟨s, hs, h⟩ := Option.map_eq_some_iff.mp h
  obtain ⟨r, hr⟩ := Option.isSome_iff_exists.mp h
  have hkept : (program oneRun).ReachableIf AllCreated s :=
    Machine.stepsIf_of_runs hs (by decide +kernel)
  exact ⟨s, r, hkept, hr, summary_of_files oneRun hkept hr .error⟩

/-! ## The high-priority score -/

section RegionD

variable {u : Setup R W} {s s' : Pipeline R W} {act : Act R W}

/-- When Region D is done with, and what its thread has left there. -/
structure RegionDDone (s : Pipeline R W) : Prop where
  done : s.d.dispatcherDone = true → s.dispatcher = .returned
  stopped : s.aggregator = .stopped → s.d.dispatcherDone = true ∧ s.d.toList = []

theorem regionDPush_done {d d' : RegionD} {e : LogEntry} (h : regionDPush d e = some d') :
    d'.dispatcherDone = d.dispatcherDone := by
  obtain ⟨q, -, rfl⟩ := Option.map_eq_some_iff.mp h
  rfl

theorem regionDPop_done {d d' : RegionD} {e : LogEntry} (h : regionDPop d = some (e, d')) :
    d'.dispatcherDone = d.dispatcherDone := by
  obtain ⟨⟨x, q⟩, -, h'⟩ := Option.map_eq_some_iff.mp h
  obtain ⟨rfl, rfl⟩ := Prod.mk.inj h'
  rfl

/-- A step of the dispatcher, seen from Region D. -/
theorem dispatcherStep_done (hs : dispatcherStep u s = some s') :
    s.dispatcher ≠ .returned ∧ s'.aggregator = s.aggregator ∧
      (s'.d.dispatcherDone = true → s.d.dispatcherDone = true ∨ s'.dispatcher = .returned) := by
  unfold dispatcherStep at hs
  split at hs <;> rename_i hpc
  · split_ifs at hs <;> obtain rfl := Option.some.inj hs <;>
      exact ⟨by simp [hpc], rfl, Or.inl⟩
  · split at hs
    · cases hs
    · obtain rfl := Option.some.inj hs
      exact ⟨by simp [hpc], rfl, Or.inl⟩
  · split_ifs at hs <;> obtain rfl := Option.some.inj hs <;>
      exact ⟨by simp [hpc], rfl, Or.inl⟩
  · split at hs
    · cases hs
    · obtain rfl := Option.some.inj hs
      exact ⟨by simp [hpc], rfl, Or.inl⟩
  · split at hs <;> rename_i hd
    · split_ifs at hs
      obtain rfl := Option.some.inj hs
      exact ⟨by simp [hpc], rfl, Or.inl⟩
    · obtain rfl := Option.some.inj hs
      exact ⟨by simp [hpc], rfl, fun hdone => .inl ((regionDPush_done hd).symm.trans hdone)⟩
  · split at hs
    · split_ifs at hs
      obtain rfl := Option.some.inj hs
      exact ⟨by simp [hpc], rfl, Or.inl⟩
    · obtain rfl := Option.some.inj hs
      exact ⟨by simp [hpc], rfl, Or.inl⟩
  · obtain rfl := Option.some.inj hs
    exact ⟨by simp [hpc], rfl, Or.inl⟩
  · split_ifs at hs <;> obtain rfl := Option.some.inj hs <;>
      exact ⟨by simp [hpc], rfl, Or.inl⟩
  · split at hs
    · cases hs
    · obtain rfl := Option.some.inj hs
      exact ⟨by simp [hpc], rfl, Or.inl⟩
  · obtain rfl := Option.some.inj hs
    exact ⟨by simp [hpc], rfl, fun _ => .inr rfl⟩
  · cases hs

/-- A step of another thread leaves Region D and its thread alone, and the dispatcher where it is
unless it is one of its waits that expires. -/
theorem frame_of_other (hs : pipelineStep u s act = some s') (hd : act ≠ .dispatcher)
    (ha : act ≠ .aggregator) (hat : act ≠ .aggregatorTimeout) :
    s'.d = s.d ∧ s'.aggregator = s.aggregator ∧ s'.poppedD = s.poppedD ∧
      (s.dispatcher = .returned → s'.dispatcher = .returned) := by
  cases pipelineStep_move hs with
  | go act pc hg =>
    refine ⟨rfl, rfl, rfl, fun hret => ?_⟩
    cases hg <;> simp_all
  | giveUp entry hpc => exact ⟨rfl, rfl, rfl, fun hret => by rw [hpc] at hret; cases hret⟩
  | aggregate act g hact => exact (hact.elim ha hat).elim
  | popD => exact absurd rfl ha
  | popA => exact absurd rfl hd
  | sendEof => exact absurd rfl hd
  | pushD => exact absurd rfl hd
  | pushB => exact absurd rfl hd
  | forcedEof => exact absurd rfl hd
  | finish => exact absurd rfl hd
  | _ => exact ⟨rfl, rfl, rfl, id⟩

theorem regionD_step (h : RegionDDone s) (hok : act ≠ .aggregatorTimeout)
    (hs : pipelineStep u s act = some s') : RegionDDone s' := by
  by_cases hd : act = .dispatcher
  · subst hd
    obtain ⟨hne, hagg, hdone⟩ := dispatcherStep_done hs
    have hnot : ¬ s.d.dispatcherDone = true := fun hd => hne (h.done hd)
    refine ⟨fun hd => (hdone hd).resolve_left hnot, fun hstop => ?_⟩
    exact absurd (h.stopped (hagg ▸ hstop)).1 hnot
  by_cases ha : act = .aggregator
  · subst ha
    simp only [pipelineStep, aggregatorStep] at hs
    split at hs
    · split at hs <;> rename_i hpop
      · split_ifs at hs with hdone <;> obtain rfl := Option.some.inj hs
        · have hempty : s.d.toList = [] :=
            RingBuffer.pop_eq_none_iff.mp (Option.map_eq_none_iff.mp hpop)
          exact ⟨h.done, fun _ => ⟨hdone, hempty⟩⟩
        · exact ⟨h.done, by simp⟩
      · obtain rfl := Option.some.inj hs
        exact ⟨fun hd => h.done ((regionDPop_done hpop).symm.trans hd), by simp⟩
    · cases hs
  · obtain ⟨hdd, hagg, -, hret⟩ := frame_of_other hs hd ha hok
    refine ⟨fun hd => hret (h.done (hdd ▸ hd)), fun hstop => ?_⟩
    rw [hdd]
    exact h.stopped (hagg ▸ hstop)

theorem regionD_init : RegionDDone (initial u) where
  done := by simp [initial]
  stopped := by simp [initial]

/-- The thread that has stopped pops no more. -/
theorem stopped_step (hs : pipelineStep u s act = some s') (h : s.aggregator = .stopped) :
    s'.aggregator = .stopped ∧ s'.poppedD = s.poppedD := by
  by_cases hd : act = .dispatcher
  · subst hd
    refine ⟨(dispatcherStep_done hs).2.1.trans h, ?_⟩
    cases pipelineStep_move hs with
    | aggregate act g hact => rcases hact with hact | hact <;> cases hact
    | _ => rfl
  by_cases ha : act = .aggregator
  · subst ha
    simp [pipelineStep, aggregatorStep, h] at hs
  by_cases hat : act = .aggregatorTimeout
  · subst hat
    simp [pipelineStep, aggregatorTimeoutStep, h] at hs
  · obtain ⟨-, hagg, hpop, -⟩ := frame_of_other hs hd ha hat
    exact ⟨hagg.trans h, hpop⟩

/-- No push of the dispatcher gives up, a level is closed with none of its data in Region A, and the
thread that empties Region D does not give up waiting. -/
def KeptD (s : Pipeline R W) (act : Act R W) : Prop :=
  NoPushGivesUp s act ∧ Clean s act ∧ act ≠ .aggregatorTimeout

instance (s : Pipeline R W) (act : Act R W) : Decidable (KeptD s act) :=
  inferInstanceAs (Decidable (_ ∧ _ ∧ _))

/-- The priority data of the level's entries has come through Region D. -/
theorem poppedD_of_files (h : (pipeline u).ReachableIf KeptD s) (hstop : s.aggregator = .stopped)
    (lv : Level) : (dataOf lv s.poppedD : Multiset LogEntry) =
      (entriesOf u lv).filter fun e => isPriorityData u e = true := by
  have hkept : KeptState u s :=
    keptState_reachable (h.mono fun _ _ hok => ⟨hok.1.2, hok.2.1⟩)
  obtain ⟨hfed, hstopped⟩ : Fed u s ∧ RegionDDone s := by
    refine h.induct (I := fun s => Fed u s ∧ RegionDDone s) ⟨fed_init, regionD_init⟩
      fun s a s' hI hok hs => ?_
    exact ⟨fed_step hok.1 hI.1 hs, regionD_step hI.2 hok.2.2 hs⟩
  obtain ⟨hdone, hempty⟩ := hstopped.stopped hstop
  have hret := hstopped.done hdone
  have hdue : s.dispatcher.dueB = [] := by
    rw [hret]
    rfl
  have hD := hfed.fed lv
  rw [hempty, List.append_nil, hdue, show dataOf lv ([] : List LogEntry) = [] from rfl,
    List.append_nil] at hD
  rw [hD, ← hkept.pushedB (hkept.books.left (by rw [hret]; rfl) lv), Multiset.filter_coe]
  simp [priorityOf]

end RegionD

/-- The score is that of what was popped, once the aggregator has joined the thread. -/
theorem score_joined (h : (program u).Reachable s) :
    ((∃ rest, s.aggregator = .writing rest) ∨ s.aggregator = .exited) →
      s.pipeline.aggregator = .stopped ∧
        s.highPriorityScore = calcHighPriorityScore u.args s.pipeline.poppedD := by
  refine h.induct (I := fun s => ((∃ rest, s.aggregator = .writing rest) ∨ s.aggregator = .exited) →
      s.pipeline.aggregator = .stopped ∧
        s.highPriorityScore = calcHighPriorityScore u.args s.pipeline.poppedD)
    (by simp [program, firstState]) fun s a s' hI hs => ?_
  cases runMove_of_step hs with
  | flow act p hp =>
    intro hw
    obtain ⟨hstop, hscore⟩ := hI hw
    obtain ⟨hstop', hpop⟩ := stopped_step hp hstop
    exact ⟨hstop', by rw [hpop]; exact hscore⟩
  | receive => simp
  | waited => simp
  | expire => simp
  | highPriority hpc hstop => exact fun _ => ⟨hstop, rfl⟩
  | read r rest hpc => exact fun _ => hI (.inl ⟨_, hpc⟩)
  | written hpc => exact fun _ => hI (.inl ⟨_, hpc⟩)
  | _ => exact hI

/-- **The high-priority score is that of the files.** In a run in which no push of the dispatcher
gives up, each level is closed with none of its data in Region A and no wait on Region D expires,
the score of an aggregator that has exited is what the keywords score in the entries of the priority
sources of all log files. -/
theorem high_priority_of_files (u : RunSetup R W) {s : Run R W}
    (h : (program u).ReachableIf (Lifted KeptD) s) (hx : s.aggregator = .exited) :
    s.highPriorityScore = ∑ lv, (((entriesOf u.toSetup lv).filter fun e =>
      isPriorityData u.toSetup e = true).map (hitsOf u.args)).sum * getLevelWeight lv := by
  obtain ⟨hstop, hscore⟩ := score_joined h.reachable (.inr hx)
  have hpipe := pipeline_reachableIf h
  have hdata : ∀ e ∈ s.pipeline.poppedD, e.isEof = false := by
    have hfed : Fed u.toSetup s.pipeline :=
      hpipe.induct fed_init fun s a s' hI hok hs => fed_step hok.1 hI hs
    exact fun e hmem => hfed.data e (List.mem_append_left _ hmem)
  have hall : (s.pipeline.poppedD.filter fun e => !e.isEof) = s.pipeline.poppedD :=
    List.filter_eq_self.mpr fun e hmem => by simp [hdata e hmem]
  rw [hscore, calcHighPriorityScore, hpScoreLoop_eq u.keywords_ne, Nat.zero_add, hall,
    sum_by_level hdata]
  refine Finset.sum_congr rfl fun lv _ => ?_
  rw [← poppedD_of_files hpipe hstop lv, Multiset.map_coe, Multiset.sum_coe,
    ← List.sum_map_mul_right]
  refine congrArg List.sum (List.map_congr_left fun e hmem => ?_)
  rw [(isDataOf_iff.mp (List.of_mem_filter hmem)).2]
  rfl

theorem high_priority_of_files_oneRun :
    ∃ s, (program oneRun).ReachableIf (Lifted KeptD) s ∧ s.highPriorityScore = 8 ∧
      s.highPriorityScore = ∑ lv, (((entriesOf oneFile lv).filter fun e =>
        isPriorityData oneFile e = true).map (hitsOf diskArgs)).sum * getLevelWeight lv := by
  have h : ((program oneRun).runs (firstState oneRun) (oneRunStart ++ oneRunEnd)).map (fun s =>
      (s.aggregator, s.highPriorityScore)) = some (.exited, 8) := by decide +kernel
  obtain ⟨s, hs, h⟩ := Option.map_eq_some_iff.mp h
  obtain ⟨hx, hscore⟩ := Prod.mk.inj h
  have hkept : (program oneRun).ReachableIf (Lifted KeptD) s :=
    Machine.stepsIf_of_runs hs (by decide +kernel)
  exact ⟨s, hkept, hscore, high_priority_of_files oneRun hkept hx⟩

end Cse344.HW4
