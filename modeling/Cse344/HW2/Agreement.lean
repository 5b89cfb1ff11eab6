import Cse344.HW2.Search
import Cse344.HW2.Summary
import Mathlib.Data.Multiset.Basic

/-!
# When the parallel search agrees with the sequential one

The two paths of `create_workers` (`HW2/src/processes.c` 29-117): the parent searches a root without
subdirectories itself (`searchRootDirectly`), and otherwise deals the subdirectories to the workers
(`jobsOf`) and collects what they write (`Cse344.HW2.Collect`).

* `AgreesWith` is what the sequential traversal of the root would print, and `Agrees` that every run
  of `create_workers` ends by printing it.
* The parent's own search stores the number of matches as the number of files scanned.
* The workers search the subdirectories alone, so no file directly in the root is scanned.
* A worker whose matches do not fit in its match pipe never gets to report.

Results:
* `sum_shares`, `found_belowSubdirs`: the shares of the workers are the subdirectories, each once.
* `summary_of_workers`: what the workers' runs print are the figures of the files below them.
* **`agrees_iff`**: the three points above are the only obstacles.

Out of scope: directories that change during the run, more matches than the 1024 that
`g_all_matches` has room for, and the signals, which are in `Cse344.HW2.Interrupt`.
-/

namespace Cse344.HW2

open Cse344.Lib

/-! ## `create_workers` -/

/-- The workers `create_workers` forks. -/
def workersUsed (args : Args) (entries : List Entry) : ℕ :=
  checkNumSubdirs (rootSubdirs args.rootDir entries) args.numWorkers

def jobsOf (args : Args) (pids : ℕ → ℤ) (entries : List Entry) :
    Fin (workersUsed args entries) → Job := fun i =>
  recordMatchAndFile args (pids i) (workersUsed args entries) i
    (fillSubdirs args.rootDir entries (rootSubdirs args.rootDir entries))

/-- The summary of a root without subdirectories: `g_worker_files[0] = total_match_count`. -/
def searchRootDirectly (args : Args) (parentPid : ℤ) (entries : List Entry) : Summary where
  totalMatches := (searchDirectoryCollect args parentPid args.rootDir entries []).1
  totalFiles := (searchDirectoryCollect args parentPid args.rootDir entries []).2.length
  collected := (searchDirectoryCollect args parentPid args.rootDir entries []).2

/-- The path and size of a match. -/
def Match.report (m : Match) : CStr × ℤ := (m.path, m.size)

def FileAt.report (f : FileAt) : CStr × ℤ := (f.path, f.size)

/-- What a sequential search of `files` finds. -/
def found (args : Args) (files : List FileAt) : List (CStr × ℤ) :=
  (files.filter (FileAt.accepted args)).map FileAt.report

/-- The summary is that of the sequential traversal of the root. -/
structure AgreesWith (args : Args) (entries : List Entry) (r : Summary) : Prop where
  matches_eq : (r.collected.map Match.report).Perm (found args (allFiles args.rootDir entries))
  totalMatches_eq : r.totalMatches = (found args (allFiles args.rootDir entries)).length
  totalFiles_eq : r.totalFiles = (allFiles args.rootDir entries).length

/-- `create_workers` always gets to print the summary of the sequential traversal. -/
def Agrees (cap : Capacities) (args : Args) (parentPid : ℤ) (pids : ℕ → ℤ)
    (entries : List Entry) : Prop :=
  if rootSubdirs args.rootDir entries = 0 then
    AgreesWith args entries (searchRootDirectly args parentPid entries)
  else
    (collect cap (jobsOf args pids entries)).Terminates ∧
      ∀ s, (collect cap (jobsOf args pids entries)).Reachable s →
        (collect cap (jobsOf args pids entries)).Stuck s →
          s.parent = .done ∧ AgreesWith args entries s.summary

/-! ## The root's own files and its subdirectories -/

/-- The non-directory entries of the root itself. -/
def rootFiles (root : CStr) : List Entry → List FileAt
  | [] => []
  | .file name size :: es => ⟨join root name, name, size⟩ :: rootFiles root es
  | .dir _ _ :: es => rootFiles root es

/-- The files below the `j`-th subdirectory. -/
def filesAt (subdirs : List (CStr × List Entry)) (j : ℕ) : List FileAt :=
  match subdirs[j]? with
  | some (path, entries) => allFiles path entries
  | none => []

/-- The files below all subdirectories. -/
def belowSubdirs (subdirs : List (CStr × List Entry)) : List FileAt :=
  subdirs.flatMap fun d => allFiles d.1 d.2

variable {args : Args} {root : CStr} {entries : List Entry}

theorem PathsFit.tail {e : Entry} {es : List Entry} (h : PathsFit root (e :: es)) :
    PathsFit root es := fun p hp => h p (by simp [allPaths, hp])

theorem allFiles_perm : ∀ {entries : List Entry}, PathsFit root entries →
    (allFiles root entries).Perm (rootFiles root entries ++ belowSubdirs (subdirsOf root entries))
  | [], _ => by simp [allFiles, rootFiles, subdirsOf, belowSubdirs]
  | .file name size :: es, h => by
    simpa [allFiles, filesOf, rootFiles, subdirsOf, belowSubdirs, Entry.name] using
      allFiles_perm h.tail
  | .dir name sub :: es, h => by
    have hp : fullPath root name = join root name :=
      fullPath_eq (h _ (by simp [allPaths, Entry.name]))
    have ih := allFiles_perm h.tail
    simp only [allFiles, filesOf, rootFiles, subdirsOf, belowSubdirs, List.flatMap_cons, hp,
      Entry.name]
    refine (ih.append_left _).trans ?_
    rw [← List.append_assoc, ← List.append_assoc]
    exact List.perm_append_comm.append_right _

theorem rootSubdirs_eq_zero_iff : rootSubdirs root entries = 0 ↔ subdirsOf root entries = [] :=
  List.length_eq_zero_iff

theorem pathsFit_subdirs : ∀ {entries : List Entry}, PathsFit root entries →
    ∀ d ∈ subdirsOf root entries, PathsFit d.1 d.2
  | [], _, d, hd => by cases hd
  | .file _ _ :: es, h, d, hd => pathsFit_subdirs h.tail d hd
  | .dir name sub :: es, h, d, hd => by
    rw [subdirsOf, fullPath_eq (h _ (by simp [allPaths, Entry.name]))] at hd
    rcases List.mem_cons.mp hd with rfl | hd
    · exact fun p hp => h p (by simp [allPaths, pathsOf, Entry.name, hp])
    · exact pathsFit_subdirs h.tail d hd

/-! ## What the workers find -/

/-- The matches below the subdirectories dealt to worker `i`. -/
def shareMatches (args : Args) (n i : ℕ) (subdirs : List (CStr × List Entry)) : ℕ :=
  ((stride n subdirs.length i).map fun j => (found args (filesAt subdirs j)).length).sum

theorem foldl_append (scans : List Scan) (a : Scan) :
    scans.foldl Scan.append a =
      { total := a.total + (scans.map Scan.total).sum
        filesScanned := a.filesScanned + (scans.map Scan.filesScanned).sum
        written := a.written ++ (scans.map Scan.written).flatten } := by
  induction scans generalizing a with
  | nil => simp
  | cons b scans ih =>
    rw [List.foldl_cons, ih]
    simp [Scan.append, Nat.add_assoc]

theorem workerScans_eq {subdirs : List (CStr × List Entry)} (h : ∀ d ∈ subdirs, PathsFit d.1 d.2)
    (pid : ℤ) (n i : ℕ) : workerScans args pid n i subdirs =
      (stride n subdirs.length i).map fun j => scanOf args pid (filesAt subdirs j) := by
  refine List.map_congr_left fun j _ => ?_
  unfold filesAt
  cases hd : subdirs[j]? with
  | none => rfl
  | some d => exact searchDirectory_spec args pid d.1 d.2 (h d (List.mem_of_getElem? hd))

theorem map_report_toMatch (pid : ℤ) (files : List FileAt) :
    (scanOf args pid files).written.map Match.report = found args files := by
  simp [scanOf, found, Match.report, FileAt.report, FileAt.toMatch]

theorem scanOf_total (pid : ℤ) (files : List FileAt) :
    (scanOf args pid files).total = (found args files).length := by simp [scanOf, found]

/-- A worker's job is what the traversal finds below its subdirectories. -/
theorem recordMatchAndFile_spec (args : Args) {subdirs : List (CStr × List Entry)}
    (h : ∀ d ∈ subdirs, PathsFit d.1 d.2) (pid : ℤ) (n i : ℕ) :
    (recordMatchAndFile args pid n i subdirs).matchCount = shareMatches args n i subdirs ∧
      (recordMatchAndFile args pid n i subdirs).filesScanned =
        ((stride n subdirs.length i).map fun j => (filesAt subdirs j).length).sum ∧
      (recordMatchAndFile args pid n i subdirs).written.map Match.report =
        ((stride n subdirs.length i).map fun j => found args (filesAt subdirs j)).flatten := by
  unfold recordMatchAndFile shareMatches
  simp only [workerScans_eq h, foldl_append, List.map_map]
  refine ⟨?_, ?_, ?_⟩
  · simp [Function.comp_def, scanOf_total]
  · simp [Function.comp_def, scanOf]
  · simp [Function.comp_def, List.map_flatten, map_report_toMatch]

theorem length_written {subdirs : List (CStr × List Entry)}
    (h : ∀ d ∈ subdirs, PathsFit d.1 d.2) (pid : ℤ) (n i : ℕ) :
    (recordMatchAndFile args pid n i subdirs).written.length = shareMatches args n i subdirs := by
  rw [← List.length_map Match.report, (recordMatchAndFile_spec args h pid n i).2.2,
    List.length_flatten, List.map_map]
  rfl

/-- The workers' shares together are all subdirectories. -/
theorem sum_shares {M : Type*} [AddCommMonoid M] {n : ℕ} (hn : 0 < n)
    (f : List FileAt → M) (subdirs : List (CStr × List Entry)) :
    ∑ i : Fin n, ((stride n subdirs.length i).map fun j => f (filesAt subdirs j)).sum =
      (subdirs.map fun d => f (allFiles d.1 d.2)).sum := by
  rw [sum_stride hn]
  induction subdirs with
  | nil => rfl
  | cons d subdirs ih =>
    rw [List.length_cons, Finset.sum_range_succ', List.map_cons, List.sum_cons, add_comm]
    exact congrArg (_ + ·) ih

theorem fillSubdirs_all (root : CStr) (entries : List Entry) :
    fillSubdirs root entries (rootSubdirs root entries) = subdirsOf root entries :=
  List.take_length

theorem found_belowSubdirs (subdirs : List (CStr × List Entry)) :
    found args (belowSubdirs subdirs) =
      (subdirs.map fun d => found args (allFiles d.1 d.2)).flatten := by
  induction subdirs with
  | nil => rfl
  | cons d subdirs ih =>
    unfold belowSubdirs at ih ⊢
    rw [List.flatMap_cons, List.map_cons, List.flatten_cons, ← ih]
    simp [found]

/-- The number of matches in all shares together. -/
theorem sum_shareMatches {n : ℕ} (hn : 0 < n) (subdirs : List (CStr × List Entry)) :
    ∑ i : Fin n, shareMatches args n i subdirs = (found args (belowSubdirs subdirs)).length := by
  unfold shareMatches
  rw [sum_shares hn (fun files => (found args files).length), found_belowSubdirs,
    List.length_flatten, List.map_map]
  rfl

theorem found_perm (args : Args) (hfit : PathsFit root entries) :
    (found args (allFiles root entries)).Perm (found args (rootFiles root entries) ++
      found args (belowSubdirs (subdirsOf root entries))) := by
  have h := ((allFiles_perm hfit).filter (FileAt.accepted args)).map FileAt.report
  simpa [found] using h

theorem coe_flatten {α : Type*} (ls : List (List α)) :
    (ls.flatten : Multiset α) = (ls.map fun l : List α => (l : Multiset α)).sum := by
  induction ls with
  | nil => rfl
  | cons l ls ih => rw [List.flatten_cons, ← Multiset.coe_add, ih, List.map_cons, List.sum_cons]

/-- **What the workers' runs print**: the figures of the files below the subdirectories. -/
theorem summary_of_workers {cap : Capacities} {pids : ℕ → ℤ}
    (hn : 0 < workersUsed args entries) (hfit : PathsFit args.rootDir entries)
    (hmax : (found args (allFiles args.rootDir entries)).length ≤ maxMatches)
    {s : Collect (workersUsed args entries)}
    (h : (collect cap (jobsOf args pids entries)).Reachable s) (hd : s.parent = .done) :
    (s.summary.collected.map Match.report).Perm
        (found args (belowSubdirs (subdirsOf args.rootDir entries))) ∧
      s.summary.totalMatches =
        (found args (belowSubdirs (subdirsOf args.rootDir entries))).length ∧
      s.summary.totalFiles = (belowSubdirs (subdirsOf args.rootDir entries)).length := by
  have hsub := pathsFit_subdirs hfit
  have hjob := fun i : Fin (workersUsed args entries) =>
    recordMatchAndFile_spec args hsub (pids i) (workersUsed args entries) i
  have hlen : ∑ i, (jobsOf args pids entries i).written.length =
      (found args (belowSubdirs (subdirsOf args.rootDir entries))).length := by
    simp only [jobsOf, fillSubdirs_all, length_written hsub]
    exact sum_shareMatches hn _
  have hroom : ∑ i, (jobsOf args pids entries i).written.length ≤ maxMatches := by
    have hle := (found_perm args hfit).length_eq
    rw [List.length_append] at hle
    omega
  obtain ⟨hm, hf, hc⟩ := summary_of_done hroom h hd
  simp only [jobsOf, fillSubdirs_all] at hm hf hc
  refine ⟨?_, ?_, ?_⟩
  · rw [← Multiset.coe_eq_coe, ← Multiset.map_coe, hc, ← Multiset.coe_mapAddMonoidHom, map_sum,
      Multiset.coe_mapAddMonoidHom]
    simp only [Multiset.map_coe, (hjob _).2.2, coe_flatten, List.map_map, found_belowSubdirs]
    exact sum_shares hn (fun files => (found args files : Multiset (CStr × ℤ))) _
  · rw [hm, ← sum_shareMatches hn]
    exact Finset.sum_congr rfl fun i _ => (hjob i).1
  · rw [hf, Finset.sum_congr rfl fun i _ => (hjob i).2.1, sum_shares hn List.length]
    simp [belowSubdirs, List.length_flatMap]

/-! ## The condition -/

/-- The search covers the root: it has no subdirectory and all its files match, or it has no file
of its own and every worker's matches fit in its match pipe. -/
def Covers (cap : Capacities) (args : Args) (entries : List Entry) : Prop :=
  (subdirsOf args.rootDir entries = [] ∧
      ∀ f ∈ rootFiles args.rootDir entries, f.accepted args = true) ∨
    (subdirsOf args.rootDir entries ≠ [] ∧ rootFiles args.rootDir entries = [] ∧
      ∀ i < workersUsed args entries,
        shareMatches args (workersUsed args entries) i (subdirsOf args.rootDir entries) ≤
          cap.matchPipe)

theorem searchRootDirectly_eq (hfit : PathsFit args.rootDir entries)
    (hmax : (found args (allFiles args.rootDir entries)).length ≤ maxMatches) (pid : ℤ) :
    (searchRootDirectly args pid entries).totalMatches =
        (found args (allFiles args.rootDir entries)).length ∧
      (searchRootDirectly args pid entries).totalFiles =
        (found args (allFiles args.rootDir entries)).length ∧
      (searchRootDirectly args pid entries).collected.map Match.report =
        found args (allFiles args.rootDir entries) := by
  have h := searchDirectoryCollect_spec args pid args.rootDir entries [] hfit
    (by rw [scanOf_total]; simpa using hmax)
  unfold searchRootDirectly
  simp only [h, List.nil_append, map_report_toMatch, scanOf_total, true_and, and_true]
  rw [← List.length_map Match.report, map_report_toMatch]

theorem agrees_direct (hz : subdirsOf args.rootDir entries = [])
    (hfit : PathsFit args.rootDir entries)
    (hmax : (found args (allFiles args.rootDir entries)).length ≤ maxMatches) (pid : ℤ) :
    AgreesWith args entries (searchRootDirectly args pid entries) ↔
      ∀ f ∈ rootFiles args.rootDir entries, f.accepted args = true := by
  obtain ⟨hm, hf, hc⟩ := searchRootDirectly_eq hfit hmax pid
  have hroot : (allFiles args.rootDir entries).Perm (rootFiles args.rootDir entries) := by
    simpa [hz, belowSubdirs] using allFiles_perm hfit
  have hall : (found args (allFiles args.rootDir entries)).length =
      (allFiles args.rootDir entries).length ↔
        ∀ f ∈ rootFiles args.rootDir entries, f.accepted args = true := by
    simp only [found, List.length_map, List.length_filter_eq_length_iff, hroot.mem_iff]
  constructor
  · intro h
    exact hall.mp (hf ▸ h.totalFiles_eq)
  · intro h
    exact ⟨by rw [hc], hm, by rw [hf, hall.mpr h]⟩

theorem agrees_workers {cap : Capacities} {pids : ℕ → ℤ}
    (hn : 0 < workersUsed args entries) (hfit : PathsFit args.rootDir entries)
    (hmax : (found args (allFiles args.rootDir entries)).length ≤ maxMatches) :
    ((collect cap (jobsOf args pids entries)).Terminates ∧
      ∀ s, (collect cap (jobsOf args pids entries)).Reachable s →
        (collect cap (jobsOf args pids entries)).Stuck s →
          s.parent = .done ∧ AgreesWith args entries s.summary) ↔
    rootFiles args.rootDir entries = [] ∧ ∀ i < workersUsed args entries,
      shareMatches args (workersUsed args entries) i (subdirsOf args.rootDir entries) ≤
        cap.matchPipe := by
  have hfits : Fits cap (jobsOf args pids entries) ↔ ∀ i < workersUsed args entries,
      shareMatches args (workersUsed args entries) i (subdirsOf args.rootDir entries) ≤
        cap.matchPipe := by
    simp only [Fits, jobsOf, fillSubdirs_all, length_written (pathsFit_subdirs hfit)]
    exact Fin.forall_iff
  rw [← hfits]
  constructor
  · rintro ⟨-, h⟩
    obtain ⟨t, ht, hstuck⟩ := exists_stuck cap (jobsOf args pids entries)
    obtain ⟨hd, hag⟩ := h t ht hstuck
    obtain ⟨-, -, hf⟩ := summary_of_workers hn hfit hmax ht hd
    have hlen := (allFiles_perm hfit).length_eq
    rw [List.length_append, ← hag.totalFiles_eq, hf] at hlen
    exact ⟨List.length_eq_zero_iff.mp (by omega),
      fun i => (exited_of_done (slotsOk_reachable ht) hd i).2⟩
  · rintro ⟨hroot, hfit'⟩
    refine ⟨collect_terminates _ _, fun s hs hstuck => ?_⟩
    have hd : s.parent = .done := by
      by_contra hne
      obtain ⟨a, s', ha⟩ := progress hfit' (slotsOk_reachable hs) fun hf => hne hf.1
      rw [show step cap (jobsOf args pids entries) s a = none from hstuck a] at ha
      cases ha
    obtain ⟨hc, hm, hf⟩ := summary_of_workers hn hfit hmax hs hd
    have hall := found_perm args hfit
    have hfiles := (allFiles_perm hfit).length_eq
    rw [hroot] at hall hfiles
    exact ⟨hd, hc.trans hall.symm, hm.trans hall.length_eq.symm, hf.trans hfiles.symm⟩

/-- **The parallel search agrees with the sequential one exactly when it covers the root.** -/
theorem agrees_iff (cap : Capacities) (parentPid : ℤ) (pids : ℕ → ℤ)
    (hworkers : 2 ≤ args.numWorkers ∧ args.numWorkers ≤ 8)
    (hfit : PathsFit args.rootDir entries)
    (hmax : (found args (allFiles args.rootDir entries)).length ≤ maxMatches) :
    Agrees cap args parentPid pids entries ↔ Covers cap args entries := by
  unfold Agrees Covers
  by_cases hz : subdirsOf args.rootDir entries = []
  · rw [if_pos (rootSubdirs_eq_zero_iff.mpr hz), agrees_direct hz hfit hmax]
    simp [hz]
  · have hn : 0 < workersUsed args entries := by
      have := mt rootSubdirs_eq_zero_iff.mp hz
      unfold workersUsed checkNumSubdirs
      split <;> omega
    rw [if_neg (mt rootSubdirs_eq_zero_iff.mp hz), agrees_workers hn hfit hmax]
    simp [hz]

def fileA : Name := ⟨cstr "a", by decide, by decide, by decide⟩

def dirD : Name := ⟨cstr "d", by decide, by decide, by decide⟩

/-- `-d r -n 2 -f a`. -/
def searchA : Args where
  rootDir := cstr "r"
  numWorkers := 2
  pattern := cstr "a"
  minSize := 0
  sFlag := false

theorem agrees_searchA :
    Agrees oneRecordPipes searchA 1 (fun _ => 2) [.dir dirD [.file fileA 5]] := by
  refine (agrees_iff oneRecordPipes 1 (fun _ => 2) (by decide) ?_ (by decide)).mpr
    (Or.inr ⟨?_, rfl, ?_⟩)
  · decide
  · exact List.cons_ne_nil _ _
  · decide +kernel

/-- The root `r` holds the file `a` and the empty directory `d`. -/
def rootWithFile : List Entry := [.file fileA 5, .dir dirD []]

/-- The only worker searches `r/d`, and the parent reports no file scanned. -/
theorem not_agrees_rootWithFile :
    ¬ Agrees oneRecordPipes searchA 1 (fun _ => 2) rootWithFile := by
  have hrun : ((collect oneRecordPipes (jobsOf searchA (fun _ => 2) rootWithFile)).runs
      (collect oneRecordPipes (jobsOf searchA (fun _ => 2) rootWithFile)).init
      [.parent, .parent, .worker ⟨0, by decide⟩, .worker ⟨0, by decide⟩, .worker ⟨0, by decide⟩,
        .parent, .parent, .parent, .parent, .parent, .parent]).map (fun s =>
        (s.summary.totalFiles, decide ((parentStep s).isNone ∧ ∀ i,
          (workerStep oneRecordPipes (jobsOf searchA (fun _ => 2) rootWithFile) s i).isNone))) =
      some (0, true) := by decide +kernel
  obtain ⟨s, hs, he⟩ := Option.map_eq_some_iff.mp hrun
  rw [Prod.mk.injEq, decide_eq_true_eq] at he
  obtain ⟨hf, hp, hw⟩ := he
  intro h
  unfold Agrees at h
  rw [if_neg (by decide)] at h
  have hstuck : (collect oneRecordPipes (jobsOf searchA (fun _ => 2) rootWithFile)).Stuck s := by
    intro a
    cases a with
    | parent => exact Option.isNone_iff_eq_none.mp hp
    | worker i => exact Option.isNone_iff_eq_none.mp (hw i)
  have htotal := (h.2 s (Machine.runs_reachable hs) hstuck).2.totalFiles_eq
  rw [hf] at htotal
  exact absurd htotal (by decide)

end Cse344.HW2
