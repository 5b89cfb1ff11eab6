import Cse344.HW4.Region
import Cse344.Lib.TopSlots

/-!
# An analyzer of HW4: its workers and their merges

Model of `get_level_weight`, `count_keyword`, `add_source_hit`, `tls_destructor` and the scoring
part of `worker_thread_func` (`HW4/src/processes/analyzer.c` 13-189).

* What a worker does with the entries it pops is private to it until its `tls_destructor` runs, and
  the destructors run one after the other under the mutex of Region C. So the analyzer of a level is
  its workers in the order of their destructors: a `Crew`.
* `processEntry` is what a worker does with an entry, `workerLoop` with all it pops. `mergeSource`
  is the loop of `tls_destructor` over the three slots, for one source of a worker.
* Scores are `double`s that hold integers; here they are natural numbers.

The definitions are all there is here; `Cse344.HW4.Totals` and `Cse344.HW4.TopSources` are about
them.

Out of scope: `tid`, `lowest_tid`, the barrier and the printed lines; the `calloc` of the thread's
data succeeds. `Cse344.HW4.Report` has the steps of the threads.
-/

namespace Cse344.HW4

open Cse344.Lib

/-- `MAX_KEYWORDS`. -/
def maxKeywords : ℕ := 8

/-- `MAX_WORKERS`. -/
def maxWorkers : ℕ := 64

/-- `MAX_TRACKED_SOURCES`. -/
def maxTrackedSources : ℕ := 256

/-- The part of `t_args` an analyzer reads, as `parse_keywords` leaves it. -/
structure Args where
  keywords : List CStr
  length_le : keywords.length ≤ maxKeywords

def getLevelWeight : Level → ℕ
  | .error => 4
  | .warn => 3
  | .info => 2
  | .debug => 1

theorem getLevelWeight_pos (lv : Level) : 0 < getLevelWeight lv := by cases lv <;> decide

/-- The loop of `count_keyword`: the places of `text` where `strncmp` finds the whole `word`. -/
def countFrom (word : CStr) : CStr → ℕ
  | [] => 0
  | c :: text => (if word.isPrefixOf (c :: text) then 1 else 0) + countFrom word text

def countKeyword (text word : CStr) : ℕ := if word.length = 0 then 0 else countFrom word text

/-- `t_source_entry`: `key` is its `source`, `value` its `hits`. -/
abbrev SourceEntry := Tally Source

/-- `t_tls_data`. -/
structure TlsData where
  keywordScores : ℕ → ℕ
  entryCount : ℕ
  totalScore : ℕ
  sources : List SourceEntry
  threadSlot : ℕ

/-- The loop of `add_source_hit`: add to the first entry of `source`, `none` when there is none. -/
def bumpSource (source : Source) (hits : ℕ) : List SourceEntry → Option (List SourceEntry)
  | [] => none
  | e :: rest =>
    if e.key = source then some (⟨e.key, e.value + hits⟩ :: rest)
    else (bumpSource source hits rest).map (e :: ·)

def addSourceHit (sources : List SourceEntry) (source : Source) (hits : ℕ) : List SourceEntry :=
  match bumpSource source hits sources with
  | some sources => sources
  | none =>
    if maxTrackedSources ≤ sources.length then sources
    else sources ++ [⟨source.strncpy, hits⟩]

/-! ## A worker -/

/-- The loop over the keywords, from keyword `i` on; returns the data and `total_hits`. -/
def scoreKeywords (weight : ℕ) (message : CStr) : List CStr → ℕ → TlsData → ℕ → TlsData × ℕ
  | [], _, tls, totalHits => (tls, totalHits)
  | word :: words, i, tls, totalHits =>
    let hits := countKeyword message word
    scoreKeywords weight message words (i + 1)
      { tls with
        keywordScores :=
          Function.update tls.keywordScores i (tls.keywordScores i + hits * weight)
        totalScore := tls.totalScore + hits * weight }
      (totalHits + hits)

/-- What a worker does with a data entry. -/
def processEntry (args : Args) (weight : ℕ) (tls : TlsData) (entry : LogEntry) : TlsData :=
  let scored := scoreKeywords weight entry.message args.keywords 0 tls 0
  let tls := { scored.1 with entryCount := scored.1.entryCount + 1 }
  if 0 < scored.2 then
    { tls with sources := addSourceHit tls.sources entry.source (scored.2 * weight) }
  else tls

/-- The loop of `worker_thread_func` over the entries it pops. -/
def workerLoop (args : Args) (weight : ℕ) : TlsData → List LogEntry → TlsData
  | tls, [] => tls
  | tls, entry :: rest =>
    if entry.isEof then tls else workerLoop args weight (processEntry args weight tls entry) rest

/-- The data of a new worker. -/
def newTls (workerId : ℕ) : TlsData where
  keywordScores := fun _ => 0
  entryCount := 0
  totalScore := 0
  sources := []
  threadSlot := workerId

/-- A worker, and the entries it pops. -/
structure Worker where
  workerId : ℕ
  popped : List LogEntry
  workerId_lt : workerId < maxWorkers
  parsed : ∀ e ∈ popped, e.isEof = false → e.Parsed

/-- The data of worker `w` when it leaves its loop. -/
def Worker.tls (args : Args) (lv : Level) (w : Worker) : TlsData :=
  workerLoop args (getLevelWeight lv) (newTls w.workerId) w.popped

/-! ## The merges -/

/-- `t_level_result`; `top j` is `top_source[j]` and `top_source_hits[j]`. -/
structure LevelResult where
  totalEntries : ℕ
  totalWeightedScore : ℕ
  perKeywordScore : ℕ → ℕ
  perThreadScore : ℕ → ℕ
  top : Fin 3 → SourceEntry

/-- The result after the `memset` of `run_analyzer`. -/
def noResult : LevelResult where
  totalEntries := 0
  totalWeightedScore := 0
  perKeywordScore := fun _ => 0
  perThreadScore := fun _ => 0
  top := fun _ => ⟨.empty, 0⟩

/-- The first slot of `source`. -/
def findSlot (top : Fin 3 → SourceEntry) (source : Source) : Option (Fin 3) :=
  if (top 0).key = source then some 0
  else if (top 1).key = source then some 1
  else if (top 2).key = source then some 2
  else none

/-- `min_idx` after its loop. -/
def minIdx (top : Fin 3 → SourceEntry) : Fin 3 :=
  let m := if (top 1).value < (top 0).value then 1 else 0
  if (top 2).value < (top m).value then 2 else m

/-- One round of the loop of `tls_destructor` over the worker's sources. -/
def mergeSource (top : Fin 3 → SourceEntry) (s : SourceEntry) : Fin 3 → SourceEntry :=
  match findSlot top s.key with
  | some j => Function.update top j ⟨(top j).key, (top j).value + s.value⟩
  | none =>
    if (top (minIdx top)).value < s.value then
      Function.update top (minIdx top) ⟨s.key.strncpy, s.value⟩
    else top

def tlsDestructor (args : Args) (r : LevelResult) (tls : TlsData) : LevelResult where
  perThreadScore :=
    if tls.threadSlot < maxWorkers then
      Function.update r.perThreadScore tls.threadSlot tls.totalScore
    else r.perThreadScore
  perKeywordScore := fun i =>
    if i < args.keywords.length then r.perKeywordScore i + tls.keywordScores i
    else r.perKeywordScore i
  totalEntries := r.totalEntries + tls.entryCount
  totalWeightedScore := r.totalWeightedScore + tls.totalScore
  top := tls.sources.foldl mergeSource r.top

/-- The workers of a level, in the order of their `tls_destructor` calls. -/
structure Crew where
  workers : List Worker
  nodup : (workers.map Worker.workerId).Nodup

/-- The result of level `lv` when all its workers have exited. -/
def levelResult (args : Args) (lv : Level) (c : Crew) : LevelResult :=
  c.workers.foldl (fun r w => tlsDestructor args r (w.tls args lv)) noResult

/-! ## What there is to count -/

/-- The data entries of a worker. -/
def Worker.entries (w : Worker) : List LogEntry := w.popped.takeWhile fun e => !e.isEof

/-- The data entries of a level. -/
def Crew.entries (c : Crew) : Multiset LogEntry :=
  (c.workers.map fun w => (w.entries : Multiset LogEntry)).sum

/-- The hits of all keywords in an entry's message. -/
def hitsOf (args : Args) (entry : LogEntry) : ℕ :=
  (args.keywords.map (countKeyword entry.message)).sum

end Cse344.HW4
