import Cse344.HW4.EndToEnd
import Cse344.HW4.LogFormat
import Cse344.Lib.ExchangeSort
import Cse344.Lib.Separated

/-!
# The text file of HW4

Model of `sort_results` and `write_txt_output` (`HW4/src/processes/aggregator.c` 64-140).

* Each piece of the text is made of what Region C held when it was written (`Reading`).
* A score is a `double` that holds an integer, so that `%.1f` writes it with `.0`. The `level` of a
  result is its name, as `run_analyzer` sets it before anything else.
* `sort_results` is an exchange sort of the four indices by falling scores.
* `readReport` reads the text back: the two totals, and the four lines of the table split at blanks.

Results:
* `sortResults_byScore`: the order is that of falling scores.
* `readRow_scoresLine`, `readReport_writeTxtOutput`: the text reads back as what Region C held when
  each piece was written.
* **`txt_read_back`**: in every run, when the aggregator has got all four levels and exited, the
  text reads back as the final results: each level once, in the order of falling scores, and the
  total is the sum of the scores.
* **`txt_of_lines`**: where nothing is lost on the way, all waits succeed, no keyword has a line
  feed and the lines are read whole, it reads back as one scan of the lines of the log files.

Out of scope: a failing `fopen` or write, scores above `2 ^ 53`, and the binary file.
-/

namespace Cse344.HW4

open Cse344.Lib

variable {R W : ℕ}

/-! ## The order of the levels -/

/-- `order` before the loops of `sort_results`. -/
def levelAt : Fin 4 → Level
  | ⟨0, _⟩ => .error
  | ⟨1, _⟩ => .warn
  | ⟨2, _⟩ => .info
  | ⟨_ + 3, _⟩ => .debug

/-- The test of the inner loop. -/
def outscores (results : Level → LevelResult) (a b : Level) : Bool :=
  decide ((results b).totalWeightedScore < (results a).totalWeightedScore)

/-- `sort_results`; there the outer loop leaves out its last round, in which the inner one does
nothing. -/
def sortResults (results : Level → LevelResult) : Fin 4 → Level :=
  exchangeSort (outscores results) levelAt

/-- Each level once, none before one with a greater score. -/
structure ByScore (score : Level → ℕ) (order : Fin 4 → Level) : Prop where
  each : Function.Bijective order
  falling : Antitone fun i => score (order i)

theorem levelAt_bijective : Function.Bijective levelAt := by decide

theorem sortResults_byScore (results : Level → LevelResult) :
    ByScore (fun lv => (results lv).totalWeightedScore) (sortResults results) := by
  constructor
  · obtain ⟨σ, hσ⟩ := exchangeSort_perm (outscores results) levelAt
    unfold sortResults
    rw [hσ]
    exact levelAt_bijective.comp σ.bijective
  · have hrank : ∀ a b, outscores results a b = true ↔
        OrderDual.toDual (results a).totalWeightedScore <
          OrderDual.toDual (results b).totalWeightedScore := fun a b => by simp [outscores]
    have h := exchangeSort_sorted hrank levelAt
    exact fun i j hij => OrderDual.toDual_le_toDual.mp (h hij)

/-! ## The text -/

/-- `%-5s` and its like. -/
def padRight (width : ℕ) (text : CStr) : CStr := text ++ blanks (width - text.length)

/-- `%7ld` and its like. -/
def padLeft (width : ℕ) (text : CStr) : CStr := blanks (width - text.length) ++ text

/-- `%.1f` of an integer. -/
def tenths (v : ℕ) : CStr := decimal v ++ cstr ".0"

/-- The line of a level in the table. -/
def scoresLine (args : Args) (lv : Level) (r : LevelResult) : CStr :=
  padRight 5 (levelText lv) ++ blanks 2 ++ padLeft 7 (decimal r.totalEntries) ++ blanks 2 ++
    padLeft 14 (tenths r.totalWeightedScore) ++
    (List.range args.keywords.length).flatMap fun k =>
      blanks 2 ++ padLeft 10 (tenths (r.perKeywordScore k))

def sourcesLine (lv : Level) (r : LevelResult) : CStr :=
  padRight 5 (levelText lv) ++ (List.finRange 3).flatMap fun j =>
    if (r.top j).key.bytes ≠ [] then
      cstr " " ++ (r.top j).key.bytes ++ cstr ":" ++ decimal (r.top j).value
    else []

def threadsLine (W : ℕ) (lv : Level) (r : LevelResult) : CStr :=
  padRight 5 (levelText lv) ++ (List.range W).flatMap fun w =>
    cstr " thread_" ++ decimal (w : ℕ) ++ cstr ":" ++ tenths (r.perThreadScore w)

/-- The head of the text, up to the names of the columns. -/
def headLines (args : Args) (fileCount total highPriority : ℕ) : List CStr :=
  [cstr "KEYWORD_LIST: " ++ (cstr ",").intercalate args.keywords,
    cstr "FILES: " ++ decimal fileCount,
    cstr "TOTAL_WEIGHTED_SCORE: " ++ tenths total,
    cstr "HIGH_PRIORITY_SCORE: " ++ tenths highPriority,
    cstr "# Levels sorted by total_weighted_score DESC",
    padRight 5 (cstr "LEVEL") ++ blanks 2 ++ padLeft 7 (cstr "ENTRIES") ++ blanks 2 ++
      padLeft 14 (cstr "WEIGHTED_SCORE") ++
      args.keywords.flatMap fun word => blanks 2 ++ padLeft 10 word]

/-- The sum of the scores, `ERROR` first. -/
def totalWeighted (results : Level → LevelResult) : ℕ :=
  (Level.all.map fun lv => (results lv).totalWeightedScore).sum

/-- `write_txt_output`, where `c` is what Region C held at each reading. -/
def writeTxtOutput (args : Args) (fileCount W highPriority : ℕ)
    (c : Reading → Level → LevelResult) : CStr :=
  let order := sortResults (c .order)
  let text (lines : List CStr) : CStr := (lines.map (· ++ newline)).flatten
  text (headLines args fileCount (totalWeighted (c .txtTotal)) highPriority) ++
    text ((List.finRange 4).map fun si =>
      scoresLine args (order si) (c (.txtScores si) (order si))) ++
    (text [cstr "# Top-3 sources per level"] ++
    text ((List.finRange 4).map fun si => sourcesLine (order si) (c (.txtSources si) (order si))) ++
    text [cstr "# Per-thread contributions (weighted score)"] ++
    text ((List.finRange 4).map fun si =>
      threadsLine W (order si) (c (.txtThreads si) (order si))))

/-! ## Reading it back -/

/-- A line of the table. -/
structure Row where
  level : Level
  totalEntries : ℕ
  totalWeightedScore : ℕ
  perKeywordScore : List ℕ
  deriving DecidableEq, Repr

structure TxtReport where
  total : ℕ
  highPriority : ℕ
  rows : List Row
  deriving DecidableEq, Repr

/-- The integer in front of the point. -/
def readTenths (text : CStr) : ℕ := digitsValue (text.takeWhile isdigit)

def readRow (line : CStr) : Option Row :=
  match tokensOf (blanks 1 ++ newline) line with
  | level :: entries :: score :: rest =>
    (parseLevelStr level).map fun lv =>
      { level := lv
        totalEntries := digitsValue entries
        totalWeightedScore := readTenths score
        perKeywordScore := rest.map readTenths }
  | _ => none

def readReport (text : CStr) : Option TxtReport := do
  let total ← scanLiteral (cstr "TOTAL_WEIGHTED_SCORE: ") ((lines text).getD 2 [])
  let highPriority ← scanLiteral (cstr "HIGH_PRIORITY_SCORE: ") ((lines text).getD 3 [])
  let rows ← (((lines text).drop 6).take 4).mapM readRow
  some { total := readTenths total, highPriority := readTenths highPriority, rows := rows }

/-! ## The table -/

/-- The columns of a line of the table behind its level, each with the blanks before it. -/
def scoresFields (args : Args) (lv : Level) (r : LevelResult) : List (CStr × CStr) :=
  (blanks (5 - (levelText lv).length) ++ (blanks 2 ++ blanks (7 - (decimal r.totalEntries).length)),
      decimal r.totalEntries) ::
    (blanks 2 ++ blanks (14 - (tenths r.totalWeightedScore).length), tenths r.totalWeightedScore) ::
    (List.range args.keywords.length).map fun k =>
      (blanks 2 ++ blanks (10 - (tenths (r.perKeywordScore k)).length),
        tenths (r.perKeywordScore k))

theorem scoresLine_eq (args : Args) (lv : Level) (r : LevelResult) : scoresLine args lv r =
    levelText lv ++ (scoresFields args lv r).flatMap fun f => f.1 ++ f.2 := by
  simp only [scoresLine, scoresFields, padRight, padLeft, List.flatMap_cons, List.flatMap_map,
    List.append_assoc]

/-- What separates the columns. -/
def columnSep : List UInt8 := blanks 1 ++ newline

theorem mem_blanks {k : ℕ} {b : UInt8} (h : b ∈ blanks k) : b = 32 := (List.mem_replicate.mp h).2

theorem sep_of_mem_blanks {k : ℕ} {b : UInt8} (h : b ∈ blanks k) : b ∈ columnSep := by
  rw [mem_blanks h]
  decide

theorem isdigit_of_mem_decimal {v : ℕ} {b : UInt8} (h : b ∈ decimal v) : isdigit b = true :=
  isdigit_iff.mpr (mem_decimal_natCast h)

theorem mem_tenths {v : ℕ} {b : UInt8} (h : b ∈ tenths v) : isdigit b = true ∨ b = 46 := by
  rcases List.mem_append.mp h with h | h
  · exact .inl (isdigit_of_mem_decimal h)
  · have hpoint : ((cstr ".0").all fun c => isdigit c || c == 46) = true := by decide
    simpa using List.all_eq_true.mp hpoint b h

theorem not_sep_of_isdigit {b : UInt8} (h : isdigit b = true ∨ b = 46) : b ∉ columnSep := by
  rintro hb
  rcases (by simpa [columnSep, blanks, newline] using hb : b = 32 ∨ b = 10) with rfl | rfl <;>
    revert h <;> decide

theorem tenths_ne_nil (v : ℕ) : tenths v ≠ [] :=
  List.append_ne_nil_of_left_ne_nil (decimal_ne_nil v) _

theorem scoresFields_apart (args : Args) (lv : Level) (r : LevelResult) :
    ∀ f ∈ scoresFields args lv r, f.1 ≠ [] ∧ (∀ b ∈ f.1, b ∈ columnSep) ∧ f.2 ≠ [] ∧
      ∀ b ∈ f.2, b ∉ columnSep := by
  have htwo : ∀ {k : ℕ}, blanks 2 ++ blanks k ≠ [] :=
    List.append_ne_nil_of_left_ne_nil (by decide) _
  have hblank : ∀ {k : ℕ}, ∀ b ∈ blanks 2 ++ blanks k, b ∈ columnSep := fun b hb =>
    (List.mem_append.mp hb).elim sep_of_mem_blanks sep_of_mem_blanks
  intro f hf
  simp only [scoresFields, List.mem_cons, List.mem_map] at hf
  rcases hf with rfl | rfl | ⟨k, -, rfl⟩
  · refine ⟨List.append_ne_nil_of_right_ne_nil _ htwo, fun b hb => ?_, decimal_ne_nil _,
      fun b hb => not_sep_of_isdigit (.inl (isdigit_of_mem_decimal hb))⟩
    exact (List.mem_append.mp hb).elim sep_of_mem_blanks (hblank b)
  · exact ⟨htwo, hblank, tenths_ne_nil _, fun b hb => not_sep_of_isdigit (mem_tenths hb)⟩
  · exact ⟨htwo, hblank, tenths_ne_nil _, fun b hb => not_sep_of_isdigit (mem_tenths hb)⟩

theorem readTenths_tenths (v : ℕ) (rest : CStr) : readTenths (tenths v ++ rest) = v := by
  have hdigits : (tenths v ++ rest).takeWhile isdigit = decimal v := by
    rw [tenths, List.append_assoc,
      List.takeWhile_append_of_pos fun b hb => isdigit_of_mem_decimal hb]
    exact List.append_nil _
  rw [readTenths, hdigits, digitsValue_decimal]

/-- What the table says of a level. -/
def rowOf (args : Args) (lv : Level) (x : LevelTotals) : Row where
  level := lv
  totalEntries := x.totalEntries
  totalWeightedScore := x.totalWeightedScore
  perKeywordScore := (List.range args.keywords.length).map x.perKeywordScore

/-- **A line of the table reads back.** -/
theorem readRow_scoresLine (args : Args) (lv : Level) (r : LevelResult) :
    readRow (scoresLine args lv r ++ newline) = some (rowOf args lv r.totals) := by
  have hnewline : ∀ b ∈ newline, b ∈ columnSep := fun b hb => List.mem_append_right _ hb
  obtain ⟨htokens, hhead⟩ := tokensOf_fields hnewline (scoresFields_apart args lv r)
  have hname : ∀ b ∈ levelText lv, b ∉ columnSep := by
    have hletters : ((levelText lv).all fun b => !columnSep.contains b) = true := by
      cases lv <;> decide
    exact fun b hb => by simpa using List.all_eq_true.mp hletters b hb
  have hline : tokensOf (blanks 1 ++ newline) (scoresLine args lv r ++ newline) =
      levelText lv :: (scoresFields args lv r).map Prod.snd := by
    rw [scoresLine_eq, List.append_assoc]
    exact (tokensOf_token (by cases lv <;> decide) hname hhead).trans (by rw [htokens])
  have htenths : ∀ v, readTenths (tenths v) = v := fun v => by
    simpa using readTenths_tenths v []
  unfold readRow
  rw [hline]
  simp only [scoresFields, List.map_cons, List.map_map, parseLevelStr_iff.mpr rfl, Option.map_some]
  rw [digitsValue_decimal, htenths]
  simp only [rowOf, LevelResult.totals, Option.some.injEq, Row.mk.injEq, true_and]
  exact List.map_congr_left fun k _ => htenths _

/-! ## The lines of the text -/

theorem plain_blanks (k : ℕ) : Plain (blanks k) := by
  intro b hb
  rw [mem_blanks hb]
  decide

theorem plain_padRight (width : ℕ) {text : CStr} (h : Plain text) : Plain (padRight width text) :=
  h.append (plain_blanks _)

theorem plain_padLeft (width : ℕ) {text : CStr} (h : Plain text) : Plain (padLeft width text) :=
  (plain_blanks _).append h

theorem plain_tenths (v : ℕ) : Plain (tenths v) := (plain_decimal _).append (by decide)

theorem plain_scoresLine (args : Args) (lv : Level) (r : LevelResult) :
    Plain (scoresLine args lv r) := by
  have hname : Plain (levelText lv) := by cases lv <;> decide
  have hrow := ((((plain_padRight 5 hname).append (plain_blanks 2)).append
    (plain_padLeft 7 (plain_decimal r.totalEntries))).append (plain_blanks 2)).append
    (plain_padLeft 14 (plain_tenths r.totalWeightedScore))
  refine hrow.append fun b hb => ?_
  obtain ⟨k, -, hb⟩ := List.mem_flatMap.mp hb
  exact (plain_blanks 2).append (plain_padLeft 10 (plain_tenths _)) b hb

theorem lf_notMem_of_plain {text : CStr} (h : Plain text) : lf ∉ text := fun hlf =>
  h.ne_newline lf hlf rfl

theorem lf_notMem_append {a b : CStr} (ha : lf ∉ a) (hb : lf ∉ b) : lf ∉ a ++ b := fun h =>
  (List.mem_append.mp h).elim ha hb

theorem lf_notMem_headLines {args : Args} (hkw : ∀ word ∈ args.keywords, lf ∉ word)
    (fileCount total highPriority : ℕ) :
    ∀ line ∈ headLines args fileCount total highPriority, lf ∉ line := by
  have hlist : lf ∉ (cstr ",").intercalate args.keywords := fun h =>
    (mem_intercalate h).elim (by decide) fun ⟨word, hword, hlf⟩ => hkw word hword hlf
  have hcolumns : lf ∉ args.keywords.flatMap fun word => blanks 2 ++ padLeft 10 word := by
    intro h
    obtain ⟨word, hword, h⟩ := List.mem_flatMap.mp h
    have hblanks : ∀ k, lf ∉ blanks k := fun k => lf_notMem_of_plain (plain_blanks k)
    exact lf_notMem_append (hblanks 2) (lf_notMem_append (hblanks _) (hkw word hword)) h
  intro line hline
  simp only [headLines, List.mem_cons, List.not_mem_nil, or_false] at hline
  rcases hline with rfl | rfl | rfl | rfl | rfl | rfl
  · exact lf_notMem_append (by decide) hlist
  · exact lf_notMem_append (by decide) (lf_notMem_of_plain (plain_decimal _))
  · exact lf_notMem_append (by decide) (lf_notMem_of_plain (plain_tenths _))
  · exact lf_notMem_append (by decide) (lf_notMem_of_plain (plain_tenths _))
  · decide
  · exact lf_notMem_append (by decide) hcolumns

/-- The first ten lines of the text. -/
theorem lines_writeTxtOutput {args : Args} (hkw : ∀ word ∈ args.keywords, lf ∉ word)
    (fileCount W highPriority : ℕ) (c : Reading → Level → LevelResult) :
    ∃ rest, lines (writeTxtOutput args fileCount W highPriority c) =
      (headLines args fileCount (totalWeighted (c .txtTotal)) highPriority).map (· ++ newline) ++
        (((List.finRange 4).map fun si => scoresLine args (sortResults (c .order) si)
          (c (.txtScores si) (sortResults (c .order) si))).map (· ++ newline) ++ rest) := by
  have hrows : ∀ line ∈ (List.finRange 4).map fun si => scoresLine args (sortResults (c .order) si)
      (c (.txtScores si) (sortResults (c .order) si)), lf ∉ line := by
    intro line hline
    obtain ⟨si, -, rfl⟩ := List.mem_map.mp hline
    exact lf_notMem_of_plain (plain_scoresLine _ _ _)
  unfold writeTxtOutput
  dsimp only
  rw [List.append_assoc, show newline = [lf] from rfl,
    lines_append (lf_notMem_headLines hkw _ _ _), lines_append hrows]
  exact ⟨_, rfl⟩

theorem mapM_some {α β : Type} {f : α → Option β} {g : α → β} :
    ∀ {l : List α}, (∀ a ∈ l, f a = some (g a)) → l.mapM f = some (l.map g)
  | [], _ => rfl
  | a :: l, h => by
    have hl : ∀ b ∈ l, f b = some (g b) := fun b hb => h b (List.mem_cons_of_mem _ hb)
    rw [List.mapM_cons, h a List.mem_cons_self, mapM_some hl]
    rfl

/-- **The text reads back** as what Region C held when each piece was written. -/
theorem readReport_writeTxtOutput {args : Args} (hkw : ∀ word ∈ args.keywords, lf ∉ word)
    (fileCount W highPriority : ℕ) (c : Reading → Level → LevelResult) :
    readReport (writeTxtOutput args fileCount W highPriority c) =
      some { total := totalWeighted (c .txtTotal)
             highPriority := highPriority
             rows := (List.finRange 4).map fun si => rowOf args (sortResults (c .order) si)
               (c (.txtScores si) (sortResults (c .order) si)).totals } := by
  obtain ⟨rest, hlines⟩ := lines_writeTxtOutput hkw fileCount W highPriority c
  have hrows : (((List.finRange 4).map fun si => scoresLine args (sortResults (c .order) si)
      (c (.txtScores si) (sortResults (c .order) si))).map (· ++ newline)).mapM readRow =
      some ((List.finRange 4).map fun si => rowOf args (sortResults (c .order) si)
        (c (.txtScores si) (sortResults (c .order) si)).totals) := by
    rw [List.map_map, List.mapM_map]
    exact mapM_some fun si _ => readRow_scoresLine ..
  unfold readReport
  rw [hlines, List.drop_left' (by simp [headLines]), List.take_left' (by simp), hrows]
  simp only [headLines, List.map_cons, List.cons_append, List.getD_cons_succ, List.getD_cons_zero,
    List.append_assoc, scanLiteral_append, readTenths_tenths, Option.bind_eq_bind, Option.bind_some]

/-! ## The file of a run -/

/-- What Region C held at a reading of the aggregator. -/
def Run.held (s : Run R W) (r : Reading) : Level → LevelResult :=
  ((s.seen.find? fun x => x.1 = r).map Prod.snd).getD fun _ => noResult

/-- What the aggregator of a run has written to its text file. -/
def Run.txtFile (u : RunSetup R W) (s : Run R W) : CStr :=
  writeTxtOutput u.args R W s.highPriorityScore s.held

/-- What the text file says when each level `lv` comes to `x lv`, and the levels are in `order`. -/
def reportOf (args : Args) (highPriority : ℕ) (x : Level → LevelTotals) (order : Fin 4 → Level) :
    TxtReport where
  total := (Level.all.map fun lv => (x lv).totalWeightedScore).sum
  highPriority := highPriority
  rows := (List.finRange 4).map fun si => rowOf args (order si) (x (order si))

variable {u : RunSetup R W} {s : Run R W}

theorem held_of_seen (h : s.seen = readings.map fun r => (r, s.results)) {r : Reading}
    (hr : r ∈ readings) : s.held r = s.results := by
  have hfound : (s.seen.find? fun x => x.1 = r).isSome = true := by
    rw [List.find?_isSome, h]
    exact ⟨(r, s.results), List.mem_map_of_mem hr, by simp⟩
  obtain ⟨x, hx⟩ := Option.isSome_iff_exists.mp hfound
  have hmem := List.mem_of_find?_eq_some hx
  rw [h] at hmem
  obtain ⟨r', -, rfl⟩ := List.mem_map.mp hmem
  rw [Run.held, hx]
  rfl

/-- The text of an aggregator that has made all its readings of the final results. -/
theorem readReport_txtFile (hkw : ∀ word ∈ u.args.keywords, lf ∉ word)
    (h : s.seen = readings.map fun r => (r, s.results)) :
    readReport (s.txtFile u) = some (reportOf u.args s.highPriorityScore
      (fun lv => (s.results lv).totals) (sortResults s.results)) := by
  rw [Run.txtFile, readReport_writeTxtOutput hkw, held_of_seen h (by decide),
    held_of_seen h (by decide)]
  have hrows : ∀ si, s.held (.txtScores si) = s.results := fun si => held_of_seen h (by
    revert si
    decide)
  simp only [hrows]
  rfl

/-- **The text file says what was found.** In every run, when the aggregator has got all four levels
and has exited, its text file reads back as the results that stay in Region C: each level once, none
before one with a greater score, and the total is the sum of the scores. -/
theorem txt_read_back (u : RunSetup R W) (hkw : ∀ word ∈ u.args.keywords, lf ∉ word)
    {s : Run R W} (h : (program u).Reachable s) (hx : s.aggregator = .exited)
    (hrec : ∀ lv, s.received lv = true) :
    ∃ order, ByScore (fun lv => (s.results lv).totalWeightedScore) order ∧
      readReport (s.txtFile u) =
        some (reportOf u.args s.highPriorityScore (fun lv => (s.results lv).totals) order) :=
  ⟨sortResults s.results, sortResults_byScore s.results,
    readReport_txtFile hkw (seen_of_received h hx hrec)⟩

theorem txt_read_back_oneRun :
    ∃ s order, (program oneRun).runs (firstState oneRun) (oneRunStart ++ oneRunEnd) = some s ∧
      readReport (s.txtFile oneRun) =
        some (reportOf diskArgs s.highPriorityScore (fun lv => (s.results lv).totals) order) := by
  have h : ((program oneRun).runs (firstState oneRun) (oneRunStart ++ oneRunEnd)).map (fun s =>
      (s.aggregator, decide (∀ lv, s.received lv = true))) = some (.exited, true) := by
    decide +kernel
  obtain ⟨s, hs, h⟩ := Option.map_eq_some_iff.mp h
  obtain ⟨hx, hrec⟩ := Prod.mk.inj h
  obtain ⟨order, -, hread⟩ := txt_read_back oneRun (by decide) (Machine.runs_reachable hs) hx
    (of_decide_eq_true hrec)
  exact ⟨s, order, hs, hread⟩

/-- **From the log files to the text file.** Where no push to a Region B gives up, each level is
closed with none of its data in Region A and no `calloc` fails, the text file reads back as one scan
of the lines of the log files, whatever the threads and the schedule. -/
theorem txt_of_lines (u : RunSetup R W) {contents : Fin R → CStr} {T : ℕ} (hT : 1 ≤ T)
    (hread : ReadBy u.toSetup contents T)
    (hwhole : ∀ r, ∀ l ∈ lines (contents r), ReadWhole l)
    (hkw : ∀ word ∈ u.args.keywords, lf ∉ word) {s : Run R W}
    (h : (program u).ReachableIf AllKept s) (hx : s.aggregator = .exited)
    (hrec : ∀ lv, s.received lv = true) :
    ∃ order,
      ByScore (fun lv => (analysis u.args lv (linesOf contents lv)).totalWeightedScore) order ∧
      readReport (s.txtFile u) = some (reportOf u.args s.highPriorityScore
        (fun lv => analysis u.args lv (linesOf contents lv)) order) := by
  obtain ⟨hseen, htotals⟩ := report_of_files h hx hrec
  have hlines : (fun lv => (s.results lv).totals) =
      fun lv => analysis u.args lv (linesOf contents lv) := by
    funext lv
    rw [htotals, entriesOf_lines hT hread hwhole]
  have hscore : (fun lv => (s.results lv).totalWeightedScore) =
      fun lv => (analysis u.args lv (linesOf contents lv)).totalWeightedScore := by
    funext lv
    exact congrArg LevelTotals.totalWeightedScore (congrFun hlines lv)
  refine ⟨sortResults s.results, hscore ▸ sortResults_byScore s.results, ?_⟩
  rw [readReport_txtFile hkw hseen, hlines]

theorem txt_of_lines_oneRun :
    ∃ s order, (program oneRun).ReachableIf AllKept s ∧
      ByScore (fun lv => (analysis diskArgs lv (linesOf oneContents lv)).totalWeightedScore) order ∧
      readReport (s.txtFile oneRun) = some (reportOf diskArgs s.highPriorityScore
        (fun lv => analysis diskArgs lv (linesOf oneContents lv)) order) := by
  obtain ⟨hread, hwhole, s, hkept, hx, hrec⟩ := oneRun_kept
  obtain ⟨order, hsorted, htxt⟩ := txt_of_lines oneRun le_rfl hread hwhole (by decide) hkept hx hrec
  exact ⟨s, order, hkept, hsorted, htxt⟩

end Cse344.HW4
