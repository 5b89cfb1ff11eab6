import Cse344.HW4.LogLine
import Mathlib.Algebra.Order.BigOperators.Group.List
import Mathlib.Algebra.Order.Ring.Nat
import Mathlib.Data.Multiset.Bind
import Mathlib.Algebra.BigOperators.Group.Finset.Basic

/-!
# Reading a log file of HW4 with several threads

Model of `find_line_start` and of the byte ranges of `run_reader` (`HW4/src/processes/reader.c`
14-28 and 41-144), and of `reader_thread_func` (`HW4/src/utils/reader_thread_fun.c` 14-62): what the
reader threads of one process push to the internal buffer.

* A thread reads a line where it starts in its range, in pieces of 1023 bytes, as long as a piece
  starts in the range; it takes every piece for a line of its own (36-43). So a line that is longer
  than a piece is read by one thread, and how much of it depends on where the range ends.
* `startByte` and `endByte` are the range of a thread; the last thread has what is left over.
* `ReadWhole` says of a line that it parses to what its first piece does, and no later piece is
  accepted.

Results:
* `readFrom_eq`, `readFrom_append`: one round of the loop, and the loop line by line.
* `readEntries_eq`: each line is read by the thread its first byte belongs to.
* **`thread_independent_iff`**: any number of threads push what the lines of the file parse to,
  exactly if every line is read whole.

Out of scope: the heartbeats, which are the subject of `Cse344.HW4.Watchdog`, and failing reads.
-/

namespace Cse344.HW4

open Cse344.Lib

/-- `sizeof(line)`. -/
def lineBufSize : ℕ := 1024

/-- `line[strcspn(line, "\r\n")] = '\0'`. -/
def lineText (line : CStr) : CStr := (ofBuffer line).takeWhile fun c => c != cr && c != lf

/-- What a line adds to the internal buffer. -/
def lineEntry (line : CStr) : Option ParsedLine :=
  if lineText line = [] then none else parseLogLine (lineText line)

def findLineStart (fp : CStr) (pos : ℕ) : ℕ :=
  if pos = 0 then 0
  else
    match fp.drop (pos - 1) with
    | [] => pos
    | c :: rest => if c = lf then pos else pos + (firstLine rest).length

/-- The loop of `reader_thread_func` at `pos`, with `rest` to read; `fuel` bounds its rounds. -/
def readLoop (endByte : ℕ) : ℕ → ℕ → CStr → List ParsedLine
  | 0, _, _ => []
  | fuel + 1, pos, rest =>
    if pos < endByte then
      match fgets lineBufSize rest with
      | [] => []
      | c :: line =>
        (lineEntry (c :: line)).toList ++
          readLoop endByte fuel (pos + (c :: line).length) (rest.drop (c :: line).length)
    else []

/-- Every round reads a byte, so `rest.length` rounds are enough. -/
def readFrom (endByte pos : ℕ) (rest : CStr) : List ParsedLine :=
  readLoop endByte rest.length pos rest

/-- What `reader_thread_func` pushes for its range. -/
def readerThread (fp : CStr) (startByte endByte : ℕ) : List ParsedLine :=
  let realStart := findLineStart fp startByte
  readFrom endByte realStart (fp.drop realStart)

/-- `chunk` in `run_reader`. -/
def chunk (fp : CStr) (T : ℕ) : ℕ := (fp.length + T - 1) / T

def startByte (fp : CStr) (T i : ℕ) : ℕ := i * chunk fp T

def endByte (fp : CStr) (T i : ℕ) : ℕ :=
  if fp.length < (i + 1) * chunk fp T ∨ i = T - 1 then fp.length else (i + 1) * chunk fp T

/-- What the `T` reader threads push. -/
def readEntries (fp : CStr) (T : ℕ) : List ParsedLine :=
  (List.range T).flatMap fun i => readerThread fp (startByte fp T i) (endByte fp T i)

/-- The threads push what one thread would, and what the lines of the file parse to. -/
structure ThreadIndependent (fp : CStr) (T : ℕ) : Prop where
  single : (readEntries fp T).Perm (readEntries fp 1)
  physical : (readEntries fp T).Perm ((lines fp).filterMap lineEntry)

/-- The `k`-th piece of a line. -/
def piece (line : CStr) (k : ℕ) : CStr := (line.drop (k * (lineBufSize - 1))).take (lineBufSize - 1)

/-- The line parses to what its first piece does, and no later piece is accepted. -/
structure ReadWhole (line : CStr) : Prop where
  first : lineEntry (piece line 0) = lineEntry line
  later : ∀ k, lineEntry (piece line (k + 1)) = none

/-! ## The loop of a thread -/

theorem lineEntry_nil : lineEntry [] = none := rfl

theorem readLoop_fuel (e : ℕ) : ∀ (fuel fuel' pos : ℕ) (rest : CStr), rest.length ≤ fuel →
    rest.length ≤ fuel' → readLoop e fuel pos rest = readLoop e fuel' pos rest := by
  have hnil : ∀ fuel pos, readLoop e fuel pos [] = [] := by
    intro fuel pos
    cases fuel with
    | zero => rfl
    | succ => simp [readLoop, fgets, firstLine]
  intro fuel
  induction fuel with
  | zero =>
    intro fuel' pos rest hf _
    obtain rfl := List.length_eq_zero_iff.mp (Nat.le_zero.mp hf)
    rw [hnil, hnil]
  | succ fuel ih =>
    intro fuel' pos rest hf hf'
    cases fuel' with
    | zero =>
      obtain rfl := List.length_eq_zero_iff.mp (Nat.le_zero.mp hf')
      rw [hnil, hnil]
    | succ fuel' =>
      rw [readLoop, readLoop]
      split_ifs
      · split
        · rfl
        · rename_i c line _
          have hdrop : (rest.drop (c :: line).length).length = rest.length - (line.length + 1) :=
            List.length_drop
          rw [ih fuel' _ _ (by omega) (by omega)]
      · rfl

/-- **One round of the loop.** -/
theorem readFrom_eq (e pos : ℕ) (rest : CStr) :
    readFrom e pos rest =
      if pos < e ∧ rest ≠ [] then
        (lineEntry (fgets lineBufSize rest)).toList ++
          readFrom e (pos + (fgets lineBufSize rest).length)
            (rest.drop (fgets lineBufSize rest).length)
      else [] := by
  unfold readFrom
  cases rest with
  | nil => simp [readLoop]
  | cons b rest =>
    have hne : fgets lineBufSize (b :: rest) ≠ [] := by
      rw [Ne, fgets_eq_nil (by decide)]
      exact List.cons_ne_nil b rest
    rw [List.length_cons, readLoop]
    simp only [ne_eq, List.cons_ne_nil, not_false_eq_true, and_true]
    split_ifs
    · split
      · rename_i hnil
        exact absurd hnil hne
      · rename_i c line hline
        rw [hline]
        congr 1
        refine readLoop_fuel e _ _ _ _ ?_ le_rfl
        rw [List.length_drop, List.length_cons, List.length_cons]
        omega
    · rfl

theorem readFrom_of_le {e pos : ℕ} (h : e ≤ pos) (rest : CStr) : readFrom e pos rest = [] := by
  rw [readFrom_eq, if_neg fun hlt => absurd hlt.1 (not_lt.mpr h)]

@[simp] theorem readFrom_nil (e pos : ℕ) : readFrom e pos [] = [] := by
  rw [readFrom_eq, if_neg fun hne => hne.2 rfl]

theorem fgets_line {l rest : CStr} (h : Line l rest) :
    fgets lineBufSize (l ++ rest) = piece l 0 := by
  rw [h.fgets_eq, piece, Nat.zero_mul, List.drop_zero]

/-- A line that fits in the buffer takes one round. -/
theorem readFrom_short {l rest : CStr} (h : Line l rest) {e pos : ℕ} (hpos : pos < e)
    (hl : l.length ≤ lineBufSize - 1) :
    readFrom e pos (l ++ rest) =
      (lineEntry (piece l 0)).toList ++ readFrom e (pos + l.length) rest := by
  have hne : l ++ rest ≠ [] := List.append_ne_nil_of_left_ne_nil h.ne_nil rest
  have hpiece : piece l 0 = l := by
    rw [piece, Nat.zero_mul, List.drop_zero, List.take_of_length_le hl]
  rw [readFrom_eq, if_pos ⟨hpos, hne⟩, fgets_line h, hpiece, List.drop_left]

/-- A longer one goes on with its second piece. -/
theorem readFrom_long {l rest : CStr} (h : Line l rest) {e pos : ℕ} (hpos : pos < e)
    (hl : lineBufSize - 1 < l.length) :
    readFrom e pos (l ++ rest) = (lineEntry (piece l 0)).toList ++
      readFrom e (pos + (lineBufSize - 1)) (l.drop (lineBufSize - 1) ++ rest) := by
  have hne : l ++ rest ≠ [] := List.append_ne_nil_of_left_ne_nil h.ne_nil rest
  have hlen : (piece l 0).length = lineBufSize - 1 := by
    rw [piece, Nat.zero_mul, List.drop_zero, List.length_take, min_eq_left hl.le]
  rw [readFrom_eq, if_pos ⟨hpos, hne⟩, fgets_line h, hlen, List.drop_append_of_le_length hl.le]

theorem piece_drop (l : CStr) (k : ℕ) : piece (l.drop (lineBufSize - 1)) k = piece l (k + 1) := by
  rw [piece, piece, List.drop_drop, Nat.succ_mul, Nat.add_comm]

theorem lineEntry_piece_of_le {l : CStr} {k : ℕ} (h : l.length ≤ k * (lineBufSize - 1)) :
    lineEntry (piece l k) = none := by
  rw [piece, List.drop_eq_nil_iff.mpr h, List.take_nil, lineEntry_nil]

/-- **The loop, line by line.** -/
theorem readFrom_append (e : ℕ) {l rest : CStr} (h : Line l rest) (pos : ℕ) :
    readFrom e pos (l ++ rest) = readFrom e pos l ++ readFrom e (pos + l.length) rest := by
  by_cases hpos : pos < e
  · by_cases hl : l.length ≤ lineBufSize - 1
    · have hone := readFrom_short h.alone hpos hl
      rw [List.append_nil, readFrom_nil, List.append_nil] at hone
      rw [readFrom_short h hpos hl, hone]
    · have hlong : lineBufSize - 1 < l.length := not_le.mp hl
      have hone := readFrom_long h.alone hpos hlong
      rw [List.append_nil, List.append_nil] at hone
      have hlen : pos + (lineBufSize - 1) + (l.drop (lineBufSize - 1)).length = pos + l.length := by
        rw [List.length_drop]
        omega
      rw [readFrom_long h hpos hlong, hone, readFrom_append e (h.drop hlong), hlen,
        List.append_assoc]
  · have hle : e ≤ pos := not_lt.mp hpos
    rw [readFrom_of_le hle, readFrom_of_le hle, readFrom_of_le (hle.trans (Nat.le_add_right _ _))]
    rfl
termination_by l.length
decreasing_by
  have hbuf : lineBufSize = 1024 := rfl
  rw [List.length_drop]
  omega

/-- A thread reads a line piece by piece. -/
theorem readFrom_pieces {l : CStr} (h : Line l []) {e pos : ℕ} (hpos : pos < e) :
    readFrom e pos l = (lineEntry (piece l 0)).toList ++
      readFrom e (pos + (lineBufSize - 1)) (l.drop (lineBufSize - 1)) := by
  by_cases hl : l.length ≤ lineBufSize - 1
  · have hone := readFrom_short h hpos hl
    rw [List.append_nil, readFrom_nil] at hone
    rw [hone, List.drop_eq_nil_iff.mpr hl, readFrom_nil]
  · have hone := readFrom_long h hpos (not_le.mp hl)
    rwa [List.append_nil, List.append_nil] at hone

theorem piece_nil (k : ℕ) : lineEntry (piece [] k) = none := by
  rw [piece, List.drop_nil, List.take_nil, lineEntry_nil]

/-- Where no piece is accepted, nothing is pushed. -/
theorem readFrom_none (e : ℕ) {l : CStr} (h : l = [] ∨ Line l [])
    (hnone : ∀ k, lineEntry (piece l k) = none) (pos : ℕ) : readFrom e pos l = [] := by
  rcases h with rfl | h
  · exact readFrom_nil e pos
  · by_cases hpos : pos < e
    · have hrest : readFrom e (pos + (lineBufSize - 1)) (l.drop (lineBufSize - 1)) = [] :=
        readFrom_none e (h.drop_or_nil _) (fun k => by rw [piece_drop, hnone]) _
      rw [readFrom_pieces h hpos, hnone, hrest]
      rfl
    · exact readFrom_of_le (not_lt.mp hpos) l
termination_by l.length
decreasing_by
  have hbuf : lineBufSize = 1024 := rfl
  have := List.length_pos_iff.mpr h.ne_nil
  rw [List.length_drop]
  omega

/-- A thread whose range holds all of a line reads all its pieces. -/
theorem none_of_readFrom {e pos : ℕ} {l : CStr} (h : l = [] ∨ Line l [])
    (he : pos + l.length ≤ e) (hnil : readFrom e pos l = []) (k : ℕ) :
    lineEntry (piece l k) = none := by
  rcases h with rfl | h
  · exact piece_nil k
  · have hlen := List.length_pos_iff.mpr h.ne_nil
    rw [readFrom_pieces h (by omega), List.append_eq_nil_iff, Option.toList_eq_nil_iff] at hnil
    cases k with
    | zero => exact hnil.1
    | succ k =>
      rw [← piece_drop]
      by_cases hl : l.length ≤ lineBufSize - 1
      · rw [List.drop_eq_nil_iff.mpr hl]
        exact piece_nil k
      · exact none_of_readFrom (h.drop_or_nil _) (by rw [List.length_drop]; omega) hnil.2 k

theorem ReadWhole.readFrom_eq {l : CStr} (hw : ReadWhole l) (h : Line l []) {e pos : ℕ}
    (hpos : pos < e) : readFrom e pos l = (lineEntry l).toList := by
  have hlater := readFrom_none e (h.drop_or_nil (lineBufSize - 1))
    (fun k => by rw [piece_drop, hw.later]) (pos + (lineBufSize - 1))
  rw [readFrom_pieces h hpos, hlater, hw.first, List.append_nil]

/-! ## The lines of a thread -/

theorem findLineStart_nil (pos : ℕ) : findLineStart [] pos = pos := by
  unfold findLineStart
  split_ifs with h
  · exact h.symm
  · rw [List.drop_nil]

/-- From a position in a line, `find_line_start` goes to its end. -/
theorem findLineStart_line {l rest : CStr} (h : Line l rest) {pos : ℕ} (h0 : 0 < pos)
    (hpos : pos ≤ l.length) : findLineStart (l ++ rest) pos = l.length := by
  have hlt : pos - 1 < l.length := by omega
  have hdrop : (l ++ rest).drop (pos - 1) = l.drop (pos - 1) ++ rest :=
    List.drop_append_of_le_length hlt.le
  have hfirst := (h.drop hlt).firstLine_eq
  have hlen : (l.drop (pos - 1)).length = l.length - (pos - 1) := List.length_drop
  rw [findLineStart, if_neg h0.ne', hdrop]
  cases hl : l.drop (pos - 1) with
  | nil =>
    rw [hl, List.length_nil] at hlen
    omega
  | cons c tail =>
    rw [hl, List.length_cons] at hlen
    rw [hl, List.cons_append, firstLine] at hfirst
    rw [List.cons_append]
    dsimp only
    split_ifs at hfirst ⊢ with hc
    · have htail : tail = [] := ((List.cons.inj hfirst).2).symm
      rw [htail, List.length_nil] at hlen
      omega
    · rw [(List.cons.inj hfirst).2]
      omega

/-- From a position after a line, it goes on as if the line were not there. -/
theorem findLineStart_append (l rest : CStr) {pos : ℕ} (hpos : l.length < pos) :
    findLineStart (l ++ rest) pos = l.length + findLineStart rest (pos - l.length) := by
  have hdrop : (l ++ rest).drop (pos - 1) = rest.drop (pos - l.length - 1) := by
    rw [List.drop_append, List.drop_eq_nil_iff.mpr (by omega), List.nil_append]
    congr 1
    omega
  rw [findLineStart, findLineStart, if_neg (by omega), if_neg (by omega), hdrop]
  split
  · omega
  · split_ifs <;> omega

/-- What a thread pushes of the line at `x.1`, when it starts at `start`. -/
def shareOf (e start : ℕ) (x : ℕ × CStr) : List ParsedLine :=
  if start ≤ x.1 then readFrom e x.1 x.2 else []

theorem shareOf_all {e start p : ℕ} {ls : List CStr} (h : start ≤ p) :
    (offsets p ls).flatMap (shareOf e start) = (offsets p ls).flatMap (shareOf e p) :=
  List.flatMap_congr fun x hx => by
    have hp := le_of_mem_offsets hx
    rw [shareOf, shareOf, if_pos (h.trans hp), if_pos hp]

/-- **A thread reads the lines that start in its range.** -/
theorem readFrom_findLineStart (e : ℕ) (fp : CStr) : ∀ p start,
    readFrom e (p + findLineStart fp start) (fp.drop (findLineStart fp start)) =
      (offsets p (lines fp)).flatMap (shareOf e (p + start)) := by
  induction fp using line_induction with
  | nil =>
    intro p start
    rw [findLineStart_nil, List.drop_nil, readFrom_nil]
    rfl
  | line l rest h ih =>
    intro p start
    have hall := ih (p + l.length) 0
    rw [findLineStart, if_pos rfl, List.drop_zero, Nat.add_zero] at hall
    rw [offsets_line h, List.flatMap_cons]
    rcases Nat.eq_zero_or_pos start with rfl | hpos
    · rw [findLineStart, if_pos rfl, List.drop_zero, Nat.add_zero, readFrom_append e h, hall,
        shareOf, if_pos le_rfl, shareOf_all (Nat.le_add_right p l.length)]
    · by_cases hle : start ≤ l.length
      · rw [findLineStart_line h hpos hle, List.drop_left, hall, shareOf,
          if_neg (by dsimp only; omega),
          shareOf_all (Nat.add_le_add_left hle p), List.nil_append]
      · have hlt : l.length < start := not_le.mp hle
        have hrest := ih (p + l.length) (start - l.length)
        have hsum : p + l.length + (start - l.length) = p + start := by omega
        rw [hsum] at hrest
        rw [findLineStart_append l rest hlt, List.drop_append, List.drop_eq_nil_iff.mpr (by omega),
          List.nil_append, ← Nat.add_assoc, Nat.add_sub_cancel_left, hrest, shareOf,
          if_neg (by dsimp only; omega), List.nil_append]

/-! ## The ranges -/

theorem le_mul_chunk (fp : CStr) {T : ℕ} (hT : 1 ≤ T) : fp.length ≤ T * chunk fp T := by
  have hdiv := Nat.div_add_mod (fp.length + T - 1) T
  have hmod := Nat.mod_lt (fp.length + T - 1) hT
  unfold chunk
  omega

theorem chunk_pos {fp : CStr} {T : ℕ} (hfp : 0 < fp.length) (hT : 1 ≤ T) : 0 < chunk fp T :=
  Nat.div_pos (by omega) hT

/-- A position in the file belongs to one range. -/
theorem div_chunk_lt {fp : CStr} {T p : ℕ} (hT : 1 ≤ T) (hp : p < fp.length) : p / chunk fp T < T :=
  Nat.div_lt_of_lt_mul (by
    rw [Nat.mul_comm]
    exact hp.trans_le (le_mul_chunk fp hT))

theorem lt_endByte {fp : CStr} {T p : ℕ} (hT : 1 ≤ T) (hp : p < fp.length) :
    p < endByte fp T (p / chunk fp T) := by
  unfold endByte
  split_ifs
  · exact hp
  · rw [Nat.mul_comm]
    exact Nat.lt_mul_div_succ p (chunk_pos (Nat.zero_lt_of_lt hp) hT)

theorem lt_length_of_mem {fp : CStr} {x : ℕ × CStr} (hx : x ∈ offsets 0 (lines fp)) :
    x.1 < fp.length := by
  obtain ⟨hline, hle⟩ := mem_offsets_lines hx
  have := List.length_pos_iff.mpr hline.ne_nil
  omega

/-- **Each line is read by the thread its first byte belongs to.** -/
theorem readEntries_eq (fp : CStr) {T : ℕ} (hT : 1 ≤ T) :
    (readEntries fp T : Multiset ParsedLine) =
      (offsets 0 (lines fp) : Multiset (ℕ × CStr)).bind fun x =>
        (readFrom (endByte fp T (x.1 / chunk fp T)) x.1 x.2 : Multiset ParsedLine) := by
  have hthread : ∀ i, readerThread fp (startByte fp T i) (endByte fp T i) =
      (offsets 0 (lines fp)).flatMap (shareOf (endByte fp T i) (startByte fp T i)) := fun i => by
    have := readFrom_findLineStart (endByte fp T i) fp 0 (startByte fp T i)
    rwa [Nat.zero_add, Nat.zero_add] at this
  rw [readEntries, ← Multiset.coe_bind]
  simp only [hthread, ← Multiset.coe_bind]
  rw [Multiset.bind_bind]
  refine Multiset.bind_congr fun x hx => ?_
  have hp : x.1 < fp.length := lt_length_of_mem hx
  have hc : 0 < chunk fp T := chunk_pos (Nat.zero_lt_of_lt hp) hT
  have hother : ∀ i ∈ Finset.range T, i ≠ x.1 / chunk fp T →
      (shareOf (endByte fp T i) (startByte fp T i) x : Multiset ParsedLine) = 0 := by
    intro i hi hne
    unfold shareOf startByte
    split_ifs with hle
    · have hlt : i < x.1 / chunk fp T :=
        lt_of_le_of_ne ((Nat.le_div_iff_mul_le hc).mpr hle) hne
      have hend : (i + 1) * chunk fp T ≤ x.1 := (Nat.le_div_iff_mul_le hc).mp hlt
      have hT' := div_chunk_lt hT hp
      have hlast : ¬ (fp.length < (i + 1) * chunk fp T ∨ i = T - 1) := by omega
      rw [endByte, if_neg hlast, readFrom_of_le hend]
      rfl
    · rfl
  have hsum := Finset.sum_eq_single_of_mem (x.1 / chunk fp T)
    (Finset.mem_range.mpr (div_chunk_lt hT hp)) hother
  have hshare : shareOf (endByte fp T (x.1 / chunk fp T)) (startByte fp T (x.1 / chunk fp T)) x =
      readFrom (endByte fp T (x.1 / chunk fp T)) x.1 x.2 := if_pos (Nat.div_mul_le_self _ _)
  rw [← hshare]
  exact hsum

/-! ## Which files -/

/-- What `f` makes of every line of a file. -/
theorem bind_offsets (f : CStr → Option ParsedLine) (fp : CStr) :
    ((offsets 0 (lines fp) : Multiset (ℕ × CStr)).bind fun x =>
      ((f x.2).toList : Multiset ParsedLine)) = ((lines fp).filterMap f : Multiset ParsedLine) := by
  rw [Multiset.coe_bind, List.filterMap_eq_flatMap_toList, ← map_snd_offsets 0 (lines fp),
    List.flatMap_map, map_snd_offsets]

/-- Where all lines are read whole, the threads push what the lines parse to. -/
theorem readEntries_of_readWhole {fp : CStr} (h : ∀ l ∈ lines fp, ReadWhole l) {T : ℕ}
    (hT : 1 ≤ T) :
    (readEntries fp T).Perm ((lines fp).filterMap lineEntry) := by
  rw [← Multiset.coe_eq_coe, readEntries_eq fp hT, ← bind_offsets]
  refine Multiset.bind_congr fun x hx => ?_
  have hmem : x.2 ∈ lines fp := by
    rw [← map_snd_offsets 0 (lines fp)]
    exact List.mem_map_of_mem hx
  rw [(h x.2 hmem).readFrom_eq (mem_offsets_lines hx).1 (lt_endByte hT (lt_length_of_mem hx))]

/-- With a thread for each byte, only the first pieces are read. -/
theorem readEntries_length {fp : CStr} (hfp : fp ≠ []) :
    (readEntries fp fp.length : Multiset ParsedLine) =
      ((lines fp).filterMap fun l => lineEntry (piece l 0) : Multiset ParsedLine) := by
  have hpos := List.length_pos_iff.mpr hfp
  have hchunk : chunk fp fp.length = 1 := by
    unfold chunk
    exact Nat.div_eq_of_lt_le (by omega) (by omega)
  rw [readEntries_eq fp hpos, ← bind_offsets]
  refine Multiset.bind_congr fun x hx => ?_
  have hp := lt_length_of_mem hx
  have hend : endByte fp fp.length (x.1 / chunk fp fp.length) = x.1 + 1 := by
    rw [endByte, hchunk, Nat.div_one, Nat.mul_one]
    split_ifs <;> omega
  have hbuf : lineBufSize = 1024 := rfl
  rw [hend, readFrom_pieces (mem_offsets_lines hx).1 (Nat.lt_succ_self _),
    readFrom_of_le (by omega), List.append_nil]

/-- With one thread, all pieces are read. -/
theorem readEntries_one (fp : CStr) :
    (readEntries fp 1 : Multiset ParsedLine) =
      ((lines fp).filterMap fun l => lineEntry (piece l 0) : Multiset ParsedLine) +
        (offsets 0 (lines fp) : Multiset (ℕ × CStr)).bind fun x =>
          (readFrom fp.length (x.1 + (lineBufSize - 1)) (x.2.drop (lineBufSize - 1)) :
            Multiset ParsedLine) := by
  rw [readEntries_eq fp le_rfl, ← bind_offsets, ← Multiset.bind_add]
  refine Multiset.bind_congr fun x hx => ?_
  have hp := lt_length_of_mem hx
  have hend : endByte fp 1 (x.1 / chunk fp 1) = fp.length := by
    rw [endByte, if_pos (Or.inr (Nat.lt_one_iff.mp (div_chunk_lt le_rfl hp)))]
  rw [hend, readFrom_pieces (mem_offsets_lines hx).1 hp, Multiset.coe_add]

theorem piece_isPrefix (l : CStr) : piece l 0 <+: l := by
  rw [piece, Nat.zero_mul, List.drop_zero]
  exact List.take_prefix _ _

theorem takeWhile_isPrefix {p : UInt8 → Bool} {s t : CStr} (h : s <+: t) :
    s.takeWhile p <+: t.takeWhile p := by
  obtain ⟨u, rfl⟩ := h
  rw [List.takeWhile_append]
  split_ifs with hall
  · rw [(List.takeWhile_prefix p).eq_of_length hall]
    exact List.prefix_append _ _
  · exact List.prefix_refl _

/-- A line is accepted where its first piece is. -/
theorem lineEntry_extends {l : CStr} {e : ParsedLine} (h : lineEntry (piece l 0) = some e) :
    ∃ e', lineEntry l = some e' ∧ e.Extends e' := by
  have hpre : lineText (piece l 0) <+: lineText l :=
    takeWhile_isPrefix (takeWhile_isPrefix (piece_isPrefix l))
  unfold lineEntry at h ⊢
  split_ifs at h with hnil
  have hne : lineText l ≠ [] := fun hl => hnil (List.prefix_nil.mp (hl ▸ hpre))
  rw [if_neg hne]
  exact parseLogLine_prefix hpre h

/-- How much an entry weighs, so that a message that goes on weighs more. -/
def weight (e : ParsedLine) : ℕ := e.message.length + 1

/-- The weight of what a line adds. -/
def entryWeight (x : Option ParsedLine) : ℕ := (x.toList.map weight).sum

theorem entryWeight_piece (l : CStr) :
    entryWeight (lineEntry (piece l 0)) ≤ entryWeight (lineEntry l) ∧
      (entryWeight (lineEntry (piece l 0)) = entryWeight (lineEntry l) →
        lineEntry (piece l 0) = lineEntry l) := by
  cases hp : lineEntry (piece l 0) with
  | none =>
    refine ⟨Nat.zero_le _, fun hw => ?_⟩
    cases hl : lineEntry l with
    | none => rfl
    | some e =>
      rw [hl] at hw
      simp [entryWeight, weight] at hw
  | some e =>
    obtain ⟨e', hl, hext⟩ := lineEntry_extends hp
    have hlen := hext.message.length_le
    rw [hl]
    simp only [entryWeight, weight, Option.toList_some, List.map_cons, List.map_nil, List.sum_cons,
      List.sum_nil, Nat.add_zero, Nat.add_right_cancel_iff, Nat.add_le_add_iff_right]
    exact ⟨hlen, fun heq => congrArg some (hext.eq heq)⟩

/-- The weights of what the lines of a file add. -/
theorem sum_weight (f : CStr → Option ParsedLine) (ls : List CStr) :
    ((ls.filterMap f).map weight).sum = (ls.map fun l => entryWeight (f l)).sum := by
  induction ls with
  | nil => rfl
  | cons l ls ih =>
    rw [List.map_cons, List.sum_cons, ← ih, List.filterMap_cons]
    cases f l <;> simp [entryWeight]

/-- Where the first pieces add what the lines do, each does. -/
theorem first_of_perm {ls : List CStr}
    (h : (ls.filterMap fun l => lineEntry (piece l 0)).Perm (ls.filterMap lineEntry)) :
    ∀ l ∈ ls, lineEntry (piece l 0) = lineEntry l := by
  intro l hl
  by_contra hne
  have hlt : (ls.map fun l => entryWeight (lineEntry (piece l 0))).sum <
      (ls.map fun l => entryWeight (lineEntry l)).sum :=
    List.sum_lt_sum _ _ (fun l _ => (entryWeight_piece l).1)
      ⟨l, hl, lt_of_le_of_ne (entryWeight_piece l).1 fun heq => hne ((entryWeight_piece l).2 heq)⟩
  rw [← sum_weight, ← sum_weight, (h.map weight).sum_eq] at hlt
  exact lt_irrefl _ hlt

/-- **Any number of threads read a file alike** exactly if they read its lines whole. -/
theorem thread_independent_iff (fp : CStr) :
    (∀ T, 1 ≤ T → ThreadIndependent fp T) ↔ ∀ line ∈ lines fp, ReadWhole line := by
  constructor
  · intro hall
    by_cases hfp : fp = []
    · rintro l hl
      rw [hfp] at hl
      cases hl
    · have hmany := (hall fp.length (List.length_pos_iff.mpr hfp)).physical
      have hone := (hall 1 le_rfl).physical
      rw [← Multiset.coe_eq_coe] at hmany hone
      rw [readEntries_length hfp] at hmany
      -- nothing is left for the later pieces
      rw [readEntries_one, hmany, add_eq_left] at hone
      intro l hl
      refine ⟨first_of_perm (Multiset.coe_eq_coe.mp hmany) l hl, fun k => ?_⟩
      obtain ⟨x, hx, rfl⟩ := exists_offset 0 hl
      have hnil :
          readFrom fp.length (x.1 + (lineBufSize - 1)) (x.2.drop (lineBufSize - 1)) = [] := by
        by_contra hne
        obtain ⟨e, he⟩ := List.exists_mem_of_ne_nil _ hne
        have hmem : e ∈ (0 : Multiset ParsedLine) := by
          rw [← hone]
          exact Multiset.mem_bind.mpr ⟨x, hx, he⟩
        exact Multiset.notMem_zero e hmem
      obtain ⟨hline, hle⟩ := mem_offsets_lines hx
      rw [← piece_drop]
      by_cases hlen : x.2.length ≤ lineBufSize - 1
      · rw [List.drop_eq_nil_iff.mpr hlen]
        exact piece_nil k
      · exact none_of_readFrom (hline.drop_or_nil _) (by rw [List.length_drop]; omega) hnil k
  · intro hwhole T hT
    have hperm := readEntries_of_readWhole hwhole hT
    exact ⟨hperm.trans (readEntries_of_readWhole hwhole le_rfl).symm, hperm⟩

/-- A line that fits in the buffer is read whole. -/
theorem readWhole_of_short {l : CStr} (h : l.length ≤ lineBufSize - 1) : ReadWhole l where
  first := by rw [piece, Nat.zero_mul, List.drop_zero, List.take_of_length_le h]
  later := fun k => lineEntry_piece_of_le (by
    rw [Nat.succ_mul]
    exact h.trans (Nat.le_add_left _ _))

/-- What is read is what the pipeline takes. -/
theorem parsed_readEntries {fp : CStr} {T : ℕ} {e : ParsedLine} (h : e ∈ readEntries fp T) :
    e.toLogEntry.Parsed := by
  have hfrom : ∀ fuel (endByte pos : ℕ) rest, e ∈ readLoop endByte fuel pos rest →
      e.toLogEntry.Parsed := by
    intro fuel endByte
    induction fuel with
    | zero =>
      intro pos rest he
      cases he
    | succ fuel ih =>
      intro pos rest he
      rw [readLoop] at he
      split_ifs at he
      · split at he
        · cases he
        · rcases List.mem_append.mp he with hline | hrest
          · unfold lineEntry at hline
            split_ifs at hline
            · cases hline
            · exact parsed_parseLogLine (Option.mem_toList.mp hline)
          · exact ih _ _ hrest
      · cases he
  obtain ⟨i, -, he⟩ := List.mem_flatMap.mp h
  exact hfrom _ _ _ _ he

/-- A line with a second piece that is itself a log line. -/
def twoPieces : CStr :=
  List.replicate 1023 120 ++ cstr "[2026-03-01 10:00:00] [ERROR] [db] disk full\n"

theorem not_threadIndependent_twoPieces : ¬ ThreadIndependent twoPieces 1 := by
  intro h
  have hread : (readEntries twoPieces 1).length = 1 := by decide +kernel
  have hlines : ((lines twoPieces).filterMap lineEntry).length = 0 := by decide +kernel
  rw [h.physical.length_eq, hlines] at hread
  cases hread

end Cse344.HW4
