import Cse344.HW3.Input
import Cse344.HW3.Sorting
import Cse344.Lib.Qsort
import Mathlib.Data.List.GetD
import Mathlib.Data.Prod.Lex

/-!
# The output file of HW3

Model of what `init_word_info` (`HW3/src/shared_memory/shm_init_utils.c` 23-49) keeps of a line of
the input file, and of `cmp_words` and `write_output_file` (`HW3/src/check/output.c` 44-77), which
print it.

* `int` is 32 bits wide; an `int` subtraction that overflows is taken to wrap.
* `Memory` are the words of the shared memory in any state of a run: no process changes what
  `write_output_file` reads of them (`Memory.eq_init`).
* `Faithful` is what a user expects of the output file, for any result of `qsort`: the lines of the
  input, ordered by floor and id, with no access out of bounds and a comparison that orders.
* `Fits` is a line whose word leaves room for a NUL in `MAX_WORD_LEN` bytes and whose numbers are
  `int`s. `read_input` and `validate_words` accept more: `not_output_faithful` is a word of 64
  letters.

Results:
* `Memory.eq_init`: the words that are written are those of the input.
* `Fits.record_eq`: what fits is stored as it is.
* **`output_faithful_iff`**: the output is what the user expects exactly if the file has nothing but
  lines that fit.

Out of scope: a failing `fopen`, and what a word that does not fit overwrites.
-/

namespace Cse344.HW3

open Cse344.Lib

/-- What `write_output_file` and the loop of `init_word_info` read of a `t_word`. -/
structure WordRecord where
  wordId : ℤ
  original : CStr
  wordLen : ℤ
  sortingFloor : ℤ
  deriving DecidableEq, Repr

/-- A string in a buffer of `MAX_WORD_LEN` bytes. -/
def originalString (original : ℕ → UInt8) : CStr := ofBuffer ((List.range maxWordLen).map original)

/-- `init_word_info`. -/
def initWordRecord (w : LineInput) : WordRecord where
  wordId := w.wordId
  original := originalString (originalOf w.word)
  wordLen := wrap32 w.word.length
  sortingFloor := w.sortingFloor

/-- Every `j < word_len` is an index of an array of `MAX_WORD_LEN` elements. -/
def WordRecord.InBounds (w : WordRecord) : Prop := ∀ j : ℕ, (j : ℤ) < w.wordLen → j < maxWordLen

def cmpWords (a b : WordRecord) : ℤ :=
  if a.sortingFloor ≠ b.sortingFloor then wrap32 (a.sortingFloor - b.sortingFloor)
  else wrap32 (a.wordId - b.wordId)

/-- `"%d %s %d\n"`. -/
def outputLine (id : ℤ) (word : CStr) (floor : ℤ) : CStr :=
  decimal id ++ 32 :: (word ++ 32 :: (decimal floor ++ newline))

/-- The bytes that the loop of `write_output_file` writes. -/
def writeOutputFile (sorted : List WordRecord) : CStr :=
  (sorted.map fun w => outputLine w.wordId w.original w.sortingFloor).flatten

/-- What `main` goes on with: the lines that `read_input` and `validate_words` accept. -/
def acceptInput (numFloors : ℤ) (file : CStr) : Option (List LineInput) :=
  match readInput file with
  | none => none
  | some words => if validateWords numFloors words then some words else none

/-! ## The words of the shared memory -/

/-- The system runs on these words. -/
def Setup.ReadsFrom (c : Setup) (words : List LineInput) : Prop :=
  words.map (fun w => (w.word, w.sortingFloor)) =
    List.ofFn fun i => ((c.input i).word, ((c.input i).sortingFloor : ℤ))

/-- A word of the shared memory, with its `word_id`. -/
def Word.record {nf : ℕ} (wordId : ℤ) (x : Word nf) : WordRecord where
  wordId := wordId
  original := originalString x.original
  wordLen := x.wordLen
  sortingFloor := x.sortingFloor

/-- The words of the shared memory at some point: after `shm_init`, or in a state of a run. -/
inductive Memory (words : List LineInput) : List WordRecord → Prop
  | start : Memory words (words.map initWordRecord)
  | run (c : Setup) (s : Sys c) (hc : c.ReadsFrom words) (hs : (system c).Reachable s) :
    Memory words (List.zipWith (fun w x => x.record w.wordId) words (List.ofFn s.words))

/-- **No step changes what the output file is made of.** -/
theorem words_extend {c : Setup} {s s' : Sys c} {a : Act c} (hs : step s a = some s')
    (w : Fin c.totalWords) : (s.words w).Extends (s'.words w) := by
  cases a with
  | wordCarrier i => exact ((wcStep_quiet hs).words w).extends_
  | letterCarrier i rand => exact ((lcStep_quiet hs).words w).extends_
  | sortingProc i =>
    have hset : ∀ v x, (s.words v).Extends x →
        (s.words w).Extends (Function.update s.words v x w) := fun v x hx =>
      rel_update (fun _ => .rfl) hx w
    cases spMove_of_step hs with
    | complete v hpc hc =>
      have hpass := (sortPass_kept (s.words v)).extends_
      exact hset v _ ⟨hpass.original_eq, hpass.wordLen_eq, hpass.sortingFloor_eq,
        hpass.fixed_mono, hpass.delivered_mono⟩
    | pass v hpc hc => exact hset v _ (sortPass_kept (s.words v)).extends_
    | _ => exact .rfl
  | monitor =>
    obtain ⟨-, rfl⟩ := monitor_of_step hs
    exact .rfl
  | sigint =>
    obtain rfl := Option.some.inj hs
    exact .rfl

theorem words_extend_init {c : Setup} {s : Sys c} (h : (system c).Reachable s)
    (w : Fin c.totalWords) : (initWordInfo (c.input w)).Extends (s.words w) :=
  h.induct (I := fun s => (initWordInfo (c.input w)).Extends (s.words w)) .rfl
    fun _ _ _ h hs => h.trans (words_extend hs w)

theorem Word.Extends.record_eq {nf : ℕ} {x y : Word nf} (h : x.Extends y) (wordId : ℤ) :
    y.record wordId = x.record wordId := by
  simp only [Word.record, h.original_eq, h.wordLen_eq, h.sortingFloor_eq]

theorem initWordInfo_record {nf : ℕ} {input : WordInput nf} {w : LineInput}
    (h : (w.word, w.sortingFloor) = (input.word, (input.sortingFloor : ℤ))) :
    (initWordInfo input).record w.wordId = initWordRecord w := by
  obtain ⟨hword, hfloor⟩ := Prod.mk.inj h
  have hlen := hword ▸ input.length_le
  have hwrap : wrap32 w.word.length = w.word.length := by
    unfold maxWordLen at hlen
    refine wrap32_of_mem ?_ ?_
    all_goals
      unfold intMax
      omega
  simp only [Word.record, initWordInfo, initWordRecord, ← hword, ← hfloor, hwrap]

/-- **The words that are written are those of the input.** -/
theorem Memory.eq_init {words : List LineInput} {mem : List WordRecord} (h : Memory words mem) :
    mem = words.map initWordRecord := by
  cases h with
  | start => rfl
  | run c s hc hs =>
    have hlen : words.length = c.totalWords := by
      have := congrArg List.length hc
      rwa [List.length_map, List.length_ofFn] at this
    refine List.ext_getElem ?_ fun i hi hi' => ?_
    · rw [List.length_zipWith, List.length_ofFn, List.length_map, hlen, min_self]
    · rw [List.length_map] at hi'
      have hin : (words[i].word, words[i].sortingFloor) =
          ((c.input ⟨i, hlen ▸ hi'⟩).word, ((c.input ⟨i, hlen ▸ hi'⟩).sortingFloor : ℤ)) := by
        have := List.getElem_of_eq hc (by rwa [List.length_map])
        rwa [List.getElem_map, List.getElem_ofFn] at this
      rw [List.getElem_zipWith, List.getElem_ofFn, List.getElem_map,
        (words_extend_init hs _).record_eq, initWordInfo_record hin]

/-! ## What a user expects -/

/-- `t` stands before `u` in the output file: by floor, then by id. -/
def InputLine.Before (t u : InputLine) : Prop :=
  t.floorNumber < u.floorNumber ∨ t.floorNumber = u.floorNumber ∧ t.idNumber ≤ u.idNumber

/-- The lines of `out` are those of `file`, in order. -/
def Written (file out : CStr) : Prop :=
  ∃ order : List InputLine,
    (order.map InputLine.text).Perm ((lines file).map trimNewline) ∧
    order.Pairwise InputLine.Before ∧
    lines out = order.map fun t => outputLine t.idNumber t.word t.floorNumber

structure Faithful (file : CStr) (words : List LineInput) : Prop where
  inBounds : ∀ w ∈ words, (initWordRecord w).InBounds
  ordered : TotalPreorderOn cmpWords (words.map initWordRecord)
  written : ∀ mem sorted, Memory words mem → QsortResult cmpWords mem sorted →
    Written file (writeOutputFile sorted)

/-- A line whose word and numbers fit where they are stored. -/
structure InputLine.Fits (t : InputLine) : Prop where
  word : t.word.length < maxWordLen
  id : (t.idNumber : ℤ) ≤ intMax
  floor : (t.floorNumber : ℤ) ≤ intMax

/-- Every line of the file is one that fits. -/
def Fits (file : CStr) : Prop :=
  ∃ ts : List InputLine, (lines file).map trimNewline = ts.map InputLine.text ∧ ∀ t ∈ ts, t.Fits

/-! ## The lines of the output -/

/-- What `strncpy` keeps of a word. -/
theorem originalString_originalOf {word : CStr} (h : 0 ∉ word) :
    originalString (originalOf word) = word.take (maxWordLen - 1) := by
  have hsplit : (List.range maxWordLen).map (originalOf word) = word.take (maxWordLen - 1) ++
      List.replicate (maxWordLen - (word.take (maxWordLen - 1)).length) 0 := by
    refine List.ext_getElem ?_ fun j hj hj' => ?_
    · simp [maxWordLen]
    · rw [List.getElem_map, List.getElem_range, originalOf, List.getElem_append]
      simp only [List.length_take, lt_min_iff, List.getElem_take, List.getElem_replicate]
      split_ifs with hlt hin hin
      · exact List.getD_eq_getElem _ _ hin.2
      · exact List.getD_eq_default _ _ (Nat.not_lt.mp fun hlen => hin ⟨hlt, hlen⟩)
      · exact absurd hin.1 hlt
      · rfl
  have hpos : maxWordLen - (word.take (maxWordLen - 1)).length ≠ 0 := by
    simp [maxWordLen]
    omega
  obtain ⟨n, hn⟩ := Nat.exists_eq_succ_of_ne_zero hpos
  have hne : ∀ b ∈ word.take (maxWordLen - 1), (b != 0) = true := fun b hb => by
    have : b ≠ 0 := fun hzero => h (hzero ▸ List.mem_of_mem_take hb)
    simpa using this
  rw [originalString, hsplit, hn, ofBuffer, List.takeWhile_append_of_pos hne,
    List.replicate_succ, List.takeWhile_cons_of_neg (by simp), List.append_nil]

theorem decimal_no_separator {v : ℤ} : (32 : UInt8) ∉ decimal v ∧ lf ∉ decimal v := by
  constructor
  all_goals
    intro hmem
    rcases mem_decimal hmem with h | h
    · exact absurd h (by decide)
    · exact absurd h (by decide)

/-- A line of output tells its fields. -/
theorem outputLine_inj {id id' floor floor' : ℤ} {word word' : CStr} (h : (32 : UInt8) ∉ word)
    (h' : (32 : UInt8) ∉ word') (heq : outputLine id word floor = outputLine id' word' floor') :
    decimal id = decimal id' ∧ word = word' ∧ decimal floor = decimal floor' := by
  obtain ⟨hid, hrest⟩ := append_separator_inj decimal_no_separator.1 decimal_no_separator.1 heq
  obtain ⟨hword, hrest⟩ := append_separator_inj h h' hrest
  exact ⟨hid, hword, List.append_cancel_right hrest⟩

/-- A line of output is one line. -/
theorem outputLine_line {id floor : ℤ} {word : CStr} (h : lf ∉ word) :
    ∃ body, lf ∉ body ∧ outputLine id word floor = body ++ [lf] := by
  refine ⟨decimal id ++ 32 :: (word ++ 32 :: decimal floor), ?_, ?_⟩
  · have hid := (decimal_no_separator (v := id)).2
    have hfloor := (decimal_no_separator (v := floor)).2
    simp only [List.mem_append, List.mem_cons, not_or]
    exact ⟨hid, by decide, h, by decide, hfloor⟩
  · simp only [outputLine, newline, lf, List.append_assoc, List.cons_append]

theorem lines_writeOutputFile {sorted : List WordRecord} (h : ∀ w ∈ sorted, lf ∉ w.original) :
    lines (writeOutputFile sorted) =
      sorted.map fun w => outputLine w.wordId w.original w.sortingFloor := by
  refine lines_flatten fun line hline => ?_
  obtain ⟨w, hw, rfl⟩ := List.mem_map.mp hline
  exact outputLine_line (h w hw)

namespace InputLine

theorem no_separator_word (t : InputLine) {b : UInt8} (hb : b ∈ t.word) :
    b ≠ 0 ∧ b ≠ 32 ∧ b ≠ lf ∧ b ≠ cr :=
  not_separator (.inr (t.word_letters b hb))

theorem original_parsed (t : InputLine) :
    (initWordRecord t.parsed).original = t.word.take (maxWordLen - 1) :=
  originalString_originalOf fun hzero => (t.no_separator_word hzero).1 rfl

theorem no_separator_original (t : InputLine) :
    (32 : UInt8) ∉ (initWordRecord t.parsed).original ∧
      lf ∉ (initWordRecord t.parsed).original := by
  rw [t.original_parsed]
  exact ⟨fun hmem => (t.no_separator_word (List.mem_of_mem_take hmem)).2.1 rfl,
    fun hmem => (t.no_separator_word (List.mem_of_mem_take hmem)).2.2.1 rfl⟩

theorem atoi_le (t : InputLine) : (initWordRecord t.parsed).wordId ≤ intMax ∧
    (initWordRecord t.parsed).sortingFloor ≤ intMax :=
  ⟨wrap32_le _, wrap32_le _⟩

/-- What the user means. -/
def record (t : InputLine) : WordRecord where
  wordId := t.idNumber
  original := t.word
  wordLen := t.word.length
  sortingFloor := t.floorNumber

/-- **What fits is stored as it is.** -/
theorem Fits.record_eq {t : InputLine} (h : t.Fits) : initWordRecord t.parsed = t.record := by
  have hatoi : ∀ {l : CStr}, l ≠ [] → (∀ b ∈ l, isdigit b = true) → (digitsValue l : ℤ) ≤ intMax →
      atoi l = digitsValue l := by
    intro l hne hdigits hle
    have hlong : (digitsValue l : ℤ) ≤ longMax := hle.trans (by decide)
    rw [atoi_digits hne hdigits, min_eq_left hlong]
    refine wrap32_of_mem ?_ hle
    unfold intMax
    omega
  have hword := h.word
  have horiginal : originalString (originalOf t.word) = t.word :=
    t.original_parsed.trans (List.take_of_length_le (Nat.le_pred_of_lt hword))
  have hlen : wrap32 t.word.length = t.word.length := by
    unfold maxWordLen at hword
    refine wrap32_of_mem ?_ ?_
    all_goals
      unfold intMax
      omega
  simp only [initWordRecord, record, parsed, horiginal, hlen, hatoi t.id_ne t.id_digits h.id,
    hatoi t.floor_ne t.floor_digits h.floor, idNumber, floorNumber]

end InputLine

/-! ## The comparison -/

/-- Numbers whose differences are `int`s. -/
structure WordRecord.InRange (w : WordRecord) : Prop where
  id : 0 ≤ w.wordId ∧ w.wordId ≤ intMax
  floor : 0 ≤ w.sortingFloor ∧ w.sortingFloor ≤ intMax

/-- By floor, then by id. -/
def WordRecord.key (w : WordRecord) : ℤ ×ₗ ℤ := toLex (w.sortingFloor, w.wordId)

theorem cmpWords_eq {a b : WordRecord} (ha : a.InRange) (hb : b.InRange) :
    cmpWords a b = if a.sortingFloor ≠ b.sortingFloor then a.sortingFloor - b.sortingFloor
      else a.wordId - b.wordId := by
  have hsub : ∀ x y : ℤ, 0 ≤ x ∧ x ≤ intMax → 0 ≤ y ∧ y ≤ intMax → wrap32 (x - y) = x - y := by
    rintro x y hx hy
    exact wrap32_of_mem (by omega) (by omega)
  rw [cmpWords, hsub _ _ ha.floor hb.floor, hsub _ _ ha.id hb.id]

theorem cmpWords_le_zero {a b : WordRecord} (ha : a.InRange) (hb : b.InRange) :
    cmpWords a b ≤ 0 ↔ a.key ≤ b.key := by
  rw [cmpWords_eq ha hb, WordRecord.key, WordRecord.key, Prod.Lex.toLex_le_toLex]
  dsimp only
  split_ifs with hfloor
  · omega
  · omega

theorem zero_le_cmpWords {a b : WordRecord} (ha : a.InRange) (hb : b.InRange) :
    0 ≤ cmpWords a b ↔ b.key ≤ a.key := by
  rw [cmpWords_eq ha hb, WordRecord.key, WordRecord.key, Prod.Lex.toLex_le_toLex]
  dsimp only
  split_ifs with hfloor
  · omega
  · omega

theorem totalPreorderOn_cmpWords {words : List WordRecord} (h : ∀ w ∈ words, w.InRange) :
    TotalPreorderOn cmpWords words :=
  .of_key WordRecord.key (fun a ha b hb => cmpWords_le_zero (h a ha) (h b hb))
    fun a ha b hb => zero_le_cmpWords (h a ha) (h b hb)

/-! ## The output is faithful exactly if the file fits -/

theorem InputLine.Fits.inRange {t : InputLine} (h : t.Fits) : t.record.InRange where
  id := ⟨Int.natCast_nonneg _, h.id⟩
  floor := ⟨Int.natCast_nonneg _, h.floor⟩

theorem InputLine.before_of_key_le {t u : InputLine} (h : t.record.key ≤ u.record.key) :
    t.Before u := by
  rw [WordRecord.key, WordRecord.key, Prod.Lex.toLex_le_toLex] at h
  simp only [InputLine.record, Int.ofNat_lt, Int.ofNat_le, Int.ofNat_inj] at h
  exact h

theorem faithful_of_fits {file : CStr} {ts : List InputLine}
    (h : (lines file).map trimNewline = ts.map InputLine.text) (hfits : ∀ t ∈ ts, t.Fits) :
    Faithful file (ts.map InputLine.parsed) := by
  have hrecords : (ts.map InputLine.parsed).map initWordRecord = ts.map InputLine.record := by
    rw [List.map_map]
    exact List.map_congr_left fun t ht => (hfits t ht).record_eq
  have hrange : ∀ w ∈ ts.map InputLine.record, w.InRange := by
    rintro w hw
    obtain ⟨t, ht, rfl⟩ := List.mem_map.mp hw
    exact (hfits t ht).inRange
  have hordered := totalPreorderOn_cmpWords hrange
  refine ⟨?_, hrecords ▸ hordered, ?_⟩
  · rintro w hw j hj
    obtain ⟨t, ht, rfl⟩ := List.mem_map.mp hw
    rw [(hfits t ht).record_eq] at hj
    exact (Int.ofNat_lt.mp hj).trans (hfits t ht).word
  · rintro mem sorted hmem hsorted
    rw [hmem.eq_init, hrecords] at hsorted
    obtain ⟨order, hperm, rfl⟩ := exists_perm_of_perm_map hsorted.perm
    refine ⟨order, ?_, ?_, ?_⟩
    · rw [h]
      exact hperm.map _
    · have hpair := List.pairwise_map.mp (hsorted.sorted hordered)
      refine hpair.imp_of_mem fun {t u} ht hu hle => InputLine.before_of_key_le ?_
      exact (cmpWords_le_zero (hfits t (hperm.mem_iff.mp ht)).inRange
        (hfits u (hperm.mem_iff.mp hu)).inRange).mp hle
    · rw [lines_writeOutputFile, List.map_map]
      · rfl
      · rintro w hw hlf
        obtain ⟨t, -, rfl⟩ := List.mem_map.mp hw
        exact (t.no_separator_word hlf).2.2.1 rfl

theorem fits_of_faithful {file : CStr} {words : List LineInput}
    (hread : readInput file = some words) (h : Faithful file words) : Fits file := by
  obtain ⟨sorted, hsorted⟩ := exists_qsortResult cmpWords (words.map initWordRecord)
  obtain ⟨order, hperm, -, hlines⟩ := h.written _ _ .start hsorted
  obtain ⟨ts, hts, heq⟩ := exists_perm_of_perm_map hperm.symm
  -- the words are what was read of the lines that the output repeats
  obtain ⟨us, -, rfl⟩ := (readInput_eq_some_iff (no_nul_of_lines heq)).mp hread
  have hstored : ∀ w ∈ sorted, ∃ u : InputLine, w = initWordRecord u.parsed := by
    rintro w hw
    have hmem := hsorted.perm.mem_iff.mp hw
    rw [List.map_map] at hmem
    obtain ⟨u, -, rfl⟩ := List.mem_map.mp hmem
    exact ⟨u, rfl⟩
  rw [lines_writeOutputFile fun w hw => by
    obtain ⟨u, rfl⟩ := hstored w hw
    exact u.no_separator_original.2] at hlines
  refine ⟨ts, heq, fun t ht => ?_⟩
  have hline : outputLine t.idNumber t.word t.floorNumber ∈
      order.map fun t => outputLine t.idNumber t.word t.floorNumber :=
    List.mem_map_of_mem (hts.mem_iff.mp ht)
  rw [← hlines] at hline
  obtain ⟨w, hw, hout⟩ := List.mem_map.mp hline
  obtain ⟨u, rfl⟩ := hstored w hw
  obtain ⟨hid, hword, hfloor⟩ := outputLine_inj u.no_separator_original.1
    (fun hmem => (t.no_separator_word hmem).2.1 rfl) hout
  refine ⟨?_, ?_, ?_⟩
  · rw [← hword, u.original_parsed, List.length_take]
    exact (Nat.min_le_left _ _).trans_lt (by decide)
  · rw [← eq_of_decimal_eq hid]
    exact u.atoi_le.1
  · rw [← eq_of_decimal_eq hfloor]
    exact u.atoi_le.2

/-- **The output is what the user expects** of an accepted file exactly if the file fits. -/
theorem output_faithful_iff {numFloors : ℤ} {file : CStr} {words : List LineInput}
    (h : acceptInput numFloors file = some words) : Faithful file words ↔ Fits file := by
  have hread : readInput file = some words := by
    unfold acceptInput at h
    split at h
    · cases h
    · rename_i words' hread
      split_ifs at h
      rw [hread, Option.some.inj h]
  constructor
  · exact fits_of_faithful hread
  · rintro ⟨ts, hts, hfits⟩
    rw [(readInput_eq_some_iff (no_nul_of_lines hts)).mpr ⟨ts, hts, rfl⟩] at hread
    exact Option.some.inj hread ▸ faithful_of_fits hts hfits

/-- The line `1 ab 0`. -/
def shortLine : InputLine where
  id := cstr "1"
  word := cstr "ab"
  floor := cstr "0"
  id_ne := by decide
  id_digits := List.all_eq_true.mp (by decide)
  word_ne := by decide
  word_letters := List.all_eq_true.mp (by decide)
  floor_ne := by decide
  floor_digits := List.all_eq_true.mp (by decide)

theorem output_faithful_shortLine : Faithful (fileOf [shortLine]) [shortLine.parsed] := by
  have haccept : acceptInput 1 (fileOf [shortLine]) = some [shortLine.parsed] := by
    rw [acceptInput, readInput_fileOf]
    decide
  refine (output_faithful_iff haccept).mpr ⟨[shortLine], lines_fileOf _, fun t ht => ?_⟩
  obtain rfl := List.mem_singleton.mp ht
  exact ⟨by decide, by decide, by decide⟩

/-- A line with a word of 64 letters. -/
def longLine : InputLine where
  id := cstr "1"
  word := List.replicate 64 97
  floor := cstr "0"
  id_ne := by decide
  id_digits := List.all_eq_true.mp (by decide)
  word_ne := by decide
  word_letters := List.all_eq_true.mp (by decide)
  floor_ne := by decide
  floor_digits := List.all_eq_true.mp (by decide)

theorem not_output_faithful : ¬ ∀ (numFloors : ℤ) (file : CStr) (words : List LineInput),
    acceptInput numFloors file = some words → Faithful file words := by
  intro h
  have haccept : acceptInput 1 (fileOf [longLine]) = some [longLine.parsed] := by
    rw [acceptInput, readInput_fileOf]
    decide
  have hfaithful := h 1 (fileOf [longLine]) [longLine.parsed] haccept
  obtain ⟨ts, hts, hfits⟩ := fits_of_faithful (readInput_fileOf _) hfaithful
  rw [lines_fileOf] at hts
  have hmem : longLine.text ∈ ts.map InputLine.text := hts ▸ List.mem_singleton.mpr rfl
  obtain ⟨t, ht, htext⟩ := List.mem_map.mp hmem
  have hlen := (hfits t ht).word
  rw [(InputLine.text_inj htext).2.1] at hlen
  exact absurd hlen (by decide)

end Cse344.HW3
