import Cse344.Lib.TextFile

/-!
# The input file of HW3

Model of `get_next_line` (`HW3/get_next_line/get_next_line.c` 76-91), of `read_input` with
`trim_newline`, `is_valid_line` and `parse_line` (`HW3/src/check/file_control.c` 18-133) and of
`validate_words` (`validate_words.c` 5-17). Where they call `exit`, and where `parse_line` would
read a missing token, the result is `none`.

* `get_next_line` keeps what it has read too much in a C string. A chunk of the file that has a NUL
  counts up to there.
* A read fills the buffer unless the file ends, as it does of a regular file; `Cse344.HW3.NextLine`
  has the reads that do not.
* `InputLine` is a line `id word floor` as `is_valid_line` accepts it, whatever the sizes of its
  numbers and of its word.

Results:
* `isValidLine_iff`: what `is_valid_line` accepts.
* `getNextLine_line`: `get_next_line` returns the next line of a file without a NUL.
* **`readInput_eq_some_iff`**: a file without a NUL is accepted if all its lines are such lines, and
  then each gives its word and what `atoi` makes of its numbers.

Out of scope: failing reads and allocations, and the printed texts.
-/

namespace Cse344.HW3

open Cse344.Lib

/-- `BUFFER_SIZE`. -/
def bufferSize : ℕ := 100

/-- The `data` of `get_next_line`, and what is left of the file. -/
structure Reader where
  data : Option CStr
  file : CStr

/-- `read` and `ft_join`. -/
def readChunk (r : Reader) : Reader where
  data := some (r.data.getD [] ++ ofBuffer (r.file.take bufferSize))
  file := r.file.drop bufferSize

/-- The loop of `read_file`. -/
def readFile : ℕ → Reader → Reader
  | 0, r => r
  | fuel + 1, r =>
    if r.file.isEmpty then r
    else
      let r := readChunk r
      if (r.data.getD []).contains lf then r else readFile fuel r

/-- `ft_update`. -/
def ftUpdate (data : CStr) : Option CStr :=
  let rest := data.drop (firstLine data).length
  if rest.isEmpty then none else some rest

def getNextLine (r : Reader) : Option (CStr × Reader) :=
  let r := readFile r.file.length r
  match r.data with
  | none => none
  | some data => some (firstLine data, { r with data := ftUpdate data })

def trimNewline (line : CStr) : CStr :=
  let line := if line.getLast? = some lf then line.dropLast else line
  if line.getLast? = some cr then line.dropLast else line

/-- `'a' <= c && c <= 'z'`. -/
def isLower (c : UInt8) : Bool := 97 ≤ c && c ≤ 122

/-- One byte of a class or more, and what follows. -/
def skipRun (p : UInt8 → Bool) (line : CStr) : Option CStr :=
  if (line.takeWhile p).isEmpty then none else some (line.dropWhile p)

/-- One space, and what follows. -/
def skipSpace (line : CStr) : Option CStr :=
  if line.head? = some 32 then some line.tail else none

def isValidLine (line : CStr) : Bool :=
  match (skipRun isdigit line).bind skipSpace with
  | none => false
  | some line =>
    match (skipRun isLower line).bind skipSpace with
    | none => false
    | some line => skipRun isdigit line = some []

/-- `t_line_input`. -/
structure LineInput where
  wordId : ℤ
  word : CStr
  sortingFloor : ℤ
  deriving DecidableEq, Repr

def parseLine (line : CStr) : Option LineInput :=
  let id := strtok (cstr " \n") line
  let word := strtok (cstr " \n") id.2
  let floor := strtok (cstr " \n") word.2
  match id.1, word.1, floor.1 with
  | some id, some word, some floor =>
    some { wordId := atoi id, word := word, sortingFloor := atoi floor }
  | _, _, _ => none

/-- What `read_input` does with a line. -/
def acceptLine (line : CStr) : Option LineInput :=
  let line := trimNewline line
  if line.isEmpty then none
  else if !isValidLine line then none
  else parseLine line

/-- The loop of `read_input`. -/
def readInputLoop : ℕ → Reader → Option (List LineInput)
  | 0, _ => none
  | fuel + 1, r =>
    match getNextLine r with
    | none => some []
    | some (line, r) =>
      match acceptLine line with
      | none => none
      | some w => (readInputLoop fuel r).map fun ws => w :: ws

def readInput (file : CStr) : Option (List LineInput) :=
  readInputLoop (file.length + 1) { data := none, file := file }

def validateWords (numFloors : ℤ) (words : List LineInput) : Bool :=
  words.all fun w => decide (0 ≤ w.sortingFloor) && decide (w.sortingFloor < numFloors)

/-! ## Lines -/

/-- A line `id word floor`. -/
structure InputLine where
  id : CStr
  word : CStr
  floor : CStr
  id_ne : id ≠ []
  id_digits : ∀ b ∈ id, isdigit b = true
  word_ne : word ≠ []
  word_letters : ∀ b ∈ word, isLower b = true
  floor_ne : floor ≠ []
  floor_digits : ∀ b ∈ floor, isdigit b = true

namespace InputLine

def text (t : InputLine) : CStr := t.id ++ 32 :: (t.word ++ 32 :: t.floor)

/-- The numbers that stand there. -/
def idNumber (t : InputLine) : ℕ := digitsValue t.id

def floorNumber (t : InputLine) : ℕ := digitsValue t.floor

/-- What `parse_line` makes of it. -/
def parsed (t : InputLine) : LineInput where
  wordId := atoi t.id
  word := t.word
  sortingFloor := atoi t.floor

end InputLine

theorem skipRun_eq_some {p : UInt8 → Bool} {line rest : CStr} (h : skipRun p line = some rest) :
    ∃ run, run ≠ [] ∧ (∀ b ∈ run, p b = true) ∧ run ++ rest = line := by
  unfold skipRun at h
  split_ifs at h with hempty
  obtain rfl := Option.some.inj h
  exact ⟨line.takeWhile p, fun hnil => hempty (by rw [hnil]; rfl),
    fun b hb => List.mem_takeWhile_imp hb, List.takeWhile_append_dropWhile⟩

/-- A run ends at the first byte that is not of the class. -/
theorem skipRun_append {p : UInt8 → Bool} {run rest : CStr} (hne : run ≠ [])
    (hrun : ∀ b ∈ run, p b = true) (hrest : ∀ b ∈ rest.head?, p b = false) :
    skipRun p (run ++ rest) = some rest := by
  have hstop : rest.takeWhile p = [] ∧ rest.dropWhile p = rest := by
    cases rest with
    | nil => exact ⟨rfl, rfl⟩
    | cons b rest =>
      have hb : p b = false := hrest b rfl
      exact ⟨List.takeWhile_cons_of_neg (by simp [hb]), List.dropWhile_cons_of_neg (by simp [hb])⟩
  rw [skipRun, List.takeWhile_append_of_pos hrun, List.dropWhile_append_of_pos hrun, hstop.1,
    hstop.2, List.append_nil, if_neg fun hempty => hne (List.isEmpty_iff.mp hempty)]

theorem skipSpace_eq_some {line rest : CStr} : skipSpace line = some rest ↔ line = 32 :: rest := by
  unfold skipSpace
  cases line with
  | nil => simp
  | cons b line =>
    by_cases hb : b = 32
    · simp [hb]
    · simp [hb]

/-- **What `is_valid_line` accepts.** -/
theorem isValidLine_iff {line : CStr} :
    isValidLine line = true ↔ ∃ t : InputLine, t.text = line := by
  constructor
  · intro h
    unfold isValidLine at h
    split at h
    · cases h
    · rename_i line₁ h₁
      split at h
      · cases h
      · rename_i line₂ h₂
        obtain ⟨rest₁, hid, hspace₁⟩ := Option.bind_eq_some_iff.mp h₁
        obtain ⟨rest₂, hword, hspace₂⟩ := Option.bind_eq_some_iff.mp h₂
        obtain ⟨id, hid_ne, hid_all, rfl⟩ := skipRun_eq_some hid
        obtain ⟨word, hword_ne, hword_all, rfl⟩ := skipRun_eq_some hword
        obtain ⟨floor, hfloor_ne, hfloor_all, rfl⟩ := skipRun_eq_some (of_decide_eq_true h)
        rw [skipSpace_eq_some] at hspace₁ hspace₂
        refine ⟨⟨id, word, floor, hid_ne, hid_all, hword_ne, hword_all, hfloor_ne, hfloor_all⟩, ?_⟩
        rw [hspace₁, hspace₂, List.append_nil]
        rfl
  · rintro ⟨t, rfl⟩
    have hid : skipRun isdigit t.text = some (32 :: (t.word ++ 32 :: t.floor)) :=
      skipRun_append t.id_ne t.id_digits (by simp [isdigit])
    have hword : skipRun isLower (t.word ++ 32 :: t.floor) = some (32 :: t.floor) :=
      skipRun_append t.word_ne t.word_letters (by simp [isLower])
    have hfloor : skipRun isdigit t.floor = some [] := by
      have hall : skipRun isdigit (t.floor ++ []) = some [] :=
        skipRun_append t.floor_ne t.floor_digits (by simp)
      rwa [List.append_nil] at hall
    have hspace : ∀ rest, skipSpace (32 :: rest) = some rest := fun _ => skipSpace_eq_some.mpr rfl
    simp only [isValidLine, hid, hword, hfloor, hspace, Option.bind_some, decide_true]

theorem isLower_iff {c : UInt8} : isLower c = true ↔ 97 ≤ c.toNat ∧ c.toNat ≤ 122 := by
  simp [isLower, UInt8.le_iff_toNat_le]

/-- The parts of a line have none of the bytes that end a part or a line. -/
theorem not_separator {c : UInt8} (h : isdigit c = true ∨ isLower c = true) :
    c ≠ 0 ∧ c ≠ 32 ∧ c ≠ lf ∧ c ≠ cr := by
  rw [isdigit_iff, isLower_iff] at h
  refine ⟨?_, ?_, ?_, ?_⟩
  all_goals
    rintro rfl
    exact absurd h (by decide)

/-- The bytes of a line. -/
theorem InputLine.mem_text {t : InputLine} {b : UInt8} (hb : b ∈ t.text) :
    b = 32 ∨ isdigit b = true ∨ isLower b = true := by
  simp only [InputLine.text, List.mem_append, List.mem_cons] at hb
  rcases hb with hb | rfl | hb | rfl | hb
  · exact .inr (.inl (t.id_digits b hb))
  · exact .inl rfl
  · exact .inr (.inr (t.word_letters b hb))
  · exact .inl rfl
  · exact .inr (.inl (t.floor_digits b hb))

theorem parseLine_text (t : InputLine) : parseLine t.text = some t.parsed := by
  have hplain : ∀ b : UInt8, isdigit b = true ∨ isLower b = true → b ∉ cstr " \n" := by
    rintro b hb hmem
    have hne := not_separator hb
    rcases List.mem_cons.mp hmem with rfl | hmem
    · exact hne.2.1 rfl
    · exact hne.2.2.1 (List.mem_singleton.mp hmem)
  have hspace : (32 : UInt8) ∈ cstr " \n" := List.mem_cons_self
  have hid : strtok (cstr " \n") t.text = (some t.id, t.word ++ 32 :: t.floor) :=
    strtok_token t.id_ne (fun b hb => hplain b (.inl (t.id_digits b hb))) hspace
  have hword : strtok (cstr " \n") (t.word ++ 32 :: t.floor) = (some t.word, t.floor) :=
    strtok_token t.word_ne (fun b hb => hplain b (.inr (t.word_letters b hb))) hspace
  have hfloor : strtok (cstr " \n") t.floor = (some t.floor, []) :=
    strtok_last t.floor_ne fun b hb => hplain b (.inl (t.floor_digits b hb))
  simp only [parseLine, hid, hword, hfloor]
  rfl

theorem InputLine.text_ne_nil (t : InputLine) : t.text ≠ [] :=
  List.append_ne_nil_of_left_ne_nil t.id_ne _

theorem acceptLine_eq_some_iff {line : CStr} {w : LineInput} :
    acceptLine line = some w ↔ ∃ t : InputLine, trimNewline line = t.text ∧ w = t.parsed := by
  unfold acceptLine
  constructor
  · intro h
    dsimp only at h
    split_ifs at h with hempty hvalid
    rw [Bool.not_eq_true, Bool.not_eq_false'] at hvalid
    obtain ⟨t, ht⟩ := isValidLine_iff.mp hvalid
    rw [← ht, parseLine_text] at h
    exact ⟨t, ht.symm, (Option.some.inj h).symm⟩
  · rintro ⟨t, ht, rfl⟩
    have hvalid : isValidLine t.text = true := isValidLine_iff.mpr ⟨t, rfl⟩
    simp only [ht, hvalid, List.isEmpty_iff, t.text_ne_nil, parseLine_text, Bool.not_true,
      Bool.false_eq_true, if_false]

/-! ## Reading -/

namespace Reader

/-- What is still to be read. -/
def left (r : Reader) : CStr := r.data.getD [] ++ r.file

/-- No NUL is to come, and what has been read too much is not empty. -/
structure Clean (r : Reader) : Prop where
  no_nul : 0 ∉ r.file
  data_ne : r.data ≠ some []

end Reader

theorem readChunk_length_left_le (r : Reader) : (readChunk r).left.length ≤ r.left.length := by
  have hchunk : (ofBuffer (r.file.take bufferSize)).length ≤ (r.file.take bufferSize).length :=
    (List.takeWhile_prefix _).length_le
  have hfile := congrArg List.length (List.take_append_drop bufferSize r.file)
  simp only [readChunk, Reader.left, Option.getD_some, List.length_append] at hfile ⊢
  omega

theorem readChunk_spec {r : Reader} (hne : r.file ≠ []) (h : r.Clean) :
    (readChunk r).Clean ∧ (readChunk r).left = r.left ∧
      (readChunk r).file.length < r.file.length := by
  have hpos : 0 < r.file.length := List.length_pos_iff.mpr hne
  have hchunk : ofBuffer (r.file.take bufferSize) = r.file.take bufferSize :=
    ofBuffer_eq_self fun b hb hzero => h.no_nul (hzero ▸ List.mem_of_mem_take hb)
  refine ⟨⟨fun hzero => h.no_nul (List.mem_of_mem_drop hzero), fun hnil => ?_⟩, ?_, ?_⟩
  · have happend := Option.some.inj hnil
    rw [hchunk, List.append_eq_nil_iff, List.take_eq_nil_iff] at happend
    rcases happend.2 with hzero | hnil
    · exact absurd hzero (by decide)
    · exact hne hnil
  · simp only [readChunk, Reader.left, Option.getD_some, hchunk, List.append_assoc,
      List.take_append_drop]
  · simp only [readChunk, List.length_drop, bufferSize]
    omega

theorem readFile_length_left_le (fuel : ℕ) (r : Reader) :
    (readFile fuel r).left.length ≤ r.left.length := by
  induction fuel generalizing r with
  | zero => exact Nat.le_refl _
  | succ fuel ih =>
    rw [readFile]
    dsimp only
    split_ifs
    · exact Nat.le_refl _
    · exact readChunk_length_left_le r
    · exact (ih _).trans (readChunk_length_left_le r)

/-- The loop reads up to the end of a line, or of the file. -/
theorem readFile_spec {fuel : ℕ} {r : Reader} (hfuel : r.file.length ≤ fuel) (h : r.Clean) :
    (readFile fuel r).Clean ∧ (readFile fuel r).left = r.left ∧
      (lf ∈ (readFile fuel r).data.getD [] ∨ (readFile fuel r).file = []) := by
  induction fuel generalizing r with
  | zero => exact ⟨h, rfl, .inr (List.eq_nil_of_length_eq_zero (Nat.le_zero.mp hfuel))⟩
  | succ fuel ih =>
    by_cases hfile : r.file = []
    · rw [readFile, if_pos (List.isEmpty_iff.mpr hfile)]
      exact ⟨h, rfl, .inr hfile⟩
    · obtain ⟨hclean, hleft, hless⟩ := readChunk_spec hfile h
      rw [readFile, if_neg fun hempty => hfile (List.isEmpty_iff.mp hempty)]
      dsimp only
      split_ifs with hlf
      · exact ⟨hclean, hleft, .inl (List.contains_iff_mem.mp hlf)⟩
      · obtain ⟨hclean', hleft', hend⟩ := ih (Nat.le_of_lt_succ (hless.trans_le hfuel)) hclean
        exact ⟨hclean', hleft'.trans hleft, hend⟩

theorem ftUpdate_getD (data : CStr) :
    (ftUpdate data).getD [] = data.drop (firstLine data).length := by
  unfold ftUpdate
  dsimp only
  split_ifs with hempty
  · exact (List.isEmpty_iff.mp hempty).symm
  · rfl

/-- A line and what is left after it. -/
theorem getNextLine_length {r r' : Reader} {line : CStr} (h : getNextLine r = some (line, r')) :
    line.length + r'.left.length ≤ r.left.length := by
  unfold getNextLine at h
  dsimp only at h
  have hle := readFile_length_left_le r.file.length r
  split at h
  · cases h
  · rename_i data hdata
    obtain ⟨rfl, rfl⟩ := Prod.mk.inj (Option.some.inj h)
    have hprefix := firstLine_prefix data
    have hline := hprefix.length_le
    simp only [Reader.left, ftUpdate_getD, hdata, Option.getD_some, List.length_append,
      List.length_drop] at hle ⊢
    omega

theorem getNextLine_eq_none {r : Reader} (h : r.Clean) (hleft : r.left = []) :
    getNextLine r = none := by
  obtain ⟨hdata, hfile⟩ := List.append_eq_nil_iff.mp hleft
  have hnone : r.data = none := by
    cases hd : r.data with
    | none => rfl
    | some data =>
      rw [hd] at hdata
      exact absurd (hd.trans (congrArg some hdata)) h.data_ne
  have hread : readFile r.file.length r = r := by
    rw [hfile]
    rfl
  simp only [getNextLine, hread, hnone]

/-- **`get_next_line`** returns the next line of a file without a NUL. -/
theorem getNextLine_line {r : Reader} {l rest : CStr} (h : r.Clean) (hl : Line l rest)
    (hleft : r.left = l ++ rest) :
    ∃ r', getNextLine r = some (l, r') ∧ r'.Clean ∧ r'.left = rest := by
  obtain ⟨hclean, hsame, hend⟩ := readFile_spec (Nat.le_refl _) h
  have hne : (readFile r.file.length r).left ≠ [] := by
    rw [hsame, hleft]
    exact List.append_ne_nil_of_left_ne_nil hl.ne_nil _
  cases hdata : (readFile r.file.length r).data with
  | none =>
    rw [hdata] at hend
    rcases hend with hmem | hfile
    · cases hmem
    · rw [Reader.left, hdata, hfile] at hne
      exact absurd rfl hne
  | some data =>
    rw [hdata, Option.getD_some] at hend
    have heq : data ++ (readFile r.file.length r).file = l ++ rest := by
      rw [← hleft, ← hsame, Reader.left, hdata]
      rfl
    have hfirst : firstLine data = l := by
      rw [← firstLine_append hend, heq, hl.firstLine_eq]
    obtain ⟨tail, htail⟩ := firstLine_prefix data
    rw [hfirst] at htail
    refine ⟨{ readFile r.file.length r with data := ftUpdate data }, ?_, ?_, ?_⟩
    · simp only [getNextLine, hdata, hfirst]
    · refine ⟨hclean.no_nul, fun hnil => ?_⟩
      unfold ftUpdate at hnil
      dsimp only at hnil
      split_ifs at hnil with hempty
      rw [Option.some.inj hnil] at hempty
      exact hempty rfl
    · rw [← htail, List.append_assoc] at heq
      have hrest := List.append_cancel_left heq
      rw [Reader.left, ftUpdate_getD, hfirst, ← htail, List.drop_left, hrest]

theorem line_ne_nil_of_acceptLine {line : CStr} {w : LineInput} (h : acceptLine line = some w) :
    line ≠ [] := by
  rintro rfl
  cases h

/-- The fuel of `readInput` is enough. -/
theorem readInputLoop_fuel {fuel fuel' : ℕ} {r : Reader} (h : r.left.length < fuel)
    (h' : r.left.length < fuel') : readInputLoop fuel r = readInputLoop fuel' r := by
  induction fuel generalizing fuel' r with
  | zero => exact absurd h (Nat.not_lt_zero _)
  | succ fuel ih =>
    obtain ⟨fuel', rfl⟩ : ∃ n, fuel' = n + 1 := ⟨fuel' - 1, by omega⟩
    rw [readInputLoop, readInputLoop]
    cases hget : getNextLine r with
    | none => rfl
    | some next =>
      obtain ⟨line, r'⟩ := next
      dsimp only
      cases hline : acceptLine line with
      | none => rfl
      | some w =>
        have hless := getNextLine_length hget
        have hpos := List.length_pos_iff.mpr (line_ne_nil_of_acceptLine hline)
        have hloop : readInputLoop fuel r' = readInputLoop fuel' r' := ih (by omega) (by omega)
        dsimp only
        rw [hloop]

theorem readInputLoop_eq_some_iff {left : CStr} {fuel : ℕ} {r : Reader} {ws : List LineInput}
    (h : r.Clean) (hleft : r.left = left) (hfuel : left.length < fuel) :
    readInputLoop fuel r = some ws ↔
      ∃ ts : List InputLine, (lines left).map trimNewline = ts.map InputLine.text ∧
        ws = ts.map InputLine.parsed := by
  induction left using line_induction generalizing fuel r ws with
  | nil =>
    obtain ⟨fuel, rfl⟩ : ∃ n, fuel = n + 1 := ⟨fuel - 1, by omega⟩
    rw [readInputLoop, getNextLine_eq_none h hleft]
    constructor
    · intro hws
      exact ⟨[], rfl, (Option.some.inj hws).symm⟩
    · rintro ⟨ts, hts, rfl⟩
      obtain rfl := List.map_eq_nil_iff.mp hts.symm
      rfl
  | line l rest hl ih =>
    obtain ⟨fuel, rfl⟩ : ∃ n, fuel = n + 1 := ⟨fuel - 1, by omega⟩
    obtain ⟨r', hget, hclean, hrest⟩ := getNextLine_line h hl hleft
    have hpos := List.length_pos_iff.mpr hl.ne_nil
    have hless : rest.length < fuel := by
      rw [List.length_append] at hfuel
      omega
    rw [readInputLoop, hget, hl.lines_eq]
    dsimp only
    constructor
    · intro hws
      cases hline : acceptLine l with
      | none =>
        rw [hline] at hws
        cases hws
      | some w =>
        rw [hline] at hws
        obtain ⟨ws', hloop, rfl⟩ := Option.map_eq_some_iff.mp hws
        obtain ⟨t, ht, rfl⟩ := acceptLine_eq_some_iff.mp hline
        obtain ⟨ts, hts, rfl⟩ := (ih hclean hrest hless).mp hloop
        exact ⟨t :: ts, by rw [List.map_cons, List.map_cons, ht, hts], rfl⟩
    · rintro ⟨ts, hts, rfl⟩
      cases ts with
      | nil => cases hts
      | cons t ts =>
        obtain ⟨ht, hts⟩ := List.cons.inj hts
        have hloop := (ih hclean hrest hless).mpr ⟨ts, hts, rfl⟩
        rw [acceptLine_eq_some_iff.mpr ⟨t, ht, rfl⟩, hloop]
        rfl

/-- **What `read_input` accepts.** -/
theorem readInput_eq_some_iff {file : CStr} (h : 0 ∉ file) {ws : List LineInput} :
    readInput file = some ws ↔
      ∃ ts : List InputLine, (lines file).map trimNewline = ts.map InputLine.text ∧
        ws = ts.map InputLine.parsed :=
  readInputLoop_eq_some_iff ⟨h, (Option.some_ne_none []).symm⟩ rfl (Nat.lt_succ_self _)

/-- `trim_newline` takes nothing but the end of a line. -/
theorem mem_trimNewline {line : CStr} {b : UInt8} (hb : b ∈ line) :
    b ∈ trimNewline line ∨ b = lf ∨ b = cr := by
  have hlast : ∀ {l : CStr} {c : UInt8}, b ∈ l → l.getLast? = some c → b ∈ l.dropLast ∨ b = c := by
    intro l c hb hc
    obtain ⟨init, rfl⟩ := List.getLast?_eq_some_iff.mp hc
    rw [List.dropLast_concat]
    simpa using hb
  have htrim : b ∈ (if line.getLast? = some lf then line.dropLast else line) ∨ b = lf := by
    split_ifs with hlf
    · exact hlast hb hlf
    · exact .inl hb
  rcases htrim with htrim | rfl
  · unfold trimNewline
    dsimp only
    generalize (if line.getLast? = some lf then line.dropLast else line) = cut at htrim ⊢
    split_ifs with hcr
    · exact (hlast htrim hcr).imp_right .inr
    · exact .inl htrim
  · exact .inr (.inl rfl)

/-- Where all lines are as `is_valid_line` accepts them, there is no NUL. -/
theorem no_nul_of_lines {file : CStr} {ts : List InputLine}
    (h : (lines file).map trimNewline = ts.map InputLine.text) : 0 ∉ file := by
  intro hzero
  rw [← flatten_lines file] at hzero
  obtain ⟨line, hline, hzero⟩ := List.mem_flatten.mp hzero
  rcases mem_trimNewline hzero with htrim | hlf | hcr
  · obtain ⟨t, -, ht⟩ := List.mem_map.mp (h ▸ List.mem_map_of_mem hline)
    rw [← ht] at htrim
    rcases InputLine.mem_text htrim with hspace | hbyte
    · exact absurd hspace (by decide)
    · exact (not_separator hbyte).1 rfl
  · exact absurd hlf (by decide)
  · exact absurd hcr (by decide)

theorem InputLine.text_inj {t u : InputLine} (h : t.text = u.text) :
    t.id = u.id ∧ t.word = u.word ∧ t.floor = u.floor := by
  have hid : ∀ t : InputLine, (32 : UInt8) ∉ t.id := fun t hmem =>
    (not_separator (.inl (t.id_digits _ hmem))).2.1 rfl
  have hword : ∀ t : InputLine, (32 : UInt8) ∉ t.word := fun t hmem =>
    (not_separator (.inr (t.word_letters _ hmem))).2.1 rfl
  obtain ⟨hids, hrest⟩ := append_separator_inj (hid t) (hid u) h
  obtain ⟨hwords, hfloors⟩ := append_separator_inj (hword t) (hword u) hrest
  exact ⟨hids, hwords, hfloors⟩

/-- A file of lines, each with its line feed. -/
def fileOf (ts : List InputLine) : CStr := (ts.map fun t => t.text ++ [lf]).flatten

theorem lines_fileOf (ts : List InputLine) :
    (lines (fileOf ts)).map trimNewline = ts.map InputLine.text := by
  have hend : ∀ (t : InputLine) (b : UInt8), b = lf ∨ b = cr → b ∉ t.text := by
    intro t b hb hmem
    rcases InputLine.mem_text hmem with rfl | hbyte
    · exact absurd hb (by decide)
    · have hne := not_separator hbyte
      rcases hb with rfl | rfl
      · exact hne.2.2.1 rfl
      · exact hne.2.2.2 rfl
  rw [fileOf, lines_flatten, List.map_map]
  · refine List.map_congr_left fun t _ => ?_
    have hcr : t.text.getLast? ≠ some cr := fun hlast =>
      hend t cr (.inr rfl) (List.mem_of_getLast? hlast)
    simp only [Function.comp_apply, trimNewline, List.getLast?_concat, if_true,
      List.dropLast_concat, if_neg hcr]
  · rintro line hline
    obtain ⟨t, -, rfl⟩ := List.mem_map.mp hline
    exact ⟨t.text, hend t lf (.inl rfl), rfl⟩

/-- Such a file is read as it was written. -/
theorem readInput_fileOf (ts : List InputLine) :
    readInput (fileOf ts) = some (ts.map InputLine.parsed) :=
  (readInput_eq_some_iff (no_nul_of_lines (lines_fileOf ts))).mpr ⟨ts, lines_fileOf ts, rfl⟩

end Cse344.HW3
