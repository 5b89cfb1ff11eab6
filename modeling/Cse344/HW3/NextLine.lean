import Cse344.HW3.Input
import Mathlib.Data.List.GetD

/-!
# Reading lines in short reads

Model of `read_file`, `ft_sep_line`, `ft_update` and `get_next_line`
(`HW3/get_next_line/get_next_line.c`) and of `ft_strchr` and `ft_join` (`get_next_line_utils.c`) for
any `BUFFER_SIZE`, with reads that may be short. `Cse344.HW3.Input` has `get_next_line` as the
program uses it: there a read of a regular file fills the buffer.

* A string is the list of its bytes, without the NUL at its end.
* `Reads` are the bytes that the calls of `read` return, one after the other, up to the end of the
  file.
* What `get_next_line` has read too much is the static string that the next call starts with.

Results:
* `getNextLine_line`: the next line is returned, wherever the reads are cut.
* **`next_lines_are_lines`**: the calls of `get_next_line` return the lines of the file, and then
  `NULL`.
* `getNextLine_fullReads`: on a regular file it is the one of `Cse344.HW3.Input`.

Out of scope: an invalid descriptor, a `read` that fails, an allocation that fails.
-/

namespace Cse344.HW3.ShortReads

open Cse344.Lib

/-- What the calls of `read` return: a byte or more, and no more than the buffer holds. -/
structure Reads (bufferSize : ℕ) where
  chunks : List CStr
  pos : ∀ chunk ∈ chunks, 1 ≤ chunk.length
  le : ∀ chunk ∈ chunks, chunk.length ≤ bufferSize

/-- The file. -/
def Reads.content {bufferSize : ℕ} (reads : Reads bufferSize) : CStr := reads.chunks.flatten

/-- `s[i]`: after the last byte stands the NUL. -/
def charAt (s : CStr) (i : ℕ) : UInt8 := s.getD i 0

/-- What `ft_strchr` points at. -/
def ftStrchr : CStr → UInt8 → Option CStr
  | [], c => if c = 0 then some [] else none
  | b :: s, c => if b = c then some (b :: s) else ftStrchr s c

def ftJoin (data : Option CStr) (buffer : CStr) : CStr := data.getD [] ++ buffer

/-- `while (data[++i] != '\n' && data[i]);`, which stops at a line feed or at the end. -/
def lineEnd : CStr → ℕ
  | [] => 0
  | c :: data => if c = lf then 0 else lineEnd data + 1

/-- Where `ft_sep_line` and `ft_update` go on: after the line feed, if there is one. -/
def lineStop (data : CStr) : ℕ :=
  if charAt data (lineEnd data) = lf then lineEnd data + 1 else lineEnd data

def ftSepLine (data : CStr) : CStr := data.take (lineStop data)

def ftUpdate (data : CStr) : Option CStr :=
  if charAt data (lineStop data) = 0 then none else some (data.drop (lineStop data))

/-- The static `data` of `get_next_line`, and what the reads to come return. -/
structure Reading where
  data : Option CStr
  chunks : List CStr

/-- The loop of `read_file`, up to a line feed or to the end of the file. -/
def readFile : Option CStr → List CStr → Reading
  | data, [] => ⟨data, []⟩
  | data, chunk :: chunks =>
    let data := ftJoin data (ofBuffer chunk)
    if (ftStrchr data lf).isSome then ⟨some data, chunks⟩ else readFile (some data) chunks

def getNextLine (r : Reading) : Option CStr × Reading :=
  let r := readFile r.data r.chunks
  match r.data with
  | none => (none, r)
  | some data => (some (ftSepLine data), { r with data := ftUpdate data })

/-- The calls of `get_next_line` up to the one that returns `NULL`: the lines, and what is left. -/
def untilNull : ℕ → Reading → Option (List CStr × Reading)
  | 0, _ => none
  | fuel + 1, r =>
    match getNextLine r with
    | (none, r) => some ([], r)
    | (some line, r) => (untilNull fuel r).map fun x => (line :: x.1, x.2)

/-! ## Strings -/

theorem ftStrchr_isSome_iff {s : CStr} {c : UInt8} (hc : c ≠ 0) :
    (ftStrchr s c).isSome = true ↔ c ∈ s := by
  induction s with
  | nil => simp [ftStrchr, hc]
  | cons b s ih =>
    rw [ftStrchr, List.mem_cons]
    split_ifs with hb
    · exact iff_of_true rfl (.inl hb.symm)
    · rw [ih, or_iff_right (Ne.symm hb)]

theorem charAt_cons_succ (c : UInt8) (s : CStr) (i : ℕ) : charAt (c :: s) (i + 1) = charAt s i :=
  rfl

theorem lineStop_cons (c : UInt8) (data : CStr) :
    lineStop (c :: data) = if c = lf then 1 else lineStop data + 1 := by
  unfold lineStop
  rw [lineEnd]
  by_cases hc : c = lf
  · rw [if_pos hc, if_pos hc]
    exact if_pos hc
  · rw [if_neg hc, if_neg hc, charAt_cons_succ]
    split_ifs <;> rfl

/-- The line that is separated is the first. -/
theorem ftSepLine_eq (data : CStr) : ftSepLine data = firstLine data := by
  induction data with
  | nil => rfl
  | cons c data ih =>
    rw [ftSepLine, lineStop_cons, firstLine]
    split_ifs
    · rfl
    · rw [List.take_succ_cons, ← ih, ftSepLine]

theorem lineStop_eq (data : CStr) : lineStop data = (firstLine data).length := by
  induction data with
  | nil => rfl
  | cons c data ih =>
    rw [lineStop_cons, firstLine]
    split_ifs
    · rfl
    · rw [List.length_cons, ih]

theorem charAt_eq_zero_iff {s : CStr} (h : 0 ∉ s) {i : ℕ} : charAt s i = 0 ↔ s.drop i = [] := by
  rw [charAt, List.drop_eq_nil_iff]
  constructor
  · intro hzero
    by_contra hlt
    rw [List.getD_eq_getElem _ _ (not_le.mp hlt)] at hzero
    exact h (hzero ▸ List.getElem_mem _)
  · exact fun hle => List.getD_eq_default _ _ hle

/-- What is left after the first line is kept, if there is something. -/
theorem ftUpdate_eq {data : CStr} (h : 0 ∉ data) : ftUpdate data = HW3.ftUpdate data := by
  rw [ftUpdate, HW3.ftUpdate, lineStop_eq]
  simp only [charAt_eq_zero_iff h, List.isEmpty_iff]

/-! ## Reading -/

namespace Reading

/-- What is still to be returned. -/
def left (r : Reading) : CStr := r.data.getD [] ++ r.chunks.flatten

/-- No NUL is to come, and neither the remainder nor a read is empty. -/
structure Clean (r : Reading) : Prop where
  no_nul : 0 ∉ r.left
  data_ne : r.data ≠ some []
  chunk_ne : ∀ chunk ∈ r.chunks, chunk ≠ []

end Reading

/-- The loop loses nothing, and goes on to a line feed or to the end of the file. -/
theorem readFile_spec {data : Option CStr} {chunks : List CStr}
    (h : Reading.Clean ⟨data, chunks⟩) :
    (readFile data chunks).Clean ∧ (readFile data chunks).left = Reading.left ⟨data, chunks⟩ ∧
      (lf ∈ (readFile data chunks).data.getD [] ∨ (readFile data chunks).chunks = []) := by
  induction chunks generalizing data with
  | nil => exact ⟨h, rfl, .inr rfl⟩
  | cons chunk chunks ih =>
    have hchunk : ofBuffer chunk = chunk := by
      refine ofBuffer_eq_self fun b hb hzero => h.no_nul (hzero ▸ ?_)
      exact List.mem_append_right _ (List.mem_append_left _ hb)
    have hleft : Reading.left ⟨some (ftJoin data chunk), chunks⟩ =
        Reading.left ⟨data, chunk :: chunks⟩ := by
      simp only [Reading.left, ftJoin, Option.getD_some, List.flatten_cons, List.append_assoc]
    have hclean : Reading.Clean ⟨some (ftJoin data chunk), chunks⟩ := by
      refine ⟨hleft ▸ h.no_nul, fun hnil => ?_,
        fun c hc => h.chunk_ne c (List.mem_cons_of_mem _ hc)⟩
      exact h.chunk_ne chunk List.mem_cons_self
        (List.append_eq_nil_iff.mp (Option.some.inj hnil)).2
    rw [readFile, hchunk]
    split_ifs with hlf
    · exact ⟨hclean, hleft, .inl ((ftStrchr_isSome_iff (by decide)).mp hlf)⟩
    · obtain ⟨hclean', hleft', hend⟩ := ih hclean
      exact ⟨hclean', hleft'.trans hleft, hend⟩

/-- At the end of the file `get_next_line` returns `NULL`, and keeps nothing. -/
theorem getNextLine_nil {r : Reading} (h : r.Clean) (hleft : r.left = []) :
    getNextLine r = (none, ⟨none, []⟩) := by
  obtain ⟨hclean, hsame, -⟩ := readFile_spec h
  rw [hleft] at hsame
  obtain ⟨hdata, hchunks⟩ := List.append_eq_nil_iff.mp hsame
  have hnone : (readFile r.data r.chunks).data = none := by
    cases hd : (readFile r.data r.chunks).data with
    | none => rfl
    | some data =>
      rw [hd] at hdata
      exact absurd (hd.trans (congrArg some hdata)) hclean.data_ne
  have hnil : (readFile r.data r.chunks).chunks = [] := by
    refine List.eq_nil_iff_forall_not_mem.mpr fun chunk hchunk => ?_
    exact hclean.chunk_ne chunk hchunk (List.flatten_eq_nil_iff.mp hchunks chunk hchunk)
  rw [getNextLine, hnone]
  dsimp only
  rw [← hnone, ← hnil]

/-- **`get_next_line` returns the next line**, wherever the reads are cut. -/
theorem getNextLine_line {r : Reading} {l rest : CStr} (h : r.Clean) (hl : Line l rest)
    (hleft : r.left = l ++ rest) :
    ∃ r', getNextLine r = (some l, r') ∧ r'.Clean ∧ r'.left = rest := by
  obtain ⟨hclean, hsame, hend⟩ := readFile_spec h
  cases hdata : (readFile r.data r.chunks).data with
  | none =>
    -- nothing has been read, so nothing was left
    rw [hdata] at hend
    rcases hend with hmem | hchunks
    · cases hmem
    · have hnil : l ++ rest = [] := by
        rw [← hleft, ← hsame, Reading.left, hdata, hchunks]
        rfl
      exact absurd (List.append_eq_nil_iff.mp hnil).1 hl.ne_nil
  | some data =>
    rw [hdata, Option.getD_some] at hend
    have heq : data ++ (readFile r.data r.chunks).chunks.flatten = l ++ rest := by
      rw [← hleft, ← hsame, Reading.left, hdata]
      rfl
    have hchunks : lf ∈ data ∨ (readFile r.data r.chunks).chunks.flatten = [] :=
      hend.imp_right fun hnil => by rw [hnil]; rfl
    have hfirst : firstLine data = l := by
      rw [← firstLine_append hchunks, heq, hl.firstLine_eq]
    have hnul : 0 ∉ data := fun hzero => hclean.no_nul (by
      rw [Reading.left, hdata]
      exact List.mem_append_left _ hzero)
    obtain ⟨tail, htail⟩ := firstLine_prefix data
    rw [hfirst] at htail
    refine ⟨{ readFile r.data r.chunks with data := ftUpdate data }, ?_, ?_⟩
    · rw [getNextLine]
      dsimp only
      rw [hdata]
      dsimp only
      rw [ftSepLine_eq, hfirst]
    · have hrest : Reading.left { readFile r.data r.chunks with data := ftUpdate data } = rest := by
        rw [← htail, List.append_assoc] at heq
        rw [Reading.left, ftUpdate_eq hnul, ftUpdate_getD, hfirst, ← htail, List.drop_left]
        exact List.append_cancel_left heq
      refine ⟨⟨?_, fun hnil => ?_, hclean.chunk_ne⟩, hrest⟩
      · rw [hrest]
        have hno := hsame ▸ hclean.no_nul
        rw [hleft] at hno
        exact fun hzero => hno (List.mem_append_right _ hzero)
      · rw [ftUpdate_eq hnul] at hnil
        unfold HW3.ftUpdate at hnil
        dsimp only at hnil
        split_ifs at hnil with hempty
        rw [Option.some.inj hnil] at hempty
        exact hempty rfl

/-- All calls, by induction on the lines that are left. -/
theorem untilNull_spec {content : CStr} : ∀ {fuel : ℕ} {r : Reading}, r.Clean → r.left = content →
    content.length < fuel → untilNull fuel r = some (lines content, ⟨none, []⟩) := by
  induction content using line_induction with
  | nil =>
    intro fuel r hclean hleft hfuel
    obtain ⟨fuel, rfl⟩ : ∃ k, fuel = k + 1 := ⟨fuel - 1, by omega⟩
    rw [untilNull, getNextLine_nil hclean hleft]
    rfl
  | line l rest hl ih =>
    intro fuel r hclean hleft hfuel
    obtain ⟨fuel, rfl⟩ : ∃ k, fuel = k + 1 := ⟨fuel - 1, by omega⟩
    obtain ⟨r', hget, hclean', hleft'⟩ := getNextLine_line hclean hl hleft
    have hpos := List.length_pos_iff.mpr hl.ne_nil
    rw [List.length_append] at hfuel
    rw [untilNull, hget, hl.lines_eq]
    dsimp only
    rw [ih hclean' hleft' (by omega)]
    rfl

/-- **The file is reassembled.** For a file without a NUL, whatever the reads return of it, the
strings that `get_next_line` returns up to `NULL` are its lines: together they are the file, none is
empty, each but the last has one line feed, at its end. Nothing is kept when `NULL` is returned. -/
theorem next_lines_are_lines {bufferSize : ℕ} (reads : Reads bufferSize) (h : 0 ∉ reads.content)
    {fuel : ℕ} (hfuel : reads.content.length < fuel) :
    ∃ ls, untilNull fuel ⟨none, reads.chunks⟩ = some (ls, ⟨none, []⟩) ∧
      ls.flatten = reads.content ∧ (∀ l ∈ ls, l ≠ []) ∧
      ∀ l ∈ ls.dropLast, l.count lf = 1 ∧ l.getLast? = some lf := by
  have hclean : Reading.Clean ⟨none, reads.chunks⟩ := by
    refine ⟨h, Option.some_ne_none _ |>.symm, fun chunk hchunk hnil => ?_⟩
    have hpos := reads.pos chunk hchunk
    rw [hnil] at hpos
    exact absurd hpos (by decide)
  refine ⟨lines reads.content, untilNull_spec hclean rfl hfuel, flatten_lines _, fun l hl => ?_,
    fun l hl => ?_⟩
  · obtain ⟨x, hx, rfl⟩ := exists_offset 0 hl
    exact (mem_offsets_lines hx).1.ne_nil
  · obtain ⟨body, hbody, rfl⟩ := exists_body_of_mem_dropLast l hl
    rw [List.count_append, List.count_eq_zero.mpr hbody, List.getLast?_concat]
    exact ⟨rfl, rfl⟩

/-- Two reads of three bytes; the first ends inside the second line. -/
def twoReads : Reads 3 where
  chunks := [cstr "a\nb", cstr "c\nd"]
  pos := by decide
  le := by decide

theorem next_lines_are_lines_twoReads :
    ∃ ls, untilNull 7 ⟨none, twoReads.chunks⟩ = some (ls, ⟨none, []⟩) ∧
      ls.flatten = cstr "a\nbc\nd" := by
  have hfuel : twoReads.content.length < 7 := by decide
  obtain ⟨ls, hcalls, hflatten, -⟩ := next_lines_are_lines twoReads (by decide) hfuel
  exact ⟨ls, hcalls, hflatten⟩

/-! ## Reads that fill the buffer -/

/-- What the reads of a regular file return. -/
def fullReadsLoop : ℕ → CStr → List CStr
  | 0, _ => []
  | fuel + 1, file =>
    if file.isEmpty then []
    else file.take bufferSize :: fullReadsLoop fuel (file.drop bufferSize)

/-- Each read takes a byte, so `file.length` of them are enough. -/
def fullReads (file : CStr) : List CStr := fullReadsLoop file.length file

theorem fullReadsLoop_fuel {fuel fuel' : ℕ} {file : CStr} (h : file.length ≤ fuel)
    (h' : file.length ≤ fuel') : fullReadsLoop fuel file = fullReadsLoop fuel' file := by
  induction fuel generalizing fuel' file with
  | zero =>
    obtain rfl : file = [] := List.eq_nil_of_length_eq_zero (Nat.le_zero.mp h)
    cases fuel' <;> rfl
  | succ fuel ih =>
    by_cases hnil : file = []
    · subst hnil
      cases fuel' <;> rfl
    · have hpos := List.length_pos_iff.mpr hnil
      obtain ⟨fuel', rfl⟩ : ∃ k, fuel' = k + 1 := ⟨fuel' - 1, by omega⟩
      have hdrop : (file.drop bufferSize).length < file.length := by
        rw [List.length_drop, bufferSize]
        omega
      have hloop : fullReadsLoop fuel (file.drop bufferSize) =
          fullReadsLoop fuel' (file.drop bufferSize) := ih (by omega) (by omega)
      rw [fullReadsLoop, fullReadsLoop, hloop]

theorem fullReads_eq {file : CStr} (h : file ≠ []) :
    fullReads file = file.take bufferSize :: fullReads (file.drop bufferSize) := by
  obtain ⟨c, rest, rfl⟩ := List.exists_cons_of_ne_nil h
  rw [fullReads, List.length_cons, fullReadsLoop, List.isEmpty_cons, if_neg Bool.false_ne_true]
  refine congrArg (_ :: ·) (fullReadsLoop_fuel ?_ (le_refl _))
  rw [List.length_drop, List.length_cons, bufferSize]
  omega

/-- The loop of `read_file` is the one of the model of regular files. -/
theorem readFile_fullReads {fuel : ℕ} {r : Reader} (h : r.file.length ≤ fuel) :
    readFile r.data (fullReads r.file) =
      ⟨(HW3.readFile fuel r).data, fullReads (HW3.readFile fuel r).file⟩ := by
  induction fuel generalizing r with
  | zero =>
    have hnil : r.file = [] := List.eq_nil_of_length_eq_zero (Nat.le_zero.mp h)
    rw [HW3.readFile, hnil]
    rfl
  | succ fuel ih =>
    by_cases hnil : r.file = []
    · rw [HW3.readFile, if_pos (List.isEmpty_iff.mpr hnil), hnil]
      rfl
    · have hpos := List.length_pos_iff.mpr hnil
      have hchunk : ftJoin r.data (ofBuffer (r.file.take bufferSize)) =
          (readChunk r).data.getD [] := rfl
      have hlf : (ftStrchr ((readChunk r).data.getD []) lf).isSome =
          ((readChunk r).data.getD []).contains lf := by
        rw [Bool.eq_iff_iff, ftStrchr_isSome_iff (by decide), List.contains_iff_mem]
      rw [fullReads_eq hnil, readFile, hchunk, hlf, HW3.readFile,
        if_neg fun hempty => hnil (List.isEmpty_iff.mp hempty)]
      dsimp only
      split_ifs
      · rfl
      · have hdrop : (readChunk r).file.length ≤ fuel := by
          simp only [readChunk, List.length_drop, bufferSize]
          omega
        exact ih hdrop

/-- **`get_next_line` on a regular file** is the one of the model of regular files. -/
theorem getNextLine_fullReads {r r' : Reader} {line : CStr} (h : r.Clean)
    (hdata : ∀ data ∈ r.data, 0 ∉ data) (hget : HW3.getNextLine r = some (line, r')) :
    getNextLine ⟨r.data, fullReads r.file⟩ = (some line, ⟨r'.data, fullReads r'.file⟩) := by
  have hread := readFile_fullReads (Nat.le_refl r.file.length)
  have hleft := (HW3.readFile_spec (Nat.le_refl _) h).2.1
  unfold HW3.getNextLine at hget
  dsimp only at hget
  split at hget
  · cases hget
  · rename_i data hsome
    obtain ⟨rfl, rfl⟩ := Prod.mk.inj (Option.some.inj hget)
    have hnul : 0 ∉ data := by
      intro hzero
      have hmem : (0 : UInt8) ∈ (HW3.readFile r.file.length r).left := by
        rw [Reader.left, hsome]
        exact List.mem_append_left _ hzero
      rw [hleft, Reader.left] at hmem
      rcases List.mem_append.mp hmem with hmem | hmem
      · cases hd : r.data with
        | none =>
          rw [hd] at hmem
          cases hmem
        | some data' =>
          rw [hd] at hmem
          exact hdata data' hd hmem
      · exact h.no_nul hmem
    rw [getNextLine, hread]
    dsimp only
    rw [hsome]
    dsimp only
    rw [ftSepLine_eq, ftUpdate_eq hnul]

end Cse344.HW3.ShortReads
