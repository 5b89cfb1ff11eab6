import Cse344.HW4.Reading

/-!
# Which reader thread reads a line

`Cse344.HW4.Reading` says what the reader threads push. Here it is which positions of the file the
calls of `fgets` in `reader_thread_func` (`HW4/src/utils/reader_thread_fun.c` 14-62) start at, with
no regard to what the lines hold.

* `fgetsStarts` are the positions of one thread; `readerThread_eq`: the thread pushes what is read
  there.
* A line that does not fit in the buffer is read by several calls; the later ones start in the line.

Results:
* `findLineStart_spec`: `find_line_start` goes to the first start of a line from its position on.
* **`line_ownership`**: where a line starts, exactly one thread reads, the one whose range holds the
  position, and it starts one call there; the first call of a thread is at the start of a line. That
  is so for every number of threads, also where it exceeds the size of the file.

Out of scope: a file that changes while it is read.
-/

namespace Cse344.HW4

open Cse344.Lib

/-- The positions at which the loop of `reader_thread_func` calls `fgets`. -/
def startsLoop (endByte : ℕ) : ℕ → ℕ → CStr → List ℕ
  | 0, _, _ => []
  | fuel + 1, pos, rest =>
    if pos < endByte then
      match fgets lineBufSize rest with
      | [] => [pos]
      | c :: line =>
        pos :: startsLoop endByte fuel (pos + (c :: line).length) (rest.drop (c :: line).length)
    else []

/-- The positions at which `reader_thread_func` calls `fgets` for its range. -/
def fgetsStarts (fp : CStr) (startByte endByte : ℕ) : List ℕ :=
  let realStart := findLineStart fp startByte
  startsLoop endByte ((fp.drop realStart).length + 1) realStart (fp.drop realStart)

/-! ## The loop -/

theorem startsLoop_range (e : ℕ) : ∀ (fuel pos : ℕ) (rest : CStr),
    ∀ p ∈ startsLoop e fuel pos rest, pos ≤ p ∧ p < e
  | 0, _, _, _, hp => by cases hp
  | fuel + 1, pos, rest, p, hp => by
    rw [startsLoop] at hp
    split_ifs at hp with hlt
    · split at hp
      · obtain rfl := List.mem_singleton.mp hp
        exact ⟨le_rfl, hlt⟩
      · rcases List.mem_cons.mp hp with rfl | hp
        · exact ⟨le_rfl, hlt⟩
        · obtain ⟨hle, hpe⟩ := startsLoop_range e fuel _ _ p hp
          exact ⟨(Nat.le_add_right _ _).trans hle, hpe⟩
    · cases hp

/-- The calls of a thread start at later and later positions. -/
theorem startsLoop_pairwise (e : ℕ) : ∀ (fuel pos : ℕ) (rest : CStr),
    (startsLoop e fuel pos rest).Pairwise (· < ·)
  | 0, _, _ => List.Pairwise.nil
  | fuel + 1, pos, rest => by
    rw [startsLoop]
    split_ifs
    · split
      · exact List.pairwise_singleton _ _
      · rename_i c line _
        refine List.pairwise_cons.mpr ⟨fun p hp => ?_, startsLoop_pairwise e fuel _ _⟩
        have hle := (startsLoop_range e fuel _ _ p hp).1
        rw [List.length_cons] at hle
        omega
    · exact List.Pairwise.nil

theorem startsLoop_head (e : ℕ) {fuel pos p : ℕ} {rest : CStr}
    (h : (startsLoop e fuel pos rest).head? = some p) : p = pos := by
  cases fuel with
  | zero => cases h
  | succ fuel =>
    rw [startsLoop] at h
    split_ifs at h
    · split at h <;> exact (Option.some.inj h).symm
    · cases h

/-- No call reads past the start of a line. -/
theorem fgets_length_le {rest : CStr} {k : ℕ} (hk : 0 < k) (hlf : rest[k - 1]? = some lf) :
    (fgets lineBufSize rest).length ≤ k := by
  by_contra hlt
  have hlen : (fgets lineBufSize rest).length ≤ (firstLine rest).length := by
    rw [fgets, List.length_take]
    exact min_le_right _ _
  exact firstLine_inner (l := rest) (k := k - 1) (by omega) hlf

/-- **The loop gets to every line that starts in its range.** -/
theorem mem_startsLoop {e : ℕ} : ∀ {fuel pos k : ℕ} {rest : CStr}, rest.length < fuel →
    StartsLine rest k → pos + k < e → pos + k ∈ startsLoop e fuel pos rest
  | fuel + 1, pos, k, rest, hfuel, hk, he => by
    have hne : fgets lineBufSize rest ≠ [] := fun hnil => by
      rw [fgets_eq_nil (by decide)] at hnil
      rw [hnil] at hk
      exact absurd hk.1 (Nat.not_lt_zero k)
    rw [startsLoop, if_pos ((Nat.le_add_right pos k).trans_lt he)]
    rcases Nat.eq_zero_or_pos k with rfl | hpos
    · cases fgets lineBufSize rest with
      | nil => exact List.mem_singleton_self _
      | cons c line => exact List.mem_cons_self
    · have hlf := hk.2.resolve_left hpos.ne'
      have hle := fgets_length_le hpos hlf
      cases hline : fgets lineBufSize rest with
      | nil => exact absurd hline hne
      | cons c line =>
        rw [hline] at hle
        have hlen : (rest.drop (c :: line).length).length = rest.length - (c :: line).length :=
          List.length_drop
        have hone : 0 < (c :: line).length := Nat.succ_pos _
        have hsum : pos + k = pos + (c :: line).length + (k - (c :: line).length) := by omega
        have hklt := hk.1
        refine List.mem_cons_of_mem _ ?_
        rw [hsum]
        refine mem_startsLoop (by omega) ⟨by omega, ?_⟩ (by omega)
        rcases Nat.eq_zero_or_pos (k - (c :: line).length) with h0 | hpos'
        · exact Or.inl h0
        · right
          rw [List.getElem?_drop]
          have hidx : (c :: line).length + (k - (c :: line).length - 1) = k - 1 := by omega
          rwa [hidx]

/-- The thread pushes what its calls read. -/
theorem readLoop_eq (fp : CStr) (e : ℕ) : ∀ (fuel pos : ℕ),
    readLoop e fuel pos (fp.drop pos) = (startsLoop e fuel pos (fp.drop pos)).flatMap
      fun p => (lineEntry (fgets lineBufSize (fp.drop p))).toList
  | 0, _ => rfl
  | fuel + 1, pos => by
    rw [readLoop, startsLoop]
    split_ifs
    · cases hline : fgets lineBufSize (fp.drop pos) with
      | nil => simp [hline, lineEntry_nil]
      | cons c line =>
        dsimp only
        rw [List.flatMap_cons, hline, List.drop_drop]
        exact congrArg _ (readLoop_eq fp e fuel _)
    · rfl

theorem readerThread_eq (fp : CStr) (startByte endByte : ℕ) :
    readerThread fp startByte endByte = (fgetsStarts fp startByte endByte).flatMap
      fun p => (lineEntry (fgets lineBufSize (fp.drop p))).toList := by
  refine Eq.trans ?_ (readLoop_eq fp endByte _ _)
  exact readLoop_fuel _ _ _ _ _ le_rfl (Nat.le_succ _)

/-! ## Where a thread starts -/

/-- **`find_line_start` goes to the first start of a line** from `pos` on, and to the end of the
file or beyond where there is none. -/
theorem findLineStart_spec (fp : CStr) (pos : ℕ) :
    pos ≤ findLineStart fp pos ∧
      (∀ p, StartsLine fp p → pos ≤ p → findLineStart fp pos ≤ p) ∧
      (findLineStart fp pos < fp.length → StartsLine fp (findLineStart fp pos)) := by
  unfold findLineStart
  split_ifs with h0
  · exact ⟨h0.le, fun p _ _ => Nat.zero_le p, fun hlt => ⟨hlt, Or.inl rfl⟩⟩
  · have hidx : ∀ k, fp[pos - 1 + k]? = (fp.drop (pos - 1))[k]? := fun k =>
      List.getElem?_drop.symm
    cases hd : fp.drop (pos - 1) with
    | nil =>
      have hend : fp.length ≤ pos - 1 := List.drop_eq_nil_iff.mp hd
      exact ⟨le_rfl, fun p _ hp => hp, fun hlt => absurd hlt (by dsimp only; omega)⟩
    | cons c rest =>
      have hlen : rest.length + 1 = fp.length - (pos - 1) := by
        rw [← List.length_drop, hd, List.length_cons]
      have hbyte : ∀ k, fp[pos + k]? = rest[k]? := fun k => by
        have := hidx (k + 1)
        rw [hd, List.getElem?_cons_succ] at this
        rw [← this]
        congr 1
        omega
      have hc : fp[pos - 1]? = some c := by
        have := hidx 0
        rwa [hd, Nat.add_zero] at this
      dsimp only
      split_ifs with hlf
      · exact ⟨le_rfl, fun p _ hp => hp, fun hlt => ⟨hlt, Or.inr (hlf ▸ hc)⟩⟩
      · refine ⟨Nat.le_add_right _ _, fun p hp hle => ?_, fun hlt => ⟨hlt, Or.inr ?_⟩⟩
        · have hne : p ≠ pos := by
            rintro rfl
            have := hp.2.resolve_left h0
            rw [hc] at this
            exact hlf (Option.some.inj this)
          have hlfp : rest[p - 1 - pos]? = some lf := by
            rw [← hbyte]
            have hsum : pos + (p - 1 - pos) = p - 1 := by omega
            rw [hsum]
            exact hp.2.resolve_left (by omega)
          by_contra hgt
          exact firstLine_inner (by omega) hlfp
        · have hlast := firstLine_last (l := rest) (by omega)
          have hpos : 0 < (firstLine rest).length := by
            refine List.length_pos_iff.mpr fun hnil => ?_
            rw [firstLine_eq_nil] at hnil
            rw [hnil] at hlast
            cases hlast
          rw [← hlast, ← hbyte]
          congr 1
          omega

/-! ## The owners -/

/-- A thread reads at the starts of lines in its range. -/
theorem mem_fgetsStarts {fp : CStr} {s e p : ℕ} (hp : StartsLine fp p) :
    p ∈ fgetsStarts fp s e ↔ s ≤ p ∧ p < e := by
  obtain ⟨hle, hfirst, -⟩ := findLineStart_spec fp s
  constructor
  · intro hmem
    obtain ⟨hrp, hpe⟩ := startsLoop_range e _ _ _ p hmem
    exact ⟨hle.trans hrp, hpe⟩
  · rintro ⟨hsp, hpe⟩
    have hrp := hfirst p hp hsp
    have hsum : p = findLineStart fp s + (p - findLineStart fp s) := by omega
    rw [hsum]
    refine mem_startsLoop (Nat.lt_succ_self _) ⟨?_, ?_⟩ (by omega)
    · rw [List.length_drop]
      have := hp.1
      omega
    · rcases Nat.eq_zero_or_pos (p - findLineStart fp s) with h0 | hpos
      · exact Or.inl h0
      · right
        rw [List.getElem?_drop]
        have hidx : findLineStart fp s + (p - findLineStart fp s - 1) = p - 1 := by omega
        rw [hidx]
        exact hp.2.resolve_left (by omega)

/-- What `line_ownership` says of a file and `T` threads. -/
structure LineOwnership (fp : CStr) (T : ℕ) : Prop where
  /-- One thread reads at the start of a line, -/
  unique : ∀ p, StartsLine fp p →
    ∃! i, i < T ∧ p ∈ fgetsStarts fp (startByte fp T i) (endByte fp T i)
  /-- the one whose range holds the position, -/
  owner : ∀ p, StartsLine fp p → ∀ i < T,
    (p ∈ fgetsStarts fp (startByte fp T i) (endByte fp T i) ↔
      startByte fp T i ≤ p ∧ p < endByte fp T i)
  /-- with one call. -/
  once : ∀ i < T, (fgetsStarts fp (startByte fp T i) (endByte fp T i)).Nodup
  /-- No thread starts in a line. -/
  first : ∀ i < T, ∀ p,
    (fgetsStarts fp (startByte fp T i) (endByte fp T i)).head? = some p → StartsLine fp p

theorem endByte_le (fp : CStr) (T i : ℕ) : endByte fp T i ≤ fp.length := by
  unfold endByte
  split_ifs with h
  · exact le_rfl
  · exact not_lt.mp fun hlt => h (Or.inl hlt)

/-- The ranges do not meet. -/
theorem endByte_le_startByte {fp : CStr} {T i j : ℕ} (hij : i < j) (hj : j < T) :
    endByte fp T i ≤ startByte fp T j := by
  have hmul : (i + 1) * chunk fp T ≤ j * chunk fp T := Nat.mul_le_mul_right _ hij
  unfold endByte startByte
  split_ifs with h
  · omega
  · exact hmul

/-- **Every line has one owner.** -/
theorem line_ownership (fp : CStr) {T : ℕ} (hT : 1 ≤ T) : LineOwnership fp T where
  unique := fun p hp => by
    refine ⟨p / chunk fp T, ⟨div_chunk_lt hT hp.1, (mem_fgetsStarts hp).mpr
      ⟨Nat.div_mul_le_self _ _, lt_endByte hT hp.1⟩⟩, ?_⟩
    rintro j ⟨hj, hmem⟩
    obtain ⟨hs, he⟩ := (mem_fgetsStarts hp).mp hmem
    have hs' : startByte fp T (p / chunk fp T) ≤ p := Nat.div_mul_le_self _ _
    have he' := lt_endByte hT hp.1
    rcases lt_trichotomy j (p / chunk fp T) with hlt | heq | hgt
    · have hle : endByte fp T j ≤ startByte fp T (p / chunk fp T) :=
        endByte_le_startByte hlt (div_chunk_lt hT hp.1)
      omega
    · exact heq
    · have hle : endByte fp T (p / chunk fp T) ≤ startByte fp T j :=
        endByte_le_startByte hgt hj
      omega
  owner := fun p hp i _ => mem_fgetsStarts hp
  once := fun i _ => (startsLoop_pairwise _ _ _ _).imp Nat.ne_of_lt
  first := fun i _ p hp => by
    obtain rfl := startsLoop_head _ hp
    have hmem := List.mem_of_mem_head? (Option.mem_def.mpr hp)
    have hlt := (startsLoop_range _ _ _ _ _ hmem).2
    exact (findLineStart_spec fp _).2.2 (hlt.trans_le (endByte_le fp T i))

/-- Five threads for a file of three bytes: a border on a line feed, one after it, and starts at
the end and beyond it. -/
theorem line_ownership_threeBytes : LineOwnership (cstr "a\nb") 5 ∧
    (List.range 5).map (fun i => fgetsStarts (cstr "a\nb") (startByte (cstr "a\nb") 5 i)
      (endByte (cstr "a\nb") 5 i)) = [[0], [], [2], [], []] :=
  ⟨line_ownership (cstr "a\nb") (by decide), by decide +kernel⟩

end Cse344.HW4
