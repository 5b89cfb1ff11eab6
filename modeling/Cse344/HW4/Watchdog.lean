import Cse344.Lib.CString
import Cse344.Lib.Machine
import Cse344.Lib.Marked
import Mathlib.Algebra.BigOperators.Fin
import Mathlib.Algebra.Order.BigOperators.Group.Finset

/-!
# The progress the watchdog shows

Model of the heartbeats of `reader_thread_func` (`HW4/src/utils/reader_thread_fun.c` 14-62), of
`send_heartbeat` (`HW4/src/processes/reader.c` 30-39) and of `watchdog_thread`
(`HW4/src/processes/watchdog.c` 11-86).

* Every thread of a reader counts the lines it has accepted and writes `[R%d] %ld lines processed`
  to the reader's pipe after each 50th of them, and at its end if the count is no multiple of 50.
* The watchdog waits in `select` and then reads every pipe that is ready to its end, up to 255 bytes
  at a time; of each piece it parses what stands at its start, and overwrites `line_counts[ridx]`
  (53-63), which the reports show.
* A write of so few bytes is atomic, and one to a full pipe only comes later. A read of an empty
  pipe blocks until the reader's process, which has the only write end, has ended.
* `HeardAlone` is the condition: one thread at most accepts lines, and the read that takes the last
  heartbeat starts with it. `Progress` is what the watchdog is for.

Results:
* `moves_of_step`: what a step does to one reader's pipe and count.
* **`progress_iff`**: `line_counts[r]` never falls, and is the total of reader `r` when all its
  heartbeats are read, if the reader is heard alone; in a run where all are read, only then.
* `progress_broken`: two threads that accept two lines and one line show 2 and then 1, of 3.

Out of scope: what a report shows beside the counts, and the clock.
-/

namespace Cse344.HW4.Watchdog

open Cse344.Lib

/-- `MAX_FILES`. -/
def maxFiles : ℕ := 128

/-- The readers, their threads, and how many lines each thread accepts, which it counts in a
`long`. -/
structure Config where
  readers : ℕ
  readers_le : readers ≤ maxFiles
  threads : ℕ
  threads_pos : 1 ≤ threads
  lines : Fin readers → Fin threads → ℕ
  lines_le : ∀ r t, (lines r t : ℤ) ≤ longMax

/-- The text of a heartbeat. -/
def heartbeatText (readerIndex lineCount : ℕ) : CStr :=
  cstr "[R" ++ (decimal readerIndex ++ (cstr "] " ++ (decimal lineCount ++
    cstr " lines processed\n")))

/-- What `send_heartbeat` writes. -/
def sendHeartbeat (readerIndex lineCount : ℕ) : CStr :=
  snprintf 128 (heartbeatText readerIndex lineCount)

/-- `sscanf(buf, "[R%d] %ld lines processed", &ridx, &lines)`, where it returns 2. The blank skips
what `%ld` skips, and the text after the second number does not count. -/
def scanHeartbeat (buf : CStr) : Option (ℤ × ℤ) :=
  (scanLiteral (cstr "[R") buf).bind fun s =>
    (scanInt s).bind fun ridx =>
      (scanLiteral (cstr "]") ridx.2).bind fun s =>
        (scanLong s).map fun lines => (ridx.1, lines.1)

variable {c : Config}

/-- Where `watchdog_thread` stands. -/
inductive Pc (c : Config)
  /-- At the head of the loop, or in `select`. -/
  | top
  /-- In the loop over the pipes, at pipe `i`; `ready` is what `select` found. -/
  | scan (i : ℕ) (ready : Fin c.readers → Bool)
  /-- Past the loop. -/
  | left

structure St (c : Config) where
  /-- `lines_read` of each thread. -/
  accepted : Fin c.readers → Fin c.threads → ℕ
  /-- The threads past their last heartbeat. -/
  finished : Fin c.readers → Fin c.threads → Bool
  /-- The readers whose process has ended. -/
  closed : Fin c.readers → Bool
  pipe : Fin c.readers → CStr
  lineCounts : Fin c.readers → ℤ
  pc : Pc c

inductive Act (c : Config)
  /-- Thread `t` of reader `r` accepts a line. -/
  | line (r : Fin c.readers) (t : Fin c.threads)
  /-- Thread `t` of reader `r` is through its part of the file. -/
  | finish (r : Fin c.readers) (t : Fin c.threads)
  /-- The process of reader `r` ends. -/
  | exit (r : Fin c.readers)
  /-- One step of the watchdog. In `select`, `stop` says whether `*shutdown` is set. -/
  | watch (stop : Bool)

namespace St

def write (s : St c) (r : Fin c.readers) (text : CStr) : St c :=
  { s with pipe := Function.update s.pipe r (s.pipe r ++ text) }

def accept (s : St c) (r : Fin c.readers) (t : Fin c.threads) : St c :=
  { s with accepted :=
    Function.update s.accepted r (Function.update (s.accepted r) t (s.accepted r t + 1)) }

def finish (s : St c) (r : Fin c.readers) (t : Fin c.threads) : St c :=
  { s with finished := Function.update s.finished r (Function.update (s.finished r) t true) }

def goto (s : St c) (pc : Pc c) : St c := { s with pc }

/-- What `select` finds: data, or the end of the stream. -/
def select (s : St c) (r : Fin c.readers) : Bool := !(s.pipe r).isEmpty || s.closed r

end St

/-- What one read does to the counts. -/
def showProgress (counts : Fin c.readers → ℤ) (buf : CStr) : Fin c.readers → ℤ :=
  match scanHeartbeat (ofBuffer buf) with
  | some (ridx, lines) =>
    if h : 0 ≤ ridx ∧ ridx.toNat < c.readers then Function.update counts ⟨ridx.toNat, h.2⟩ lines
    else counts
  | none => counts

/-- `read(fd, buf, sizeof(buf) - 1)` takes at most so many bytes. -/
def bufLen : ℕ := 255

/-- A read of a pipe that has data. -/
def readPipe (s : St c) (r : Fin c.readers) : St c :=
  { s with
    pipe := Function.update s.pipe r ((s.pipe r).drop bufLen)
    lineCounts := showProgress s.lineCounts ((s.pipe r).take bufLen) }

/-- A turn of the loop of `reader_thread_func` that accepts a line. -/
def lineStep (s : St c) (r : Fin c.readers) (t : Fin c.threads) : Option (St c) :=
  if s.accepted r t < c.lines r t then
    if (s.accepted r t + 1) % 50 = 0 then
      some ((s.accept r t).write r (sendHeartbeat r (s.accepted r t + 1)))
    else some (s.accept r t)
  else none

/-- The end of `reader_thread_func`. -/
def finishStep (s : St c) (r : Fin c.readers) (t : Fin c.threads) : Option (St c) :=
  if s.accepted r t = c.lines r t ∧ s.finished r t = false then
    if s.accepted r t % 50 ≠ 0 then some ((s.finish r t).write r (sendHeartbeat r (s.accepted r t)))
    else some (s.finish r t)
  else none

/-- The end of `run_reader`, which joins the threads. -/
def exitStep (s : St c) (r : Fin c.readers) : Option (St c) :=
  if s.closed r = false ∧ ∀ t, s.finished r t = true then
    some { s with closed := Function.update s.closed r true }
  else none

/-- One step of `watchdog_thread`. -/
def watchStep (s : St c) (stop : Bool) : Option (St c) :=
  match s.pc with
  | .top => some (s.goto (if stop then .left else .scan 0 s.select))
  | .scan i ready =>
    if h : i < c.readers then
      if ready ⟨i, h⟩ then
        if s.pipe ⟨i, h⟩ = [] then
          if s.closed ⟨i, h⟩ then some (s.goto (.scan (i + 1) ready)) else none
        else some (readPipe s ⟨i, h⟩)
      else some (s.goto (.scan (i + 1) ready))
    else some (s.goto .top)
  | .left => none

/-- The threads of the readers, and the watchdog. -/
def machine (c : Config) : Machine (St c) (Act c) where
  init :=
    { accepted := fun _ _ => 0
      finished := fun _ _ => false
      closed := fun _ => false
      pipe := fun _ => []
      lineCounts := fun _ => 0
      pc := .top }
  step s a :=
    match a with
    | .line r t => lineStep s r t
    | .finish r t => finishStep s r t
    | .exit r => exitStep s r
    | .watch stop => watchStep s stop

/-! ## What the counts should show -/

/-- The last count a thread has sent. -/
def St.told (s : St c) (r : Fin c.readers) (t : Fin c.threads) : ℕ :=
  if s.finished r t then s.accepted r t else s.accepted r t / 50 * 50

/-- All heartbeats of reader `r` are sent: each thread has told all its lines. -/
def Sent (r : Fin c.readers) (s : St c) : Prop := ∀ t, s.told r t = c.lines r t

/-- All heartbeats of reader `r` are read. -/
def AllRead (r : Fin c.readers) (s : St c) : Prop := Sent r s ∧ s.pipe r = []

/-- A step does not lower `line_counts[r]`. -/
def NeverFalls (r : Fin c.readers) (s : St c) (a : Act c) : Prop :=
  ∀ s', (machine c).step s a = some s' → s.lineCounts r ≤ s'.lineCounts r

/-- When all heartbeats are read, `line_counts[r]` is the total of the reader. -/
def ShowsTotal (r : Fin c.readers) (s : St c) : Prop :=
  AllRead r s → s.lineCounts r = ∑ t, (c.lines r t : ℤ)

/-- The progress of reader `r` in a run. -/
structure Progress (c : Config) (r : Fin c.readers) (as : List (Act c)) : Prop where
  rises : (machine c).AllSteps (NeverFalls r) (machine c).init as
  total : (machine c).AllStates (ShowsTotal r) (machine c).init as

/-- The pipe from which the next step of the watchdog reads bytes. -/
def St.reading (s : St c) (a : Act c) : Option (Fin c.readers) :=
  match a, s.pc with
  | .watch _, .scan i ready =>
    if h : i < c.readers then
      if ready ⟨i, h⟩ ∧ s.pipe ⟨i, h⟩ ≠ [] then some ⟨i, h⟩ else none
    else none
  | _, _ => none

/-- Where all heartbeats of `r` are sent, a read of its pipe that leaves no start of a heartbeat
there takes none that is not its own first byte. -/
def LastAlone (r : Fin c.readers) (s : St c) (a : Act c) : Prop :=
  s.reading a = some r → Sent r s → 91 ∉ (s.pipe r).drop bufLen → 91 ∉ (s.pipe r).tail

instance (r : Fin c.readers) (s : St c) : Decidable (Sent r s) :=
  inferInstanceAs (Decidable (∀ t, s.told r t = c.lines r t))

instance (r : Fin c.readers) (s : St c) (a : Act c) : Decidable (LastAlone r s a) :=
  inferInstanceAs (Decidable (s.reading a = some r → Sent r s →
    91 ∉ (s.pipe r).drop bufLen → 91 ∉ (s.pipe r).tail))

/-- At most one thread of reader `r` accepts lines, and the read that takes its last heartbeat
starts with it. -/
structure HeardAlone (c : Config) (r : Fin c.readers) (as : List (Act c)) : Prop where
  one : ∃ t, ∀ t', t' ≠ t → c.lines r t' = 0
  last : (machine c).AllSteps (LastAlone r) (machine c).init as

/-! ## What a read makes of the bytes -/

/-- The heartbeats of reader `readerIndex`. -/
def heartbeats (readerIndex : ℕ) : MarkCode UInt8 ℕ where
  mark := 91
  body n := cstr "R" ++ (decimal readerIndex ++ (cstr "] " ++ (decimal n ++
    cstr " lines processed\n")))
  mark_not_mem n := by
    have hdecimal : ∀ v : ℕ, (91 : UInt8) ∉ decimal v := fun v hmem =>
      absurd (mem_decimal_natCast hmem) (by decide)
    simp only [List.mem_append, not_or]
    exact ⟨by decide, hdecimal _, by decide, hdecimal _, by decide⟩

theorem record_heartbeats (r n : ℕ) : (heartbeats r).record n = heartbeatText r n := rfl

theorem length_heartbeatText_le {r n : ℕ} (hr : r < maxFiles) (hn : (n : ℤ) ≤ longMax) :
    (heartbeatText r n).length ≤ 43 := by
  have hr' : (decimal (r : ℤ)).length ≤ 3 :=
    length_decimal_natCast_le (by decide) (Nat.lt_trans hr (by decide))
  have hn' : (decimal (n : ℤ)).length ≤ 19 := by
    refine length_decimal_natCast_le (by decide) ?_
    unfold longMax at hn
    omega
  have hopen : (cstr "[R").length = 2 := rfl
  have hmid : (cstr "] ").length = 2 := rfl
  have hend : (cstr " lines processed\n").length = 17 := rfl
  simp only [heartbeatText, List.length_append]
  omega

/-- No heartbeat is cut by its buffer. -/
theorem sendHeartbeat_eq {r n : ℕ} (hr : r < maxFiles) (hn : (n : ℤ) ≤ longMax) :
    sendHeartbeat r n = (heartbeats r).record n :=
  List.take_of_length_le (Nat.le_trans (length_heartbeatText_le hr hn) (by decide))

theorem ne_zero_of_mem_heartbeatText {r n : ℕ} : ∀ b ∈ heartbeatText r n, b ≠ 0 := by
  have hliteral : ∀ text : CStr, text.all (fun b => b != 0) = true → ∀ b ∈ text, b ≠ 0 :=
    fun text hall b hb => bne_iff_ne.mp (List.all_eq_true.mp hall b hb)
  intro b hb
  simp only [heartbeatText, List.mem_append] at hb
  rcases hb with hb | hb | hb | hb | hb
  · exact hliteral _ (by decide) b hb
  · exact (plain_decimal _ b hb).1
  · exact hliteral _ (by decide) b hb
  · exact (plain_decimal _ b hb).1
  · exact hliteral _ (by decide) b hb

theorem scanHeartbeat_text {r n : ℕ} (hr : r < maxFiles) (hn : (n : ℤ) ≤ longMax) (rest : CStr) :
    scanHeartbeat (heartbeatText r n ++ rest) = some ((r : ℤ), (n : ℤ)) := by
  have hint : (r : ℤ) ≤ intMax := by
    unfold maxFiles at hr
    unfold intMax
    omega
  have hfirst : scanInt (decimal r ++ (cstr "]" ++ (cstr " " ++ (decimal n ++
      (cstr " lines processed\n" ++ rest))))) = _ := scanInt_decimal hint (by
    intro b hb
    obtain rfl := Option.some.inj hb
    decide)
  have hsecond : scanLong (cstr " " ++ (decimal n ++ (cstr " lines processed\n" ++ rest))) = _ :=
    scanLong_decimal (List.all_eq_true.mp (by decide)) hn (by
      intro b hb
      obtain rfl := Option.some.inj hb
      decide)
  have htext : heartbeatText r n ++ rest = cstr "[R" ++ (decimal r ++ (cstr "]" ++ (cstr " " ++
      (decimal n ++ (cstr " lines processed\n" ++ rest))))) := by
    have hmid : cstr "] " = cstr "]" ++ cstr " " := rfl
    rw [heartbeatText, hmid]
    simp only [List.append_assoc]
  rw [htext, scanHeartbeat, scanLiteral_append, Option.bind_some, hfirst, Option.bind_some,
    scanLiteral_append, Option.bind_some, hsecond]
  rfl

/-- A piece that starts with a heartbeat shows its count. -/
theorem showProgress_record {counts : Fin c.readers → ℤ} {r : Fin c.readers} {n : ℕ}
    (hn : (n : ℤ) ≤ longMax) (rest : CStr) :
    showProgress counts ((heartbeats r).record n ++ rest) = Function.update counts r (n : ℤ) := by
  have hbuf : ofBuffer ((heartbeats r).record n ++ rest) = heartbeatText r n ++ ofBuffer rest := by
    rw [record_heartbeats, ofBuffer, List.takeWhile_append_of_pos fun b hb =>
      bne_iff_ne.mpr (ne_zero_of_mem_heartbeatText b hb), ofBuffer]
  have hrange : 0 ≤ (r.val : ℤ) ∧ (r.val : ℤ).toNat < c.readers :=
    ⟨Int.natCast_nonneg _, r.isLt⟩
  rw [showProgress, hbuf, scanHeartbeat_text (Nat.lt_of_lt_of_le r.isLt c.readers_le) hn]
  exact dif_pos hrange

/-- A piece that starts within a heartbeat shows nothing. -/
theorem showProgress_of_ne {counts : Fin c.readers → ℤ} {b : UInt8} {rest : CStr} (hb : b ≠ 91) :
    showProgress counts (b :: rest) = counts := by
  have hno : scanLiteral (cstr "[R") (ofBuffer (b :: rest)) = none := by
    refine if_neg fun hpre => ?_
    have hpre' := List.isPrefixOf_iff_prefix.mp hpre
    obtain ⟨l, hl⟩ := hpre'
    have hhead : (ofBuffer (b :: rest)).head? = some 91 := by rw [← hl]; rfl
    unfold ofBuffer at hhead
    rw [List.takeWhile_cons] at hhead
    split at hhead
    · exact hb (Option.some.inj hhead)
    · cases hhead
  rw [showProgress, scanHeartbeat, hno]
  rfl

/-! ## What a step does to a reader -/

variable {s s' : St c} {a : Act c} {r : Fin c.readers} {tail tail' : CStr} {recs recs' : List ℕ}

theorem told_accept {t : Fin c.threads} (hrun : s.finished r t = false) :
    (s.accept r t).told r =
      Function.update (s.told r) t ((s.accepted r t + 1) / 50 * 50) := by
  funext t'
  rcases eq_or_ne t' t with rfl | hne
  · simp [St.told, St.accept, hrun]
  · simp [St.told, St.accept, Function.update_of_ne hne]

theorem told_accept_of_ne {r' : Fin c.readers} {t : Fin c.threads} (hne : r ≠ r') :
    (s.accept r' t).told r = s.told r := by
  funext t'
  simp [St.told, St.accept, Function.update_of_ne hne]

theorem told_finish {t : Fin c.threads} :
    (s.finish r t).told r = Function.update (s.told r) t (s.accepted r t) := by
  funext t'
  rcases eq_or_ne t' t with rfl | hne
  · simp [St.told, St.finish]
  · simp [St.told, St.finish, Function.update_of_ne hne]

theorem told_finish_of_ne {r' : Fin c.readers} {t : Fin c.threads} (hne : r ≠ r') :
    (s.finish r' t).told r = s.told r := by
  funext t'
  simp [St.told, St.finish, Function.update_of_ne hne]

theorem told_write {r' : Fin c.readers} {text : CStr} : (s.write r' text).told r = s.told r := rfl

theorem pipe_write {text : CStr} : (s.write r text).pipe r = s.pipe r ++ text :=
  Function.update_self _ _ _

theorem pipe_write_of_ne {r' : Fin c.readers} {text : CStr} (hne : r ≠ r') :
    (s.write r' text).pipe r = s.pipe r :=
  Function.update_of_ne hne _ _

/-- What every run keeps. The pipes hold heartbeats, of counts that were told. -/
structure Inv (c : Config) (s : St c) : Prop where
  accepted_le : ∀ r t, s.accepted r t ≤ c.lines r t
  finished : ∀ r t, s.finished r t = true → s.accepted r t = c.lines r t
  pipe : ∀ r : Fin c.readers, ∃ tail recs, (heartbeats r).Holds (s.pipe r) tail recs ∧
    ∀ n ∈ recs, ∃ t, n ≤ s.told r t

theorem Inv.told_le (h : Inv c s) (r : Fin c.readers) (t : Fin c.threads) :
    s.told r t ≤ c.lines r t := by
  have hle := h.accepted_le r t
  unfold St.told
  split
  · exact hle
  · exact Nat.le_trans (Nat.div_mul_le_self _ _) hle

theorem Inv.running (h : Inv c s) {t : Fin c.threads} (hlt : s.accepted r t < c.lines r t) :
    s.finished r t = false := by
  rw [← Bool.not_eq_true]
  exact fun hfin => Nat.ne_of_lt hlt (h.finished r t hfin)

theorem told_of_running {t : Fin c.threads} (hrun : s.finished r t = false) :
    s.told r t = s.accepted r t / 50 * 50 := by
  unfold St.told
  rw [hrun]
  rfl

/-- What a step does to what reader `r` has told, to the heartbeats in its pipe, behind the rest
`tail` of one, and to its count. -/
inductive Moves (r : Fin c.readers) (s : St c) (a : Act c) (s' : St c) (tail : CStr)
    (recs recs' : List ℕ) : Prop
  | quiet (htold : s'.told r = s.told r) (hshown : s'.lineCounts r = s.lineCounts r)
      (hrecs : recs' = recs)
  /-- Thread `t` tells its count. -/
  | send (t : Fin c.threads) (v : ℕ) (hlt : s.told r t < v) (hle : v ≤ c.lines r t)
      (htold : s'.told r = Function.update (s.told r) t v)
      (hshown : s'.lineCounts r = s.lineCounts r) (hrecs : recs' = recs ++ [v])
  /-- The watchdog takes a piece, and shows the heartbeat it starts with. -/
  | take (gone : List ℕ) (hreading : s.reading a = some r)
      (hpipe : s'.pipe r = (s.pipe r).drop bufLen) (htold : s'.told r = s.told r)
      (hrecs : recs = gone ++ recs')
      (hshown : (tail ≠ [] ∧ s'.lineCounts r = s.lineCounts r) ∨
        tail = [] ∧ ∃ n more, gone = n :: more ∧ s'.lineCounts r = n)

/-- Whatever the rest of the state, these three of a reader decide. -/
theorem Moves.of_eq (hh : (heartbeats r).Holds (s.pipe r) tail recs) (hpipe : s'.pipe r = s.pipe r)
    (htold : s'.told r = s.told r) (hshown : s'.lineCounts r = s.lineCounts r) :
    ∃ tail' recs', (heartbeats r).Holds (s'.pipe r) tail' recs' ∧ Moves r s a s' tail recs recs' :=
  ⟨tail, recs, by rw [hpipe]; exact hh, .quiet htold hshown rfl⟩

/-- Thread `t` writes its count `v` to the pipe of `r`. -/
theorem Moves.of_write {t : Fin c.threads} {v : ℕ} (hh : (heartbeats r).Holds (s.pipe r) tail recs)
    (hpipe : s'.pipe r = s.pipe r ++ sendHeartbeat r v) (hlt : s.told r t < v)
    (hle : v ≤ c.lines r t) (htold : s'.told r = Function.update (s.told r) t v)
    (hshown : s'.lineCounts r = s.lineCounts r) :
    ∃ tail' recs', (heartbeats r).Holds (s'.pipe r) tail' recs' ∧
      Moves r s a s' tail recs recs' := by
  have hv : (v : ℤ) ≤ longMax := (Int.ofNat_le.mpr hle).trans (c.lines_le r t)
  refine ⟨tail, recs ++ [v], ?_, .send t v hlt hle htold hshown rfl⟩
  rw [hpipe, sendHeartbeat_eq (Nat.lt_of_lt_of_le r.isLt c.readers_le) hv]
  exact hh.write v

theorem Inv.le_longMax (h : Inv c s) (hle : ∀ n ∈ recs, ∃ t, n ≤ s.told r t) :
    ∀ n ∈ recs, (n : ℤ) ≤ longMax := fun n hn => by
  obtain ⟨t, ht⟩ := hle n hn
  exact (Int.ofNat_le.mpr (ht.trans (h.told_le r t))).trans (c.lines_le r t)

/-- A read of the pipe of `r`. -/
theorem readPipe_spec (h : Inv c s) (hne : s.pipe r ≠ [])
    (hh : (heartbeats r).Holds (s.pipe r) tail recs) (hle : ∀ n ∈ recs, ∃ t, n ≤ s.told r t) :
    ∃ gone recs' tail', recs = gone ++ recs' ∧
      (heartbeats r).Holds ((s.pipe r).drop bufLen) tail' recs' ∧
      ((tail ≠ [] ∧ (readPipe s r).lineCounts = s.lineCounts) ∨
        tail = [] ∧ ∃ n more, gone = n :: more ∧
          (readPipe s r).lineCounts = Function.update s.lineCounts r (n : ℤ)) := by
  have hmax := h.le_longMax hle
  have hfit : ∀ n ∈ recs, ((heartbeats r).record n).length ≤ bufLen := fun n hn =>
    Nat.le_trans (length_heartbeatText_le (Nat.lt_of_lt_of_le r.isLt c.readers_le) (hmax n hn))
      (by decide)
  obtain ⟨gone, recs', tail', heq, hholds, hstart⟩ := hh.take_cases hne (by decide) hfit
  refine ⟨gone, recs', tail', heq, hholds, ?_⟩
  rcases hstart with ⟨htail, b, rest, hpiece, hb⟩ | ⟨htail, n, more, rest, hgone, hpiece⟩
  · refine .inl ⟨htail, ?_⟩
    show showProgress s.lineCounts ((s.pipe r).take bufLen) = s.lineCounts
    rw [hpiece]
    exact showProgress_of_ne hb
  · refine .inr ⟨htail, n, more, hgone, ?_⟩
    have hn : (n : ℤ) ≤ longMax := hmax n (by rw [heq, hgone]; exact List.mem_cons_self)
    show showProgress s.lineCounts ((s.pipe r).take bufLen) = _
    rw [hpiece]
    exact showProgress_record hn rest

theorem accept_moves {r' : Fin c.readers} {t : Fin c.threads} (h : Inv c s)
    (hs : lineStep s r' t = some s') (hh : (heartbeats r).Holds (s.pipe r) tail recs) :
    ∃ tail' recs', (heartbeats r).Holds (s'.pipe r) tail' recs' ∧
      Moves r s a s' tail recs recs' := by
  unfold lineStep at hs
  split_ifs at hs with hlt hfifty <;> cases hs
  · -- The 50th line since the last heartbeat.
    rcases eq_or_ne r r' with rfl | hne
    · have hrun := h.running hlt
      have htold := told_of_running hrun
      refine Moves.of_write hh pipe_write ?_ hlt ?_ rfl
      · rw [htold]
        omega
      · rw [told_write, told_accept hrun]
        congr 1
        omega
    · exact Moves.of_eq hh (pipe_write_of_ne hne) (told_write.trans (told_accept_of_ne hne)) rfl
  · rcases eq_or_ne r r' with rfl | hne
    · have hrun := h.running hlt
      have htold : s.told r t = (s.accepted r t + 1) / 50 * 50 := by
        rw [told_of_running hrun]
        omega
      refine Moves.of_eq hh rfl ?_ rfl
      rw [told_accept hrun, ← htold, Function.update_eq_self]
    · exact Moves.of_eq hh rfl (told_accept_of_ne hne) rfl

theorem finish_moves {r' : Fin c.readers} {t : Fin c.threads} (hs : finishStep s r' t = some s')
    (hh : (heartbeats r).Holds (s.pipe r) tail recs) :
    ∃ tail' recs', (heartbeats r).Holds (s'.pipe r) tail' recs' ∧
      Moves r s a s' tail recs recs' := by
  unfold finishStep at hs
  split_ifs at hs with hend hfifty <;> cases hs
  · rcases eq_or_ne r r' with rfl | hne
    · have htold := told_of_running hend.2
      refine Moves.of_write hh pipe_write ?_ (Nat.le_of_eq hend.1) (told_write.trans told_finish)
        rfl
      rw [htold]
      omega
    · exact Moves.of_eq hh (pipe_write_of_ne hne) (told_write.trans (told_finish_of_ne hne)) rfl
  · -- The last heartbeat of the thread had this count.
    rcases eq_or_ne r r' with rfl | hne
    · have htold : s.told r t = s.accepted r t := by
        rw [told_of_running hend.2]
        omega
      refine Moves.of_eq hh rfl ?_ rfl
      rw [told_finish, ← htold, Function.update_eq_self]
    · exact Moves.of_eq hh rfl (told_finish_of_ne hne) rfl

/-- **What a step does to reader `r`.** -/
theorem moves_of_step (h : Inv c s) (hs : (machine c).step s a = some s')
    (hh : (heartbeats r).Holds (s.pipe r) tail recs) (hle : ∀ n ∈ recs, ∃ t, n ≤ s.told r t) :
    ∃ tail' recs', (heartbeats r).Holds (s'.pipe r) tail' recs' ∧
      Moves r s a s' tail recs recs' := by
  cases a with
  | line r' t => exact accept_moves h hs hh
  | finish r' t => exact finish_moves hs hh
  | exit r' =>
    replace hs : exitStep s r' = some s' := hs
    unfold exitStep at hs
    split_ifs at hs
    cases hs
    exact Moves.of_eq hh rfl rfl rfl
  | watch stop =>
    replace hs : watchStep s stop = some s' := hs
    unfold watchStep at hs
    split at hs
    · cases hs
      exact Moves.of_eq hh rfl rfl rfl
    · rename_i i ready hpc
      split_ifs at hs with hi hready hempty <;> cases hs
      · exact Moves.of_eq hh rfl rfl rfl
      · rcases eq_or_ne r ⟨i, hi⟩ with rfl | hne
        · have hreading : s.reading (.watch stop) = some ⟨i, hi⟩ := by
            simp only [St.reading, hpc]
            rw [dif_pos hi]
            exact if_pos ⟨hready, hempty⟩
          obtain ⟨gone, recs', tail', heq, hholds, hshown⟩ := readPipe_spec h hempty hh hle
          refine ⟨tail', recs', ?_, .take gone hreading (Function.update_self _ _ _) rfl heq ?_⟩
          · show (heartbeats i).Holds (Function.update s.pipe ⟨i, hi⟩ _ ⟨i, hi⟩) tail' recs'
            rw [Function.update_self]
            exact hholds
          · rcases hshown with ⟨htail, hc⟩ | ⟨htail, n, more, hgone, hc⟩
            · exact .inl ⟨htail, congrFun hc _⟩
            · exact .inr ⟨htail, n, more, hgone, (congrFun hc _).trans (Function.update_self _ _ _)⟩
        · -- Another reader's pipe shows only that reader's count.
          obtain ⟨tail₂, recs₂, hh₂, hle₂⟩ := h.pipe ⟨i, hi⟩
          obtain ⟨gone, recs', tail', heq, hholds, hshown⟩ := readPipe_spec h hempty hh₂ hle₂
          refine Moves.of_eq hh (Function.update_of_ne hne _ _) rfl ?_
          rcases hshown with ⟨-, hc⟩ | ⟨-, n, more, -, hc⟩
          · exact congrFun hc r
          · exact (congrFun hc r).trans (Function.update_of_ne hne _ _)
      · exact Moves.of_eq hh rfl rfl rfl
      · exact Moves.of_eq hh rfl rfl rfl
    · cases hs

/-- What is told only grows. -/
theorem Moves.told_le {recs' : List ℕ} (hm : Moves r s a s' tail recs recs') (t : Fin c.threads) :
    s.told r t ≤ s'.told r t := by
  cases hm with
  | quiet htold => exact Nat.le_of_eq (congrFun htold t).symm
  | send t' v hlt _ htold =>
    rw [htold]
    rcases eq_or_ne t t' with rfl | hne
    · rw [Function.update_self]
      exact Nat.le_of_lt hlt
    · rw [Function.update_of_ne hne]
  | take gone _ _ htold => exact Nat.le_of_eq (congrFun htold t).symm

theorem Moves.exists_told (hm : Moves r s a s' tail recs recs')
    (hle : ∀ n ∈ recs, ∃ t, n ≤ s.told r t) : ∀ n ∈ recs', ∃ t, n ≤ s'.told r t := by
  intro n hn
  have hold : n ∈ recs → ∃ t, n ≤ s'.told r t := fun hmem => by
    obtain ⟨t, ht⟩ := hle n hmem
    exact ⟨t, Nat.le_trans ht (hm.told_le t)⟩
  cases hm with
  | quiet _ _ hrecs => exact hold (hrecs ▸ hn)
  | send t v _ _ htold _ hrecs =>
    rw [hrecs] at hn
    rcases List.mem_append.mp hn with hn | hn
    · exact hold hn
    · obtain rfl := List.mem_singleton.mp hn
      exact ⟨t, by rw [htold, Function.update_self]⟩
  | take gone _ _ _ hrecs => exact hold (hrecs ▸ List.mem_append_right gone hn)

theorem accepted_accept {r' : Fin c.readers} {t t' : Fin c.threads} :
    (s.accept r' t').accepted r t =
      if r = r' ∧ t = t' then s.accepted r t + 1 else s.accepted r t := by
  rcases eq_or_ne r r' with rfl | hr
  · rcases eq_or_ne t t' with rfl | ht
    · simp [St.accept]
    · simp [St.accept, ht]
  · simp [St.accept, hr]

theorem finished_finish {r' : Fin c.readers} {t t' : Fin c.threads} :
    (s.finish r' t').finished r t = if r = r' ∧ t = t' then true else s.finished r t := by
  rcases eq_or_ne r r' with rfl | hr
  · rcases eq_or_ne t t' with rfl | ht
    · simp [St.finish]
    · simp [St.finish, ht]
  · simp [St.finish, hr]

/-- What a step does to the counter of a thread. -/
theorem counts_of_step (hs : (machine c).step s a = some s') (r : Fin c.readers)
    (t : Fin c.threads) :
    (s'.accepted r t = s.accepted r t ∧ (s'.finished r t = s.finished r t ∨
        s.accepted r t = c.lines r t)) ∨
      s.accepted r t < c.lines r t ∧ s'.accepted r t = s.accepted r t + 1 ∧
        s'.finished r t = s.finished r t := by
  cases a with
  | line r' t' =>
    replace hs : lineStep s r' t' = some s' := hs
    unfold lineStep at hs
    have hcase : s'.accepted r t = (s.accept r' t').accepted r t ∧
        s'.finished r t = s.finished r t ∧ s.accepted r' t' < c.lines r' t' := by
      split_ifs at hs with hlt <;> cases hs <;> exact ⟨rfl, rfl, hlt⟩
    obtain ⟨haccepted, hfinished, hlt⟩ := hcase
    rw [accepted_accept] at haccepted
    split_ifs at haccepted with heq
    · obtain ⟨rfl, rfl⟩ := heq
      exact .inr ⟨hlt, haccepted, hfinished⟩
    · exact .inl ⟨haccepted, .inl hfinished⟩
  | finish r' t' =>
    replace hs : finishStep s r' t' = some s' := hs
    unfold finishStep at hs
    have hcase : s'.accepted r t = s.accepted r t ∧
        s'.finished r t = (s.finish r' t').finished r t ∧ s.accepted r' t' = c.lines r' t' := by
      split_ifs at hs with hend <;> cases hs <;> exact ⟨rfl, rfl, hend.1⟩
    obtain ⟨haccepted, hfinished, hend⟩ := hcase
    rw [finished_finish] at hfinished
    split_ifs at hfinished with heq
    · obtain ⟨rfl, rfl⟩ := heq
      exact .inl ⟨haccepted, .inr hend⟩
    · exact .inl ⟨haccepted, .inl hfinished⟩
  | exit r' =>
    replace hs : exitStep s r' = some s' := hs
    unfold exitStep at hs
    split_ifs at hs
    cases hs
    exact .inl ⟨rfl, .inl rfl⟩
  | watch stop =>
    replace hs : watchStep s stop = some s' := hs
    unfold watchStep at hs
    split at hs
    · cases hs
      exact .inl ⟨rfl, .inl rfl⟩
    · split_ifs at hs <;> cases hs <;> exact .inl ⟨rfl, .inl rfl⟩
    · cases hs

theorem Inv.step (h : Inv c s) (hs : (machine c).step s a = some s') : Inv c s' where
  accepted_le := fun r t => by
    have hle := h.accepted_le r t
    rcases counts_of_step hs r t with ⟨haccepted, -⟩ | ⟨hlt, haccepted, -⟩
    · rw [haccepted]
      exact hle
    · rw [haccepted]
      exact hlt
  finished := fun r t hfin => by
    rcases counts_of_step hs r t with ⟨haccepted, hfinished | hend⟩ | ⟨hlt, -, hfinished⟩
    · rw [haccepted]
      exact h.finished r t (hfinished ▸ hfin)
    · rw [haccepted, hend]
    · exact absurd (h.finished r t (hfinished ▸ hfin)) (Nat.ne_of_lt hlt)
  pipe := fun r => by
    obtain ⟨tail, recs, hh, hle⟩ := h.pipe r
    obtain ⟨tail', recs', hh', hm⟩ := moves_of_step h hs hh hle
    exact ⟨tail', recs', hh', hm.exists_told hle⟩

theorem inv_init (c : Config) : Inv c (machine c).init where
  accepted_le := fun _ _ => Nat.zero_le _
  finished := fun _ _ hfin => absurd hfin Bool.false_ne_true
  pipe := fun _ => ⟨[], [], MarkCode.holds_nil, List.forall_mem_nil _⟩

/-! ## Several threads -/

/-- What is shown was told by one thread. -/
structure Bounded (c : Config) (r : Fin c.readers) (s : St c) : Prop where
  inv : Inv c s
  shown : ∃ t, s.lineCounts r ≤ s.told r t

theorem Bounded.step (h : Bounded c r s) (hs : (machine c).step s a = some s') :
    Bounded c r s' := by
  obtain ⟨tail, recs, hh, hle⟩ := h.inv.pipe r
  obtain ⟨tail', recs', hh', hm⟩ := moves_of_step h.inv hs hh hle
  refine ⟨h.inv.step hs, ?_⟩
  have hsame : s'.lineCounts r = s.lineCounts r →
      ∃ t, s'.lineCounts r ≤ s'.told r t := fun heq => by
    obtain ⟨t, ht⟩ := h.shown
    exact ⟨t, heq ▸ ht.trans (Int.ofNat_le.mpr (hm.told_le t))⟩
  cases hm with
  | quiet _ hshown => exact hsame hshown
  | send _ _ _ _ _ hshown => exact hsame hshown
  | take gone _ _ htold hrecs hshown =>
    rcases hshown with ⟨-, hshown⟩ | ⟨-, n, more, hgone, hshown⟩
    · exact hsame hshown
    · obtain ⟨t, ht⟩ := hle n (by rw [hrecs, hgone]; exact List.mem_cons_self)
      exact ⟨t, by rw [hshown, htold]; exact Int.ofNat_le.mpr ht⟩

/-- The total is shown only where one thread accepts all lines. -/
theorem Bounded.one (h : Bounded c r s) (htotal : s.lineCounts r = ∑ t, (c.lines r t : ℤ)) :
    ∃ t, ∀ t', t' ≠ t → c.lines r t' = 0 := by
  obtain ⟨t, ht⟩ := h.shown
  refine ⟨t, fun t' hne => ?_⟩
  have htold := h.inv.told_le r t
  have hsum : ∑ u, c.lines r u ≤ c.lines r t := by
    have hcast : (∑ u, (c.lines r u : ℤ)) = ((∑ u, c.lines r u : ℕ) : ℤ) :=
      (Nat.cast_sum _ _).symm
    rw [htotal, hcast] at ht
    exact (Int.ofNat_le.mp ht).trans htold
  have hpair : c.lines r t + c.lines r t' ≤ ∑ u, c.lines r u := by
    rw [← Finset.sum_pair hne.symm]
    exact Finset.sum_le_sum_of_subset (Finset.subset_univ _)
  omega

/-! ## One thread -/

section One

variable {t : Fin c.threads}

/-- The counts in the pipe rise, from what is shown to what thread `t` told last. -/
structure Rising (r : Fin c.readers) (t : Fin c.threads) (s : St c) (recs : List ℕ) : Prop where
  sorted : recs.Pairwise (· < ·)
  shown : ∀ n ∈ recs, s.lineCounts r < n
  last : ∀ n ∈ recs.getLast?, n = s.told r t
  le : s.lineCounts r ≤ s.told r t

/-- Thread `t` tells a higher count. -/
theorem Rising.send (h : Rising r t s recs) (hle : ∀ n ∈ recs, n ≤ s.told r t) {v : ℕ}
    (hlt : s.told r t < v) (htold : s'.told r t = v) (hshown : s'.lineCounts r = s.lineCounts r) :
    Rising r t s' (recs ++ [v]) := by
  have hless : s.lineCounts r < v := Int.lt_of_le_of_lt h.le (Int.ofNat_lt.mpr hlt)
  refine ⟨?_, fun n hn => ?_, fun n hn => ?_, ?_⟩
  · refine List.pairwise_append.mpr ⟨h.sorted, List.pairwise_singleton _ _, fun n hn m hmem => ?_⟩
    obtain rfl := List.mem_singleton.mp hmem
    exact Nat.lt_of_le_of_lt (hle n hn) hlt
  · rw [hshown]
    rcases List.mem_append.mp hn with hn | hn
    · exact h.shown n hn
    · obtain rfl := List.mem_singleton.mp hn
      exact hless
  · rw [List.getLast?_concat] at hn
    exact (Option.some.inj hn).symm.trans htold.symm
  · rw [hshown, htold]
    exact Int.le_of_lt hless

/-- The first counts are taken, and at most one of them is shown. -/
theorem Rising.take {gone : List ℕ} (h : Rising r t s (gone ++ recs'))
    (hle : ∀ n ∈ gone, n ≤ s.told r t) (htold : s'.told r t = s.told r t)
    (hshown : s'.lineCounts r = s.lineCounts r ∨ ∃ n ∈ gone, s'.lineCounts r = n) :
    Rising r t s' recs' ∧ s.lineCounts r ≤ s'.lineCounts r := by
  obtain ⟨-, hsorted, hacross⟩ := List.pairwise_append.mp h.sorted
  have hlast : ∀ n ∈ recs'.getLast?, n = s'.told r t := fun n hn => by
    rw [htold]
    refine h.last n ?_
    rw [List.getLast?_append, hn]
    rfl
  rcases hshown with hshown | ⟨n, hn, hshown⟩
  · refine ⟨⟨hsorted, fun m hm => ?_, hlast, ?_⟩, Int.le_of_eq hshown.symm⟩
    · rw [hshown]
      exact h.shown m (List.mem_append_right gone hm)
    · rw [hshown, htold]
      exact h.le
  · refine ⟨⟨hsorted, fun m hm => ?_, hlast, ?_⟩, ?_⟩
    · rw [hshown]
      exact Int.ofNat_lt.mpr (hacross n hn m hm)
    · rw [hshown, htold]
      exact Int.ofNat_le.mpr (hle n hn)
    · rw [hshown]
      exact Int.le_of_lt (h.shown n (List.mem_append_left recs' hn))

theorem Rising.move (hone : ∀ t', t' ≠ t → c.lines r t' = 0) (h : Rising r t s recs)
    (hle : ∀ n ∈ recs, n ≤ s.told r t) (hm : Moves r s a s' tail recs recs') :
    Rising r t s' recs' ∧ s.lineCounts r ≤ s'.lineCounts r := by
  cases hm with
  | quiet htold hshown hrecs =>
    have hnone : Rising r t s ([] ++ recs') := hrecs ▸ h
    exact hnone.take (List.forall_mem_nil _) (congrFun htold t) (.inl hshown)
  | send t' v hlt hv htold hshown hrecs =>
    have ht : t' = t := by
      by_contra hne
      have hzero := hone t' hne
      omega
    subst ht
    rw [hrecs]
    exact ⟨h.send hle hlt (by rw [htold, Function.update_self]) hshown,
      Int.le_of_eq hshown.symm⟩
  | take gone _ _ htold hrecs hshown =>
    subst hrecs
    refine h.take (fun n hn => hle n (List.mem_append_left recs' hn)) (congrFun htold t) ?_
    rcases hshown with ⟨-, hshown⟩ | ⟨-, n, more, hgone, hshown⟩
    · exact .inl hshown
    · exact .inr ⟨n, by rw [hgone]; exact List.mem_cons_self, hshown⟩

/-- Thread `t` of reader `r` accepts all lines of the reader. -/
structure Lone (c : Config) (r : Fin c.readers) (t : Fin c.threads) (s : St c) : Prop where
  inv : Inv c s
  queue : ∃ tail recs, (heartbeats r).Holds (s.pipe r) tail recs ∧
    (∀ n ∈ recs, n ≤ s.told r t) ∧ Rising r t s recs

/-- What a step does to the reader, with what is known of it. -/
theorem Lone.moves (hone : ∀ t', t' ≠ t → c.lines r t' = 0) (h : Lone c r t s)
    (hs : (machine c).step s a = some s') :
    ∃ tail recs tail' recs', (heartbeats r).Holds (s.pipe r) tail recs ∧ Rising r t s recs ∧
      (heartbeats r).Holds (s'.pipe r) tail' recs' ∧ Moves r s a s' tail recs recs' ∧
      (∀ n ∈ recs', n ≤ s'.told r t) ∧ Rising r t s' recs' ∧ s.lineCounts r ≤ s'.lineCounts r := by
  obtain ⟨tail, recs, hh, hle, hr⟩ := h.queue
  have hle' : ∀ n ∈ recs, ∃ t, n ≤ s.told r t := fun n hn => ⟨t, hle n hn⟩
  obtain ⟨tail', recs', hh', hm⟩ := moves_of_step h.inv hs hh hle'
  obtain ⟨hr', hup⟩ := hr.move hone hle hm
  refine ⟨tail, recs, tail', recs', hh, hr, hh', hm, fun n hn => ?_, hr', hup⟩
  obtain ⟨t', ht'⟩ := hm.exists_told hle' n hn
  rcases eq_or_ne t' t with rfl | hne
  · exact ht'
  · have hzero := hone t' hne
    have htold := (h.inv.step hs).told_le r t'
    omega

theorem Lone.step (hone : ∀ t', t' ≠ t → c.lines r t' = 0) (h : Lone c r t s)
    (hs : (machine c).step s a = some s') : Lone c r t s' := by
  obtain ⟨-, -, tail', recs', -, -, hh', -, hle', hr', -⟩ := h.moves hone hs
  exact ⟨h.inv.step hs, tail', recs', hh', hle', hr'⟩

theorem lone_init (c : Config) (r : Fin c.readers) (t : Fin c.threads) :
    Lone c r t (machine c).init :=
  ⟨inv_init c, [], [], MarkCode.holds_nil, List.forall_mem_nil _, .nil, List.forall_mem_nil _,
    (by intro n hn; cases hn), Int.natCast_nonneg _⟩

/-- When all is sent and no start of a heartbeat is left in the pipe, the total is shown. -/
def Kept (r : Fin c.readers) (t : Fin c.threads) (s : St c) : Prop :=
  Sent r s → 91 ∉ s.pipe r → s.lineCounts r = c.lines r t

/-- When the last heartbeat stands first, the read that takes it shows it. -/
theorem Lone.kept (hone : ∀ t', t' ≠ t → c.lines r t' = 0) (h : Lone c r t s) (hk : Kept r t s)
    (hok : LastAlone r s a) (hs : (machine c).step s a = some s') : Kept r t s' := by
  intro hsent hno
  obtain ⟨tail, recs, tail', recs', hh, hr, hh', hm, -, -, -⟩ := h.moves hone hs
  have hnone : recs' = [] := by
    by_contra hne
    exact hno (hh'.mark_mem_iff.mpr hne)
  have hsame : s'.told r = s.told r → recs = [] → s'.lineCounts r = s.lineCounts r →
      s'.lineCounts r = c.lines r t := fun htold hempty hshown => by
    rw [hshown]
    refine hk (fun t' => htold ▸ hsent t') fun hmem => ?_
    exact hh.mark_mem_iff.mp hmem hempty
  cases hm with
  | quiet htold hshown hrecs => exact hsame htold (hrecs ▸ hnone) hshown
  | send t' v _ _ _ _ hrecs =>
    rw [hnone] at hrecs
    exact absurd hrecs.symm (List.append_ne_nil_of_right_ne_nil _ (List.cons_ne_nil _ _))
  | take gone hreading hpipe htold hrecs hshown =>
    rw [hnone, List.append_nil] at hrecs
    subst hrecs
    by_cases hempty : recs = []
    · rcases hshown with ⟨-, hshown⟩ | ⟨-, n, more, hgone, -⟩
      · exact hsame htold hempty hshown
      · exact absurd (hgone.symm.trans hempty) (List.cons_ne_nil n more)
    · -- The last heartbeat is in this piece, so it is all of it that has a mark.
      have hfirst := hok hreading (fun t' => htold ▸ hsent t') (hpipe ▸ hno)
      have htail := mt hh.mark_mem_tail_iff.mpr hfirst
      push Not at htail
      obtain ⟨hclean, hlen⟩ := htail hempty
      rcases hshown with ⟨hbusy, -⟩ | ⟨-, n, more, rfl, hshown⟩
      · exact absurd hclean hbusy
      · have hmore : more = [] := by
          rw [List.length_cons] at hlen
          exact List.length_eq_zero_iff.mp (by omega)
        subst hmore
        rw [hshown, hr.last n rfl, ← htold, hsent t]

/-- All is sent and read, but the last heartbeat has not been shown. -/
structure Lost (r : Fin c.readers) (t : Fin c.threads) (s : St c) : Prop where
  sent : Sent r s
  empty : 91 ∉ s.pipe r
  less : s.lineCounts r < c.lines r t

theorem Lost.step (hone : ∀ t', t' ≠ t → c.lines r t' = 0) (h : Lone c r t s) (hl : Lost r t s)
    (hs : (machine c).step s a = some s') : Lost r t s' := by
  obtain ⟨tail, recs, tail', recs', hh, -, hh', hm, -, -, -⟩ := h.moves hone hs
  have hnone : recs = [] := by
    by_contra hne
    exact hl.empty (hh.mark_mem_iff.mpr hne)
  have hkeep : s'.told r = s.told r → recs' = [] → s'.lineCounts r = s.lineCounts r →
      Lost r t s' := fun htold hempty hshown =>
    ⟨fun t' => htold ▸ hl.sent t', fun hmem => hh'.mark_mem_iff.mp hmem hempty,
      hshown ▸ hl.less⟩
  cases hm with
  | quiet htold hshown hrecs => exact hkeep htold (hrecs.trans hnone) hshown
  | send t' v hlt hv =>
    have htold := hl.sent t'
    omega
  | take gone _ _ htold hrecs hshown =>
    rw [hnone] at hrecs
    obtain ⟨hgone, hempty⟩ := List.append_eq_nil_iff.mp hrecs.symm
    rcases hshown with ⟨-, hshown⟩ | ⟨-, n, more, hsome, -⟩
    · exact hkeep htold hempty hshown
    · exact absurd (hgone.symm.trans hsome).symm (List.cons_ne_nil n more)

theorem step_of_reading (hr : s.reading a = some r) (hs : (machine c).step s a = some s') :
    s' = readPipe s r := by
  cases a with
  | watch stop =>
    replace hs : watchStep s stop = some s' := hs
    unfold watchStep at hs
    unfold St.reading at hr
    split at hs
    · rename_i hpc
      simp only [hpc] at hr
      cases hr
    · rename_i i ready hpc
      simp only [hpc] at hr
      split_ifs at hr with hi hdata
      obtain rfl := Option.some.inj hr
      rw [dif_pos hi, if_pos hdata.1, if_neg hdata.2] at hs
      exact (Option.some.inj hs).symm
    · cases hs
  | line r' t' => cases hr
  | finish r' t' => cases hr
  | exit r' => cases hr

/-- A read that takes the last heartbeat, and something before it, loses it. -/
theorem Lone.lost (hone : ∀ t', t' ≠ t → c.lines r t' = 0) (h : Lone c r t s)
    (hbad : ¬LastAlone r s a) (hs : (machine c).step s a = some s') : Lost r t s' := by
  unfold LastAlone at hbad
  push Not at hbad
  obtain ⟨hreading, hsent, hleft, hfirst⟩ := hbad
  obtain ⟨tail, recs, tail', recs', hh, hr, hh', hm, -, -, -⟩ := h.moves hone hs
  obtain ⟨hrecs₀, hlen⟩ := hh.mark_mem_tail_iff.mp hfirst
  have hpipe : s'.pipe r = (s.pipe r).drop bufLen := by
    rw [step_of_reading hreading hs]
    exact Function.update_self _ _ _
  have hno : 91 ∉ s'.pipe r := hpipe ▸ hleft
  have hnone : recs' = [] := by
    by_contra hne
    exact hno (hh'.mark_mem_iff.mpr hne)
  -- The last of the heartbeats taken is the total.
  obtain ⟨init, m, hlast⟩ : ∃ init m, recs = init ++ [m] :=
    ⟨_, _, (List.dropLast_append_getLast hrecs₀).symm⟩
  have hm' : m = c.lines r t := by
    rw [← hsent t]
    refine hr.last m ?_
    rw [hlast, List.getLast?_concat]
    rfl
  cases hm with
  | quiet htold hshown hrecs => exact absurd (hrecs ▸ hnone) hrecs₀
  | send t' v hlt hv =>
    have htold := hsent t'
    omega
  | take gone _ _ htold hrecs hshown =>
    refine ⟨fun t' => (congrFun htold t').trans (hsent t'), hno, ?_⟩
    rcases hshown with ⟨-, hshown⟩ | ⟨hclean, n, more, hgone, hshown⟩
    · rw [hshown, ← hm']
      exact hr.shown m (by rw [hlast]; exact List.mem_append_right _ (List.mem_singleton.mpr rfl))
    · -- It shows the first of two or more.
      rw [hshown, ← hm']
      have hsorted := hr.sorted
      have hlong := hlen hclean
      rw [hnone, List.append_nil, hgone] at hrecs
      rw [hlast] at hrecs hlong hsorted
      cases init with
      | nil => exact absurd hlong (by simp)
      | cons k init =>
        obtain ⟨rfl, -⟩ := List.cons.inj hrecs
        rw [List.cons_append, List.pairwise_cons] at hsorted
        exact Int.ofNat_lt.mpr
          (hsorted.1 m (List.mem_append_right _ (List.mem_singleton.mpr rfl)))

end One

/-! ## The progress of a run -/

theorem sum_lines {t : Fin c.threads} (hone : ∀ t', t' ≠ t → c.lines r t' = 0) :
    ∑ u, (c.lines r u : ℤ) = c.lines r t :=
  Fintype.sum_eq_single t fun t' hne => by rw [hone t' hne, Nat.cast_zero]

theorem progress_of_heardAlone {as : List (Act c)} (h : HeardAlone c r as) : Progress c r as := by
  obtain ⟨t, hone⟩ := h.one
  have hkept : Kept r t (machine c).init := fun hsent _ => by
    have htold : (machine c).init.told r t = 0 := by simp [St.told, machine]
    rw [← hsent t, htold]
    rfl
  refine ⟨h.last.imp (I := Lone c r t) (fun s a s' hI _ hs => hI.step hone hs)
    (fun s a hI _ s' hs => ?_) (lone_init c r t),
    h.last.allStates (I := fun s => Lone c r t s ∧ Kept r t s)
      (fun s a s' hI hok hs => ⟨hI.1.step hone hs, hI.1.kept hone hI.2 hok hs⟩)
      (fun s hI hread => ?_) ⟨lone_init c r t, hkept⟩⟩
  · obtain ⟨-, -, -, -, -, -, -, -, -, -, hup⟩ := hI.moves hone hs
    exact hup
  · rw [sum_lines hone]
    exact hI.2 hread.1 (by rw [hread.2]; exact List.not_mem_nil)

theorem heardAlone_of_progress {as : List (Act c)}
    (hrun : (machine c).runs (machine c).init as = some s) (hread : AllRead r s)
    (h : Progress c r as) : HeardAlone c r as := by
  have htotal : s.lineCounts r = ∑ t, (c.lines r t : ℤ) := h.total.last hrun hread
  have hbounded : Bounded c r s :=
    (Machine.runs_reachable hrun).induct
      ⟨inv_init c, ⟨0, c.threads_pos⟩, Int.natCast_nonneg _⟩ fun s a s' hI hs => hI.step hs
  obtain ⟨t, hone⟩ := hbounded.one htotal
  refine ⟨⟨t, hone⟩, ?_⟩
  by_contra hbad
  have hlost : Lost r t s := Machine.of_not_allSteps (J := Lone c r t)
    (fun s a s' hJ _ hs => hJ.step hone hs) (fun s a s' hJ _ hno hs => hJ.lost hone hno hs)
    (fun s a s' hJ hI _ hs => hI.step hone hJ hs) (lone_init c r t) (.inr hbad) hrun h.rises
  have hless := hlost.less
  rw [htotal, sum_lines hone] at hless
  exact Int.lt_irrefl _ hless

/-- **The progress shown** is right in every run where the reader is heard alone; in a run where all
its heartbeats are read, only then. -/
theorem progress_iff (c : Config) (r : Fin c.readers) :
    (∀ as, HeardAlone c r as → Progress c r as) ∧
      ∀ as s, (machine c).runs (machine c).init as = some s → AllRead r s →
        (Progress c r as ↔ HeardAlone c r as) :=
  ⟨fun _ => progress_of_heardAlone, fun _ _ hrun hread =>
    ⟨heardAlone_of_progress hrun hread, progress_of_heardAlone⟩⟩

/-- One reader with two threads, of which the second accepts nothing. -/
def oneBusy : Config where
  readers := 1
  readers_le := by decide
  threads := 2
  threads_pos := by decide
  lines := fun _ t => 2 - 2 * t.val
  lines_le := by decide

/-- Both threads run to their end, and the watchdog reads what is there. -/
def oneBusyRun : List (Act oneBusy) :=
  [.line ⟨0, by decide⟩ ⟨0, by decide⟩, .line ⟨0, by decide⟩ ⟨0, by decide⟩,
    .finish ⟨0, by decide⟩ ⟨0, by decide⟩, .finish ⟨0, by decide⟩ ⟨1, by decide⟩, .watch false,
    .watch false, .exit ⟨0, by decide⟩, .watch false]

theorem progress_iff_oneBusy : HeardAlone oneBusy ⟨0, by decide⟩ oneBusyRun ∧
    Progress oneBusy ⟨0, by decide⟩ oneBusyRun ∧
    ∃ s, (machine oneBusy).runs (machine oneBusy).init oneBusyRun = some s ∧
      AllRead ⟨0, by decide⟩ s ∧ s.lineCounts ⟨0, by decide⟩ = 2 :=
  have h : HeardAlone oneBusy ⟨0, by decide⟩ oneBusyRun :=
    ⟨⟨⟨0, by decide⟩, by decide⟩, by decide⟩
  ⟨h, (progress_iff oneBusy ⟨0, by decide⟩).1 oneBusyRun h, _, rfl, ⟨by decide, rfl⟩, rfl⟩

/-- One reader with two threads, which accept two lines and one. -/
def bothBusy : Config where
  readers := 1
  readers_le := by decide
  threads := 2
  threads_pos := by decide
  lines := fun _ t => 2 - t.val
  lines_le := by decide

/-- The watchdog reads the heartbeat of the first thread, then that of the second: it shows 2, and
then 1, of 3 lines. -/
theorem progress_broken : ∃ as bs s s',
    (machine bothBusy).runs (machine bothBusy).init as = some s ∧
      (machine bothBusy).runs s bs = some s' ∧
      s.lineCounts ⟨0, by decide⟩ = 2 ∧ s'.lineCounts ⟨0, by decide⟩ = 1 ∧
      AllRead ⟨0, by decide⟩ s' ∧ ∑ t, bothBusy.lines ⟨0, by decide⟩ t = 3 :=
  ⟨[.line ⟨0, by decide⟩ ⟨0, by decide⟩, .line ⟨0, by decide⟩ ⟨0, by decide⟩,
      .finish ⟨0, by decide⟩ ⟨0, by decide⟩, .watch false, .watch false],
    [.line ⟨0, by decide⟩ ⟨1, by decide⟩, .finish ⟨0, by decide⟩ ⟨1, by decide⟩, .watch false],
    _, _, rfl, rfl, rfl, rfl, ⟨by decide, rfl⟩, by decide⟩

end Cse344.HW4.Watchdog
