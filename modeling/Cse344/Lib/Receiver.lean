import Cse344.Lib.CString
import Cse344.Lib.Framing
import Cse344.Lib.Machine

/-!
# Programs that print the lines they receive

A `LineReader` reads what fits in the rest of its buffer, of what the network cares to deliver, and
handles the lines that are there. Its actions are a read, and one round of the loop over the lines.
A full buffer without a newline makes it ask for no bytes; it gets none, and takes that for the end
of the connection.

* `find` looks for a newline, and does so on bytes that are `clean`; a C program that uses `strchr`
  stops at a NUL. `line` is what the reader prints of a line, and whether it leaves its loop there.
* `Logs` is for readers that print one text for each line.

Results:
* **`receiver_feed`**: however a text is cut, the reader is a `Framer` that is fed with it.
* `receiver_terminates`, `stuck_receiver`: the reader ends up having received all there is.
* **`delivered_iff`**: after lines that fit, a line is received and printed exactly if it fits too.
* **`delivered_logs_iff`**: the same for readers that print one text for each.

Out of scope: reads that fail, and what the program does beside its reading.
-/

namespace Cse344.Lib

/-- The bytes before the first newline, `none` when there is none. -/
def beforeNewline (buf : List UInt8) : Option (List UInt8) :=
  let line := buf.takeWhile fun b => b != 10
  if line.length = buf.length then none else some line

/-- A program that prints the lines it receives: what fits in its buffer, how it looks for a line,
what it prints of one and whether it stops there, and what it prints at the end of the connection.
Among `clean` bytes it finds the lines that are there. -/
structure LineReader where
  cap : ℕ
  cap_pos : 0 < cap
  find : List UInt8 → Option (List UInt8)
  clean : UInt8 → Prop
  find_eq : ∀ buf, (∀ b ∈ buf, clean b) → find buf = beforeNewline buf
  line : List UInt8 → List CStr × Bool
  closed : List CStr

/-- What a reader knows of its connection: `incoming` was sent and not yet received, `printed` is
what it has printed. -/
structure Receiver where
  buf : List UInt8
  incoming : List UInt8
  printed : List CStr
  reading : Bool
  connected : Bool

inductive RecvAct
  | recv (n : ℕ)
  | line

namespace LineReader

variable (R : LineReader)

/-- The reader leaves its loop. -/
def leave (r : Receiver) (out : List CStr) : Receiver :=
  { r with connected := false, reading := false, printed := r.printed ++ out }

/-- One round of the loop over the lines. -/
def receiveLine (r : Receiver) : Receiver :=
  match R.find r.buf with
  | none => { r with reading := false }
  | some part =>
    if (R.line part).2 then leave r (R.line part).1
    else
      { r with
        buf := r.buf.drop (part.length + 1)
        printed := r.printed ++ (R.line part).1 }

/-- A read of `n` bytes, when there are some. -/
def receive (r : Receiver) (n : ℕ) : Option Receiver :=
  let space := R.cap - r.buf.length
  if r.incoming = [] then none
  else if space = 0 then some (leave r R.closed)
  else if 0 < n ∧ n ≤ space ∧ n ≤ r.incoming.length then
    some { r with
      buf := r.buf ++ r.incoming.take n
      incoming := r.incoming.drop n
      reading := true }
  else none

def step (r : Receiver) (act : RecvAct) : Option Receiver :=
  if r.connected then
    match r.reading, act with
    | true, .line => some (R.receiveLine r)
    | true, .recv _ => none
    | false, .recv n => R.receive r n
    | false, .line => none
  else none

/-- A reader with an empty buffer, to which `text` is sent. -/
def receiver (text : List UInt8) : Machine Receiver RecvAct where
  init := ⟨[], text, [], false, true⟩
  step := R.step

/-- The lines as they are sent. -/
def stream (lines : List (List UInt8)) : List UInt8 := lines.flatMap fun line => line ++ [10]

/-- The lines are received, and `printed` is printed: the reader ends up waiting for more. -/
structure Delivered (lines : List (List UInt8)) (printed : List CStr) : Prop where
  ends : (R.receiver (stream lines)).Terminates
  connected : ∀ r, (R.receiver (stream lines)).Reachable r → r.connected = true
  printed : ∀ r, (R.receiver (stream lines)).Reachable r →
    (R.receiver (stream lines)).Stuck r → r.printed = printed

variable {R} {text : List UInt8} {r r' : Receiver} {act : RecvAct} {lines : List (List UInt8)}
  {body : List UInt8}

/-! ## The reader as a framer -/

variable (R) in
def framer : Framer UInt8 (List CStr) where
  cap := R.cap
  isEnd := fun b => b == 10
  line := fun printed part => (printed ++ (R.line part).1, (R.line part).2)
  full := fun printed => printed ++ R.closed

variable (R) in
/-- The reader as the framer's state. -/
def view (r : Receiver) : Frame UInt8 (List CStr) :=
  if r.connected then R.framer.drain r.printed [] r.buf else .closed r.printed

variable (R) in
/-- Unless its lines are being handled, the buffer holds none. -/
structure Framed (r : Receiver) : Prop where
  length_le : r.buf.length ≤ R.cap
  noLine : r.reading = false → r.connected = true → ∀ b ∈ r.buf, (b == 10) = false
  clean_buf : ∀ b ∈ r.buf, R.clean b
  clean_incoming : ∀ b ∈ r.incoming, R.clean b

theorem framed_init (h : ∀ b ∈ text, R.clean b) : R.Framed (R.receiver text).init :=
  ⟨Nat.zero_le _, fun _ _ b hb => (by cases hb), fun b hb => (by cases hb), h⟩

/-- An idle reader is the framer that holds its buffer. -/
theorem view_idle (hf : R.Framed r) (hr : r.reading = false) (hc : r.connected = true) :
    R.view r = R.framer.hold r.printed r.buf := by
  rw [view, if_pos hc]
  exact R.framer.drain_part _ (hf.noLine hr hc)

theorem view_leave (r : Receiver) (out : List CStr) :
    R.view (leave r out) = .closed (r.printed ++ out) := rfl

theorem framed_leave (hf : R.Framed r) (out : List CStr) : R.Framed (leave r out) :=
  ⟨hf.length_le, fun _ hno => (by cases hno), hf.clean_buf, hf.clean_incoming⟩

/-- **A read feeds the framer** what it receives. -/
theorem receive_feed {n : ℕ} (hf : R.Framed r) (hr : r.reading = false) (hc : r.connected = true)
    (hs : R.receive r n = some r') :
    R.framer.feedAll (R.view r') r'.incoming = R.framer.feedAll (R.view r) r.incoming ∧
      R.Framed r' := by
  have hlen := hf.length_le
  unfold receive at hs
  dsimp only at hs
  split_ifs at hs with hempty hfull hn
  · -- the buffer is full
    obtain rfl := Option.some.inj hs
    have hcap : r.buf.length = R.cap := le_antisymm hlen (Nat.sub_eq_zero_iff_le.mp hfull)
    have hview : R.view r = .closed (r.printed ++ R.closed) :=
      (view_idle hf hr hc).trans (if_pos hcap)
    rw [view_leave, hview, Framer.feedAll_closed, Framer.feedAll_closed]
    exact ⟨rfl, framed_leave hf _⟩
  · obtain rfl := Option.some.inj hs
    obtain ⟨-, hspace, hincoming⟩ := hn
    have htake : (r.incoming.take n).length = n := List.length_take_of_le hincoming
    have hroom : r.buf.length + (r.incoming.take n).length ≤ R.cap := by omega
    have hlt : r.buf.length < R.cap := by omega
    refine ⟨?_, ?_, fun hno => (by cases hno), fun b hb => ?_, fun b hb => ?_⟩
    · have hview : R.view r = .filling r.printed r.buf :=
        (view_idle hf hr hc).trans (R.framer.hold_of_lt hlt)
      have hafter : R.view { r with
          buf := r.buf ++ r.incoming.take n
          incoming := r.incoming.drop n
          reading := true } = R.framer.feedAll (.filling r.printed r.buf) (r.incoming.take n) := by
        rw [view, if_pos hc, R.framer.drain_append _ _ _ _ (hf.noLine hr hc), List.nil_append]
        exact R.framer.drain_eq_feedAll _ _ _ hlt hroom
      rw [hafter, hview, ← Framer.feedAll_append, List.take_append_drop]
    · rw [List.length_append]
      exact hroom
    · rcases List.mem_append.mp hb with hb | hb
      · exact hf.clean_buf b hb
      · exact hf.clean_incoming b (List.mem_of_mem_take hb)
    · exact hf.clean_incoming b (List.mem_of_mem_drop hb)

/-- **A round of the loop is a line of the framer.** -/
theorem receiveLine_view (hf : R.Framed r) (hr : r.reading = true) (hc : r.connected = true) :
    R.view (R.receiveLine r) = R.view r ∧ (R.receiveLine r).incoming = r.incoming ∧
      R.Framed (R.receiveLine r) := by
  unfold receiveLine
  rw [R.find_eq r.buf hf.clean_buf]
  unfold beforeNewline
  dsimp only
  rcases takeWhile_cases 10 r.buf with ⟨hno, ⟨hlen, hall⟩ | ⟨hlen, hsplit⟩⟩
  · rw [hall] at hno
    rw [if_pos hlen]
    exact ⟨rfl, rfl, hf.length_le, fun _ _ => hno, hf.clean_buf, hf.clean_incoming⟩
  · obtain ⟨line, hline⟩ : ∃ line, line = r.buf.takeWhile fun b => b != 10 := ⟨_, rfl⟩
    rw [← hline] at hno hlen hsplit ⊢
    have hdrain := R.framer.drain_line r.printed (r.buf.drop (line.length + 1)) hno (b := 10) rfl
    rw [← hsplit] at hdrain
    have hview : R.view r = _ := (if_pos hc).trans hdrain
    rw [if_neg hlen, hview]
    dsimp only
    cases hstop : (R.line line).2 with
    | true =>
      have hclose : R.framer.line r.printed line = (r.printed ++ (R.line line).1, true) :=
        congrArg _ hstop
      rw [if_pos rfl, hclose]
      exact ⟨rfl, rfl, framed_leave hf _⟩
    | false =>
      have hprint : R.framer.line r.printed line = (r.printed ++ (R.line line).1, false) :=
        congrArg _ hstop
      rw [if_neg Bool.false_ne_true, hprint]
      refine ⟨if_pos hc, rfl, ?_, fun hidle => ?_, fun b hb => ?_, hf.clean_incoming⟩
      · rw [List.length_drop]
        exact (Nat.sub_le _ _).trans hf.length_le
      · exact absurd (hr.symm.trans hidle) (by decide)
      · exact hf.clean_buf b (List.mem_of_mem_drop hb)

theorem receiver_feed_step (hf : R.Framed r) (hs : R.step r act = some r') :
    R.framer.feedAll (R.view r') r'.incoming = R.framer.feedAll (R.view r) r.incoming ∧
      R.Framed r' := by
  unfold step at hs
  split at hs
  · rename_i hc
    split at hs
    case h_1 hr =>
      obtain rfl := Option.some.inj hs
      obtain ⟨hview, hincoming, hframed⟩ := receiveLine_view hf hr hc
      exact ⟨by rw [hview, hincoming], hframed⟩
    case h_2 => cases hs
    case h_3 hr => exact receive_feed hf hr hc hs
    case h_4 => cases hs
  · cases hs

/-- **However the text is cut**, what is still to come makes the same of what is there. -/
theorem receiver_feed (htext : ∀ b ∈ text, R.clean b) (h : (R.receiver text).Reachable r) :
    R.framer.feedAll (R.view r) r.incoming = R.framer.feedAll (.filling [] []) text ∧
      R.Framed r := by
  have hview : R.view (R.receiver text).init = .filling [] [] := R.framer.hold_of_lt R.cap_pos
  refine h.induct (I := fun r => R.framer.feedAll (R.view r) r.incoming =
    R.framer.feedAll (.filling [] []) text ∧ R.Framed r) ⟨by rw [hview]; rfl, framed_init htext⟩ ?_
  rintro s a s' ⟨hfeed, hf⟩ hs
  obtain ⟨hstep, hf'⟩ := receiver_feed_step hf hs
  exact ⟨hstep.trans hfeed, hf'⟩

/-! ## Runs end -/

/-- What is left to do. -/
def work (r : Receiver) : ℕ :=
  3 * r.incoming.length + r.buf.length + r.reading.toNat + r.connected.toNat

theorem work_leave (hc : r.connected = true) (out : List CStr) : work (leave r out) < work r := by
  simp only [work, leave, hc, Bool.toNat_true, Bool.toNat_false]
  omega

theorem work_lt (hf : R.Framed r) (hs : R.step r act = some r') : work r' < work r := by
  unfold step at hs
  split at hs
  · rename_i hc
    split at hs
    case h_1 hr =>
      obtain rfl := Option.some.inj hs
      unfold receiveLine
      rw [R.find_eq r.buf hf.clean_buf]
      unfold beforeNewline
      dsimp only
      split_ifs with hlen
      · simp [work, hr]
      · dsimp only
        split_ifs
        · exact work_leave hc _
        · have hle : (r.buf.takeWhile fun b => b != 10).length ≤ r.buf.length :=
            (List.takeWhile_prefix _).length_le
          have hlt := lt_of_le_of_ne hle hlen
          simp only [work, List.length_drop]
          omega
    case h_2 => cases hs
    case h_3 hr =>
      unfold receive at hs
      dsimp only at hs
      split_ifs at hs with hempty hfull hn
      · obtain rfl := Option.some.inj hs
        exact work_leave hc _
      · obtain rfl := Option.some.inj hs
        obtain ⟨hpos, -, hincoming⟩ := hn
        simp only [work, List.length_append, List.length_take, List.length_drop, hr,
          Bool.toNat_true, Bool.toNat_false]
        omega
    case h_4 => cases hs
  · cases hs

theorem receiver_terminates (htext : ∀ b ∈ text, R.clean b) : (R.receiver text).Terminates :=
  Machine.terminates_of_measure (I := R.Framed) work (framed_init htext)
    fun _ _ _ hf hs => ⟨(receiver_feed_step hf hs).2, work_lt hf hs⟩

theorem receiver_exists_stuck (htext : ∀ b ∈ text, R.clean b) :
    ∃ r, (R.receiver text).Reachable r ∧ (R.receiver text).Stuck r :=
  Machine.exists_stuck (I := R.Framed) work
    (fun _ _ _ hf hs => ⟨(receiver_feed_step hf hs).2, work_lt hf hs⟩) (framed_init htext)

/-- A reader that cannot go on has received all there is. -/
theorem stuck_receiver (hc : r.connected = true) (hstuck : (R.receiver text).Stuck r) :
    r.incoming = [] ∧ r.reading = false := by
  have hreading : r.reading = false := by
    by_contra hno
    have hr : r.reading = true := by simpa using hno
    have hstep : R.step r .line = some (R.receiveLine r) := by
      unfold step
      rw [if_pos hc, hr]
    exact absurd ((hstuck .line).symm.trans hstep) (by simp)
  refine ⟨by_contra fun hincoming => ?_, hreading⟩
  have hstep : R.receive r 1 = none := by
    have hnone := hstuck (.recv 1)
    unfold receiver step at hnone
    dsimp only at hnone
    rwa [if_pos hc, hreading] at hnone
  unfold receive at hstep
  dsimp only at hstep
  have hlen : 0 < r.incoming.length := List.length_pos_of_ne_nil hincoming
  rw [if_neg hincoming] at hstep
  split_ifs at hstep with hfull hn
  omega

/-! ## Lines that fit -/

variable (R) in
/-- A line that fits in the buffer with its newline, and after which the reader goes on. -/
structure Fits (line : List UInt8) : Prop where
  noLine : ∀ b ∈ line, (b == 10) = false
  clean : ∀ b ∈ line, R.clean b
  length_lt : line.length < R.cap
  goes_on : (R.line line).2 = false

theorem stream_cons (line : List UInt8) (lines : List (List UInt8)) :
    stream (line :: lines) = line ++ 10 :: stream lines := by
  simp [stream]

theorem stream_append (lines lines' : List (List UInt8)) :
    stream (lines ++ lines') = stream lines ++ stream lines' := List.flatMap_append

theorem stream_singleton (line : List UInt8) : stream [line] = line ++ [10] := by
  simp [stream]

theorem clean_stream (h10 : R.clean 10) (h : ∀ line ∈ lines, ∀ b ∈ line, R.clean b) :
    ∀ b ∈ stream lines, R.clean b := by
  intro b hb
  obtain ⟨line, hline, hb⟩ := List.mem_flatMap.mp hb
  rcases List.mem_append.mp hb with hb | hb
  · exact h line hline b hb
  · rw [List.mem_singleton.mp hb]
    exact h10

/-- A line that fits leaves the framer with an empty buffer. -/
theorem feedAll_line (h : R.Fits body) (printed : List CStr) :
    R.framer.feedAll (.filling printed []) (body ++ [10]) =
      .filling (printed ++ (R.line body).1) [] := by
  have hroom : ([] : List UInt8).length + (body ++ [10]).length ≤ R.framer.cap := by
    rw [List.length_append, List.length_nil, List.length_singleton]
    have := h.length_lt
    show _ ≤ R.cap
    omega
  have hline : R.framer.line printed body = (printed ++ (R.line body).1, false) :=
    congrArg _ h.goes_on
  rw [← R.framer.drain_eq_feedAll printed [] (body ++ [10]) R.cap_pos hroom,
    R.framer.drain_line printed [] h.noLine rfl, hline]
  exact R.framer.hold_of_lt R.cap_pos

theorem feedAll_lines (h : ∀ line ∈ lines, R.Fits line) (printed : List CStr) :
    R.framer.feedAll (.filling printed []) (stream lines) =
      .filling (printed ++ lines.flatMap fun line => (R.line line).1) [] := by
  induction lines generalizing printed with
  | nil => simp [stream]
  | cons line lines ih =>
    rw [List.forall_mem_cons] at h
    have hcons : stream (line :: lines) = (line ++ [10]) ++ stream lines := by
      rw [stream_cons, List.append_assoc]
      rfl
    rw [hcons, Framer.feedAll_append, feedAll_line h.1, ih h.2, List.flatMap_cons,
      List.append_assoc]

/-- **What a reader has printed** that received lines that fit. -/
theorem stuck_printed (h10 : R.clean 10) (h : ∀ line ∈ lines, R.Fits line)
    (hr : (R.receiver (stream lines)).Reachable r) :
    r.connected = true ∧ ((R.receiver (stream lines)).Stuck r →
      r.printed = lines.flatMap fun line => (R.line line).1) := by
  obtain ⟨hfeed, hf⟩ := receiver_feed (clean_stream h10 fun line hline => (h line hline).clean) hr
  rw [feedAll_lines h, List.nil_append] at hfeed
  have hconnected : r.connected = true := by
    by_contra hc
    rw [view, if_neg hc, Framer.feedAll_closed] at hfeed
    cases hfeed
  refine ⟨hconnected, fun hstuck => ?_⟩
  obtain ⟨hincoming, hreading⟩ := stuck_receiver hconnected hstuck
  rw [hincoming, Framer.feedAll_nil, view_idle hf hreading hconnected] at hfeed
  unfold Framer.hold at hfeed
  split_ifs at hfeed
  injection hfeed

/-! ## Lines that do not fit -/

theorem beforeNewline_append (hno : ∀ b ∈ body, (b == 10) = false) (rest : List UInt8) :
    beforeNewline (body ++ 10 :: rest) = some body := by
  have htake : ((body ++ 10 :: rest).takeWhile fun b => b != 10) = body := by
    rw [List.takeWhile_append_of_pos fun b hb => by simpa using hno b hb, List.takeWhile_cons,
      if_neg (by decide), List.append_nil]
  unfold beforeNewline
  dsimp only
  rw [htake, if_neg (by simp)]

theorem beforeNewline_eq_none (hno : ∀ b ∈ body, (b == 10) = false) :
    beforeNewline body = none := by
  have htake : (body.takeWhile fun b => b != 10) = body :=
    List.takeWhile_eq_self_iff.mpr fun b hb => by simpa using hno b hb
  unfold beforeNewline
  dsimp only
  rw [htake, if_pos rfl]

variable (R text) in
/-- A read of the next `n` bytes into an empty buffer. -/
theorem step_recv (text' : List UInt8) (n : ℕ) (printed : List CStr) (hn : 0 < n) (hcap : n ≤ R.cap)
    (hlen : n ≤ text'.length) :
    (R.receiver text).Step ⟨[], text', printed, false, true⟩
      ⟨text'.take n, text'.drop n, printed, true, true⟩ := by
  refine ⟨.recv n, ?_⟩
  have hne : text' ≠ [] := List.ne_nil_of_length_pos (lt_of_lt_of_le hn hlen)
  show R.receive _ n = _
  unfold receive
  dsimp only
  rw [if_neg hne, if_neg (by simp [R.cap_pos.ne']), if_pos ⟨hn, by simpa using hcap, hlen⟩,
    List.nil_append]

variable (R text) in
/-- The round of the loop that finds no line. -/
theorem step_wait (buf text' : List UInt8) (printed : List CStr) (hclean : ∀ b ∈ buf, R.clean b)
    (hno : ∀ b ∈ buf, (b == 10) = false) :
    (R.receiver text).Step ⟨buf, text', printed, true, true⟩
      ⟨buf, text', printed, false, true⟩ := by
  refine ⟨.line, ?_⟩
  show some (R.receiveLine _) = _
  unfold receiveLine
  rw [R.find_eq buf hclean, beforeNewline_eq_none hno]

/-- One line after the other. -/
theorem steps_line (h10 : R.clean 10) (h : R.Fits body) (rest : List UInt8) (printed : List CStr) :
    (R.receiver text).Steps ⟨[], body ++ 10 :: rest, printed, false, true⟩
      ⟨[], rest, printed ++ (R.line body).1, false, true⟩ := by
  have htake : (body ++ 10 :: rest).take (body.length + 1) = body ++ [10] := by
    rw [List.append_cons]
    exact List.take_left' (by simp)
  have hdrop : (body ++ 10 :: rest).drop (body.length + 1) = rest := by
    rw [List.append_cons]
    exact List.drop_left' (by simp)
  have hrecv := step_recv R text (body ++ 10 :: rest) (body.length + 1) printed
    (Nat.succ_pos _) h.length_lt (by simp)
  rw [htake, hdrop] at hrecv
  have hline : (R.receiver text).Step ⟨body ++ [10], rest, printed, true, true⟩
      ⟨[], rest, printed ++ (R.line body).1, true, true⟩ := by
    refine ⟨.line, ?_⟩
    have hclean : ∀ b ∈ body ++ [10], R.clean b := by
      intro b hb
      rcases List.mem_append.mp hb with hb | hb
      · exact h.clean b hb
      · rw [List.mem_singleton.mp hb]
        exact h10
    show some (R.receiveLine _) = _
    unfold receiveLine
    rw [R.find_eq _ hclean, beforeNewline_append h.noLine []]
    dsimp only
    rw [h.goes_on, if_neg Bool.false_ne_true]
    simp
  refine .tail (.tail (.single hrecv) hline) (step_wait R text _ _ _ ?_ ?_)
  · exact fun b hb => by cases hb
  · exact fun b hb => by cases hb

variable (text) in
theorem steps_lines (h10 : R.clean 10) (h : ∀ line ∈ lines, R.Fits line) (rest : List UInt8)
    (printed : List CStr) :
    ∃ printed', (R.receiver text).Steps ⟨[], stream lines ++ rest, printed, false, true⟩
      ⟨[], rest, printed', false, true⟩ := by
  induction lines generalizing printed with
  | nil => exact ⟨printed, .refl⟩
  | cons line lines ih =>
    rw [List.forall_mem_cons] at h
    obtain ⟨printed', hrest⟩ := ih h.2 (printed ++ (R.line line).1)
    refine ⟨printed', .trans ?_ hrest⟩
    rw [stream_cons, List.append_assoc]
    exact steps_line h10 h.1 (stream lines ++ rest) printed

/-- A line that does not fit makes the reader leave its loop. -/
theorem leaves_of_long (h10 : R.clean 10) (h : ∀ line ∈ lines, R.Fits line)
    (hno : ∀ b ∈ body, (b == 10) = false) (hclean : ∀ b ∈ body, R.clean b)
    (hlen : R.cap ≤ body.length) :
    ∃ r, (R.receiver (stream (lines ++ [body]))).Reachable r ∧ r.connected = false := by
  obtain ⟨text, htext⟩ : ∃ text, text = stream (lines ++ [body]) := ⟨_, rfl⟩
  obtain ⟨printed, hlines⟩ := steps_lines text h10 h (body ++ [10]) []
  have hsplit : text = stream lines ++ (body ++ [10]) := by
    rw [htext, stream_append, stream_singleton]
  have htake : (body ++ [10]).take R.cap = body.take R.cap := List.take_append_of_le_length hlen
  have hdrop : (body ++ [10]).drop R.cap ≠ [] := by
    rw [Ne, List.drop_eq_nil_iff, List.length_append, List.length_singleton]
    omega
  have hrecv := step_recv R text (body ++ [10]) R.cap printed R.cap_pos (le_refl _)
    (by rw [List.length_append]; omega)
  rw [htake] at hrecv
  have hwait := step_wait R text (body.take R.cap) ((body ++ [10]).drop R.cap) printed
    (fun b hb => hclean b (List.mem_of_mem_take hb))
    (fun b hb => hno b (List.mem_of_mem_take hb))
  have hleave : (R.receiver text).Step
      ⟨body.take R.cap, (body ++ [10]).drop R.cap, printed, false, true⟩
      (leave ⟨body.take R.cap, (body ++ [10]).drop R.cap, printed, false, true⟩ R.closed) := by
    refine ⟨.recv 0, ?_⟩
    show R.receive _ 0 = _
    unfold receive
    dsimp only
    rw [if_neg hdrop, if_pos (by rw [List.length_take_of_le hlen, Nat.sub_self])]
  rw [← hsplit] at hlines
  rw [← htext]
  exact ⟨_, ((hlines.tail hrecv).tail hwait).tail hleave, rfl⟩

variable (lines) in
/-- **After lines that fit, a line is received and printed exactly if it fits**, and is printed as
it should be. -/
theorem delivered_iff (h10 : R.clean 10) (h : ∀ line ∈ lines, R.Fits line)
    (hno : ∀ b ∈ body, (b == 10) = false) (hclean : ∀ b ∈ body, R.clean b)
    (hgo : (R.line body).2 = false) (printed : List CStr) :
    R.Delivered (lines ++ [body]) printed ↔ body.length < R.cap ∧
      printed = (lines.flatMap fun line => (R.line line).1) ++ (R.line body).1 := by
  have hall : body.length < R.cap → ∀ line ∈ lines ++ [body], R.Fits line := by
    intro hlen line hline
    rcases List.mem_append.mp hline with hline | hline
    · exact h line hline
    · rw [List.mem_singleton.mp hline]
      exact ⟨hno, hclean, hlen, hgo⟩
  have hout : ((lines ++ [body]).flatMap fun line => (R.line line).1) =
      (lines.flatMap fun line => (R.line line).1) ++ (R.line body).1 := by
    simp
  have htext : ∀ b ∈ stream (lines ++ [body]), R.clean b := clean_stream h10 fun line hline => by
    rcases List.mem_append.mp hline with hline | hline
    · exact (h line hline).clean
    · rw [List.mem_singleton.mp hline]
      exact hclean
  constructor
  · intro hdelivered
    have hlen : body.length < R.cap := by
      by_contra hlong
      obtain ⟨r, hr, hc⟩ := leaves_of_long h10 h hno hclean (not_lt.mp hlong)
      exact absurd (hc.symm.trans (hdelivered.connected r hr)) (by decide)
    obtain ⟨r, hr, hstuck⟩ := receiver_exists_stuck htext
    refine ⟨hlen, ?_⟩
    rw [← hdelivered.printed r hr hstuck, (stuck_printed h10 (hall hlen) hr).2 hstuck, hout]
  · rintro ⟨hlen, rfl⟩
    refine ⟨receiver_terminates htext, fun r hr => (stuck_printed h10 (hall hlen) hr).1, ?_⟩
    intro r hr hstuck
    rw [(stuck_printed h10 (hall hlen) hr).2 hstuck, hout]

/-! ## Readers that log their lines -/

variable (R) in
/-- A line that fits, and of which the reader logs the whole text. -/
structure Logs (log : CStr → CStr) (line : CStr) : Prop where
  fits : R.Fits line
  line_eq : (R.line line).1 = [log line]

theorem flatMap_logs {log : CStr → CStr} : ∀ {lines : List CStr},
    (∀ line ∈ lines, R.Logs log line) →
    (lines.flatMap fun line => (R.line line).1) = lines.map log
  | [], _ => rfl
  | line :: lines, h => by
    rw [List.forall_mem_cons] at h
    rw [List.flatMap_cons, flatMap_logs h.2, h.1.line_eq]
    rfl

variable (lines) in
/-- **After lines that it logs**, a reader receives and logs a line exactly if it fits and is logged
whole. -/
theorem delivered_logs_iff {log : CStr → CStr} (h10 : R.clean 10)
    (h : ∀ line ∈ lines, R.Logs log line) (hno : ∀ b ∈ body, (b == 10) = false)
    (hclean : ∀ b ∈ body, R.clean b) (hgo : (R.line body).2 = false) :
    R.Delivered (lines ++ [body]) ((lines ++ [body]).map log) ↔
      body.length < R.cap ∧ (R.line body).1 = [log body] := by
  rw [delivered_iff lines h10 (fun line hline => (h line hline).fits) hno hclean hgo,
    flatMap_logs h, List.map_append, List.append_cancel_left_eq, List.map_singleton]
  exact and_congr_right fun _ => eq_comm

end LineReader

end Cse344.Lib
