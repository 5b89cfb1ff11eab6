import Cse344.Final.Accounts
import Cse344.Lib.Framing

/-!
# Lines that do not fit in the buffer of the final's server

`client_read` (`Final/ServerTrd.c` 400-440) collects up to 511 bytes. When they are there and no
newline, the next event makes it answer `ERR TOOLONG` and clear the buffer; it does not remember
that the rest of the line is still to come. The check in its loop never fires, as a line in the
buffer has at most 510 bytes.

* `watch` is a ghost: for each client, the bytes received, those that have left the buffer
  (`eaten`), and what was done with them (`seen`).
* `answers` is what the server makes of one line: `ERR TOOLONG` for each 511 bytes, and a command
  from what is left. `Watched` says so of a whole session.
* `RejectsWhole` is what it should be: a command from each line that fits, and `ERR TOOLONG` for
  each that does not.

Results:
* `rejectsWhole_treatment_iff`: of a stream, the one is the other exactly if all its lines fit.
* `watched_step`, `watched_reachable`: every session of every run is treated by `answers`.
* **`overlong_iff`**: in every state of every run, the lines of a client were treated as they should
  exactly if all of them fit.

Out of scope: a session that ends with `QUIT` keeps no bytes, and its next one starts anew.
-/

namespace Cse344.Final

open Cse344.Lib

variable {m : ℕ} {t : Table m} {s s' : Server m} {idx i : Fin maxClients} {act : Act}
  {line : List UInt8} {c c' : Client}

/-- What `client_read` does with bytes that leave the buffer. -/
inductive Event
  /-- `process_line` is called with this line -/
  | command (line : CStr)
  | tooLong
  deriving DecidableEq, Repr

/-- What happened since a client was accepted. -/
structure Session where
  received : List UInt8
  eaten : List UInt8
  seen : List Event
  deriving DecidableEq, Repr

def Session.new : Session := ⟨[], [], []⟩

/-- The sessions after a step. -/
def watch (s : Server m) (act : Act) (_ : Server m) (sessions : Fin maxClients → Session) :
    Fin maxClients → Session :=
  match act with
  | .accept _ =>
    match allocClient s with
    | some i => Function.update sessions i .new
    | none => sessions
  | .input idx input =>
    let buf := (s.clients idx).lineBuf
    let ses := sessions idx
    if maxLine - 1 - buf.length = 0 then
      Function.update sessions idx
        { ses with eaten := ses.eaten ++ buf, seen := ses.seen ++ [.tooLong] }
    else
      match input with
      | .data bytes =>
        Function.update sessions idx { ses with received := ses.received ++ bytes }
      | _ => sessions
  | .line =>
    match s.reading with
    | none => sessions
    | some idx =>
      let buf := (s.clients idx).lineBuf
      let ses := sessions idx
      let line := buf.takeWhile fun b => b != 10
      if line.length = buf.length then sessions
      else
        Function.update sessions idx
          { ses with
            eaten := ses.eaten ++ line ++ [10]
            seen := ses.seen ++
              [if maxLine - 1 ≤ line.length then .tooLong else .command (lineString line)] }
  | _ => sessions

/-- The server with the sessions. -/
def watched (t : Table m) : Machine (Server m × (Fin maxClients → Session)) Act :=
  (serverTrd t).withGhost (fun _ => .new) watch

/-! ## What should happen, and what does -/

/-- The line and its newline fit in `line_buf`. -/
def LineFits (line : List UInt8) : Prop := line.length < maxLine - 1

instance (line : List UInt8) : Decidable (LineFits line) :=
  inferInstanceAs (Decidable (line.length < maxLine - 1))

/-- Each line that fits is a command, and each that does not is answered with `ERR TOOLONG`. -/
inductive Treated : List (List UInt8) → List Event → Prop
  | nil : Treated [] []
  | fits {lines : List (List UInt8)} {seen : List Event} (line : List UInt8) (h : LineFits line)
      (hrest : Treated lines seen) :
    Treated (line :: lines) (.command (lineString line) :: seen)
  | tooLong {lines : List (List UInt8)} {seen : List Event} (line : List UInt8) (k : ℕ)
      (h : ¬ LineFits line) (hk : 0 < k) (hrest : Treated lines seen) :
    Treated (line :: lines) (List.replicate k .tooLong ++ seen)

/-- The lines of a stream are treated so; what has come of the next may be too long already. -/
def RejectsWhole (stream : List UInt8) (seen : List Event) : Prop :=
  ∃ k, (0 < k → ¬ LineFits (linesOf 10 stream).2) ∧
    ∃ before, seen = before ++ List.replicate k .tooLong ∧ Treated (linesOf 10 stream).1 before

/-- What the server makes of a line. -/
def answers (line : List UInt8) : List Event :=
  List.replicate (line.length / (maxLine - 1)) .tooLong ++
    [.command (lineString (line.drop ((maxLine - 1) * (line.length / (maxLine - 1)))))]

def Event.isCommand : Event → Bool
  | .command _ => true
  | .tooLong => false

theorem countP_replicate_tooLong (k : ℕ) :
    (List.replicate k Event.tooLong).countP Event.isCommand = 0 :=
  List.countP_eq_zero.mpr fun e he => by rw [List.eq_of_mem_replicate he]; exact Bool.false_ne_true

/-- What is treated as it should be has a command for each line that fits. -/
theorem Treated.countP {lines : List (List UInt8)} {seen : List Event} (h : Treated lines seen) :
    seen.countP Event.isCommand = lines.countP fun line => decide (LineFits line) := by
  induction h with
  | nil => rfl
  | fits line hfits hrest ih =>
    rw [List.countP_cons_of_pos rfl, ih, List.countP_cons_of_pos (by simpa using hfits)]
  | tooLong line k hlong hk hrest ih =>
    rw [List.countP_append, countP_replicate_tooLong, ih, Nat.zero_add,
      List.countP_cons_of_neg (by simpa using hlong)]

/-- The server makes a command of every line. -/
theorem countP_answers (lines : List (List UInt8)) :
    (lines.flatMap answers).countP Event.isCommand = lines.length := by
  induction lines with
  | nil => rfl
  | cons line lines ih =>
    rw [List.flatMap_cons, List.countP_append, ih, answers, List.countP_append,
      countP_replicate_tooLong, List.length_cons]
    exact (Nat.add_comm _ _)

theorem answers_of_fits (h : LineFits line) : answers line = [.command (lineString line)] := by
  have hzero : line.length / (maxLine - 1) = 0 := Nat.div_eq_of_lt h
  rw [answers, hzero]
  rfl

theorem treated_of_fits : ∀ {lines : List (List UInt8)}, (∀ line ∈ lines, LineFits line) →
    Treated lines (lines.flatMap answers)
  | [], _ => .nil
  | line :: lines, h => by
    obtain ⟨hline, hrest⟩ := List.forall_mem_cons.mp h
    rw [List.flatMap_cons, answers_of_fits hline]
    exact .fits line hline (treated_of_fits hrest)

/-- What the server makes of a stream: of its lines, and of what has come of the next. -/
def treatment (stream : List UInt8) : List Event :=
  (linesOf 10 stream).1.flatMap answers ++
    List.replicate ((linesOf 10 stream).2.length / (maxLine - 1)) .tooLong

/-- **The server treats a stream as it should**, exactly if the lines fit. -/
theorem rejectsWhole_treatment_iff (stream : List UInt8) :
    RejectsWhole stream (treatment stream) ↔ ∀ line ∈ (linesOf 10 stream).1, LineFits line := by
  constructor
  · rintro ⟨k, -, before, hseen, htreated⟩
    have hcount := congrArg (List.countP Event.isCommand) hseen
    rw [treatment, List.countP_append, countP_answers, countP_replicate_tooLong, List.countP_append,
      countP_replicate_tooLong, htreated.countP] at hcount
    intro line hline
    exact of_decide_eq_true (List.countP_eq_length.mp hcount.symm line hline)
  · intro h
    refine ⟨_, fun hk => ?_, _, rfl, treated_of_fits h⟩
    exact not_lt.mpr (Nat.le_of_not_lt fun hlt => by
      rw [Nat.div_eq_of_lt hlt] at hk
      exact absurd hk (lt_irrefl 0))

/-! ## Bytes that leave the buffer -/

/-- A full buffer without a newline, after others like it. -/
theorem treatment_append_part {stream part : List UInt8}
    (hborder : maxLine - 1 ∣ (linesOf 10 stream).2.length) (hno : 10 ∉ part)
    (hfull : part.length = maxLine - 1) :
    (maxLine - 1 ∣ (linesOf 10 (stream ++ part)).2.length) ∧
      treatment (stream ++ part) = treatment stream ++ [.tooLong] := by
  have hpos : 0 < maxLine - 1 := by decide
  rw [treatment, linesOf_append_part stream hno]
  dsimp only
  rw [List.length_append, hfull, Nat.add_div_right _ hpos, List.replicate_succ',
    ← List.append_assoc]
  exact ⟨(Nat.dvd_add_self_right).mpr hborder, rfl⟩

/-- A line without its newline, after full buffers: the server sees only its end. -/
theorem treatment_append_line {stream part : List UInt8}
    (hborder : maxLine - 1 ∣ (linesOf 10 stream).2.length) (hno : 10 ∉ part)
    (hlt : part.length < maxLine - 1) :
    (maxLine - 1 ∣ (linesOf 10 (stream ++ part ++ [10])).2.length) ∧
      treatment (stream ++ part ++ [10]) = treatment stream ++ [.command (lineString part)] := by
  have hpos : 0 < maxLine - 1 := by decide
  obtain ⟨k, hk⟩ := hborder
  have hdiv : ((linesOf 10 stream).2 ++ part).length / (maxLine - 1) = k := by
    rw [List.length_append, hk, Nat.mul_add_div hpos, Nat.div_eq_of_lt hlt, Nat.add_zero]
  have hdrop : ((linesOf 10 stream).2 ++ part).drop ((maxLine - 1) * k) = part := by
    rw [← hk, List.drop_left]
  have hanswers : answers ((linesOf 10 stream).2 ++ part) =
      List.replicate k .tooLong ++ [.command (lineString part)] := by
    rw [answers, hdiv, hdrop]
  rw [treatment, treatment, linesOf_append_line stream hno]
  dsimp only
  refine ⟨dvd_zero _, ?_⟩
  rw [List.flatMap_append, List.flatMap_singleton, hanswers, hk, Nat.mul_div_cancel_left k hpos,
    List.length_nil, Nat.zero_div, List.replicate_zero, List.append_nil, List.append_assoc]

/-- The session of a client so far. While the server reads from it, there may be lines in the
buffer. -/
structure Watched (reading : Prop) (c : Client) (ses : Session) : Prop where
  buf_le : c.lineBuf.length ≤ maxLine - 1
  idle : ¬ reading → 10 ∉ c.lineBuf
  received_eq : 0 ≤ c.fd → ses.received = ses.eaten ++ c.lineBuf
  eaten_le : ses.eaten <+: ses.received
  border : maxLine - 1 ∣ (linesOf 10 ses.eaten).2.length
  seen_eq : ses.seen = treatment ses.eaten

namespace Watched

variable {reading reading' : Prop} {ses : Session} {rest : List UInt8}

theorem new (hbuf : c.lineBuf = []) : Watched reading c .new where
  buf_le := by rw [hbuf]; exact Nat.zero_le _
  idle := fun _ => by rw [hbuf]; exact List.not_mem_nil
  received_eq := fun _ => by rw [hbuf]; rfl
  eaten_le := List.prefix_refl _
  border := dvd_zero _
  seen_eq := rfl

/-- The buffer stays. -/
theorem keep (h : Watched reading c ses) (hbuf : c'.lineBuf = c.lineBuf)
    (hfd : 0 ≤ c'.fd → 0 ≤ c.fd) (hidle : ¬ reading' → 10 ∉ c.lineBuf) :
    Watched reading' c' ses where
  buf_le := hbuf ▸ h.buf_le
  idle := hbuf ▸ hidle
  received_eq := fun hc => hbuf ▸ h.received_eq (hfd hc)
  eaten_le := h.eaten_le
  border := h.border
  seen_eq := h.seen_eq

/-- The client is disconnected, and what is in the buffer is lost. -/
theorem gone (h : Watched reading c ses) (hbuf : c'.lineBuf = []) (hfd : c'.fd = -1) :
    Watched reading' c' ses where
  buf_le := by rw [hbuf]; exact Nat.zero_le _
  idle := fun _ => by rw [hbuf]; exact List.not_mem_nil
  received_eq := fun hc => absurd hc (by rw [hfd]; decide)
  eaten_le := h.eaten_le
  border := h.border
  seen_eq := h.seen_eq

/-- `recv` adds to the buffer. -/
theorem get (h : Watched reading c ses) (bytes : List UInt8) (hfd : 0 ≤ c.fd)
    (hbuf : c'.lineBuf = c.lineBuf ++ bytes) (hle : (c.lineBuf ++ bytes).length ≤ maxLine - 1)
    (hreading : reading') :
    Watched reading' c' { ses with received := ses.received ++ bytes } where
  buf_le := hbuf ▸ hle
  idle := fun hno => absurd hreading hno
  received_eq := fun _ => by
    rw [hbuf, ← List.append_assoc, ← h.received_eq hfd]
  eaten_le := h.eaten_le.trans (List.prefix_append _ _)
  border := h.border
  seen_eq := h.seen_eq

/-- The buffer is full, and is cleared. -/
theorem clear (h : Watched reading c ses) (hidle : ¬ reading) (hfd : 0 ≤ c.fd)
    (hfull : c.lineBuf.length = maxLine - 1) (hbuf : c'.lineBuf = []) :
    Watched reading' c'
      { ses with eaten := ses.eaten ++ c.lineBuf, seen := ses.seen ++ [.tooLong] } := by
  obtain ⟨hborder, hseen⟩ := treatment_append_part h.border (h.idle hidle) hfull
  have hreceived : ses.received = ses.eaten ++ c.lineBuf := h.received_eq hfd
  exact {
    buf_le := by rw [hbuf]; exact Nat.zero_le _
    idle := fun _ => by rw [hbuf]; exact List.not_mem_nil
    received_eq := fun _ => by rw [hbuf, List.append_nil]; exact hreceived
    eaten_le := by rw [hreceived]
    border := hborder
    seen_eq := by rw [hseen, h.seen_eq] }

/-- The line in front of the buffer fits, and is given to `process_line`. -/
theorem command (h : Watched reading c ses) (hfd : 0 ≤ c.fd)
    (hsplit : c.lineBuf = line ++ 10 :: rest)
    (hno : 10 ∉ line)
    (hbuf : c'.lineBuf = rest ∧ reading' ∨ c'.lineBuf = [] ∧ c'.fd = -1) :
    Watched reading' c'
      { ses with
        eaten := ses.eaten ++ line ++ [10]
        seen := ses.seen ++ [.command (lineString line)] } := by
  have hreceived : ses.received = ses.eaten ++ line ++ [10] ++ rest := by
    rw [h.received_eq hfd, hsplit]
    simp
  have hle := h.buf_le
  rw [hsplit, List.length_append, List.length_cons] at hle
  have hlt : line.length < maxLine - 1 := by omega
  obtain ⟨hborder, hseen⟩ := treatment_append_line h.border hno hlt
  have hclient : c'.lineBuf.length ≤ maxLine - 1 ∧ (¬ reading' → 10 ∉ c'.lineBuf) ∧
      (0 ≤ c'.fd → c'.lineBuf = rest) := by
    rcases hbuf with ⟨hbuf, hreading⟩ | ⟨hbuf, hgone⟩
    · exact ⟨by rw [hbuf]; omega, fun hno => absurd hreading hno, fun _ => hbuf⟩
    · rw [hbuf, hgone]
      exact ⟨Nat.zero_le _, fun _ => List.not_mem_nil, fun hc => absurd hc (by decide)⟩
  obtain ⟨hbufle, hidle, hrest⟩ := hclient
  exact {
    buf_le := hbufle
    idle := hidle
    received_eq := fun hc => by rw [hrest hc]; exact hreceived
    eaten_le := hreceived ▸ List.prefix_append _ _
    border := hborder
    seen_eq := by rw [hseen, h.seen_eq] }

end Watched

/-! ## Steps -/

/-- `process_line` leaves the buffer. -/
theorem effect_lineBuf {text : CStr} {o : Outcome} (he : Effect s idx text s' o) :
    (s'.clients idx).lineBuf = (s.clients idx).lineBuf := by
  cases he with
  | reply => rfl
  | join => simp
  | buy => simp
  | sell => simp

theorem disconnectClient_self (h : 0 ≤ (s.clients idx).fd) :
    ((disconnectClient s idx).clients idx).lineBuf = [] ∧
      ((disconnectClient s idx).clients idx).fd = -1 := by
  unfold disconnectClient
  rw [if_neg (not_lt.mpr h)]
  simp

theorem disconnectClient_other (h : i ≠ idx) :
    (disconnectClient s idx).clients i = s.clients i := by
  unfold disconnectClient
  split_ifs
  · rfl
  · simp [h]

theorem consume_self (s : Server m) (idx : Fin maxClients) (n : ℕ) :
    ((consume s idx n).clients idx).lineBuf = (s.clients idx).lineBuf.drop n := by
  simp [consume]

theorem consume_other (h : i ≠ idx) (n : ℕ) : (consume s idx n).clients i = s.clients i := by
  simp [consume, h]

/-- After a line is given to `process_line`, it leaves the buffer, or the client is gone. -/
theorem handleLine_command (hfd : 0 ≤ (s.clients idx).fd)
    (hline : line = (s.clients idx).lineBuf.takeWhile fun b => b != 10)
    (hne : line.length ≠ (s.clients idx).lineBuf.length) (hlt : ¬ maxLine - 1 ≤ line.length)
    (h : handleLine s idx = some s') :
    (∃ s₁ o, processLine s idx (lineString line) = some (s₁, o)) ∧
    (∀ i, i ≠ idx → s'.clients i = s.clients i) ∧
    ((s'.clients idx).lineBuf = (s.clients idx).lineBuf.drop (line.length + 1) ∧
        s'.reading = s.reading ∨
      (s'.clients idx).lineBuf = [] ∧ (s'.clients idx).fd = -1) := by
  unfold handleLine at h
  dsimp only at h
  rw [← hline, if_neg hne, if_neg hlt] at h
  split at h
  · cases h
  · rename_i s₁ hprocess
    obtain rfl := Option.some.inj h
    obtain ⟨-, hfd₁, hothers⟩ := effect_frame (processLine_effect hprocess)
    refine ⟨⟨_, _, hprocess⟩, fun i hi => ?_, Or.inr (disconnectClient_self (hfd₁ ▸ hfd))⟩
    exact (disconnectClient_other hi).trans (hothers i hi)
  · rename_i s₁ hprocess
    obtain rfl := Option.some.inj h
    obtain ⟨hreading, -, hothers⟩ := effect_frame (processLine_effect hprocess)
    refine ⟨⟨_, _, hprocess⟩, fun i hi => ?_, Or.inl ⟨?_, hreading⟩⟩
    · exact (consume_other hi _).trans (hothers i hi)
    · rw [consume_self, effect_lineBuf (processLine_effect hprocess)]
  · rename_i s₁ hprocess
    obtain ⟨s₂, hbroadcast, rfl⟩ := Option.map_eq_some_iff.mp h
    obtain ⟨broadcasts, rfl⟩ := sendPriceBroadcast_eq hbroadcast
    obtain ⟨hreading, -, hothers⟩ := effect_frame (processLine_effect hprocess)
    refine ⟨⟨_, _, hprocess⟩, fun i hi => ?_, Or.inl ⟨?_, hreading⟩⟩
    · exact (consume_other hi _).trans (hothers i hi)
    · have hbuf := effect_lineBuf (processLine_effect hprocess)
      rw [consume_self { s₁ with broadcasts }]
      exact congrArg (List.drop _) hbuf

/-- All sessions are as they should. -/
def AllWatched (s : Server m) (sessions : Fin maxClients → Session) : Prop :=
  ∀ i, Watched (s.reading = some i) (s.clients i) (sessions i)

/-- One session changes, or none. -/
theorem AllWatched.update {sessions sessions' : Fin maxClients → Session}
    (h : AllWatched s sessions) (hothers : ∀ i, i ≠ idx → s'.clients i = s.clients i)
    (hsessions : ∀ i, i ≠ idx → sessions' i = sessions i)
    (hreading : ∀ i, i ≠ idx → s.reading ≠ some i)
    (hidx : Watched (s'.reading = some idx) (s'.clients idx) (sessions' idx)) :
    AllWatched s' sessions' := by
  intro i
  by_cases hi : i = idx
  · rw [hi]
    exact hidx
  · rw [hothers i hi, hsessions i hi]
    exact (h i).keep rfl id fun _ => (h i).idle (hreading i hi)

section Watching

variable {sessions : Fin maxClients → Session}

/-- **The loop** gives lines to `process_line` that fit. -/
theorem watched_line (hr : s.reading = some idx) (hfd : 0 ≤ (s.clients idx).fd)
    (h : AllWatched s sessions) (hs : handleLine s idx = some s') :
    AllWatched s' (watch s .line s' sessions) := by
  have hreading : ∀ i, i ≠ idx → s.reading ≠ some i := fun i hi heq =>
    hi (Option.some.inj (heq.symm.trans hr))
  obtain ⟨line, hline⟩ : ∃ line, line = (s.clients idx).lineBuf.takeWhile fun b => b != 10 :=
    ⟨_, rfl⟩
  obtain ⟨hno, hcases⟩ := takeWhile_cases 10 (s.clients idx).lineBuf
  rw [← hline] at hno hcases
  have hnot : 10 ∉ line := fun hmem => absurd (hno 10 hmem) (by decide)
  unfold watch
  dsimp only
  rw [hr]
  dsimp only
  rw [← hline]
  rcases hcases with ⟨hlen, heq⟩ | ⟨hne, hsplit⟩
  · rw [if_pos hlen]
    unfold handleLine at hs
    dsimp only at hs
    rw [← hline, if_pos hlen] at hs
    obtain rfl := Option.some.inj hs
    exact fun i => (h i).keep rfl id fun _ => by
      by_cases hi : i = idx
      · rw [hi, ← heq]
        exact hnot
      · exact (h i).idle (hreading i hi)
  · have hle := (h idx).buf_le
    rw [hsplit, List.length_append, List.length_cons] at hle
    have hlt : ¬ maxLine - 1 ≤ line.length := by omega
    rw [if_neg hne, if_neg hlt]
    obtain ⟨-, hothers, hbuf⟩ := handleLine_command hfd hline hne hlt hs
    refine h.update hothers (fun i hi => Function.update_of_ne hi _ _) hreading ?_
    rw [Function.update_self]
    refine (h idx).command hfd hsplit hnot ?_
    rcases hbuf with ⟨hbuf, hsame⟩ | hgone
    · exact Or.inl ⟨hbuf, hsame.trans hr⟩
    · exact Or.inr hgone

/-- `client_read` up to its loop. -/
theorem watched_input {input : Input} (hr : s.reading = none) (hfd : 0 ≤ (s.clients idx).fd)
    (h : AllWatched s sessions) (hs : readInput s idx input = some s') :
    AllWatched s' (watch s (.input idx input) s' sessions) := by
  have hreading : ∀ i, i ≠ idx → s.reading ≠ some i := fun i _ => by
    rw [hr]
    exact (Option.some_ne_none _).symm
  have hidle : ¬ s.reading = some idx := by
    rw [hr]
    exact (Option.some_ne_none _).symm
  have hle := (h idx).buf_le
  unfold watch
  unfold readInput at hs
  dsimp only at hs ⊢
  split_ifs at hs ⊢ with hspace
  · obtain rfl := Option.some.inj hs
    refine h.update (fun i hi => by simp [hi]) (fun i hi => Function.update_of_ne hi _ _)
      hreading ?_
    rw [Function.update_self]
    exact (h idx).clear hidle hfd (by omega) (by simp)
  · cases input with
    | error =>
      obtain rfl := Option.some.inj hs
      obtain ⟨hbuf, hgone⟩ := disconnectClient_self hfd
      exact h.update (fun i hi => disconnectClient_other hi) (fun _ _ => rfl) hreading
        ((h idx).gone hbuf hgone)
    | hangup =>
      obtain rfl := Option.some.inj hs
      obtain ⟨hbuf, hgone⟩ := disconnectClient_self hfd
      exact h.update (fun i hi => disconnectClient_other hi) (fun _ _ => rfl) hreading
        ((h idx).gone hbuf hgone)
    | data bytes =>
      dsimp only at hs ⊢
      split_ifs at hs with hroom
      obtain rfl := Option.some.inj hs
      refine h.update (fun i hi => by simp [hi]) (fun i hi => Function.update_of_ne hi _ _)
        hreading ?_
      rw [Function.update_self]
      refine (h idx).get bytes hfd (by simp) ?_ rfl
      rw [List.length_append]
      omega

theorem shutdown_lineBuf : ∀ (l : List (Fin maxClients)) (s : Server m) (i : Fin maxClients),
    ((l.foldl shutdownClient s).clients i).lineBuf = (s.clients i).lineBuf
  | [], _, _ => rfl
  | idx :: l, s, i => by
    rw [List.foldl_cons, shutdown_lineBuf l _ i]
    unfold shutdownClient
    split_ifs
    · by_cases hi : i = idx
      · rw [hi]
        simp
      · simp [hi]
    · rfl

/-- **Every step** keeps the sessions as they should. -/
theorem watched_step (hi : Inv t s) (h : AllWatched s sessions) (hs : serverStep s act = some s') :
    AllWatched s' (watch s act s' sessions) := by
  unfold serverStep at hs
  split at hs
  · split at hs
    case h_1 idx hr => exact watched_line hr (hi.connected idx hr) h hs
    case h_2 => cases hs
    case h_3 => cases hs
    case h_4 hr =>
      obtain ⟨broadcasts, rfl⟩ := sendPriceBroadcast_eq hs
      exact h
    case h_5 fd hr =>
      obtain rfl := Option.some.inj hs
      unfold watch acceptClient
      dsimp only
      cases hslot : allocClient s with
      | none => exact h
      | some idx =>
        dsimp only
        refine h.update (fun i hi => by simp [hi]) (fun i hi => Function.update_of_ne hi _ _)
          (fun i _ => ?_) ?_
        · rw [hr]
          exact (Option.some_ne_none _).symm
        · rw [Function.update_self]
          exact .new (by simp [Client.empty])
    case h_6 idx input hr =>
      split_ifs at hs with hfd
      exact watched_input hr hfd h hs
    case h_7 hr =>
      obtain rfl := Option.some.inj hs
      have hcarries := shutdown_carries (List.finRange maxClients) s
      refine fun i => (h i).keep (shutdown_lineBuf _ s i) (fun hfd => ?_) fun _ => ?_
      · exact ((hcarries.clients i).connected hfd).1
      · exact (h i).idle (by rw [hr]; exact (Option.some_ne_none _).symm)
  · cases hs

end Watching

theorem watched_reachable {x : Server m × (Fin maxClients → Session)}
    (h : (watched t).Reachable x) : Inv t x.1 ∧ AllWatched x.1 x.2 := by
  refine h.induct (I := fun x => Inv t x.1 ∧ AllWatched x.1 x.2)
    ⟨inv_init, fun _ => .new rfl⟩ fun x act x' ⟨hi, hw⟩ hx => ?_
  obtain ⟨s', hs, rfl⟩ := Machine.withGhost_step.mp hx
  exact ⟨inv_step hi hs, watched_step hi hw hs⟩

/-- **The lines that do not fit.** In every state of every run, the bytes of a client that have left
the buffer are the lines that were received; and they were treated as they should exactly if each
of them fits. -/
theorem overlong_iff (t : Table m) (as : List Act) (s : Server m)
    (h : (serverTrd t).runs (initial t) as = some s) :
    ∃ sessions, (watched t).runs (watched t).init as = some (s, sessions) ∧
      ∀ i, (sessions i).eaten <+: (sessions i).received ∧
        (0 ≤ (s.clients i).fd → s.reading ≠ some i →
          (linesOf 10 (sessions i).received).1 = (linesOf 10 (sessions i).eaten).1) ∧
        (RejectsWhole (sessions i).eaten (sessions i).seen ↔
          ∀ line ∈ (linesOf 10 (sessions i).eaten).1, LineFits line) := by
  obtain ⟨sessions, hrun⟩ := Machine.runs_withGhost (fun _ : Fin maxClients => Session.new) h
  refine ⟨sessions, hrun, fun i => ?_⟩
  obtain ⟨-, hw⟩ := watched_reachable (Machine.runs_reachable hrun)
  refine ⟨(hw i).eaten_le, fun hfd hr => ?_, ?_⟩
  · rw [(hw i).received_eq hfd, linesOf_append_part _ ((hw i).idle hr)]
  · rw [(hw i).seen_eq]
    exact rejectsWhole_treatment_iff _

/-- Four lines that fit. -/
theorem overlong_smallBuys : ∃ s sessions,
    (watched oneStock).runs (watched oneStock).init smallBuys = some (s, sessions) ∧
      RejectsWhole (sessions firstSlot).eaten (sessions firstSlot).seen := by
  have h : ((watched oneStock).runs (watched oneStock).init smallBuys).map (fun x =>
      (linesOf 10 (x.2 firstSlot).eaten).1.all fun line => decide (LineFits line)) = some true := by
    decide +kernel
  have hsome : ((serverTrd oneStock).runs (initial oneStock) smallBuys).isSome = true := by
    decide +kernel
  obtain ⟨s, hrun⟩ := Option.isSome_iff_exists.mp hsome
  obtain ⟨sessions, hruns, hall⟩ := overlong_iff oneStock smallBuys s hrun
  obtain ⟨-, -, hiff⟩ := hall firstSlot
  rw [hruns] at h
  have hfits := Option.some.inj h
  exact ⟨s, sessions, hruns, hiff.mpr fun line hline =>
    of_decide_eq_true (List.all_eq_true.mp hfits line hline)⟩

/-- One line, which starts with 511 letters. The first time that its end is there, the buffer is
full, and `recv` is not called. -/
def longRun : List Act :=
  let lineEnd := cstr "JOIN TRADER ann\n"
  [.accept 4, .input firstSlot (.data (List.replicate 511 65)), .line,
    .input firstSlot (.data lineEnd), .input firstSlot (.data lineEnd), .line, .line]

/-- The client sends one line, and joins by its end. -/
theorem not_rejectsWhole : ¬ ∀ (m : ℕ) (t : Table m) (as : List Act) (s : Server m)
    (sessions : Fin maxClients → Session),
      (watched t).runs (watched t).init as = some (s, sessions) →
        ∀ i, RejectsWhole (sessions i).eaten (sessions i).seen := by
  intro hall
  have h : ((watched oneStock).runs (watched oneStock).init longRun).map (fun x =>
      decide ((x.2 firstSlot).received = List.replicate 511 65 ++ cstr "JOIN TRADER ann\n" ∧
        (x.1.clients firstSlot).username = cstr "ann" ∧
        (x.2 firstSlot).seen = [.tooLong, .command (cstr "JOIN TRADER ann")] ∧
        ((linesOf 10 (x.2 firstSlot).eaten).1.all fun line => decide (LineFits line)) = false)) =
      some true := by
    decide +kernel
  obtain ⟨⟨s, sessions⟩, hrun, hx⟩ := Option.map_eq_some_iff.mp h
  obtain ⟨-, -, -, hlong⟩ := of_decide_eq_true hx
  have hwhole := hall 1 oneStock longRun s sessions hrun firstSlot
  obtain ⟨-, hw⟩ := watched_reachable (Machine.runs_reachable hrun)
  rw [(hw firstSlot).seen_eq] at hwhole
  have hfits := (rejectsWhole_treatment_iff _).mp hwhole
  refine absurd hlong (by rw [List.all_eq_true.mpr fun line hline =>
    decide_eq_true (hfits line hline)]; decide)

end Cse344.Final
