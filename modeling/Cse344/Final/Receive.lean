import Cse344.Final.Server
import Cse344.Lib.Receiver

/-!
# The clients of the final

Model of what `Final/trader.c` and `Final/analyst.c` (both 84-128) do with a socket: `recv` what
fits in the rest of `srv_buf`, and print the lines that are there. The two differ in the name they
print.

* `clientReader` is their loop as a `LineReader`: `memchr` looks for the newline among all bytes,
  `lineString` takes the `\r` off, and `strcmp` looks for the one line at which they stop.
* A full `srv_buf` without a newline makes `recv` be asked for no bytes; it returns 0, and the
  client takes that for the end of the connection.

Results:
* **`delivered_iff`**: a client receives a line and prints it whole, whatever lines came before it
  and however the stream is cut, exactly if it has at most 510 bytes and no `\r` at its end.

Out of scope: what a client reads from its user and sends (and the `recv` after its `QUIT`),
`SIGINT` and failing calls.
-/

namespace Cse344.Final

open Cse344.Lib

variable {tag body line : CStr} {before : List CStr}

/-- `client_log`, after the name of the client. -/
def clientLog (tag text : CStr) : CStr := tag ++ text ++ newline

/-- What is logged of a line. -/
def receivedLog (tag line : CStr) : CStr := clientLog tag (cstr "RECEIVED " ++ line)

def shutdownLog (tag : CStr) : CStr := clientLog tag (cstr "DISCONNECTED reason=shutdown")

def traderTag (username : CStr) : CStr := cstr "[TRADER " ++ username ++ cstr "] "

def analystTag (username : CStr) : CStr := cstr "[ANALYST " ++ username ++ cstr "] "

/-- The line at which a client closes the connection. -/
def shutdownLine : CStr := cstr "SERVER SHUTDOWN"

theorem maxLine_pos : 0 < maxLine - 1 := by decide

/-- The loop of a client. -/
def clientReader (tag : CStr) : LineReader where
  cap := maxLine - 1
  cap_pos := maxLine_pos
  find := beforeNewline -- `memchr`
  clean := fun _ => True
  find_eq := fun _ _ => rfl
  line := fun part =>
    if lineString part = shutdownLine then ([shutdownLog tag], true)
    else ([receivedLog tag (lineString part)], false)
  closed := [shutdownLog tag]

/-- A line that a client prints as it is. -/
structure Prints (line : CStr) : Prop where
  bytes : ∀ b ∈ line, b ≠ 0 ∧ b ≠ 10
  length_le : line.length ≤ maxLine - 2
  noShutdown : line ≠ shutdownLine
  noReturn : line.getLast? ≠ some 13

/-- After the lines `before`, the client receives `body` and prints it whole: it ends up waiting for
more, and has printed all the lines. -/
def Delivered (tag : CStr) (before : List CStr) (body : CStr) : Prop :=
  (clientReader tag).Delivered (before ++ [body]) ((before ++ [body]).map (receivedLog tag))

/-! ## Lines that print as they are -/

theorem clientReader_line (tag : CStr) (h : lineString body ≠ shutdownLine) :
    (clientReader tag).line body = ([receivedLog tag (lineString body)], false) := if_neg h

theorem Prints.lineString_eq (h : Prints line) : lineString line = line :=
  lineString_eq_self (fun b hb => (h.bytes b hb).1) h.noReturn

theorem Prints.line_eq (h : Prints line) (tag : CStr) :
    (clientReader tag).line line = ([receivedLog tag line], false) := by
  have hself := h.lineString_eq
  rw [clientReader_line tag (by rw [hself]; exact h.noShutdown), hself]

/-- The client logs it. -/
theorem Prints.logs (h : Prints line) (tag : CStr) :
    (clientReader tag).Logs (receivedLog tag) line := by
  refine ⟨⟨fun b hb => by simpa using (h.bytes b hb).2, fun _ _ => trivial, ?_, ?_⟩, ?_⟩
  · have := h.length_le
    show _ < maxLine - 1
    unfold maxLine at *
    omega
  · rw [h.line_eq]
  · rw [h.line_eq]

/-- **After lines that print, a line is received and printed whole exactly if it fits and has no
`\r` at its end.** -/
theorem delivered_iff (tag : CStr) (hbefore : ∀ line ∈ before, Prints line)
    (hbytes : ∀ b ∈ body, b ≠ 0 ∧ b ≠ 10) (hgo : lineString body ≠ shutdownLine) :
    Delivered tag before body ↔ body.length ≤ maxLine - 2 ∧ body.getLast? ≠ some 13 := by
  have hlen : body.length < (clientReader tag).cap ↔ body.length ≤ maxLine - 2 := by
    show body.length < maxLine - 1 ↔ _
    unfold maxLine
    omega
  have hline := clientReader_line tag hgo
  unfold Delivered
  rw [LineReader.delivered_logs_iff before trivial (fun line hline => (hbefore line hline).logs tag)
    (fun b hb => by simpa using (hbytes b hb).2) (fun _ _ => trivial) (by rw [hline]), hline, hlen,
    ← lineString_eq_self_iff fun b hb => (hbytes b hb).1]
  refine and_congr_right fun _ => ⟨fun heq => ?_, fun hself => ?_⟩
  · unfold receivedLog clientLog at heq
    exact List.append_cancel_left (List.append_cancel_left (List.append_cancel_right
      (List.head_eq_of_cons_eq heq)))
  · rw [hself]

end Cse344.Final
