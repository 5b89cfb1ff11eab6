import Cse344.HW6.Usernames
import Cse344.Lib.Receiver
import Mathlib.Data.List.Infix

/-!
# The clients of HW6

Model of what `HW6/wizard.c` and `HW6/professor.c` (both 54-94) do with a socket: `read` what fits
in the rest of `net_buf`, and print the lines that are there. The two differ in the name they print.

* `clientReader` is their loop as a `LineReader`: `strchr` looks for the newline before the first
  NUL, `lineString` takes the `\r` off, and `strstr` looks for the two words at which they stop.
* A full `net_buf` without a newline makes `read` be asked for no bytes; it returns 0, and the
  client takes that for the end of the connection.
* `Hears` is about both clients, any username, and any lines that were received before.

Results:
* `stops_of_isPrefix`, `NoStop`: the words `TIMEOUT DISCONNECT` and `SERVER SHUTDOWN` are no part of
  a reply: a blank of a reply has the name of a command before it, or the name of an ingredient.
* **`hears_iff`**: a client receives a reply and prints it whole, whatever lines came before it and
  however the stream is cut, exactly if the reply has at most 510 bytes and no `\r` at its end.

Out of scope: what a client reads from its user and sends, the signals, and what it does after the
loop.
-/

namespace Cse344.HW6

open Cse344.Lib

variable {n m : ℕ} {s s' : Server n m} {idx : Fin n} {tag body line w rest : CStr}

/-! ## Clients -/

/-- `strstr`: `needle` occurs in `haystack`. -/
def strstr (haystack needle : CStr) : Bool := decide (needle <:+: haystack)

def wizardTag (username : CStr) : CStr := cstr "[WIZARD " ++ username ++ cstr "] "

def professorTag (username : CStr) : CStr := cstr "[PROFESSOR " ++ username ++ cstr "] "

/-- What is printed of a line. -/
def receivedLog (tag line : CStr) : CStr := tag ++ cstr "RECEIVED " ++ line ++ newline

def disconnectedLog (tag : CStr) : CStr :=
  tag ++ cstr "DISCONNECTED reason=shutdown/timeout" ++ newline

/-- The server says that it closes the connection. -/
def stops (line : CStr) : Bool :=
  strstr line (cstr "TIMEOUT DISCONNECT") || strstr line (cstr "SERVER SHUTDOWN")

/-- A byte that a C string may have. -/
def NonZero (b : UInt8) : Prop := b ≠ 0

theorem maxLineLen_pos : 0 < maxLineLen - 1 := by decide

/-- The loop of a client. -/
def clientReader (tag : CStr) : LineReader where
  cap := maxLineLen - 1
  cap_pos := maxLineLen_pos
  find := fun buf => beforeNewline (ofBuffer buf) -- `strchr`
  clean := NonZero
  find_eq := fun _ h => congrArg beforeNewline (ofBuffer_eq_self h)
  line := fun part =>
    let line := lineString part
    if stops line then ([receivedLog tag line, disconnectedLog tag], true)
    else ([receivedLog tag line], false)
  closed := []

/-- A line that a client prints as it is. -/
structure Prints (line : CStr) : Prop where
  bytes : ∀ b ∈ line, b ≠ 0 ∧ b ≠ 10
  length_le : line.length ≤ maxLineLen - 2
  noStop : stops line = false
  noReturn : line.getLast? ≠ some 13

/-- What one of the two clients prints before its lines. -/
def ClientTag (tag : CStr) : Prop :=
  ∃ username, tag = wizardTag username ∨ tag = professorTag username

/-- The reply of `s'` is a line that the clients receive and print whole, whatever lines came before
it. -/
def Hears (s s' : Server n m) (idx : Fin n) : Prop :=
  ∀ body, s'.sent = s.sent ++ [((s.clients idx).fd, body)] →
    (∀ b ∈ body, (b == 10) = false) ∧ ∀ tag, ClientTag tag →
      ∀ before, (∀ line ∈ before, Prints line) →
        (clientReader tag).Delivered (before ++ [body]) ((before ++ [body]).map (receivedLog tag))

/-! ## Lines that print as they are -/

theorem stops_of_isPrefix {l : CStr} (h : l <+: line) (hno : stops line = false) :
    stops l = false := by
  unfold stops strstr at hno ⊢
  rw [Bool.or_eq_false_iff, decide_eq_false_iff_not, decide_eq_false_iff_not] at hno ⊢
  exact ⟨fun hin => hno.1 (hin.trans h.isInfix), fun hin => hno.2 (hin.trans h.isInfix)⟩

theorem clientReader_line (tag : CStr) (hno : stops body = false) :
    (clientReader tag).line body = ([receivedLog tag (lineString body)], false) :=
  if_neg (by rw [stops_of_isPrefix (lineString_isPrefix body) hno]; exact Bool.false_ne_true)

theorem Prints.fits (h : Prints line) (tag : CStr) : (clientReader tag).Fits line where
  noLine := fun b hb => by simpa using (h.bytes b hb).2
  clean := fun b hb => (h.bytes b hb).1
  length_lt := by
    have := h.length_le
    show _ < maxLineLen - 1
    unfold maxLineLen at *
    omega
  goes_on := by rw [clientReader_line tag h.noStop]

/-- The client logs it. -/
theorem Prints.logs (h : Prints line) (tag : CStr) :
    (clientReader tag).Logs (receivedLog tag) line := by
  refine ⟨h.fits tag, ?_⟩
  rw [clientReader_line tag h.noStop,
    lineString_eq_self (fun b hb => (h.bytes b hb).1) h.noReturn]

theorem delivered_client_iff (tag : CStr) (before : List CStr)
    (hbefore : ∀ line ∈ before, Prints line)
    (hbytes : ∀ b ∈ body, b ≠ 0 ∧ b ≠ 10) (hno : stops body = false) :
    (clientReader tag).Delivered (before ++ [body]) ((before ++ [body]).map (receivedLog tag)) ↔
      body.length ≤ maxLineLen - 2 ∧ body.getLast? ≠ some 13 := by
  have hzero : ∀ b ∈ body, b ≠ 0 := fun b hb => (hbytes b hb).1
  have h10 : (10 : UInt8) ≠ 0 := by decide
  have hlen : body.length < (clientReader tag).cap ↔ body.length ≤ maxLineLen - 2 := by
    show body.length < maxLineLen - 1 ↔ _
    unfold maxLineLen
    omega
  rw [LineReader.delivered_logs_iff before h10 (fun line hline => (hbefore line hline).logs tag)
    (fun b hb => by simpa using (hbytes b hb).2) hzero (by rw [clientReader_line tag hno]),
    clientReader_line tag hno, hlen, ← lineString_eq_self_iff hzero]
  refine and_congr_right fun _ => ⟨fun heq => ?_, fun hself => ?_⟩
  · unfold receivedLog at heq
    exact List.append_cancel_left (List.append_cancel_right (List.head_eq_of_cons_eq heq))
  · rw [hself]

/-- A reply decides what is heard of it. -/
theorem hears_iff (hsent : s'.sent = s.sent ++ [((s.clients idx).fd, body)])
    (hbytes : ∀ b ∈ body, b ≠ 0 ∧ b ≠ 10) (hno : stops body = false) :
    Hears s s' idx ↔ body.length ≤ maxLineLen - 2 ∧ body.getLast? ≠ some 13 := by
  constructor
  · intro h
    have hdelivered := (h body hsent).2 (wizardTag []) ⟨[], .inl rfl⟩ [] fun line hline => by
      cases hline
    exact (delivered_client_iff _ [] (fun line hline => by cases hline) hbytes hno).mp hdelivered
  · intro hfits body' hsent'
    obtain rfl := answer_unique hsent hsent'
    exact ⟨fun b hb => by simpa using (hbytes b hb).2,
      fun tag _ before hbefore => (delivered_client_iff tag before hbefore hbytes hno).mpr hfits⟩

/-! ## No reply stops a client -/

/-- The words at which a client stops do not occur. -/
structure NoStop (text : CStr) : Prop where
  timeout : ¬ cstr "TIMEOUT" ++ 32 :: cstr "DISCONNECT" <:+: text
  shutdown : ¬ cstr "SERVER" ++ 32 :: cstr "SHUTDOWN" <:+: text

instance (text : CStr) : Decidable (NoStop text) :=
  decidable_of_iff (¬ cstr "TIMEOUT" ++ 32 :: cstr "DISCONNECT" <:+: text ∧
    ¬ cstr "SERVER" ++ 32 :: cstr "SHUTDOWN" <:+: text)
    ⟨fun h => ⟨h.1, h.2⟩, fun h => ⟨h.timeout, h.shutdown⟩⟩

theorem NoStop.stops_eq (h : NoStop body) : stops body = false := by
  unfold stops strstr
  rw [Bool.or_eq_false_iff, decide_eq_false_iff_not, decide_eq_false_iff_not]
  exact ⟨h.timeout, h.shutdown⟩

theorem NoStop.of_prefix {l : CStr} (h : NoStop body) (hl : l <+: body) : NoStop l :=
  ⟨fun hin => h.timeout (hin.trans hl.isInfix), fun hin => h.shutdown (hin.trans hl.isInfix)⟩

/-- Two words with a blank between them, in a text that starts with a word. -/
theorem infix_word {a b : CStr} (hw : (32 : UInt8) ∉ w) (ha : (32 : UInt8) ∉ a)
    (h : a ++ 32 :: b <:+: w ++ 32 :: rest) :
    a <:+ w ∧ b <+: rest ∨ a ++ 32 :: b <:+: rest := by
  obtain ⟨before, after, h⟩ := h
  rw [← List.append_assoc, List.append_assoc, List.cons_append] at h
  rcases List.append_eq_append_iff.mp h with ⟨c, hc, hrest⟩ | ⟨c, hc, hrest⟩
  · cases c with
    | nil =>
      rw [List.append_nil] at hc
      exact .inl ⟨⟨before, hc.symm⟩, ⟨after, (List.cons.inj hrest).2⟩⟩
    | cons x c =>
      obtain ⟨rfl, -⟩ := List.cons.inj hrest
      exact absurd (by simp [hc]) hw
  · cases c with
    | nil =>
      rw [List.append_nil] at hc
      exact .inl ⟨⟨before, hc⟩, ⟨after, (List.cons.inj hrest).2.symm⟩⟩
    | cons x c =>
      obtain ⟨rfl, hlast⟩ := List.cons.inj hrest
      have htail : rest = c ++ 32 :: (b ++ after) := hlast
      -- the first word is behind the blank
      rw [List.append_cons] at hc
      rcases List.append_eq_append_iff.mp hc with ⟨d, hd, hcd⟩ | ⟨d, hd, hcd⟩
      · rcases d.eq_nil_or_concat with rfl | ⟨d, y, rfl⟩
        · rw [List.nil_append] at hcd
          exact .inr ⟨[], after, by rw [hcd, htail]; simp⟩
        · rw [List.concat_eq_append, ← List.append_assoc] at hd
          obtain ⟨-, hy⟩ := List.append_inj' hd rfl
          exact absurd (by simp [hcd, ← List.head_eq_of_cons_eq hy]) ha
      · exact .inr ⟨d, after, by rw [htail, hcd]; simp⟩

theorem infix_of_no_blank {a b : CStr} (hw : (32 : UInt8) ∉ w) : ¬ a ++ 32 :: b <:+: w :=
  fun h => hw (h.subset (by simp))

/-- A text that is one word. -/
theorem NoStop.word (hw : (32 : UInt8) ∉ w) : NoStop w :=
  ⟨infix_of_no_blank hw, infix_of_no_blank hw⟩

/-- A word and a blank before a text. -/
theorem NoStop.cons (hw : (32 : UInt8) ∉ w)
    (htimeout : ¬ (cstr "TIMEOUT" <:+ w ∧ cstr "DISCONNECT" <+: rest))
    (hshutdown : ¬ (cstr "SERVER" <:+ w ∧ cstr "SHUTDOWN" <+: rest)) (hrest : NoStop rest) :
    NoStop (w ++ 32 :: rest) where
  timeout := fun h => (infix_word hw (by decide) h).elim htimeout hrest.timeout
  shutdown := fun h => (infix_word hw (by decide) h).elim hshutdown hrest.shutdown

/-- A word of the server's own. -/
theorem NoStop.verb (hw : (32 : UInt8) ∉ w) (htimeout : ¬ cstr "TIMEOUT" <:+ w)
    (hshutdown : ¬ cstr "SERVER" <:+ w) (hrest : NoStop rest) : NoStop (w ++ 32 :: rest) :=
  .cons hw (fun h => htimeout h.1) (fun h => hshutdown h.1) hrest

/-- A number after any word. -/
theorem NoStop.number {v : ℤ} (hw : (32 : UInt8) ∉ w) (hrest : NoStop (decimal v ++ rest)) :
    NoStop (w ++ 32 :: (decimal v ++ rest)) := by
  have hhead : ∀ (c : UInt8) (l : CStr), ¬ (c = 45 ∨ 48 ≤ c.toNat ∧ c.toNat ≤ 57) →
      ¬ c :: l <+: decimal v ++ rest := by
    rintro c l hc ⟨after, hafter⟩
    obtain ⟨b, digits, hdigits⟩ := List.exists_cons_of_ne_nil (decimal_ne_nil v)
    rw [hdigits] at hafter
    refine hc (mem_decimal (v := v) ?_)
    rw [hdigits, List.head_eq_of_cons_eq hafter]
    exact List.mem_cons_self
  refine .cons hw (fun h => ?_) (fun h => ?_) hrest
  · exact hhead 68 _ (by decide) h.2
  · exact hhead 83 _ (by decide) h.2

end Cse344.HW6
