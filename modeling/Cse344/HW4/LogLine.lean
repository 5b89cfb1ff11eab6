import Cse344.HW4.Region
import Cse344.Lib.TextFile

/-!
# Parsing a log line of HW4

Model of `parse_log_line` and its handlers (`HW4/src/parser/log_entry.c` 4-128).

* The four handlers take the text at `*p` and give it back where they leave `*p`.
* `handle_timestamp`, `handle_level` and `handle_source` take one field in brackets each
  (`handleField`), with their own bounds.
* A message is what is left of the line, cut off at 511 bytes.

Results:
* **`parseLogLine_prefix`**: where a line is accepted, every line it is a prefix of is, with the
  same fields and a message that goes on.

Out of scope: which lines are accepted; `Cse344.HW4.LogFormat` says that.
-/

namespace Cse344.HW4

open Cse344.Lib

/-- `t_log_entry` with its timestamp. -/
structure ParsedLine extends LogEntry where
  timestamp : CStr
  deriving DecidableEq, Repr

/-- `TMP_BUF_SIZE`. -/
def tmpBufSize : ℕ := 128

/-- `MAX_MESSAGE_LEN`. -/
def maxMessageLen : ℕ := 512

def parseLevelStr (str : CStr) : Option Level :=
  if str = cstr "ERROR" then some .error
  else if str = cstr "WARN" then some .warn
  else if str = cstr "INFO" then some .info
  else if str = cstr "DEBUG" then some .debug
  else none

/-- `' '`. -/
def isSpace (c : UInt8) : Bool := c == 32

/-- `']'`. -/
def isClosing (c : UInt8) : Bool := c == 93

def skipSpaces (p : CStr) : CStr := p.dropWhile isSpace

/-- A field in brackets and what follows it and the spaces after it. -/
def bracketField (p : CStr) : Option (CStr × CStr) :=
  match p with
  | 91 :: p =>
    match p.dropWhile fun c => !isClosing c with
    | [] => none
    | _ :: rest => some (p.takeWhile fun c => !isClosing c, skipSpaces rest)
  | _ => none

/-- A field in brackets that `accept` takes. -/
def handleField {α : Type} (accept : CStr → Option α) (p : CStr) : Option (α × CStr) :=
  match bracketField p with
  | none => none
  | some (field, p) => (accept field).map fun x => (x, p)

def handleTimestamp : CStr → Option (CStr × CStr) :=
  handleField fun field => if field.length = 19 then some field else none

def handleLevel : CStr → Option (Level × CStr) :=
  handleField fun field =>
    if field.length = 0 ∨ tmpBufSize ≤ field.length then none else parseLevelStr field

def handleSource : CStr → Option (Source × CStr) :=
  handleField fun field =>
    if h : field.length = 0 ∨ maxSourceLen ≤ field.length then none
    else some ⟨field, not_le.mp (not_or.mp h).2⟩

def handleMessage (p : CStr) : Option CStr :=
  if p = [] then none else some (p.take (maxMessageLen - 1))

def parseLogLine (line : CStr) : Option ParsedLine := do
  let (timestamp, p) ← handleTimestamp line
  let (level, p) ← handleLevel p
  let (source, p) ← handleSource p
  let message ← handleMessage p
  some
    { timestamp := timestamp, level := level, source := source, message := message, isEof := false }

/-! ## Prefixes -/

theorem dropWhile_prefix {p : UInt8 → Bool} {s t : CStr} (h : s <+: t) :
    s.dropWhile p <+: t.dropWhile p := by
  obtain ⟨u, rfl⟩ := h
  rw [List.dropWhile_append]
  split_ifs with hnil
  · rw [List.isEmpty_iff.mp hnil]
    exact List.nil_prefix
  · exact List.prefix_append _ _

theorem bracketField_prefix {s t field rest : CStr} (hst : s <+: t)
    (h : bracketField s = some (field, rest)) :
    ∃ rest', bracketField t = some (field, rest') ∧ rest <+: rest' := by
  obtain ⟨u, rfl⟩ := hst
  unfold bracketField at h
  split at h
  · rename_i p
    split at h
    · cases h
    · rename_i c rest₀ hdrop
      obtain ⟨rfl, rfl⟩ := Prod.mk.inj (Option.some.inj h)
      have happ : (p ++ u).dropWhile (fun c => !isClosing c) = c :: (rest₀ ++ u) := by
        rw [List.dropWhile_append, hdrop]
        rfl
      have htake : (p ++ u).takeWhile (fun c => !isClosing c) =
          p.takeWhile fun c => !isClosing c := by
        have hlen := congrArg List.length
          (List.takeWhile_append_dropWhile (l := p) (p := fun c => !isClosing c))
        rw [List.length_append, hdrop, List.length_cons] at hlen
        rw [List.takeWhile_append, if_neg (by omega)]
      refine ⟨skipSpaces (rest₀ ++ u), ?_, dropWhile_prefix (List.prefix_append _ _)⟩
      simp only [bracketField, List.cons_append, happ, htake]
  · cases h

theorem handleField_prefix {α : Type} {accept : CStr → Option α} {s t rest : CStr} {x : α}
    (hst : s <+: t) (h : handleField accept s = some (x, rest)) :
    ∃ rest', handleField accept t = some (x, rest') ∧ rest <+: rest' := by
  unfold handleField at h ⊢
  split at h
  · cases h
  · rename_i field p hs
    obtain ⟨x', hx, heq⟩ := Option.map_eq_some_iff.mp h
    obtain ⟨rfl, rfl⟩ := Prod.mk.inj heq
    obtain ⟨p', ht, hp⟩ := bracketField_prefix hst hs
    refine ⟨p', ?_, hp⟩
    rw [ht]
    dsimp only
    rw [hx]
    rfl

theorem handleMessage_prefix {s t message : CStr} (hst : s <+: t)
    (h : handleMessage s = some message) :
    ∃ message', handleMessage t = some message' ∧ message <+: message' := by
  unfold handleMessage at h ⊢
  split_ifs at h with hnil
  obtain rfl := Option.some.inj h
  have ht : t ≠ [] := by
    rintro rfl
    exact hnil (List.prefix_nil.mp hst)
  exact ⟨_, if_neg ht, hst.take _⟩

/-- `e` with a message that goes on. -/
structure ParsedLine.Extends (e e' : ParsedLine) : Prop where
  timestamp : e.timestamp = e'.timestamp
  level : e.level = e'.level
  source : e.source = e'.source
  message : e.message <+: e'.message
  isEof : e.isEof = e'.isEof

theorem ParsedLine.Extends.eq {e e' : ParsedLine} (h : e.Extends e')
    (hlen : e.message.length = e'.message.length) : e = e' := by
  obtain ⟨⟨level, source, message, isEof⟩, timestamp⟩ := e
  obtain ⟨⟨level', source', message', isEof'⟩, timestamp'⟩ := e'
  obtain ⟨rfl, rfl, rfl, hm, rfl⟩ := h
  obtain rfl : message = message' := hm.eq_of_length hlen
  rfl

/-- The handlers one after the other. -/
theorem parseLogLine_eq_some {s : CStr} {e : ParsedLine} :
    parseLogLine s = some e ↔
      ∃ p₁ p₂ p₃, handleTimestamp s = some (e.timestamp, p₁) ∧ handleLevel p₁ = some (e.level, p₂) ∧
        handleSource p₂ = some (e.source, p₃) ∧ handleMessage p₃ = some e.message ∧
          e.isEof = false := by
  simp only [parseLogLine, Option.bind_eq_bind, Option.bind_eq_some_iff, Prod.exists]
  constructor
  · rintro ⟨ts, p₁, h₁, lv, p₂, h₂, src, p₃, h₃, msg, h₄, he⟩
    obtain rfl := Option.some.inj he
    exact ⟨p₁, p₂, p₃, h₁, h₂, h₃, h₄, rfl⟩
  · rintro ⟨p₁, p₂, p₃, h₁, h₂, h₃, h₄, he⟩
    obtain ⟨⟨level, source, message, isEof⟩, timestamp⟩ := e
    obtain rfl : isEof = false := he
    exact ⟨_, p₁, h₁, _, p₂, h₂, _, p₃, h₃, _, h₄, rfl⟩

/-- **A line is accepted where a prefix of it is**, with the same fields. -/
theorem parseLogLine_prefix {s t : CStr} {e : ParsedLine} (hst : s <+: t)
    (h : parseLogLine s = some e) : ∃ e', parseLogLine t = some e' ∧ e.Extends e' := by
  obtain ⟨p₁, p₂, p₃, h₁, h₂, h₃, h₄, he⟩ := parseLogLine_eq_some.mp h
  obtain ⟨q₁, ht₁, hp₁⟩ := handleField_prefix hst h₁
  obtain ⟨q₂, ht₂, hp₂⟩ := handleField_prefix hp₁ h₂
  obtain ⟨q₃, ht₃, hp₃⟩ := handleField_prefix hp₂ h₃
  obtain ⟨message, ht₄, hm⟩ := handleMessage_prefix hp₃ h₄
  exact ⟨{ e with message := message },
    parseLogLine_eq_some.mpr ⟨q₁, q₂, q₃, ht₁, ht₂, ht₃, ht₄, he⟩, ⟨rfl, rfl, rfl, hm, rfl⟩⟩

/-- What is parsed is what the pipeline takes: data, with a source. -/
theorem parsed_parseLogLine {s : CStr} {e : ParsedLine} (h : parseLogLine s = some e) :
    e.toLogEntry.Parsed := by
  obtain ⟨p₁, p₂, p₃, -, -, h₃, -, he⟩ := parseLogLine_eq_some.mp h
  refine ⟨he, fun hsrc => ?_⟩
  unfold handleSource handleField at h₃
  split at h₃
  · cases h₃
  · obtain ⟨src, haccept, heq⟩ := Option.map_eq_some_iff.mp h₃
    dsimp only at haccept
    split_ifs at haccept with hlen
    obtain ⟨rfl, -⟩ := Prod.mk.inj heq
    rw [hsrc] at haccept
    exact hlen (Or.inl (congrArg (fun s : Source => s.bytes.length) (Option.some.inj haccept)))

end Cse344.HW4
