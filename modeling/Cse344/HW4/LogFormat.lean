import Cse344.HW4.LogLine

/-!
# The format of a log line of HW4

Which lines `parse_log_line` (`HW4/src/parser/log_entry.c` 114-128) accepts. `Fields` are what a log
line says, and `Fields.line` is the line, with any number of blanks behind each bracket.

* `bracketField` is what one bracket takes; `handle_timestamp`, `handle_level` and `handle_source`
  are three of them, with their own bounds.
* `Fields.Valid` are the bounds: a time stamp of 19 bytes and a source of 1 to 63, neither with a
  `]`, and a message that is not empty and starts with no blank. Nothing more is asked of the bytes
  of a time stamp or of a source.

Results:
* `bracketField_iff`: what one bracket is; `handleTimestamp_iff`, `handleLevel_iff`,
  `handleSource_iff`, `handleMessage_iff`: what each handler accepts.
* **`log_line_format`**: `parse_log_line` accepts exactly the lines of fields that are `Valid`, and
  the entry has these fields; the message is cut off at 511 bytes.

Out of scope: how lines are cut out of the file, which is `Cse344.HW4.Reading`.
-/

namespace Cse344.HW4

open Cse344.Lib

/-- What `[ts] [level] [source] msg` says. -/
structure Fields where
  ts : CStr
  level : Level
  source : Source
  msg : CStr

/-- Fields that can stand in a line. -/
structure Fields.Valid (x : Fields) : Prop where
  ts_length : x.ts.length = 19
  ts_open : 93 ∉ x.ts
  source_ne : x.source.bytes ≠ []
  source_open : 93 ∉ x.source.bytes
  msg_ne : x.msg ≠ []
  msg_start : x.msg.head? ≠ some 32

def levelText : Level → CStr
  | .error => cstr "ERROR"
  | .warn => cstr "WARN"
  | .info => cstr "INFO"
  | .debug => cstr "DEBUG"

def blanks (k : ℕ) : CStr := List.replicate k 32

/-- A field in brackets, blanks, and what follows. -/
def bracketed (field : CStr) (k : ℕ) (rest : CStr) : CStr :=
  91 :: (field ++ 93 :: (blanks k ++ rest))

/-- The line, with `i`, `j` and `k` blanks. -/
def Fields.line (x : Fields) (i j k : ℕ) : CStr :=
  bracketed x.ts i (bracketed (levelText x.level) j (bracketed x.source.bytes k x.msg))

/-- What `parse_log_line` stores. -/
def Fields.entry (x : Fields) : ParsedLine where
  timestamp := x.ts
  level := x.level
  source := x.source
  message := x.msg.take (maxMessageLen - 1)
  isEof := false

/-! ## Brackets -/

theorem skipSpaces_blanks {rest : CStr} (h : rest.head? ≠ some 32) (k : ℕ) :
    skipSpaces (blanks k ++ rest) = rest := by
  unfold skipSpaces blanks
  rw [List.dropWhile_append_of_pos fun b hb => by rw [List.eq_of_mem_replicate hb]; rfl]
  cases rest with
  | nil => rfl
  | cons b rest =>
    have hb : ¬ isSpace b = true := fun hb => h (congrArg some (by simpa [isSpace] using hb))
    exact List.dropWhile_cons_of_neg hb

/-- What is left has no blank in front, and nothing but blanks is gone. -/
theorem skipSpaces_spec (p : CStr) :
    (skipSpaces p).head? ≠ some 32 ∧ ∃ k, p = blanks k ++ skipSpaces p := by
  have hblanks : p.takeWhile isSpace = blanks (p.takeWhile isSpace).length :=
    List.eq_replicate_iff.mpr ⟨rfl, fun b hb => by
      simpa [isSpace] using List.mem_takeWhile_imp hb⟩
  refine ⟨fun h => ?_, _, (congrArg (· ++ skipSpaces p) hblanks).symm.trans ?_ |>.symm⟩
  · have hhead := List.head?_dropWhile_not isSpace p
    unfold skipSpaces at h
    rw [h] at hhead
    exact absurd hhead (by decide)
  · exact List.takeWhile_append_dropWhile

/-- **What one bracket takes.** -/
theorem bracketField_iff {p field rest : CStr} : bracketField p = some (field, rest) ↔
    93 ∉ field ∧ rest.head? ≠ some 32 ∧ ∃ k, p = bracketed field k rest := by
  constructor
  · intro h
    unfold bracketField at h
    split at h
    · rename_i p
      split at h
      · cases h
      · rename_i c rest₀ hdrop
        obtain ⟨rfl, rfl⟩ := Prod.mk.inj (Option.some.inj h)
        obtain ⟨hstart, k, hk⟩ := skipSpaces_spec rest₀
        have hc : c = 93 := by
          have hhead := List.head?_dropWhile_not (fun c => !isClosing c) p
          rw [hdrop] at hhead
          simpa [isClosing] using hhead
        refine ⟨fun hmem => ?_, hstart, k, ?_⟩
        · exact absurd (List.mem_takeWhile_imp hmem) (by decide)
        · rw [bracketed, ← hk, ← hc, ← hdrop, List.takeWhile_append_dropWhile]
    · cases h
  · rintro ⟨hfield, hstart, k, rfl⟩
    have hopen : ∀ b ∈ field, (!isClosing b) = true := fun b hb => by
      have hne : b ≠ 93 := fun heq => hfield (heq ▸ hb)
      simpa [isClosing] using hne
    have hclose : ¬ (!isClosing 93) = true := by decide
    have hdrop : (field ++ 93 :: (blanks k ++ rest)).dropWhile (fun c => !isClosing c) =
        93 :: (blanks k ++ rest) := by
      rw [List.dropWhile_append_of_pos hopen,
        List.dropWhile_cons_of_neg (p := fun c => !isClosing c) hclose]
    have htake : (field ++ 93 :: (blanks k ++ rest)).takeWhile (fun c => !isClosing c) = field := by
      rw [List.takeWhile_append_of_pos hopen,
        List.takeWhile_cons_of_neg (p := fun c => !isClosing c) hclose, List.append_nil]
    simp only [bracketed, bracketField, hdrop, htake, skipSpaces_blanks hstart]

theorem handleField_iff {α : Type} {accept : CStr → Option α} {p rest : CStr} {a : α} :
    handleField accept p = some (a, rest) ↔ ∃ field, accept field = some a ∧ 93 ∉ field ∧
      rest.head? ≠ some 32 ∧ ∃ k, p = bracketed field k rest := by
  unfold handleField
  constructor
  · intro h
    split at h
    · cases h
    · rename_i field p' hp
      obtain ⟨a', ha, heq⟩ := Option.map_eq_some_iff.mp h
      obtain ⟨rfl, rfl⟩ := Prod.mk.inj heq
      exact ⟨field, ha, bracketField_iff.mp hp⟩
  · rintro ⟨field, ha, hp⟩
    rw [bracketField_iff.mpr hp]
    dsimp only
    rw [ha]
    rfl

/-! ## The fields -/

theorem handleTimestamp_iff {p ts rest : CStr} : handleTimestamp p = some (ts, rest) ↔
    ts.length = 19 ∧ 93 ∉ ts ∧ rest.head? ≠ some 32 ∧ ∃ k, p = bracketed ts k rest := by
  refine handleField_iff.trans ⟨?_, fun ⟨hlen, h⟩ => ⟨ts, if_pos hlen, h⟩⟩
  rintro ⟨field, haccept, h⟩
  split_ifs at haccept with hlen
  obtain rfl := Option.some.inj haccept
  exact ⟨hlen, h⟩

theorem parseLevelStr_iff {str : CStr} {level : Level} :
    parseLevelStr str = some level ↔ str = levelText level := by
  constructor
  · intro h
    unfold parseLevelStr at h
    split_ifs at h with herror hwarn hinfo hdebug
    · exact Option.some.inj h ▸ herror
    · exact Option.some.inj h ▸ hwarn
    · exact Option.some.inj h ▸ hinfo
    · exact Option.some.inj h ▸ hdebug
  · rintro rfl
    cases level <;> decide

theorem handleLevel_iff {p rest : CStr} {level : Level} : handleLevel p = some (level, rest) ↔
    rest.head? ≠ some 32 ∧ ∃ k, p = bracketed (levelText level) k rest := by
  refine handleField_iff.trans ⟨?_, fun h => ⟨levelText level, ?_, ?_, h⟩⟩
  · rintro ⟨field, haccept, -, h⟩
    split_ifs at haccept
    rwa [parseLevelStr_iff.mp haccept] at h
  · cases level <;> decide
  · cases level <;> decide

theorem handleSource_iff {p rest : CStr} {source : Source} :
    handleSource p = some (source, rest) ↔ source.bytes ≠ [] ∧ 93 ∉ source.bytes ∧
      rest.head? ≠ some 32 ∧ ∃ k, p = bracketed source.bytes k rest := by
  refine handleField_iff.trans ⟨?_, fun ⟨hne, h⟩ => ⟨source.bytes, ?_, h⟩⟩
  · rintro ⟨field, haccept, h⟩
    split_ifs at haccept with hlen
    obtain rfl := Option.some.inj haccept
    exact ⟨fun hnil => hlen (.inl (congrArg List.length hnil)), h⟩
  · have hlen : ¬ (source.bytes.length = 0 ∨ maxSourceLen ≤ source.bytes.length) :=
      not_or.mpr ⟨fun h0 => hne (List.length_eq_zero_iff.mp h0), not_le.mpr source.length_lt⟩
    exact dif_neg hlen

theorem handleMessage_iff {p message : CStr} : handleMessage p = some message ↔
    p ≠ [] ∧ message = p.take (maxMessageLen - 1) := by
  unfold handleMessage
  split_ifs with hnil
  · exact ⟨(fun h => by cases h), fun h => absurd hnil h.1⟩
  · exact ⟨fun h => ⟨hnil, (Option.some.inj h).symm⟩, fun h => congrArg some h.2.symm⟩

/-- What `parse_log_line` accepts, and what it makes of it. -/
theorem parseLogLine_iff {line : CStr} {e : ParsedLine} : parseLogLine line = some e ↔
    ∃ x : Fields, x.Valid ∧ (∃ i j k, line = x.line i j k) ∧ e = x.entry := by
  rw [parseLogLine_eq_some]
  constructor
  · rintro ⟨p₁, p₂, p₃, h₁, h₂, h₃, h₄, heof⟩
    obtain ⟨hlen, hts, -, i, rfl⟩ := handleTimestamp_iff.mp h₁
    obtain ⟨-, j, rfl⟩ := handleLevel_iff.mp h₂
    obtain ⟨hne, hsource, hstart, k, rfl⟩ := handleSource_iff.mp h₃
    obtain ⟨hmsg, hmessage⟩ := handleMessage_iff.mp h₄
    refine ⟨⟨e.timestamp, e.level, e.source, p₃⟩, ⟨hlen, hts, hne, hsource, hmsg, hstart⟩,
      ⟨i, j, k, rfl⟩, ?_⟩
    obtain ⟨⟨level, source, message, isEof⟩, timestamp⟩ := e
    obtain rfl : isEof = false := heof
    obtain rfl : message = _ := hmessage
    rfl
  · rintro ⟨x, hx, ⟨i, j, k, rfl⟩, rfl⟩
    have hbracket : ∀ field k rest, (bracketed field k rest).head? ≠ some 32 := fun _ _ _ h =>
      absurd (Option.some.inj h) (by decide)
    exact ⟨_, _, _, handleTimestamp_iff.mpr ⟨hx.ts_length, hx.ts_open, hbracket _ _ _, i, rfl⟩,
      handleLevel_iff.mpr ⟨hbracket _ _ _, j, rfl⟩,
      handleSource_iff.mpr ⟨hx.source_ne, hx.source_open, hx.msg_start, k, rfl⟩,
      handleMessage_iff.mpr ⟨hx.msg_ne, rfl⟩, rfl⟩

/-- **The format of a log line.** A line is accepted exactly if it is one of valid fields, and the
entry holds them; so fields that are written into a line are read back. -/
theorem log_line_format :
    (∀ line, (parseLogLine line).isSome = true ↔
      ∃ x : Fields, x.Valid ∧ ∃ i j k, line = x.line i j k) ∧
    ∀ x : Fields, x.Valid → ∀ i j k, parseLogLine (x.line i j k) =
      some
        { timestamp := x.ts
          level := x.level
          source := x.source
          message := x.msg.take 511
          isEof := false } := by
  refine ⟨fun line => ⟨fun h => ?_, ?_⟩, fun x hx i j k => ?_⟩
  · obtain ⟨e, he⟩ := Option.isSome_iff_exists.mp h
    obtain ⟨x, hx, hline, -⟩ := parseLogLine_iff.mp he
    exact ⟨x, hx, hline⟩
  · rintro ⟨x, hx, hline⟩
    exact Option.isSome_iff_exists.mpr ⟨x.entry, parseLogLine_iff.mpr ⟨x, hx, hline, rfl⟩⟩
  · exact parseLogLine_iff.mpr ⟨x, hx, ⟨i, j, k, rfl⟩, rfl⟩

/-- A line with no blank behind its first bracket, and two behind the second. -/
theorem log_line_format_disk :
    parseLogLine (cstr "[2026-01-02 03:04:05][WARN]  [disk] slow") =
      some
        { timestamp := cstr "2026-01-02 03:04:05"
          level := .warn
          source := ⟨cstr "disk", by decide⟩
          message := cstr "slow"
          isEof := false } :=
  log_line_format.2
    ⟨cstr "2026-01-02 03:04:05", .warn, ⟨cstr "disk", by decide⟩, cstr "slow"⟩
    ⟨by decide, by decide, by decide, by decide, by decide, by decide⟩ 0 2 1

end Cse344.HW4
