import Cse344.HW6.Commands

/-!
# What a step does to the server of HW6

A step of `run_server` (`HW6/hogwarts.c` 619-666) gives one line to `handle_command`, or none
(`commandOf`): a round of the loop of `handle_client_input` (502-535) takes the first line out of
the client's buffer.

* `Rests R`: the relation `R` holds across what does neither give a line to `handle_command` nor a
  slot to a new client: lines are sent, slots are freed, buffers are filled.
* `Server.taken` is the server without that line in the buffer.

Results:
* **`serverStep_rests`**: so `R` holds across every step without a command that accepts nobody; the
  lemmas of `Rests` say it of each function a step calls.
* **`serverStep_command`**: a step with a command is the command on `Server.taken`, and then the
  removal of the client if the command asks for it.

Out of scope: what the command does, which is `Cse344.HW6.Commands`.
-/

namespace Cse344.HW6

open Cse344.Lib

variable {int : ℤ → ℤ} {n m : ℕ} {s s' : Server n m} {idx : Fin n} {line : CStr} {timeoutSec : ℤ}
  {act : Act n} {R : Server n m → Server n m → Prop}

/-- The line that a step gives to `handle_command`, and the client who sent it. -/
def commandOf (s : Server n m) : Act n → Option (Fin n × CStr)
  | .line =>
    match s.reading with
    | none => none
    | some idx =>
      let c := s.clients idx
      let line := c.lineBuf.takeWhile fun b => b != 10
      if line.length = c.lineBuf.length then none else some (idx, lineString line)
  | _ => none

/-- The first line of `idx` is taken out of its buffer. -/
def Server.taken (s : Server n m) (idx : Fin n) : Server n m :=
  let c := s.clients idx
  let line := c.lineBuf.takeWhile fun b => b != 10
  s.setClient idx { c with lineBuf := c.lineBuf.drop (line.length + 1) }

@[simp] theorem taken_ingredients (s : Server n m) (idx : Fin n) :
    (s.taken idx).ingredients = s.ingredients := rfl

@[simp] theorem taken_sent (s : Server n m) (idx : Fin n) : (s.taken idx).sent = s.sent := rfl

theorem taken_self (s : Server n m) (idx : Fin n) : (s.taken idx).clients idx =
    { s.clients idx with lineBuf := ((s.taken idx).clients idx).lineBuf } := by
  unfold Server.taken
  rw [setClient_clients, Function.update_self]

theorem taken_other {i : Fin n} (h : i ≠ idx) : (s.taken idx).clients i = s.clients i :=
  Function.update_of_ne h _ _

/-! ## Steps without a command -/

/-- `R` holds across the writes of a step without a command. -/
structure Rests (R : Server n m → Server n m → Prop) : Prop where
  refl : ∀ s, R s s
  trans : ∀ {s s₁ s₂}, R s s₁ → R s₁ s₂ → R s s₂
  send : ∀ s fd line, R s (sendLine s fd line)
  reset : ∀ s idx, R s (s.setClient idx .reset)
  fill : ∀ s idx buf now,
    R s (s.setClient idx { s.clients idx with lineBuf := buf, lastActive := now })
  place : ∀ (s : Server n m) reading running, R s { s with reading, running }

namespace Rests

theorem removeClient (h : Rests R) (s : Server n m) (idx : Fin n) : R s (removeClient s idx) := by
  unfold HW6.removeClient
  split_ifs
  · exact h.refl s
  · exact h.reset s idx

theorem turnAway (h : Rests R) (s : Server n m) (idx : Fin n) (line : CStr) :
    R s (HW6.removeClient (s.reply idx line) idx) :=
  h.trans (h.send s _ line) (h.removeClient _ idx)

theorem checkIdle (h : Rests R) (timeoutSec now : ℤ) (s : Server n m) (idx : Fin n) :
    R s (checkIdle timeoutSec now s idx) := by
  unfold HW6.checkIdle
  split_ifs
  · exact h.refl s
  · exact h.turnAway s idx _
  · exact h.refl s

theorem shutdownClient (h : Rests R) (s : Server n m) (idx : Fin n) :
    R s (shutdownClient s idx) := by
  unfold HW6.shutdownClient
  split_ifs
  · exact h.trans (h.send s _ _) (h.reset _ idx)
  · exact h.refl s

theorem foldl (h : Rests R) {f : Server n m → Fin n → Server n m} (hf : ∀ s idx, R s (f s idx)) :
    ∀ (l : List (Fin n)) (s : Server n m), R s (l.foldl f s)
  | [], s => h.refl s
  | idx :: l, s => h.trans (hf s idx) (foldl h hf l (f s idx))

theorem readInput (h : Rests R) {input : Input} {now : ℤ}
    (hs : readInput s idx input now = some s') : R s s' := by
  unfold HW6.readInput at hs
  dsimp only at hs
  split_ifs at hs
  · obtain rfl := Option.some.inj hs
    exact h.turnAway s idx _
  · cases input with
    | error =>
      obtain rfl := Option.some.inj hs
      exact h.removeClient s idx
    | hangup =>
      obtain rfl := Option.some.inj hs
      exact h.removeClient s idx
    | data bytes =>
      dsimp only at hs
      split_ifs at hs
      obtain rfl := Option.some.inj hs
      exact h.trans (h.fill s idx _ now) (h.place _ (some idx) s.running)

/-- A round of the loop that finds no line. -/
theorem handleLine (h : Rests R)
    (hno : ((s.clients idx).lineBuf.takeWhile fun b => b != 10).length =
      (s.clients idx).lineBuf.length) : R s (handleLine int s idx) := by
  unfold HW6.handleLine
  dsimp only
  rw [if_pos hno]
  split_ifs
  · exact h.trans (h.turnAway s idx _) (h.place _ none _)
  · exact h.place s none s.running

end Rests

/-- **A step without a command** keeps what `R` says, or gives a free slot to a new client. -/
theorem serverStep_rests (h : Rests R) (hs : serverStep int timeoutSec s act = some s')
    (hno : commandOf s act = none) :
    R s s' ∨ ∃ (slot : Fin n) (cfd : ℕ) (now : ℤ), findFreeSlot s = some slot ∧
      s' = s.setClient slot { Client.reset with fd := cfd, lastActive := now } := by
  unfold serverStep at hs
  split_ifs at hs
  split at hs
  · rename_i idx hr
    obtain rfl := Option.some.inj hs
    unfold commandOf at hno
    rw [hr] at hno
    dsimp only at hno
    split_ifs at hno with hnone
    exact .inl (h.handleLine hnone)
  · cases hs
  · cases hs
  · obtain rfl := Option.some.inj hs
    exact .inl (h.foldl (h.checkIdle timeoutSec _) _ s)
  · rename_i cfd now _
    obtain rfl := Option.some.inj hs
    unfold acceptNewConnection
    split
    · exact .inl (h.send s cfd _)
    · rename_i slot hslot
      exact .inr ⟨slot, cfd, now, hslot, rfl⟩
  · split_ifs at hs
    exact .inl (h.readInput hs)
  · obtain rfl := Option.some.inj hs
    exact .inl (h.trans (h.foldl h.shutdownClient _ s) (h.place _ _ false))

/-! ## Steps with a command -/

theorem commandOf_eq_some (h : commandOf s act = some (idx, line)) :
    act = .line ∧ s.reading = some idx ∧
      ((s.clients idx).lineBuf.takeWhile fun b => b != 10).length ≠
        (s.clients idx).lineBuf.length ∧
      line = lineString ((s.clients idx).lineBuf.takeWhile fun b => b != 10) := by
  unfold commandOf at h
  split at h
  · split at h
    · cases h
    · rename_i idx hr
      dsimp only at h
      split_ifs at h with hnone
      obtain ⟨rfl, rfl⟩ := Prod.mk.inj (Option.some.inj h)
      exact ⟨rfl, hr, hnone, rfl⟩
  · cases h

/-- **A step with a command.** -/
theorem serverStep_command (hs : serverStep int timeoutSec s act = some s')
    (h : commandOf s act = some (idx, line)) :
    s' = if (handleCommand int (s.taken idx) idx line).2 then
        { removeClient (handleCommand int (s.taken idx) idx line).1 idx with reading := none }
      else (handleCommand int (s.taken idx) idx line).1 := by
  obtain ⟨rfl, hr, hsome, rfl⟩ := commandOf_eq_some h
  unfold serverStep at hs
  split_ifs at hs
  rw [hr] at hs
  obtain rfl := Option.some.inj hs
  unfold handleLine
  dsimp only
  rw [if_neg hsome]
  rfl

end Cse344.HW6
