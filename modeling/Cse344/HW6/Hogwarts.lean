import Cse344.HW6.Ingredients
import Cse344.Lib.Machine
import Mathlib.Data.Fintype.Basic

/-!
# The server of HW6

Model of `HW6/hogwarts.c`: the ingredient table, the client slots (164-200), the commands (244-477),
and `run_server` as a machine. Its actions are one call of `check_idle_timeouts`,
`accept_new_connection` or the `read` of `handle_client_input` (479-500), and one round of the
`for (;;)` that follows that `read` (502-535): while the server is in that loop (`reading`), it does
nothing else. What arrives on a socket, and when, is the environment's; `now` is what `time(NULL)`
returns.

* `g_ingredient_count` does not change after `load_ingredients`, so the table is a family over
  `Fin m`; `g_clients` is one over `Fin n`.
* A `line_buf` is its first `line_len` bytes, a spellbook its first `spell_count` entries. `sent` is
  the history of the lines written with `send_line`, and to which descriptor.
* What an `int` keeps of a sum is the parameter `int` of the commands: `hogwarts wrap32` is the
  server as it is compiled, where an overflow goes round, and `hogwarts unbounded` the one in exact
  arithmetic. Up to the first overflow the two do the same.
* `strtok` goes on with the rest it left, which the commands are given as `args`.

Results:
* `handleCommand_dispatch`: the cases of `handle_command`, one for each command.

Out of scope: the log, the peers' addresses, failing writes and the ending of `read` with `EINTR`.
-/

namespace Cse344.HW6

open Cse344.Lib

/-- `MAX_LINE_LEN`. -/
def maxLineLen : ℕ := 512

/-- `MAX_USERNAME_LEN`. -/
def maxUsernameLen : ℕ := 32

/-- `MAX_TYPE_LEN`. -/
def maxTypeLen : ℕ := 16

/-- `client_t`. -/
structure Client where
  fd : ℤ
  username : CStr
  type : CStr
  enrolled : Bool
  lineBuf : List UInt8
  lastActive : ℤ
  spellbook : List SpellEntry
  deriving DecidableEq, Repr

/-- A slot after `reset_client_slot`. -/
def Client.reset : Client where
  fd := -1
  username := []
  type := []
  enrolled := false
  lineBuf := []
  lastActive := 0
  spellbook := []

/-- The state of a server of `n` client slots and `m` ingredients. -/
structure Server (n m : ℕ) where
  ingredients : Fin m → Ingredient
  clients : Fin n → Client
  reading : Option (Fin n)
  running : Bool
  sent : List (ℤ × CStr)

variable {n m : ℕ}

def Server.setClient (s : Server n m) (idx : Fin n) (c : Client) : Server n m :=
  { s with clients := Function.update s.clients idx c }

def sendLine (s : Server n m) (fd : ℤ) (line : CStr) : Server n m :=
  { s with sent := s.sent ++ [(fd, line)] }

/-- `send_line(c->fd, line)` for client `idx`. -/
def Server.reply (s : Server n m) (idx : Fin n) (line : CStr) : Server n m :=
  sendLine s (s.clients idx).fd line

@[simp] theorem setClient_ingredients (s : Server n m) (idx : Fin n) (c : Client) :
    (s.setClient idx c).ingredients = s.ingredients := rfl

@[simp] theorem setClient_clients (s : Server n m) (idx : Fin n) (c : Client) :
    (s.setClient idx c).clients = Function.update s.clients idx c := rfl

@[simp] theorem reply_ingredients (s : Server n m) (idx : Fin n) (line : CStr) :
    (s.reply idx line).ingredients = s.ingredients := rfl

@[simp] theorem reply_clients (s : Server n m) (idx : Fin n) (line : CStr) :
    (s.reply idx line).clients = s.clients := rfl

/-! ## Slots and names -/

def findIngredient (s : Server n m) (name : CStr) : Option (Fin m) :=
  (List.finRange m).find? fun k => (s.ingredients k).name = name

def findFreeSlot (s : Server n m) : Option (Fin n) :=
  (List.finRange n).find? fun i => (s.clients i).fd < 0

def usernameTaken (s : Server n m) (uname : CStr) (exceptIdx : Fin n) : Bool :=
  (List.finRange n).any fun i =>
    i != exceptIdx && decide (0 ≤ (s.clients i).fd) && (s.clients i).enrolled &&
      decide ((s.clients i).username = uname)

def removeClient (s : Server n m) (idx : Fin n) : Server n m :=
  if (s.clients idx).fd < 0 then s else s.setClient idx .reset

/-! ## Commands -/

/-- The separators of `strtok` in a command. -/
def blanks : List UInt8 := [32, 9]

def parsePositiveInt (s : CStr) : Option ℤ :=
  if s = [] then none
  else
    let r := strtol s
    if r.2 ≠ [] then none
    else if r.1 ≤ 0 ∨ 1000000 < r.1 then none
    else some r.1

def cmdBrew (int : ℤ → ℤ) (s : Server n m) (idx : Fin n) (args : CStr) : Server n m :=
  let (ing, args) := strtok blanks args
  let (qs, _) := strtok blanks args
  match ing, qs.bind parsePositiveInt with
  | some ing, some qty =>
    match findIngredient s ing with
    | none => s.reply idx (cstr "ERR UNKNOWN_INGREDIENT")
    | some k =>
      let stock := int ((s.ingredients k).qty + qty)
      let c := s.clients idx
      let s :=
        { s with ingredients := Function.update s.ingredients k ⟨(s.ingredients k).name, stock⟩ }
      let s := s.setClient idx { c with spellbook := (spellAdd int c.spellbook ing qty).1 }
      s.reply idx (snprintf 128
        (cstr "OK BREW " ++ ing ++ sp ++ decimal qty ++ sp ++ decimal stock))
  | _, _ => s.reply idx (cstr "ERR BREW bad_format")

/-- `spell_qty`: the quantity of the entry `spell_find` finds, `0` when there is none. -/
def spellQty (book : List SpellEntry) (name : CStr) : ℤ :=
  match spellFind book name with
  | some i => (book.get i).qty
  | none => 0

def cmdConsume (int : ℤ → ℤ) (s : Server n m) (idx : Fin n) (args : CStr) : Server n m :=
  let (ing, args) := strtok blanks args
  let (qs, _) := strtok blanks args
  match ing, qs.bind parsePositiveInt with
  | some ing, some qty =>
    match findIngredient s ing with
    | none => s.reply idx (cstr "ERR UNKNOWN_INGREDIENT")
    | some k =>
      let c := s.clients idx
      if spellQty c.spellbook ing < qty then
        s.reply idx (cstr "ERR INSUFFICIENT_INGREDIENTS")
      else
        let stock := int ((s.ingredients k).qty - qty)
        let s := { s with
          ingredients := Function.update s.ingredients k ⟨(s.ingredients k).name, stock⟩ }
        let s := s.setClient idx { c with spellbook := spellSub int c.spellbook ing qty }
        s.reply idx (snprintf 128
          (cstr "OK CONSUME " ++ ing ++ sp ++ decimal qty ++ sp ++ decimal stock))
  | _, _ => s.reply idx (cstr "ERR CONSUME bad_format")

/-- The loops that list into `buf`: the pieces that fit, and the start of the first that does not.
-/
def listInto (buf : CStr) : List CStr → CStr
  | [] => buf
  | piece :: pieces =>
    if maxLineLen ≤ buf.length + piece.length then (buf ++ piece).take (maxLineLen - 1)
    else listInto (buf ++ piece) pieces

/-- The items with a comma before each but the first. -/
def commaBefore : List CStr → List CStr
  | [] => []
  | item :: items => item :: items.map fun item => cstr "," ++ item

/-- `%s:%d`. -/
def nameAndQty (name : CStr) (qty : ℤ) : CStr := name ++ cstr ":" ++ decimal qty

def cmdSpellbook (s : Server n m) (idx : Fin n) : Server n m :=
  match (s.clients idx).spellbook with
  | [] => s.reply idx (cstr "OK SPELLBOOK EMPTY")
  | book => s.reply idx
      (listInto (cstr "OK SPELLBOOK ") (commaBefore (book.map fun e => nameAndQty e.name e.qty)))

def cmdInspect (s : Server n m) (idx : Fin n) (args : CStr) : Server n m :=
  match (strtok blanks args).1 with
  | none => s.reply idx (cstr "ERR INSPECT bad_format")
  | some ing =>
    match findIngredient s ing with
    | none => s.reply idx (cstr "ERR UNKNOWN_INGREDIENT")
    | some k => s.reply idx (snprintf 128
        (cstr "OK INSPECT " ++ ing ++ sp ++ decimal (s.ingredients k).qty))

def cmdScroll (s : Server n m) (idx : Fin n) : Server n m :=
  s.reply idx (listInto (cstr "OK SCROLL ") (commaBefore
    ((List.ofFn s.ingredients).map fun g => nameAndQty g.name g.qty)))

def cmdRoster (s : Server n m) (idx : Fin n) : Server n m :=
  s.reply idx (listInto (cstr "OK ROSTER ") (commaBefore
    (((List.ofFn s.clients).filter fun c => decide (0 ≤ c.fd) && c.enrolled).map Client.username)))

def cmdEnroll (s : Server n m) (idx : Fin n) (args : CStr) : Server n m :=
  let c := s.clients idx
  if c.enrolled then s.reply idx (cstr "ERR ENROLL already_enrolled")
  else
    let (role, args) := strtok blanks args
    let (uname, _) := strtok blanks args
    match role, uname with
    | some role, some uname =>
      if role ≠ cstr "WIZARD" ∧ role ≠ cstr "PROFESSOR" then
        s.reply idx (cstr "ERR ENROLL bad_role")
      else if uname.length = 0 ∨ maxUsernameLen ≤ uname.length then
        s.reply idx (cstr "ERR ENROLL bad_format")
      else if usernameTaken s uname idx then s.reply idx (cstr "ERR ENROLL name_taken")
      else
        let c := { c with
          type := role.take (maxTypeLen - 1)
          username := uname.take (maxUsernameLen - 1)
          enrolled := true }
        (s.setClient idx c).reply idx (snprintf 128 (cstr "OK ENROLL " ++ c.username))
    | _, _ => s.reply idx (cstr "ERR ENROLL bad_format")

/-- A command for a role of its own. -/
def authorized (s : Server n m) (idx : Fin n) (role : String) (run : Server n m) : Server n m :=
  if (s.clients idx).type = cstr role then run else s.reply idx (cstr "ERR UNAUTHORIZED")

/-- The server after a command, and `should_close`. -/
def handleCommand (int : ℤ → ℤ) (s : Server n m) (idx : Fin n) (line : CStr) : Server n m × Bool :=
  match strtok blanks line with
  | (none, _) => (s, false)
  | (some cmd, args) =>
    if cmd = cstr "APPARATE" then (s.reply idx (cstr "OK APPARATE"), true)
    else if cmd = cstr "ENROLL" then (cmdEnroll s idx args, false)
    else if (s.clients idx).enrolled = false then (s.reply idx (cstr "ERR NOT_ENROLLED"), false)
    else if cmd = cstr "BREW" then (authorized s idx "WIZARD" (cmdBrew int s idx args), false)
    else if cmd = cstr "CONSUME" then (authorized s idx "WIZARD" (cmdConsume int s idx args), false)
    else if cmd = cstr "SPELLBOOK" then (authorized s idx "WIZARD" (cmdSpellbook s idx), false)
    else if cmd = cstr "INSPECT" then (authorized s idx "PROFESSOR" (cmdInspect s idx args), false)
    else if cmd = cstr "SCROLL" then (authorized s idx "PROFESSOR" (cmdScroll s idx), false)
    else if cmd = cstr "ROSTER" then (authorized s idx "PROFESSOR" (cmdRoster s idx), false)
    else (s.reply idx (snprintf 128 (cstr "ERR UNKNOWN " ++ cmd)), false)

/-- What `handle_command` makes of a line, by its command. -/
inductive Dispatch (int : ℤ → ℤ) (s : Server n m) (idx : Fin n) (line : CStr) :
    Server n m × Bool → Prop
  | empty : Dispatch int s idx line (s, false)
  | apparate (args : CStr) (h : strtok blanks line = (some (cstr "APPARATE"), args)) :
    Dispatch int s idx line (s.reply idx (cstr "OK APPARATE"), true)
  | enroll (args : CStr) (h : strtok blanks line = (some (cstr "ENROLL"), args)) :
    Dispatch int s idx line (cmdEnroll s idx args, false)
  | notEnrolled : Dispatch int s idx line (s.reply idx (cstr "ERR NOT_ENROLLED"), false)
  | brew (args : CStr) (h : strtok blanks line = (some (cstr "BREW"), args))
    (henrolled : (s.clients idx).enrolled = true) :
    Dispatch int s idx line (authorized s idx "WIZARD" (cmdBrew int s idx args), false)
  | consume (args : CStr) (h : strtok blanks line = (some (cstr "CONSUME"), args))
    (henrolled : (s.clients idx).enrolled = true) :
    Dispatch int s idx line (authorized s idx "WIZARD" (cmdConsume int s idx args), false)
  | spellbook : Dispatch int s idx line (authorized s idx "WIZARD" (cmdSpellbook s idx), false)
  | inspect (args : CStr) :
    Dispatch int s idx line (authorized s idx "PROFESSOR" (cmdInspect s idx args), false)
  | scroll : Dispatch int s idx line (authorized s idx "PROFESSOR" (cmdScroll s idx), false)
  | roster : Dispatch int s idx line (authorized s idx "PROFESSOR" (cmdRoster s idx), false)
  | unknown (cmd : CStr) :
    Dispatch int s idx line (s.reply idx (snprintf 128 (cstr "ERR UNKNOWN " ++ cmd)), false)

/-- **The commands**, one case each. -/
theorem handleCommand_dispatch (int : ℤ → ℤ) (s : Server n m) (idx : Fin n) (line : CStr) :
    Dispatch int s idx line (handleCommand int s idx line) := by
  unfold handleCommand
  split
  · exact .empty
  · rename_i cmd args hcmd
    refine iteInduction (fun h => .apparate args (h ▸ hcmd)) fun _ => ?_
    refine iteInduction (fun h => .enroll args (h ▸ hcmd)) fun _ => ?_
    refine iteInduction (fun _ => .notEnrolled) fun hnew => ?_
    have henrolled := Bool.eq_true_of_not_eq_false hnew
    refine iteInduction (fun h => .brew args (h ▸ hcmd) henrolled) fun _ => ?_
    refine iteInduction (fun h => .consume args (h ▸ hcmd) henrolled) fun _ => ?_
    refine iteInduction (fun _ => .spellbook) fun _ => ?_
    refine iteInduction (fun _ => .inspect args) fun _ => ?_
    refine iteInduction (fun _ => .scroll) fun _ => ?_
    exact iteInduction (fun _ => .roster) fun _ => .unknown cmd

/-! ## Steps -/

/-- What `read` finds on a socket. -/
inductive Input
  | error
  | hangup
  | data (bytes : List UInt8)
  deriving DecidableEq, Repr

inductive Act (n : ℕ)
  | timeouts (now : ℤ)
  | accept (fd : ℕ) (now : ℤ)
  | input (idx : Fin n) (input : Input) (now : ℤ)
  | line
  | shutdown
  deriving DecidableEq, Repr

/-- Where `check_idle_timeouts` finds client `idx` idle for too long, it says so and removes it. -/
def checkIdle (timeoutSec now : ℤ) (s : Server n m) (idx : Fin n) : Server n m :=
  if (s.clients idx).fd < 0 then s
  else if timeoutSec ≤ max 0 (now - (s.clients idx).lastActive) then
    removeClient (s.reply idx (cstr "TIMEOUT DISCONNECT")) idx
  else s

def checkIdleTimeouts (timeoutSec now : ℤ) (s : Server n m) : Server n m :=
  (List.finRange n).foldl (checkIdle timeoutSec now) s

def acceptNewConnection (s : Server n m) (cfd : ℕ) (now : ℤ) : Server n m :=
  match findFreeSlot s with
  | none => sendLine s cfd (cstr "ERR HOGWARTS_FULL")
  | some slot => s.setClient slot { Client.reset with fd := cfd, lastActive := now }

/-- `handle_client_input` up to its loop; `none` where `read` returns no such thing. -/
def readInput (s : Server n m) (idx : Fin n) (input : Input) (now : ℤ) : Option (Server n m) :=
  let c := s.clients idx
  let space := maxLineLen - c.lineBuf.length
  if space = 0 then some (removeClient (s.reply idx (cstr "ERR TOOLONG")) idx)
  else
    match input with
    | .error => some (removeClient s idx)
    | .hangup => some (removeClient s idx)
    | .data bytes =>
      if 0 < bytes.length ∧ bytes.length ≤ space then
        some { s.setClient idx { c with lineBuf := c.lineBuf ++ bytes, lastActive := now } with
          reading := some idx }
      else none

/-- One round of the loop of `handle_client_input`. -/
def handleLine (int : ℤ → ℤ) (s : Server n m) (idx : Fin n) : Server n m :=
  let c := s.clients idx
  let line := c.lineBuf.takeWhile fun b => b != 10
  if line.length = c.lineBuf.length then
    if c.lineBuf.length = maxLineLen then
      { removeClient (s.reply idx (cstr "ERR TOOLONG")) idx with reading := none }
    else { s with reading := none }
  else
    let s := s.setClient idx { c with lineBuf := c.lineBuf.drop (line.length + 1) }
    let r := handleCommand int s idx (lineString line)
    if r.2 then { removeClient r.1 idx with reading := none } else r.1

/-- The end of `run_server` for client `idx`. -/
def shutdownClient (s : Server n m) (idx : Fin n) : Server n m :=
  if 0 ≤ (s.clients idx).fd then
    (s.reply idx (cstr "SERVER SHUTDOWN")).setClient idx .reset
  else s

def serverStep (int : ℤ → ℤ) (timeoutSec : ℤ) (s : Server n m) (act : Act n) :
    Option (Server n m) :=
  if s.running then
    match s.reading, act with
    | some idx, .line => some (handleLine int s idx)
    | some _, _ => none
    | none, .line => none
    | none, .timeouts now => some (checkIdleTimeouts timeoutSec now s)
    | none, .accept fd now => some (acceptNewConnection s fd now)
    | none, .input idx input now =>
      if 0 ≤ (s.clients idx).fd then readInput s idx input now else none
    | none, .shutdown =>
      some { (List.finRange n).foldl shutdownClient s with running := false }
  else none

/-- The server as `main` starts it. -/
def initial (t : Table m) : Server n m where
  ingredients := t.ingredients
  clients := fun _ => .reset
  reading := none
  running := true
  sent := []

/-- A server with the table `t`, for `n` clients, with the timeout `timeoutSec`; `int` is what an
`int` keeps of a value. -/
def hogwarts (int : ℤ → ℤ) (t : Table m) (n : ℕ) (timeoutSec : ℤ) :
    Machine (Server n m) (Act n) where
  init := initial t
  step := serverStep int timeoutSec

end Cse344.HW6
