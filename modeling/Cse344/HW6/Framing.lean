import Cse344.HW6.Stock
import Cse344.Lib.Framing

/-!
# Packet boundaries do not matter to the server of HW6

`handle_client_input` (`HW6/hogwarts.c` 479-535) reads what fits in the rest of `line_buf`, and
handles the lines that are there. As a `Framer` it handles a line at each line feed, and removes the
client when 512 bytes are there and no line feed.

* A command looks at no `line_buf` and no `last_active`, and changes none: `Server.withBufs` puts
  any others in their place.
* `Framed`: between two reads, a `line_buf` holds less than 512 bytes, and no line feed.
* `Receives`: a run of steps of one client that received these bytes of its stream, all of them or
  as many as came before it was removed.
* `events` is what an observer sees of a run: the lines given to `handle_command`, and why the
  client was removed.

Results:
* **`handleCommand_withBufs`**: a command does not depend on the buffers.
* **`feed_step`**, **`feed_run`**: a step and a run of the client's reads are the framer fed with
  what was received.
* **`framing_independent`**: two runs that received the same bytes of a client, or both removed it,
  saw the same, and left the server alike but for `last_active`.

Out of scope: other clients' steps in between; a read that fails.
-/

namespace Cse344.HW6

open Cse344.Lib

variable {int : ℤ → ℤ} {n m : ℕ} {t : Table m} {s s' : Server n m}

/-! ## Commands and buffers -/

/-- `s` with other buffers and times of activity, in another place of the loop. -/
def Server.withBufs (s : Server n m) (f : Fin n → List UInt8 × ℤ) (rd : Option (Fin n)) :
    Server n m :=
  { s with
    clients := fun i => { s.clients i with lineBuf := (f i).1, lastActive := (f i).2 }
    reading := rd }

/-- The buffers and times of activity of `s`. -/
def Server.bufs (s : Server n m) (i : Fin n) : List UInt8 × ℤ :=
  ((s.clients i).lineBuf, (s.clients i).lastActive)

section Buffers

variable (s) (f g : Fin n → List UInt8 × ℤ) (rd rd' : Option (Fin n))

@[simp] theorem withBufs_clients (i : Fin n) : (s.withBufs f rd).clients i =
    { s.clients i with lineBuf := (f i).1, lastActive := (f i).2 } := rfl

@[simp] theorem withBufs_ingredients : (s.withBufs f rd).ingredients = s.ingredients := rfl

@[simp] theorem withBufs_withBufs : (s.withBufs f rd).withBufs g rd' = s.withBufs g rd' := rfl

theorem withBufs_self : s.withBufs s.bufs s.reading = s := rfl

@[simp] theorem reply_withBufs (idx : Fin n) (line : CStr) :
    (s.withBufs f rd).reply idx line = (s.reply idx line).withBufs f rd := rfl

theorem setClient_withBufs (idx : Fin n) (c : Client) :
    (s.withBufs f rd).setClient idx { c with lineBuf := (f idx).1, lastActive := (f idx).2 } =
      (s.setClient idx c).withBufs f rd := by
  have hclients : Function.update (s.withBufs f rd).clients idx
      { c with lineBuf := (f idx).1, lastActive := (f idx).2 } =
        ((s.setClient idx c).withBufs f rd).clients := by
    funext i
    by_cases hi : i = idx
    · subst hi
      simp
    · simp [hi]
  unfold Server.setClient
  rw [hclients]
  rfl

theorem cmdBrew_withBufs (idx : Fin n) (args : CStr) :
    cmdBrew int (s.withBufs f rd) idx args = (cmdBrew int s idx args).withBufs f rd := by
  unfold cmdBrew
  dsimp only
  split
  · have hfind : ∀ name, findIngredient (s.withBufs f rd) name = findIngredient s name :=
      fun _ => rfl
    rw [hfind]
    split
    · rfl
    · rename_i ing qty _ _ _ k _
      rw [← reply_withBufs, ← setClient_withBufs]
      rfl
  · rfl

theorem cmdConsume_withBufs (idx : Fin n) (args : CStr) :
    cmdConsume int (s.withBufs f rd) idx args = (cmdConsume int s idx args).withBufs f rd := by
  unfold cmdConsume
  dsimp only
  split
  · have hfind : ∀ name, findIngredient (s.withBufs f rd) name = findIngredient s name :=
      fun _ => rfl
    rw [hfind]
    split
    · rfl
    · have hbook : ((s.withBufs f rd).clients idx).spellbook = (s.clients idx).spellbook := rfl
      rw [hbook]
      split_ifs
      · rfl
      · rw [← reply_withBufs, ← setClient_withBufs]
        rfl
  · rfl

theorem cmdEnroll_withBufs (idx : Fin n) (args : CStr) :
    cmdEnroll (s.withBufs f rd) idx args = (cmdEnroll s idx args).withBufs f rd := by
  unfold cmdEnroll
  have henrolled : ((s.withBufs f rd).clients idx).enrolled = (s.clients idx).enrolled := rfl
  dsimp only
  rw [henrolled]
  split_ifs
  · rfl
  · split
    · have htaken : ∀ uname,
          usernameTaken (s.withBufs f rd) uname idx = usernameTaken s uname idx :=
        fun _ => rfl
      rw [htaken]
      split_ifs
      · rfl
      · rfl
      · rfl
      · rw [← reply_withBufs, ← setClient_withBufs]
        rfl
    · rfl

theorem cmdSpellbook_withBufs (idx : Fin n) :
    cmdSpellbook (s.withBufs f rd) idx = (cmdSpellbook s idx).withBufs f rd := by
  unfold cmdSpellbook
  dsimp only [withBufs_clients]
  split <;> rfl

theorem cmdInspect_withBufs (idx : Fin n) (args : CStr) :
    cmdInspect (s.withBufs f rd) idx args = (cmdInspect s idx args).withBufs f rd := by
  unfold cmdInspect
  split
  · rfl
  · have hfind : ∀ name, findIngredient (s.withBufs f rd) name = findIngredient s name :=
      fun _ => rfl
    rw [hfind]
    split <;> rfl

theorem cmdScroll_withBufs (idx : Fin n) :
    cmdScroll (s.withBufs f rd) idx = (cmdScroll s idx).withBufs f rd := rfl

theorem cmdRoster_withBufs (idx : Fin n) :
    cmdRoster (s.withBufs f rd) idx = (cmdRoster s idx).withBufs f rd := by
  unfold cmdRoster
  rw [List.ofFn_eq_map, List.ofFn_eq_map, List.filter_map, List.filter_map, List.map_map,
    List.map_map]
  rfl

theorem authorized_withBufs (idx : Fin n) (role : String) (run : Server n m) :
    authorized (s.withBufs f rd) idx role (run.withBufs f rd) =
      (authorized s idx role run).withBufs f rd := by
  unfold authorized
  have htype : ((s.withBufs f rd).clients idx).type = (s.clients idx).type := rfl
  rw [htype]
  split_ifs <;> rfl

theorem ite_withBufs {p : Prop} [Decidable p] {x y x' y' : Server n m × Bool}
    (hx : x' = (x.1.withBufs f rd, x.2)) (hy : y' = (y.1.withBufs f rd, y.2)) :
    (if p then x' else y') =
      ((if p then x else y).1.withBufs f rd, (if p then x else y).2) := by
  split_ifs
  · exact hx
  · exact hy

variable (int) in
/-- **A command does not depend on the buffers**, nor change them. -/
theorem handleCommand_withBufs (idx : Fin n) (line : CStr) :
    handleCommand int (s.withBufs f rd) idx line =
      ((handleCommand int s idx line).1.withBufs f rd, (handleCommand int s idx line).2) := by
  have hrole : ∀ role (run run' : Server n m), run' = run.withBufs f rd →
      (authorized (s.withBufs f rd) idx role run', false) =
        ((authorized s idx role run).withBufs f rd, false) := by
    rintro role run _ rfl
    rw [authorized_withBufs]
  unfold handleCommand
  split
  · rfl
  · refine ite_withBufs f rd rfl ?_
    refine ite_withBufs f rd (congrArg (·, false) (cmdEnroll_withBufs s f rd idx _)) ?_
    refine ite_withBufs f rd rfl ?_
    refine ite_withBufs f rd (hrole _ _ _ (cmdBrew_withBufs s f rd idx _)) ?_
    refine ite_withBufs f rd (hrole _ _ _ (cmdConsume_withBufs s f rd idx _)) ?_
    refine ite_withBufs f rd (hrole _ _ _ (cmdSpellbook_withBufs s f rd idx)) ?_
    refine ite_withBufs f rd (hrole _ _ _ (cmdInspect_withBufs s f rd idx _)) ?_
    refine ite_withBufs f rd (hrole _ _ _ (cmdScroll_withBufs s f rd idx)) ?_
    refine ite_withBufs f rd (hrole _ _ _ (cmdRoster_withBufs s f rd idx)) ?_
    rfl

end Buffers

/-! ## The server as a framer -/

/-- Why `remove_client` is called. -/
inductive Reason
  | apparate
  | lineTooLong
  deriving DecidableEq, Repr

/-- What an observer of `handle_client_input` sees. -/
inductive Event
  /-- `handle_command` is called with this line -/
  | command (line : CStr)
  | removed (reason : Reason)
  deriving DecidableEq, Repr

/-- The state without what `idx` has sent, and when. -/
def Server.core (s : Server n m) (idx : Fin n) : Server n m :=
  s.withBufs (Function.update s.bufs idx ([], 0)) none

def framer (int : ℤ → ℤ) (idx : Fin n) : Framer UInt8 (Server n m × List Event) where
  cap := maxLineLen
  isEnd := fun b => b == 10
  line := fun x part =>
    let r := handleCommand int x.1 idx (lineString part)
    if r.2 then
      (((removeClient r.1 idx).core idx,
        x.2 ++ [.command (lineString part), .removed .apparate]), true)
    else ((r.1.core idx, x.2 ++ [.command (lineString part)]), false)
  full := fun x =>
    ((removeClient (x.1.reply idx (cstr "ERR TOOLONG")) idx).core idx,
      x.2 ++ [.removed .lineTooLong])

/-- What a step shows. -/
def events (int : ℤ → ℤ) (s : Server n m) : Act n → List Event
  | .line =>
    match s.reading with
    | none => []
    | some idx =>
      let c := s.clients idx
      let line := c.lineBuf.takeWhile fun b => b != 10
      if line.length = c.lineBuf.length then
        if c.lineBuf.length = maxLineLen then [.removed .lineTooLong] else []
      else
        let s := s.setClient idx { c with lineBuf := c.lineBuf.drop (line.length + 1) }
        if (handleCommand int s idx (lineString line)).2 then
          [.command (lineString line), .removed .apparate]
        else [.command (lineString line)]
  | .input idx _ _ =>
    if maxLineLen - (s.clients idx).lineBuf.length = 0 then [.removed .lineTooLong] else []
  | _ => []

/-- An observer sees the command. -/
theorem command_mem_events (int : ℤ → ℤ) {idx : Fin n} {line : CStr} {act : Act n}
    (h : commandOf s act = some (idx, line)) :
    .command line ∈ events int s act := by
  obtain ⟨rfl, hr, hsome, rfl⟩ := commandOf_eq_some h
  unfold events
  rw [hr]
  dsimp only
  rw [if_neg hsome]
  split
  · exact List.mem_cons_self
  · exact List.mem_cons_self

/-- The state `s`, in which `l` has been seen, as the framer's. -/
def Server.view (int : ℤ → ℤ) (s : Server n m) (idx : Fin n) (l : List Event) :
    Frame UInt8 (Server n m × List Event) :=
  if (s.clients idx).fd < 0 then .closed (s.core idx, l)
  else (framer int idx).drain (s.core idx, l) [] (s.clients idx).lineBuf

/-- Unless its lines are being handled, a client's buffer has room, and holds no line; a free slot
holds nothing. -/
structure Client.Framed (busy : Prop) (c : Client) : Prop where
  length_le : c.lineBuf.length ≤ maxLineLen
  room : ¬ busy → c.lineBuf.length < maxLineLen ∧ ∀ b ∈ c.lineBuf, (b == 10) = false
  free : c.fd < 0 → c.lineBuf = []

def Framed (s : Server n m) : Prop := ∀ i, (s.clients i).Framed (s.reading = some i)

/-! ## Cores -/

theorem setBuf_eq (s : Server n m) (idx : Fin n) (b : List UInt8) (a : ℤ) :
    s.setClient idx { s.clients idx with lineBuf := b, lastActive := a } =
      s.withBufs (Function.update s.bufs idx (b, a)) s.reading := by
  have hclients : Function.update s.clients idx
      { s.clients idx with lineBuf := b, lastActive := a } =
        (s.withBufs (Function.update s.bufs idx (b, a)) s.reading).clients := by
    funext i
    by_cases hi : i = idx
    · subst hi
      simp
    · simp [hi, Server.bufs]
  unfold Server.setClient
  rw [hclients]
  rfl

/-- What `idx` has sent, and when, is left out. -/
theorem core_withBufs (s : Server n m) (idx : Fin n) (f : Fin n → List UInt8 × ℤ)
    (x : List UInt8 × ℤ) (rd : Option (Fin n)) :
    (s.withBufs (Function.update f idx x) rd).core idx =
      s.withBufs (Function.update f idx ([], 0)) none := by
  have hbufs : (s.withBufs (Function.update f idx x) rd).bufs = Function.update f idx x := rfl
  rw [Server.core, hbufs, Function.update_idem, withBufs_withBufs]

theorem core_reset (s : Server n m) (idx : Fin n) (f : Fin n → List UInt8 × ℤ)
    (x : List UInt8 × ℤ) (rd : Option (Fin n)) :
    ((s.withBufs (Function.update f idx x) rd).setClient idx .reset).core idx =
      (s.setClient idx .reset).withBufs (Function.update f idx ([], 0)) none := by
  have hclients :
      (((s.withBufs (Function.update f idx x) rd).setClient idx .reset).core idx).clients =
      ((s.setClient idx .reset).withBufs (Function.update f idx ([], 0)) none).clients := by
    funext i
    by_cases hi : i = idx
    · subst hi
      simp [Server.core]
    · simp [Server.core, Server.bufs, hi]
  unfold Server.core Server.withBufs at hclients ⊢
  dsimp only at hclients
  rw [hclients]
  rfl

/-- A client that is removed. -/
theorem core_removeClient (s : Server n m) (idx : Fin n) (f : Fin n → List UInt8 × ℤ)
    (x y : List UInt8 × ℤ) (rd rd' : Option (Fin n)) :
    (removeClient (s.withBufs (Function.update f idx x) rd) idx).core idx =
      (removeClient (s.withBufs (Function.update f idx y) rd') idx).core idx := by
  have hremove : ∀ (g : Fin n → List UInt8 × ℤ) rd, removeClient (s.withBufs g rd) idx =
      if (s.clients idx).fd < 0 then s.withBufs g rd else (s.withBufs g rd).setClient idx .reset :=
    fun _ _ => rfl
  rw [hremove, hremove]
  split_ifs
  · rw [core_withBufs, core_withBufs]
  · rw [core_reset, core_reset]

theorem core_removeClient_core (s : Server n m) (idx : Fin n) :
    (removeClient (s.core idx) idx).core idx = (removeClient s idx).core idx := by
  have h := core_removeClient s idx s.bufs ([], 0) (s.bufs idx) none s.reading
  rwa [Function.update_eq_self, withBufs_self] at h

/-! ## A step, and what it is to the framer -/

/-- A command keeps the buffers. -/
theorem handleCommand_bufs (int : ℤ → ℤ) (s : Server n m) (idx : Fin n) (line : CStr) :
    (handleCommand int s idx line).1.bufs = s.bufs ∧
      (handleCommand int s idx line).1.reading = s.reading := by
  have h := handleCommand_withBufs int s s.bufs s.reading idx line
  rw [withBufs_self] at h
  rw [h]
  exact ⟨rfl, rfl⟩

theorem removeClient_fd {s : Server n m} {idx : Fin n} (h : 0 ≤ (s.clients idx).fd) :
    ((removeClient s idx).clients idx).fd < 0 := by
  rw [removeClient, if_neg (not_lt.mpr h)]
  simp [Client.reset]

theorem view_connected (s : Server n m) {idx : Fin n} (hfd : 0 ≤ (s.clients idx).fd)
    (l : List Event) :
    s.view int idx l = (framer int idx).drain (s.core idx, l) [] (s.clients idx).lineBuf :=
  if_neg (not_lt.mpr hfd)

theorem view_removed (s : Server n m) {idx : Fin n} (hfd : (s.clients idx).fd < 0)
    (l : List Event) : s.view int idx l = .closed (s.core idx, l) := if_pos hfd

/-- Between two reads, the framer holds the buffer. -/
theorem view_idle (hf : Framed s) {idx : Fin n} (hr : ¬ s.reading = some idx)
    (hfd : 0 ≤ (s.clients idx).fd) (l : List Event) :
    s.view int idx l = .filling (s.core idx, l) (s.clients idx).lineBuf := by
  obtain ⟨hlt, hno⟩ := (hf idx).room hr
  rw [view_connected s hfd, (framer int idx).drain_part _ hno]
  exact (framer int idx).hold_of_lt hlt

/-- A read puts what it has read into the buffer. -/
theorem readInput_data {idx : Fin n} {bytes : List UInt8} {now : ℤ}
    (hlt : (s.clients idx).lineBuf.length < maxLineLen)
    (hs : readInput s idx (.data bytes) now = some s') :
    (s.clients idx).lineBuf.length + bytes.length ≤ maxLineLen ∧
      s' = s.withBufs (Function.update s.bufs idx ((s.clients idx).lineBuf ++ bytes, now))
        (some idx) := by
  have hspace : maxLineLen - (s.clients idx).lineBuf.length ≠ 0 := by omega
  unfold readInput at hs
  dsimp only at hs
  rw [if_neg hspace] at hs
  split_ifs at hs with hlen
  refine ⟨by omega, ?_⟩
  rw [setBuf_eq] at hs
  exact (Option.some.inj hs).symm

/-- **A read feeds the framer** what it has read. -/
theorem view_input (hf : Framed s) {idx : Fin n} (hr : s.reading = none)
    (hfd : 0 ≤ (s.clients idx).fd) {bytes : List UInt8} {now : ℤ} (l : List Event)
    (hs : readInput s idx (.data bytes) now = some s') :
    (framer int idx).feedAll (s.view int idx l) bytes =
        s'.view int idx (l ++ events int s (.input idx (.data bytes) now)) ∧
      s'.reading = some idx := by
  have hne : ¬ s.reading = some idx := by simp [hr]
  obtain ⟨hlt, hno⟩ := (hf idx).room hne
  obtain ⟨hroom, rfl⟩ := readInput_data hlt hs
  refine ⟨?_, rfl⟩
  have hevents : events int s (.input idx (.data bytes) now) = [] :=
    if_neg (by omega)
  have hcore : (s.withBufs (Function.update s.bufs idx ((s.clients idx).lineBuf ++ bytes, now))
      (some idx)).core idx = s.core idx := core_withBufs _ _ _ _ _
  have hbuf : ((s.withBufs (Function.update s.bufs idx ((s.clients idx).lineBuf ++ bytes, now))
      (some idx)).clients idx).lineBuf = (s.clients idx).lineBuf ++ bytes := by simp
  rw [hevents, List.append_nil, view_idle hf hne hfd,
    ← (framer int idx).drain_eq_feedAll _ _ _ hlt hroom, view_connected (s.withBufs _ _) hfd, hcore,
    hbuf, (framer int idx).drain_append _ _ _ _ hno, List.nil_append]

/-- The rest of the buffer is put back. -/
theorem putBack_eq (s : Server n m) (idx : Fin n) (rest : List UInt8) :
    s.setClient idx { s.clients idx with lineBuf := rest } =
      (s.core idx).withBufs (Function.update s.bufs idx (rest, (s.clients idx).lastActive))
        s.reading :=
  setBuf_eq s idx rest (s.clients idx).lastActive

/-- A command in the loop is the framer's. -/
theorem handleCommand_core (int : ℤ → ℤ) (s : Server n m) (idx : Fin n) (rest : List UInt8)
    (line : CStr) :
    let r := handleCommand int (s.setClient idx { s.clients idx with lineBuf := rest }) idx line
    let r' := handleCommand int (s.core idx) idx line
    r.2 = r'.2 ∧ r.1.core idx = r'.1.core idx ∧
      (removeClient r.1 idx).core idx = (removeClient r'.1 idx).core idx := by
  have hcore : s.core idx = s.withBufs (Function.update s.bufs idx ([], 0)) none := rfl
  rw [putBack_eq, hcore, withBufs_withBufs, handleCommand_withBufs, handleCommand_withBufs]
  refine ⟨rfl, ?_, core_removeClient _ _ _ _ _ _ _⟩
  rw [core_withBufs, core_withBufs]

/-- A command leaves its client connected, with the rest of the buffer. -/
theorem handleCommand_putBack (int : ℤ → ℤ) {idx : Fin n} (hfd : 0 ≤ (s.clients idx).fd)
    (rest : List UInt8) (line : CStr) :
    let r := handleCommand int (s.setClient idx { s.clients idx with lineBuf := rest }) idx line
    0 ≤ (r.1.clients idx).fd ∧ (r.1.clients idx).lineBuf = rest := by
  have hconn : 0 ≤ ((s.setClient idx { s.clients idx with lineBuf := rest }).clients idx).fd := by
    simpa using hfd
  have heffect := handleCommand_effect int
    (s.setClient idx { s.clients idx with lineBuf := rest }) idx line
  have hbufs := congrFun (handleCommand_bufs int
    (s.setClient idx { s.clients idx with lineBuf := rest }) idx line).1 idx
  refine ⟨?_, ?_⟩
  · rw [heffect.fd_eq]
    exact hconn
  · exact (congrArg Prod.fst hbufs).trans (by simp [Server.bufs])

/-- **A round of the loop is a line of the framer.** -/
theorem view_line (hi : s.Attends) {idx : Fin n} (hr : s.reading = some idx) (l : List Event) :
    s.view int idx l = (handleLine int s idx).view int idx (l ++ events int s .line) := by
  have hfd : 0 ≤ (s.clients idx).fd := hi idx hr
  rcases takeWhile_cases 10 (s.clients idx).lineBuf with ⟨hno, ⟨hlen, hall⟩ | ⟨hlen, hsplit⟩⟩
  · -- no line is there
    rw [hall] at hno
    rw [Server.view, if_neg (not_lt.mpr hfd), (framer int idx).drain_part _ hno]
    unfold handleLine events
    rw [hr]
    dsimp only
    rw [if_pos hlen, if_pos hlen]
    split_ifs with hfull
    · have hremoved : ((removeClient (s.reply idx (cstr "ERR TOOLONG")) idx).clients idx).fd < 0 :=
        removeClient_fd hfd
      have hcore := core_removeClient_core (s.reply idx (cstr "ERR TOOLONG")) idx
      have hfullstep : (framer int idx).full (s.core idx, l) =
          ((removeClient (s.reply idx (cstr "ERR TOOLONG")) idx).core idx,
            l ++ [.removed .lineTooLong]) := congrArg (·, l ++ [.removed .lineTooLong]) hcore
      exact ((if_pos hfull).trans (congrArg Frame.closed hfullstep)).trans
        (view_removed _ hremoved _).symm
    · rw [List.append_nil]
      exact ((framer int idx).drain_part _ hno).symm.trans
        (view_connected { s with reading := none } hfd l).symm
  · obtain ⟨line, hline⟩ : ∃ line, line = (s.clients idx).lineBuf.takeWhile fun b => b != 10 :=
      ⟨_, rfl⟩
    rw [← hline] at hno hlen hsplit
    obtain ⟨hclose, hcore, hremove⟩ := handleCommand_core int s idx
      ((s.clients idx).lineBuf.drop (line.length + 1)) (lineString line)
    obtain ⟨hcommandFd, hcommandBuf⟩ := handleCommand_putBack int hfd
      ((s.clients idx).lineBuf.drop (line.length + 1)) (lineString line)
    have hend : (framer (m := m) int idx).isEnd 10 = true := rfl
    have hdrain := (framer int idx).drain_line (s.core idx, l)
      ((s.clients idx).lineBuf.drop (line.length + 1)) hno hend
    rw [← hsplit] at hdrain
    rw [view_connected s hfd, hdrain]
    unfold handleLine events
    rw [hr]
    dsimp only
    rw [← hline, if_neg hlen, if_neg hlen]
    generalize handleCommand int (s.setClient idx { s.clients idx with
      lineBuf := (s.clients idx).lineBuf.drop (line.length + 1) }) idx (lineString line) = r at *
    have hframer : (framer int idx).line (s.core idx, l) line =
        if r.2 then (((removeClient r.1 idx).core idx,
          l ++ [.command (lineString line), .removed .apparate]), true)
        else ((r.1.core idx, l ++ [.command (lineString line)]), false) := by
      rw [hclose, hcore, hremove]
      rfl
    rw [hframer]
    by_cases hc : r.2 = true
    · simp only [if_pos hc]
      exact (view_removed { removeClient r.1 idx with reading := none }
        (removeClient_fd hcommandFd) _).symm
    · simp only [if_neg hc]
      rw [view_connected r.1 hcommandFd, hcommandBuf]
      rfl

/-! ## Framed buffers -/

theorem Client.Framed.congr {busy : Prop} {c c' : Client} (h : c.Framed busy)
    (hbuf : c'.lineBuf = c.lineBuf) (hfd : c'.fd = c.fd) : c'.Framed busy where
  length_le := hbuf ▸ h.length_le
  room := fun hb => hbuf ▸ h.room hb
  free := fun hc => hbuf ▸ h.free (hfd ▸ hc)

theorem Client.Framed.mono {busy busy' : Prop} {c : Client} (h : c.Framed busy)
    (hb : busy → busy') : c.Framed busy' where
  length_le := h.length_le
  room := fun hno => h.room fun hbusy => hno (hb hbusy)
  free := h.free

/-- An empty buffer is framed. -/
theorem Client.Framed.of_nil {busy : Prop} {c : Client} (h : c.lineBuf = []) : c.Framed busy where
  length_le := by rw [h]; exact Nat.zero_le _
  room := fun _ => by rw [h]; exact ⟨by decide, fun b hb => by cases hb⟩
  free := fun _ => h

/-- One client changes, and the others are not being handled. -/
theorem Framed.update (h : Framed s) {idx : Fin n} {c : Client} {rd : Option (Fin n)}
    (hclients : s'.clients = Function.update s.clients idx c) (hrd : s'.reading = rd)
    (hother : ∀ i, i ≠ idx → s.reading = some i → rd = some i) (hc : c.Framed (rd = some idx)) :
    Framed s' := by
  unfold Framed
  rw [hclients, hrd]
  exact (Function.forall_update_iff s.clients fun i c => c.Framed (rd = some i)).mpr
    ⟨hc, fun i hi => (h i).mono (hother i hi)⟩

theorem removeClient_framed (h : Framed s) (idx : Fin n) : Framed (removeClient s idx) := by
  unfold removeClient
  split_ifs
  · exact h
  · exact h.update rfl rfl (fun _ _ hi => hi) (.of_nil rfl)

/-- The handling of a client's lines ends with its removal. -/
theorem removed_framed (h : Framed s) {idx : Fin n} (hr : ∀ i, s.reading = some i → i = idx)
    (hfd : 0 ≤ (s.clients idx).fd) :
    Framed ({ removeClient s idx with reading := none } : Server n m) := by
  have hclients : ({ removeClient s idx with reading := none } : Server n m).clients =
      Function.update s.clients idx .reset := by
    rw [removeClient, if_neg (not_lt.mpr hfd)]
    rfl
  exact h.update hclients rfl (fun i hi hri => absurd (hr i hri) hi) (.of_nil rfl)

theorem checkIdle_framed {timeoutSec now : ℤ} (h : Framed s) (idx : Fin n) :
    Framed (checkIdle timeoutSec now s idx) := by
  unfold checkIdle
  split_ifs
  · exact h
  · exact removeClient_framed (s := s.reply idx (cstr "TIMEOUT DISCONNECT")) h idx
  · exact h

theorem shutdownClient_framed (h : Framed s) (idx : Fin n) : Framed (shutdownClient s idx) := by
  unfold shutdownClient
  split_ifs
  · exact h.update rfl rfl (fun _ _ hi => hi) (.of_nil rfl)
  · exact h

theorem acceptNewConnection_framed (h : Framed s) (cfd : ℕ) (now : ℤ) :
    Framed (acceptNewConnection s cfd now) := by
  unfold acceptNewConnection
  split
  · exact h
  · exact h.update rfl rfl (fun _ _ hi => hi) (.of_nil rfl)

theorem readInput_framed (h : Framed s) (hr : s.reading = none) {idx : Fin n}
    (hfd : 0 ≤ (s.clients idx).fd) {input : Input} {now : ℤ}
    (hs : readInput s idx input now = some s') : Framed s' := by
  obtain ⟨hlt, -⟩ := (h idx).room (by simp [hr])
  cases input with
  | data bytes =>
    obtain ⟨hroom, rfl⟩ := readInput_data hlt hs
    intro i
    by_cases hi : i = idx
    · subst hi
      refine ⟨by simpa using hroom, fun hno => absurd rfl hno, fun hneg => ?_⟩
      exact absurd hneg (not_lt.mpr hfd)
    · refine ((h i).mono fun hri => ?_).congr (by simp [Server.bufs, hi]) rfl
      rw [hr] at hri
      cases hri
  | error =>
    unfold readInput at hs
    dsimp only at hs
    rw [if_neg (by omega)] at hs
    obtain rfl := Option.some.inj hs
    exact removeClient_framed h idx
  | hangup =>
    unfold readInput at hs
    dsimp only at hs
    rw [if_neg (by omega)] at hs
    obtain rfl := Option.some.inj hs
    exact removeClient_framed h idx

theorem handleLine_framed (hi : s.Attends) (h : Framed s) {idx : Fin n}
    (hr : s.reading = some idx) : Framed (handleLine int s idx) := by
  have hfd : 0 ≤ (s.clients idx).fd := hi idx hr
  have honly : ∀ i, s.reading = some i → i = idx := fun i hri =>
    (Option.some.inj (hr.symm.trans hri)).symm
  rcases takeWhile_cases 10 (s.clients idx).lineBuf with ⟨hno, ⟨hlen, hall⟩ | ⟨hlen, hsplit⟩⟩
  · unfold handleLine
    dsimp only
    rw [if_pos hlen]
    split_ifs with hfull
    · exact removed_framed (s := s.reply idx (cstr "ERR TOOLONG")) h honly hfd
    · intro i
      by_cases hidx : i = idx
      · subst hidx
        refine ⟨(h i).length_le, fun _ => ⟨lt_of_le_of_ne (h i).length_le hfull, ?_⟩, (h i).free⟩
        rwa [hall] at hno
      · exact (h i).mono fun hri => absurd (honly i hri) hidx
  · obtain ⟨rest, hrest⟩ : ∃ rest, rest = (s.clients idx).lineBuf.drop
        (((s.clients idx).lineBuf.takeWhile fun b => b != 10).length + 1) := ⟨_, rfl⟩
    have hback : Framed (s.setClient idx { s.clients idx with lineBuf := rest }) := by
      refine h.update rfl rfl (fun _ _ hri => hri) ⟨?_, fun hno => absurd hr hno, fun hneg => ?_⟩
      · have := (h idx).length_le
        rw [hrest, List.length_drop]
        omega
      · exact absurd hneg (not_lt.mpr hfd)
    have hconn : 0 ≤ ((s.setClient idx { s.clients idx with lineBuf := rest }).clients idx).fd := by
      simpa using hfd
    unfold handleLine
    dsimp only
    rw [if_neg hlen, ← hrest]
    obtain ⟨hbufs, hreading⟩ := handleCommand_bufs int
      (s.setClient idx { s.clients idx with lineBuf := rest }) idx
      (lineString ((s.clients idx).lineBuf.takeWhile fun b => b != 10))
    have heffect := handleCommand_effect int
      (s.setClient idx { s.clients idx with lineBuf := rest }) idx
      (lineString ((s.clients idx).lineBuf.takeWhile fun b => b != 10))
    generalize handleCommand int (s.setClient idx { s.clients idx with lineBuf := rest }) idx
      (lineString ((s.clients idx).lineBuf.takeWhile fun b => b != 10)) = r at *
    have hr1 : Framed r.1 := fun i => by
      rw [hreading]
      exact (hback i).congr (congrArg Prod.fst (congrFun hbufs i)) (heffect.fd_eq i)
    split_ifs
    · refine removed_framed hr1 (fun i hri => honly i (hreading.symm.trans hri)) ?_
      rw [heffect.fd_eq]
      exact hconn
    · exact hr1

theorem framed_step {timeoutSec : ℤ} {act : Act n} (hi : s.Attends) (h : Framed s)
    (hs : serverStep int timeoutSec s act = some s') : Framed s' := by
  unfold serverStep at hs
  split at hs
  · split at hs
    case h_1 idx hr =>
      obtain rfl := Option.some.inj hs
      exact handleLine_framed hi h hr
    case h_2 => cases hs
    case h_3 => cases hs
    case h_4 now hr =>
      obtain rfl := Option.some.inj hs
      exact foldl_keeps (P := Framed) (fun _ idx h => checkIdle_framed h idx) _ _ h
    case h_5 fd now hr =>
      obtain rfl := Option.some.inj hs
      exact acceptNewConnection_framed h fd now
    case h_6 idx input now hr =>
      split_ifs at hs with hfd
      exact readInput_framed h hr hfd hs
    case h_7 hr =>
      obtain rfl := Option.some.inj hs
      exact foldl_keeps (P := Framed) (fun _ idx h => shutdownClient_framed h idx) _ _ h
  · cases hs

theorem framed_reachable {timeoutSec : ℤ} (h : (hogwarts int t n timeoutSec).Reachable s) :
    s.Attends ∧ Framed s := by
  refine h.induct (I := fun s => s.Attends ∧ Framed s) ⟨attends_init, fun _ => .of_nil rfl⟩ ?_
  rintro s a s' ⟨hi, hf⟩ hs
  exact ⟨attends_step hi hs, framed_step hi hf hs⟩

/-! ## Runs of one client -/

/-- The server hears from `idx`, and from nobody else. -/
def FromClient (idx : Fin n) : Act n → Prop
  | .input i (.data _) _ => i = idx
  | .line => True
  | _ => False

instance (idx : Fin n) : DecidablePred (FromClient idx) := fun a => by
  unfold FromClient
  split <;> infer_instance

/-- What `read` returns in an action. -/
def chunk : Act n → List UInt8
  | .input _ (.data bytes) _ => bytes
  | _ => []

def received (as : List (Act n)) : List UInt8 := as.flatMap chunk

/-- `as` is a run in which `idx` sends `stream`, in whatever chunks, until all of it is handled or
`idx` is removed. -/
structure Receives (int : ℤ → ℤ) (t : Table m) (timeoutSec : ℤ) (idx : Fin n) (stream : List UInt8)
    (s : Server n m) (as : List (Act n)) (s' : Server n m) : Prop where
  runs : (hogwarts int t n timeoutSec).runs s as = some s'
  only : ∀ a ∈ as, FromClient idx a
  part : received as <+: stream
  idle : s'.reading = none
  done : received as = stream ∨ (s'.clients idx).fd < 0

/-- The loop goes on with its client. -/
theorem handleLine_reading {idx : Fin n} (hr : s.reading = some idx) :
    ∀ i, (handleLine int s idx).reading = some i → i = idx := by
  have hkeep : ∀ c line, (handleCommand int (s.setClient idx c) idx line).1.reading = some idx :=
    fun c line => (handleCommand_bufs int _ idx line).2.trans hr
  intro i hi
  unfold handleLine at hi
  dsimp only at hi
  split_ifs at hi
  rw [hkeep] at hi
  exact (Option.some.inj hi).symm

/-- **A step of the client** is the framer fed with its chunk. -/
theorem feed_step {timeoutSec : ℤ} {idx : Fin n} {a : Act n} (hi : s.Attends) (hf : Framed s)
    (ha : FromClient idx a) (hr : ∀ i, s.reading = some i → i = idx) (l : List Event)
    (hs : serverStep int timeoutSec s a = some s') :
    (framer int idx).feedAll (s.view int idx l) (chunk a) = s'.view int idx (l ++ events int s a) ∧
      ∀ i, s'.reading = some i → i = idx := by
  unfold serverStep at hs
  split at hs
  · split at hs
    case h_1 i hri =>
      obtain rfl := hr i hri
      obtain rfl := Option.some.inj hs
      exact ⟨view_line hi hri l, handleLine_reading hri⟩
    case h_2 => cases hs
    case h_3 => cases hs
    case h_4 => exact ha.elim
    case h_5 => exact ha.elim
    case h_6 i input now hri =>
      cases input with
      | error => exact ha.elim
      | hangup => exact ha.elim
      | data bytes =>
        obtain rfl : i = idx := ha
        split_ifs at hs with hfd
        obtain ⟨hfeed, hreading⟩ := view_input hf hri hfd l hs
        refine ⟨hfeed, fun j hj => ?_⟩
        exact (Option.some.inj (hreading.symm.trans hj)).symm
    case h_7 => exact ha.elim
  · cases hs

/-- **A run of the client's steps** is the framer fed with what was received. -/
theorem feed_run {timeoutSec : ℤ} {idx : Fin n} : ∀ {as : List (Act n)} {s s' : Server n m},
    (hogwarts int t n timeoutSec).Reachable s → (∀ a ∈ as, FromClient idx a) →
    (∀ i, s.reading = some i → i = idx) → ∀ l : List Event,
    (hogwarts int t n timeoutSec).runs s as = some s' →
      (framer int idx).feedAll (s.view int idx l) (received as) =
        s'.view int idx (l ++ (hogwarts int t n timeoutSec).trace (events int) s as)
  | [], s, s', _, _, _, l, h => by
    obtain rfl := Option.some.inj h
    rw [Machine.trace, List.append_nil]
    rfl
  | a :: as, s, s', hreach, honly, hr, l, h => by
    obtain ⟨s₁, hs, h⟩ := Option.bind_eq_some_iff.mp h
    obtain ⟨hi, hf⟩ := framed_reachable hreach
    obtain ⟨hfeed, hr₁⟩ := feed_step hi hf (honly a List.mem_cons_self) hr l hs
    have hrest := feed_run (hreach.step hs) (fun b hb => honly b (List.mem_cons_of_mem _ hb)) hr₁
      (l ++ events int s a) h
    rw [Machine.trace, hs, received, List.flatMap_cons, (framer int idx).feedAll_append, hfeed,
      ← List.append_assoc]
    exact hrest

/-- The framer ends alike, however the stream was cut. -/
theorem Receives.feedAll {timeoutSec : ℤ} {idx : Fin n} {stream : List UInt8} {as : List (Act n)}
    (h : Receives int t timeoutSec idx stream s as s')
    (hreach : (hogwarts int t n timeoutSec).Reachable s) (hr : s.reading = none) :
    (framer int idx).feedAll (s.view int idx []) stream =
      s'.view int idx ((hogwarts int t n timeoutSec).trace (events int) s as) := by
  have hfeed := feed_run hreach h.only (fun i hi => by rw [hr] at hi; cases hi) [] h.runs
  rw [List.nil_append] at hfeed
  rcases h.done with hall | hremoved
  · rwa [hall] at hfeed
  · rw [view_removed s' hremoved] at hfeed ⊢
    exact (framer int idx).feedAll_extend h.part hfeed

/-- Two idle servers that look alike to the framer. -/
theorem view_inj (hf : Framed s) (hf' : Framed s') (hr : s.reading = none)
    (hr' : s'.reading = none) {idx : Fin n} {l l' : List Event}
    (h : s.view int idx l = s'.view int idx l') :
    l = l' ∧ s.core idx = s'.core idx ∧ (s.clients idx).lineBuf = (s'.clients idx).lineBuf := by
  have hne : ¬ s.reading = some idx := by simp [hr]
  have hne' : ¬ s'.reading = some idx := by simp [hr']
  rcases lt_or_ge (s.clients idx).fd 0 with hfd | hfd <;>
    rcases lt_or_ge (s'.clients idx).fd 0 with hfd' | hfd'
  · rw [view_removed s hfd, view_removed s' hfd'] at h
    injection h with h
    exact ⟨congrArg Prod.snd h, congrArg Prod.fst h,
      ((hf idx).free hfd).trans ((hf' idx).free hfd').symm⟩
  · rw [view_removed s hfd, view_idle hf' hne' hfd'] at h
    cases h
  · rw [view_idle hf hne hfd, view_removed s' hfd'] at h
    cases h
  · rw [view_idle hf hne hfd, view_idle hf' hne' hfd'] at h
    injection h with h hbuf
    exact ⟨congrArg Prod.snd h, congrArg Prod.fst h, hbuf⟩

/-- Servers with the same core and the same buffer. -/
theorem eq_of_core {idx : Fin n} (hcore : s.core idx = s'.core idx)
    (hbuf : (s.clients idx).lineBuf = (s'.clients idx).lineBuf) (hr : s.reading = s'.reading) :
    s' = s.setClient idx { s.clients idx with lastActive := (s'.clients idx).lastActive } := by
  have hother : Function.update s'.bufs idx ([], 0) = Function.update s.bufs idx ([], 0) :=
    congrArg Server.bufs hcore.symm
  have hbufs : s'.bufs =
      Function.update s.bufs idx ((s.clients idx).lineBuf, (s'.clients idx).lastActive) := by
    rw [hbuf, ← Function.update_idem, ← hother, Function.update_idem]
    exact (Function.update_eq_self idx s'.bufs).symm
  calc s' = (s'.core idx).withBufs s'.bufs s'.reading := (withBufs_self s').symm
    _ = (s.core idx).withBufs (Function.update s.bufs idx
        ((s.clients idx).lineBuf, (s'.clients idx).lastActive)) s.reading := by
      rw [hcore, hr, hbufs]
    _ = _ := (setBuf_eq s idx _ _).symm

/-- **Packet boundaries do not matter**: two ways to send a stream show the same commands and the
same removal, and lead to the same state but for the time of the last activity. -/
theorem framing_independent (int : ℤ → ℤ) (t : Table m) (n : ℕ) (timeoutSec : ℤ) (idx : Fin n)
    (stream : List UInt8) (s s₁ s₂ : Server n m) (as bs : List (Act n))
    (hs : (hogwarts int t n timeoutSec).Reachable s) (hr : s.reading = none)
    (h₁ : Receives int t timeoutSec idx stream s as s₁)
    (h₂ : Receives int t timeoutSec idx stream s bs s₂) :
    (hogwarts int t n timeoutSec).trace (events int) s as =
        (hogwarts int t n timeoutSec).trace (events int) s bs ∧
      s₂ = s₁.setClient idx
        { s₁.clients idx with lastActive := (s₂.clients idx).lastActive } := by
  have hview := (h₁.feedAll hs hr).symm.trans (h₂.feedAll hs hr)
  have hf₁ := (framed_reachable (hs.trans (Machine.steps_of_runs h₁.runs))).2
  have hf₂ := (framed_reachable (hs.trans (Machine.steps_of_runs h₂.runs))).2
  obtain ⟨htrace, hcore, hbuf⟩ := view_inj hf₁ hf₂ h₁.idle h₂.idle hview
  exact ⟨htrace, eq_of_core hcore hbuf (h₁.idle.trans h₂.idle.symm)⟩

/-- A professor enrols and leaves; what follows is not read as a line. -/
def saltStream : CStr := cstr "ENROLL PROFESSOR albus\r\nAPPARATE\nSCROLL\n"

def sentWhole {n : ℕ} (c : Fin n) : List (Act n) := [.input c (.data saltStream) 1, .line, .line]

def sentInPieces {n : ℕ} (c : Fin n) : List (Act n) :=
  [.input c (.data (saltStream.take 10)) 1, .line,
    .input c (.data ((saltStream.drop 10).take 13)) 2, .line,
    .input c (.data ((saltStream.drop 23).take 12)) 3, .line, .line]

theorem framing_independent_saltStream :
    ∃ s s₁ s₂ : Server 1 1, Receives wrap32 saltTable 60 0 saltStream s (sentWhole 0) s₁ ∧
      Receives wrap32 saltTable 60 0 saltStream s (sentInPieces 0) s₂ ∧
      (hogwarts wrap32 saltTable 1 60).trace (events wrap32) s (sentWhole 0) =
        (hogwarts wrap32 saltTable 1 60).trace (events wrap32) s (sentInPieces 0) ∧
      s₂ = s₁.setClient 0 { s₁.clients 0 with lastActive := (s₂.clients 0).lastActive } := by
  obtain ⟨s, hs⟩ : ∃ s, s = acceptNewConnection (initial saltTable : Server 1 1) 4 0 := ⟨_, rfl⟩
  have hreach : (hogwarts wrap32 saltTable 1 60).Reachable s :=
    Machine.Reachable.init.step (a := .accept 4 0) (congrArg some hs.symm)
  have hwhole : ((hogwarts wrap32 saltTable 1 60).runs s (sentWhole 0)).map (fun t =>
      (t.reading, (t.clients 0).fd)) = some (none, -1) := by
    rw [hs]
    decide +kernel
  have hpieces : ((hogwarts wrap32 saltTable 1 60).runs s (sentInPieces 0)).map (fun t =>
      (t.reading, (t.clients 0).fd)) = some (none, -1) := by
    rw [hs]
    decide +kernel
  obtain ⟨s₁, hrun₁, h₁⟩ := Option.map_eq_some_iff.mp hwhole
  obtain ⟨s₂, hrun₂, h₂⟩ := Option.map_eq_some_iff.mp hpieces
  obtain ⟨hr₁, hfd₁⟩ := Prod.mk.inj h₁
  obtain ⟨hr₂, hfd₂⟩ := Prod.mk.inj h₂
  have hreceives₁ : Receives wrap32 saltTable 60 0 saltStream s (sentWhole 0) s₁ :=
    ⟨hrun₁, by decide, by decide +kernel, hr₁, Or.inl (by decide +kernel)⟩
  have hreceives₂ : Receives wrap32 saltTable 60 0 saltStream s (sentInPieces 0) s₂ :=
    ⟨hrun₂, by decide, by decide +kernel, hr₂, Or.inr (by rw [hfd₂]; decide)⟩
  exact ⟨s, s₁, s₂, hreceives₁, hreceives₂,
    framing_independent wrap32 saltTable 1 60 0 saltStream s s₁ s₂ (sentWhole 0) (sentInPieces 0)
      hreach
      (by rw [hs]; rfl) hreceives₁ hreceives₂⟩

end Cse344.HW6
