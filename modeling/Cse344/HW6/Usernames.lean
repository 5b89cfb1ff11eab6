import Cse344.HW6.Framing

/-!
# Usernames of HW6

What `run_server` (`HW6/hogwarts.c` 619-666) does to the client slots, whatever an `int` keeps of a
sum: a step keeps a slot as it is, or frees it (`remove_client`, 192-200), or gives a free one to a
new client (`accept_new_connection`, 588-617), or enrols one client under the name it sent
(`ENROLL`, 401-432).

* `Client.Same` and `Client.Gone` are the first two cases, for one slot; `username_taken` (182-190)
  is what keeps the names apart.
* `Slots` is the invariant: connected enrolled clients have different names of 1 to 31 bytes, and a
  free slot holds nothing.
* `SentName` says that a name is the token of a line its client has sent in the run so far.

Results:
* **`serverStep_cases`**: the four cases, for all slots at once.
* `slots_step`, `sentName_step`: a step keeps the invariant, and a name stays what was sent.
* **`usernames_exact`**: both hold in every state of a run.

Out of scope: which bytes a name has; commas and a `\r` are allowed, and matter to
`Cse344.HW6.Listings` and `Cse344.HW6.Replies`.
-/

namespace Cse344.HW6

open Cse344.Lib

variable {int : ℤ → ℤ} {n m : ℕ} {t : Table m} {s s' s₁ : Server n m} {idx i : Fin n} {line : CStr}
  {timeoutSec : ℤ} {act : Act n} {c c' : Client}

/-! ## Slots -/

/-- A free slot: `remove_client` leaves one. -/
structure Client.Gone (c : Client) : Prop where
  free : c.fd < 0
  not_enrolled : c.enrolled = false
  book_eq : c.spellbook = []

/-- Who is in the slot, and what a free slot holds, stays. -/
structure Client.Same (c c' : Client) : Prop where
  fd_eq : c'.fd = c.fd
  enrolled_eq : c'.enrolled = c.enrolled
  username_eq : c'.username = c.username
  type_eq : c'.type = c.type
  book_eq : c.fd < 0 → c'.spellbook = c.spellbook

/-- The slot is as it was, or is free now. -/
def Client.Stays (c c' : Client) : Prop := c.Same c' ∨ c'.Gone

theorem Client.Same.refl (c : Client) : c.Same c := ⟨rfl, rfl, rfl, rfl, fun _ => rfl⟩

theorem Client.Stays.refl (c : Client) : c.Stays c := .inl (.refl c)

theorem Client.Same.trans {c'' : Client} (h : c.Same c') (h' : c'.Same c'') : c.Same c'' where
  fd_eq := h'.fd_eq.trans h.fd_eq
  enrolled_eq := h'.enrolled_eq.trans h.enrolled_eq
  username_eq := h'.username_eq.trans h.username_eq
  type_eq := h'.type_eq.trans h.type_eq
  book_eq := fun hfree => (h'.book_eq (h.fd_eq ▸ hfree)).trans (h.book_eq hfree)

theorem Client.Gone.same (h : c.Gone) (h' : c.Same c') : c'.Gone where
  free := h'.fd_eq ▸ h.free
  not_enrolled := h'.enrolled_eq.trans h.not_enrolled
  book_eq := (h'.book_eq h.free).trans h.book_eq

theorem Client.Stays.trans {c'' : Client} (h : c.Stays c') (h' : c'.Stays c'') : c.Stays c'' := by
  rcases h' with h' | h'
  · rcases h with h | h
    · exact .inl (h.trans h')
    · exact .inr (h.same h')
  · exact .inr h'

theorem Client.gone_reset : Client.reset.Gone := ⟨by decide, rfl, rfl⟩

def Server.Stays (s s' : Server n m) : Prop := ∀ i, (s.clients i).Stays (s'.clients i)

theorem Server.Stays.refl (s : Server n m) : s.Stays s := fun i => .refl (s.clients i)

theorem Server.Stays.trans (h : s.Stays s₁) (h' : s₁.Stays s') : s.Stays s' :=
  fun i => (h i).trans (h' i)

/-- Only one slot changes. -/
theorem Server.Stays.update (hclients : s'.clients = Function.update s.clients idx c)
    (h : (s.clients idx).Stays c) : s.Stays s' := by
  unfold Server.Stays
  rw [hclients]
  exact rel_update Client.Stays.refl h

/-- A step that handles no command keeps or frees the slots. -/
theorem stays_rests : Rests (Server.Stays : Server n m → Server n m → Prop) where
  refl := .refl
  trans := .trans
  send := fun s _ _ => .refl s
  reset := fun _ _ => .update rfl (.inr Client.gone_reset)
  fill := fun _ _ _ _ => .update rfl (.inl ⟨rfl, rfl, rfl, rfl, fun _ => rfl⟩)
  place := fun s _ _ => .refl s

/-! ## Steps -/

/-- A client enrols under the name it sent. -/
structure Server.Enrolls (s s' : Server n m) (idx : Fin n) (role uname : CStr) : Prop where
  others : ∀ i, i ≠ idx → s'.clients i = s.clients i
  connected : 0 ≤ (s.clients idx).fd
  fd_eq : (s'.clients idx).fd = (s.clients idx).fd
  not_enrolled : (s.clients idx).enrolled = false
  enrolled : (s'.clients idx).enrolled = true
  username_eq : (s'.clients idx).username = uname
  type_eq : (s'.clients idx).type = role
  book_eq : (s'.clients idx).spellbook = (s.clients idx).spellbook
  role_eq : role = cstr "WIZARD" ∨ role = cstr "PROFESSOR"
  length : 0 < uname.length ∧ uname.length < maxUsernameLen
  free : ∀ i, i ≠ idx → 0 ≤ (s.clients i).fd → (s.clients i).enrolled = true →
    (s.clients i).username ≠ uname

theorem ne_of_free {uname : CStr} (hfree : usernameTaken s uname idx = false) (hi : i ≠ idx)
    (hfd : 0 ≤ (s.clients i).fd) (henrolled : (s.clients i).enrolled = true) :
    (s.clients i).username ≠ uname := by
  intro heq
  have hno := List.any_eq_false.mp hfree i (List.mem_finRange i)
  simp [hi, hfd, henrolled, heq] at hno

/-- A line keeps the slots, or enrols its client. -/
theorem Effect.stays (he : Effect int s idx line s') (hfd : 0 ≤ (s.clients idx).fd) :
    s.Stays s' ∨ ∃ role uname, s.Enrolls s' idx role uname ∧
      tokens line = (some (cstr "ENROLL"), some role, some uname) := by
  cases he with
  | silent => exact .inl (.refl s)
  | reply text => exact .inl (.refl s)
  | enroll role uname text hnew htokens hrole hlen hfree hok =>
    refine .inr ⟨role, uname, ?_, htokens⟩
    have hself :
        ((s.setClient idx ((s.clients idx).enroll role uname)).reply idx text).clients idx =
        (s.clients idx).enroll role uname := Function.update_self _ _ _
    have hroleLen : role.length ≤ maxTypeLen - 1 := by
      rcases hrole with rfl | rfl
      · decide
      · decide
    refine ⟨fun i hi => Function.update_of_ne hi _ _, hfd, ?_, hnew, ?_, ?_, ?_, ?_, hrole, hlen,
      fun i hi => ne_of_free hfree hi⟩
    · rw [hself]
      rfl
    · rw [hself]
      rfl
    · rw [hself]
      exact List.take_of_length_le (Nat.le_pred_of_lt hlen.2)
    · rw [hself]
      exact List.take_of_length_le hroleLen
    · rw [hself]
      rfl
  | brew =>
    refine .inl (.update rfl (.inl ⟨rfl, rfl, rfl, rfl, fun hfree => ?_⟩))
    exact absurd hfree (not_lt.mpr hfd)
  | consume =>
    refine .inl (.update rfl (.inl ⟨rfl, rfl, rfl, rfl, fun hfree => ?_⟩))
    exact absurd hfree (not_lt.mpr hfd)

/-- The rest of the buffer is put back before. -/
theorem Server.Enrolls.of_putBack {buf : List UInt8} {role uname : CStr}
    (h : (s.setClient idx { s.clients idx with lineBuf := buf }).Enrolls s' idx role uname) :
    s.Enrolls s' idx role uname := by
  have hself : (s.setClient idx { s.clients idx with lineBuf := buf }).clients idx =
      { s.clients idx with lineBuf := buf } := Function.update_self _ _ _
  have hother : ∀ i, i ≠ idx →
      (s.setClient idx { s.clients idx with lineBuf := buf }).clients i = s.clients i :=
    fun i hi => Function.update_of_ne hi _ _
  exact
    { others := fun i hi => (h.others i hi).trans (hother i hi)
      connected := by
        have hconn := h.connected
        rwa [hself] at hconn
      fd_eq := by rw [h.fd_eq, hself]
      not_enrolled := by
        have hno := h.not_enrolled
        rwa [hself] at hno
      enrolled := h.enrolled
      username_eq := h.username_eq
      type_eq := h.type_eq
      book_eq := by rw [h.book_eq, hself]
      role_eq := h.role_eq
      length := h.length
      free := fun i hi => by
        have hfree := h.free i hi
        rwa [hother i hi] at hfree }

/-- Only `APPARATE` closes the connection. -/
theorem handleCommand_close (h : (handleCommand int s idx line).2 = true) :
    (tokens line).1 = some (cstr "APPARATE") := by
  have hdispatch := handleCommand_dispatch int s idx line
  generalize handleCommand int s idx line = r at hdispatch h
  cases hdispatch with
  | apparate args hcmd => rw [tokens_eq hcmd]
  | _ => cases h

/-- A client sends `line`, and enrols with it. -/
structure Enrolment (int : ℤ → ℤ) (s s' : Server n m) (idx : Fin n) (line role uname : CStr) :
    Prop where
  reading_eq : s.reading = some idx
  command : .command line ∈ events int s .line
  tokens_eq : tokens line = (some (cstr "ENROLL"), some role, some uname)
  enrolls : s.Enrolls s' idx role uname

/-- A command on the line that was taken out of the buffer. -/
theorem taken_cases (int : ℤ → ℤ) (s : Server n m) (idx : Fin n) (hfd : 0 ≤ (s.clients idx).fd)
    (line : CStr) :
    let s' := (handleCommand int (s.taken idx) idx line).1
    s.Stays s' ∨ ∃ role uname, s.Enrolls s' idx role uname ∧
      tokens line = (some (cstr "ENROLL"), some role, some uname) := by
  have hfd' : 0 ≤ ((s.taken idx).clients idx).fd := by
    rw [taken_self]
    exact hfd
  have hput : s.Stays (s.taken idx) := .update rfl (.inl ⟨rfl, rfl, rfl, rfl, fun _ => rfl⟩)
  rcases (handleCommand_effect int _ idx line).stays hfd' with
    hstays | ⟨role, uname, henrolls, htokens⟩
  · exact .inl (hput.trans hstays)
  · exact .inr ⟨role, uname, henrolls.of_putBack, htokens⟩

theorem command_cases (hfd : 0 ≤ (s.clients idx).fd)
    (hs : serverStep int timeoutSec s act = some s')
    (hcmd : commandOf s act = some (idx, line)) :
    s.Stays s' ∨ ∃ role uname, Enrolment int s s' idx line role uname := by
  have hcases := taken_cases int s idx hfd line
  have hs' := serverStep_command hs hcmd
  have hcommand := command_mem_events int hcmd
  obtain ⟨rfl, hr, -, -⟩ := commandOf_eq_some hcmd
  split_ifs at hs' with hclose
  · rcases hcases with hstays | ⟨role, uname, -, htokens⟩
    · rw [hs']
      exact .inl (hstays.trans
        ((stays_rests.removeClient _ idx).trans (stays_rests.place _ none _)))
    · have happarate := handleCommand_close hclose
      rw [htokens] at happarate
      exact absurd (Option.some.inj happarate) (by decide)
  · rcases hcases with hstays | ⟨role, uname, henrolls, htokens⟩
    · exact .inl (hs' ▸ hstays)
    · exact .inr ⟨role, uname, hr, hcommand, htokens, hs' ▸ henrolls⟩

/-- A new client gets a free slot. -/
structure Server.Accepts (s s' : Server n m) (slot : Fin n) : Prop where
  others : ∀ i, i ≠ slot → s'.clients i = s.clients i
  was_free : (s.clients slot).fd < 0
  connected : 0 ≤ (s'.clients slot).fd
  not_enrolled : (s'.clients slot).enrolled = false

theorem Server.Accepts.of_free {slot : Fin n} (h : findFreeSlot s = some slot) (cfd : ℕ) (now : ℤ) :
    s.Accepts (s.setClient slot { Client.reset with fd := cfd, lastActive := now }) slot := by
  refine ⟨fun i hi => Function.update_of_ne hi _ _, ?_, ?_, ?_⟩
  · simpa using List.find?_some h
  · rw [setClient_clients, Function.update_self]
    exact Int.natCast_nonneg cfd
  · rw [setClient_clients, Function.update_self]
    rfl

/-- **What a step does to the slots.** -/
theorem serverStep_cases (hi : s.Attends) (hs : serverStep int timeoutSec s act = some s') :
    s.Stays s' ∨ (∃ slot, s.Accepts s' slot) ∨
      (act = .line ∧ ∃ idx line role uname, Enrolment int s s' idx line role uname) := by
  cases hcmd : commandOf s act with
  | none =>
    rcases serverStep_rests stays_rests hs hcmd with hstays | ⟨slot, cfd, now, hslot, rfl⟩
    · exact .inl hstays
    · exact .inr (.inl ⟨slot, .of_free hslot cfd now⟩)
  | some command =>
    obtain ⟨idx, line⟩ := command
    obtain ⟨rfl, hr, -, -⟩ := commandOf_eq_some hcmd
    rcases command_cases (hi idx hr) hs hcmd with hstays | henrolment
    · exact .inl hstays
    · exact .inr (.inr ⟨rfl, idx, line, henrolment⟩)

/-! ## The invariant -/

/-- Connected enrolled clients have different names, of 1 to 31 bytes; a free slot holds nothing. -/
structure Slots (s : Server n m) : Prop where
  unique : ∀ i j, 0 ≤ (s.clients i).fd → (s.clients i).enrolled = true → 0 ≤ (s.clients j).fd →
    (s.clients j).enrolled = true → (s.clients i).username = (s.clients j).username → i = j
  length : ∀ i, (s.clients i).enrolled = true →
    0 < (s.clients i).username.length ∧ (s.clients i).username.length < maxUsernameLen
  free : ∀ i, (s.clients i).fd < 0 →
    (s.clients i).enrolled = false ∧ (s.clients i).spellbook = []

/-- Who is enrolled after a step that keeps the slots was so before. -/
theorem Client.Stays.enrolled (h : c.Stays c') (henrolled : c'.enrolled = true) :
    c.Same c' := by
  rcases h with h | h
  · exact h
  · exact absurd (h.not_enrolled.symm.trans henrolled) (by decide)

theorem Slots.stays (hslots : Slots s) (h : s.Stays s') : Slots s' where
  unique := fun i j hfd hi hfd' hj heq => by
    have hsame := (h i).enrolled hi
    have hsame' := (h j).enrolled hj
    exact hslots.unique i j (hsame.fd_eq ▸ hfd) (hsame.enrolled_eq ▸ hi) (hsame'.fd_eq ▸ hfd')
      (hsame'.enrolled_eq ▸ hj) (hsame.username_eq ▸ hsame'.username_eq ▸ heq)
  length := fun i hi => by
    have hsame := (h i).enrolled hi
    rw [hsame.username_eq]
    exact hslots.length i (hsame.enrolled_eq ▸ hi)
  free := fun i hfree => by
    rcases h i with hsame | hgone
    · have hfree' : (s.clients i).fd < 0 := hsame.fd_eq ▸ hfree
      rw [hsame.enrolled_eq, hsame.book_eq hfree']
      exact hslots.free i hfree'
    · exact ⟨hgone.not_enrolled, hgone.book_eq⟩

theorem Slots.accepts {slot : Fin n} (hslots : Slots s) (h : s.Accepts s' slot) : Slots s' := by
  have henrolled : ∀ i, (s'.clients i).enrolled = true → i ≠ slot := by
    rintro i hi rfl
    exact absurd (hi.symm.trans h.not_enrolled) (by decide)
  refine ⟨fun i j hfd hi hfd' hj heq => ?_, fun i hi => ?_, fun i hfree => ?_⟩
  · have hsame := h.others i (henrolled i hi)
    have hsame' := h.others j (henrolled j hj)
    rw [hsame] at hfd hi heq
    rw [hsame'] at hfd' hj heq
    exact hslots.unique i j hfd hi hfd' hj heq
  · have hsame := h.others i (henrolled i hi)
    rw [hsame] at hi ⊢
    exact hslots.length i hi
  · have hne : i ≠ slot := by
      rintro rfl
      exact absurd h.connected (not_le.mpr hfree)
    rw [h.others i hne] at hfree ⊢
    exact hslots.free i hfree

theorem Slots.enrolls {role uname : CStr} (hslots : Slots s) (h : s.Enrolls s' idx role uname) :
    Slots s' := by
  refine ⟨fun i j hfd hi hfd' hj heq => ?_, fun i hi => ?_, fun i hfree => ?_⟩
  · by_cases hidx : i = idx
    · by_cases hjdx : j = idx
      · rw [hidx, hjdx]
      · rw [h.others j hjdx] at hfd' hj heq
        rw [hidx, h.username_eq] at heq
        exact absurd heq.symm (h.free j hjdx hfd' hj)
    · rw [h.others i hidx] at hfd hi heq
      by_cases hjdx : j = idx
      · rw [hjdx, h.username_eq] at heq
        exact absurd heq (h.free i hidx hfd hi)
      · rw [h.others j hjdx] at hfd' hj heq
        exact hslots.unique i j hfd hi hfd' hj heq
  · by_cases hidx : i = idx
    · rw [hidx, h.username_eq]
      exact h.length
    · rw [h.others i hidx] at hi ⊢
      exact hslots.length i hi
  · by_cases hidx : i = idx
    · rw [hidx, h.fd_eq] at hfree
      exact absurd h.connected (not_le.mpr hfree)
    · rw [h.others i hidx] at hfree ⊢
      exact hslots.free i hfree

theorem slots_step (hi : s.Attends) (hslots : Slots s)
    (hs : serverStep int timeoutSec s act = some s') : Slots s' := by
  rcases serverStep_cases hi hs with hstays | ⟨slot, haccepts⟩ |
    ⟨-, idx, line, role, uname, henrolment⟩
  · exact hslots.stays hstays
  · exact hslots.accepts haccepts
  · exact hslots.enrolls henrolment.enrolls

theorem slots_init : Slots (initial t : Server n m) := by
  have hfd : ¬ (0 : ℤ) ≤ Client.reset.fd := by decide
  refine ⟨fun i j hconn => absurd hconn hfd, fun i henrolled => ?_, fun i _ => ⟨rfl, rfl⟩⟩
  exact absurd henrolled Bool.false_ne_true

/-! ## Names and tokens -/

/-- In the run `as`, the client in slot `i` has sent a line, has enrolled with it, and has been
there since; its name is the second argument of that line. -/
def SentName (int : ℤ → ℤ) (t : Table m) (timeoutSec : ℤ) (as : List (Act n)) (s : Server n m)
    (i : Fin n) : Prop :=
  ∃ as₁ as₂ s₁ s₂ line role, as = as₁ ++ .line :: as₂ ∧
    (hogwarts int t n timeoutSec).runs (initial t) as₁ = some s₁ ∧
    (hogwarts int t n timeoutSec).step s₁ .line = some s₂ ∧
    (hogwarts int t n timeoutSec).runs s₂ as₂ = some s ∧
    s₁.reading = some i ∧ .command line ∈ events int s₁ .line ∧
    tokens line = (some (cstr "ENROLL"), some role, some (s.clients i).username) ∧
    (hogwarts int t n timeoutSec).AllStates (fun x => (x.clients i).enrolled = true) s₂ as₂

/-- A step after which the client is still enrolled, under the same name. -/
theorem SentName.concat {as : List (Act n)} (h : SentName int t timeoutSec as s i)
    (hs : serverStep int timeoutSec s act = some s') (henrolled : (s'.clients i).enrolled = true)
    (hname : (s'.clients i).username = (s.clients i).username) :
    SentName int t timeoutSec (as ++ [act]) s' i := by
  obtain ⟨as₁, as₂, s₁, s₂, line, role, rfl, hrun, hstep, hrest, hr, hcommand, htokens, hall⟩ := h
  refine ⟨as₁, as₂ ++ [act], s₁, s₂, line, role, by simp, hrun, hstep, ?_, hr, hcommand,
    hname ▸ htokens, hall.concat hrest hs henrolled⟩
  rw [Machine.runs_append, hrest]
  exact congrArg (fun x : Option (Server n m) => x.bind some) hs

/-- Every name is the one that was sent. -/
theorem sentName_step {as : List (Act n)} (hi : s.Attends)
    (hrun : (hogwarts int t n timeoutSec).runs (initial t) as = some s)
    (hsent : ∀ i, (s.clients i).enrolled = true → SentName int t timeoutSec as s i)
    (hs : serverStep int timeoutSec s act = some s') (henrolled : (s'.clients i).enrolled = true) :
    SentName int t timeoutSec (as ++ [act]) s' i := by
  rcases serverStep_cases hi hs with hstays | ⟨slot, haccepts⟩ |
    ⟨rfl, idx, line, role, uname, henrolment⟩
  · have hsame := (hstays i).enrolled henrolled
    exact (hsent i (hsame.enrolled_eq ▸ henrolled)).concat hs henrolled hsame.username_eq
  · have hne : i ≠ slot := by
      rintro rfl
      exact absurd (henrolled.symm.trans haccepts.not_enrolled) (by decide)
    have hsame := haccepts.others i hne
    exact (hsent i (hsame ▸ henrolled)).concat hs henrolled (congrArg Client.username hsame)
  · by_cases hidx : i = idx
    · subst hidx
      refine ⟨as, [], s, s', line, role, rfl, hrun, hs, rfl, henrolment.reading_eq,
        henrolment.command, ?_, henrolled⟩
      rw [henrolment.enrolls.username_eq]
      exact henrolment.tokens_eq
    · have hsame := henrolment.enrolls.others i hidx
      exact (hsent i (hsame ▸ henrolled)).concat hs henrolled (congrArg Client.username hsame)

/-- **Names are unique, and what was sent**: in every state of a run, connected enrolled clients
have different names, each the token of a line its client has sent, with 1 to 31 bytes, and a free
slot holds nothing. -/
theorem usernames_exact (int : ℤ → ℤ) (t : Table m) (n : ℕ) (timeoutSec : ℤ) (as : List (Act n))
    (s : Server n m) (h : (hogwarts int t n timeoutSec).runs (initial t) as = some s) :
    Slots s ∧ ∀ i, (s.clients i).enrolled = true → SentName int t timeoutSec as s i := by
  have hall := Machine.runs_induct (M := hogwarts int t n timeoutSec)
    (I := fun as s => s.Attends ∧ Slots s ∧
      ∀ i, (s.clients i).enrolled = true → SentName int t timeoutSec as s i)
    ⟨attends_init, slots_init, fun i henrolled => absurd henrolled Bool.false_ne_true⟩
    (fun as s act s' hrun ⟨hi, hslots, hsent⟩ hs => ⟨attends_step hi hs, slots_step hi hslots hs,
      fun i henrolled => sentName_step hi hrun hsent hs henrolled⟩) h
  exact hall.2

/-- The wizard of `saltRun` has sent its name. -/
theorem usernames_exact_saltRun :
    ∃ s : Server 2 1,
      (hogwarts wrap32 saltTable 2 60).runs (initial saltTable) (saltRun 1) = some s ∧
        (s.clients 1).username = cstr "gandalf" ∧ Slots s ∧ ∀ i,
          (s.clients i).enrolled = true → SentName wrap32 saltTable 60 (saltRun 1) s i := by
  have h : ((hogwarts wrap32 saltTable 2 60).runs (initial saltTable) (saltRun 1)).map (fun s =>
      (s.clients 1).username) = some (cstr "gandalf") := by
    decide +kernel
  obtain ⟨s, hrun, hname⟩ := Option.map_eq_some_iff.mp h
  exact ⟨s, hrun, hname, usernames_exact wrap32 saltTable 2 60 (saltRun 1) s hrun⟩

end Cse344.HW6
