import Cse344.HW6.Usernames

/-!
# Roles in HW6

What one call of `handle_command` (`HW6/hogwarts.c` 382-477) may change, in exact arithmetic. The
authorization is spread over its chain of verb tests; `stated` is what a line asks for.

* `RoleFrame`: the records of the other clients stay; the stocks and the sender's spellbook change
  only for a wizard whose `BREW` or `CONSUME` is answered with `OK`, and then one ingredient by what
  the line says (`Moves`); an `ERR` answer changes nothing; name and type of an enrolled client
  stay.
* The type of a client is set by `ENROLL` alone, and a second `ENROLL` is refused.

Results:
* `spellAdd_cases`: a `BREW` into a full book moves the stock alone.
* `Effect.roleFrame`: each effect of a command is within the frame.
* `enrolment_step`: a step of the server keeps name and type too, or removes the client.
* **`role_frame`**: all this for every line of every client in every reachable state.

Out of scope: overflow, which changes by how much a quantity moves and nothing else here.
-/

namespace Cse344.HW6

open Cse344.Lib

variable {n m : ℕ} {t : Table m} {s s' : Server n m} {idx : Fin n} {line : CStr}
  {timeoutSec : ℤ} {act : Act n}

/-- The ingredient a line names, and what it asks to add to its stock: `BREW` adds, `CONSUME`
takes. -/
def stated (line : CStr) : Option (CStr × ℤ) :=
  match tokens line with
  | (some cmd, some ing, some qs) =>
    if cmd = cstr "BREW" then (parsePositiveInt qs).map fun qty => (ing, qty)
    else if cmd = cstr "CONSUME" then (parsePositiveInt qs).map fun qty => (ing, -qty)
    else none
  | _ => none

/-- The stock of `ing` changes by `δ`, and what the spellbook of `idx` holds of it too, unless the
book is full; nothing else of the stocks and the book changes. -/
structure Moves (s s' : Server n m) (idx : Fin n) (ing : CStr) (δ : ℤ) : Prop where
  stock : ∃ k, findIngredient s ing = some k ∧ ∀ k',
    (s'.ingredients k').name = (s.ingredients k').name ∧
      (s'.ingredients k').qty = (s.ingredients k').qty + if k' = k then δ else 0
  book : (s'.clients idx).spellbook = (s.clients idx).spellbook ∨
    ∀ a, bookQty (s'.clients idx).spellbook a =
      bookQty (s.clients idx).spellbook a + if a = ing then δ else 0

/-- What a command leaves alone. -/
structure RoleFrame (s s' : Server n m) (idx : Fin n) (line : CStr) : Prop where
  others : ∀ i, i ≠ idx → s'.clients i = s.clients i
  quantities : s'.ingredients ≠ s.ingredients ∨
      (s'.clients idx).spellbook ≠ (s.clients idx).spellbook →
    (s.clients idx).enrolled = true ∧ (s.clients idx).type = cstr "WIZARD" ∧
      ∃ ing δ text, stated line = some (ing, δ) ∧ Moves s s' idx ing δ ∧
        s'.sent = s.sent ++ [((s.clients idx).fd, text)] ∧ (cstr "OK ").isPrefixOf text
  refused : ∀ text, s'.sent = s.sent ++ [((s.clients idx).fd, text)] →
    (cstr "ERR ").isPrefixOf text → s'.ingredients = s.ingredients ∧ s'.clients = s.clients
  enrolment : (s.clients idx).enrolled = true → (s'.clients idx).enrolled = true ∧
    (s'.clients idx).username = (s.clients idx).username ∧
    (s'.clients idx).type = (s.clients idx).type

/-- A command that changes no record. -/
theorem RoleFrame.of_eq (hi : s'.ingredients = s.ingredients) (hc : s'.clients = s.clients) :
    RoleFrame s s' idx line where
  others := fun i _ => by rw [hc]
  quantities := by
    rintro (h | h)
    · exact absurd hi h
    · exact absurd (by rw [hc]) h
  refused := fun _ _ _ => ⟨hi, hc⟩
  enrolment := fun h => by
    rw [hc]
    exact ⟨h, rfl, rfl⟩

/-- A `BREW` or `CONSUME` that is answered with `OK`. -/
theorem RoleFrame.of_moves {ing text : CStr} {δ : ℤ} {k : Fin m} {stock : ℤ}
    {book : List SpellEntry} (henrolled : (s.clients idx).enrolled = true)
    (htype : (s.clients idx).type = cstr "WIZARD") (hstated : stated line = some (ing, δ))
    (hk : findIngredient s ing = some k) (hstock : stock = (s.ingredients k).qty + δ)
    (hbook : book = (s.clients idx).spellbook ∨ ∀ a, bookQty book a =
      bookQty (s.clients idx).spellbook a + if a = ing then δ else 0)
    (hok : (cstr "OK ").isPrefixOf text) :
    RoleFrame s ((s.exchange idx k stock book).reply idx text) idx line := by
  obtain ⟨s', hs'⟩ : ∃ s', s' = (s.exchange idx k stock book).reply idx text := ⟨_, rfl⟩
  have hself : s'.clients idx = { s.clients idx with spellbook := book } := by
    rw [hs']
    exact exchange_reply_self s idx k stock book text
  have hsent : s'.sent = s.sent ++ [((s.clients idx).fd, text)] := by
    rw [hs']
    exact exchange_reply_sent s idx k stock book text
  rw [← hs']
  refine ⟨fun i hi => ?_, fun _ => ⟨henrolled, htype, ing, δ, text, hstated, ⟨⟨k, hk, ?_⟩, ?_⟩,
    hsent, hok⟩, fun text' hsent' herr => ?_, fun h => ?_⟩
  · rw [hs']
    exact Function.update_of_ne hi _ _
  · rw [hs', hstock]
    exact fun k' => update_stock s k k' δ
  · rw [hself]
    exact hbook
  · exact absurd (answer_unique hsent hsent' ▸ herr) (not_err_of_ok hok)
  · rw [hself]
    exact ⟨h, rfl, rfl⟩

/-- `spell_add` adds, or leaves a full book. -/
theorem spellAdd_cases {known : CStr → Prop} {book : List SpellEntry} {name : CStr} {qty : ℤ}
    (h : Book known book) (hname : known name) (hlen : name.length < maxIngredientLen)
    (hqty : 0 < qty) :
    (spellAdd unbounded book name qty).1 = book ∨
      ∀ a, bookQty (spellAdd unbounded book name qty).1 a =
        bookQty book a + if a = name then qty else 0 := by
  obtain ⟨-, hadd⟩ := spellAdd_spec h hname hlen hqty
  cases hdone : (spellAdd unbounded book name qty).2 with
  | true => exact .inr fun a => by simpa [hdone] using hadd a
  | false =>
    refine .inl ?_
    unfold spellAdd at hdone ⊢
    split
    · rename_i idx hidx
      rw [hidx] at hdone
      cases hdone
    · rename_i hnone
      rw [hnone] at hdone
      dsimp only at hdone
      split_ifs at hdone ⊢
      rfl

theorem Effect.roleFrame (hc : StockCovers t s) (he : Effect unbounded s idx line s') :
    RoleFrame s s' idx line := by
  cases he with
  | silent => exact .of_eq rfl rfl
  | reply text => exact .of_eq rfl rfl
  | enroll role uname text hnew htokens hrole hlen hfree hok =>
    have hself :
        ((s.setClient idx ((s.clients idx).enroll role uname)).reply idx text).clients idx =
        (s.clients idx).enroll role uname := Function.update_self _ _ _
    have hsent : ((s.setClient idx ((s.clients idx).enroll role uname)).reply idx text).sent =
        s.sent ++ [((s.clients idx).fd, text)] := by
      unfold Server.reply sendLine
      rw [setClient_clients, Function.update_self]
      rfl
    refine ⟨fun i hi => Function.update_of_ne hi _ _, ?_, fun text' hsent' herr => ?_, fun h => ?_⟩
    · rintro (h | h)
      · exact absurd rfl h
      · exact absurd (congrArg Client.spellbook hself) h
    · exact absurd (answer_unique hsent hsent' ▸ herr) (not_err_of_ok hok)
    · exact absurd (h.symm.trans hnew) (by decide)
  | brew ing qs text qty k henrolled htype htokens hqty hk hok =>
    refine .of_moves henrolled htype ?_ hk rfl ?_ hok
    · unfold stated
      rw [htokens]
      dsimp only
      rw [if_pos rfl, hqty]
      rfl
    · obtain rfl := findIngredient_spec hc hk
      exact spellAdd_cases (hc.books idx) ⟨k, rfl⟩ (length_lt_of_valid (t.valid k))
        (parsePositiveInt_pos hqty)
  | consume ing qs text qty k henrolled htype htokens hqty hk hle hok =>
    have hstated : stated line = some (ing, -qty) := by
      unfold stated
      rw [htokens]
      dsimp only
      rw [if_neg (by decide), if_pos rfl, hqty]
      rfl
    refine .of_moves henrolled htype hstated hk (sub_eq_add_neg _ _) (.inr fun a => ?_) hok
    rw [spellQty_eq (hc.books idx).toNames] at hle
    rw [(spellSub_spec (hc.books idx) (parsePositiveInt_pos hqty) hle).2 a]
    split_ifs <;> ring

/-- A step keeps who is enrolled, until the client is removed. -/
theorem enrolment_step {i : Fin n} (hi : s.Attends) (hslots : Slots s)
    (hs : serverStep unbounded timeoutSec s act = some s')
    (henrolled : (s.clients i).enrolled = true) :
    (s'.clients i).Gone ∨ (s'.clients i).enrolled = true ∧
      (s'.clients i).username = (s.clients i).username ∧
      (s'.clients i).type = (s.clients i).type := by
  rcases serverStep_cases hi hs with hstays | ⟨slot, haccepts⟩ |
    ⟨-, idx, line, role, uname, henrolment⟩
  · rcases hstays i with hsame | hgone
    · exact .inr ⟨hsame.enrolled_eq.trans henrolled, hsame.username_eq, hsame.type_eq⟩
    · exact .inl hgone
  · have hne : i ≠ slot := by
      rintro rfl
      exact absurd (henrolled.symm.trans (hslots.free i haccepts.was_free).1) (by decide)
    rw [haccepts.others i hne]
    exact .inr ⟨henrolled, rfl, rfl⟩
  · have hne : i ≠ idx := by
      rintro rfl
      exact absurd (henrolled.symm.trans henrolment.enrolls.not_enrolled) (by decide)
    rw [henrolment.enrolls.others i hne]
    exact .inr ⟨henrolled, rfl, rfl⟩

/-- **Roles and frames**, for every line of every client of a reachable state, whatever is left in
the buffers; and an enrolled client keeps its name and its type until it is removed. -/
theorem role_frame (t : Table m) (n : ℕ) (timeoutSec : ℤ) (s : Server n m)
    (hs : (hogwarts unbounded t n timeoutSec).Reachable s) :
    (∀ bufs rd idx line, RoleFrame (s.withBufs bufs rd)
      (handleCommand unbounded (s.withBufs bufs rd) idx line).1 idx line) ∧
      ∀ act s', serverStep unbounded timeoutSec s act = some s' →
        ∀ i, (s.clients i).enrolled = true →
        (s'.clients i).Gone ∨ (s'.clients i).enrolled = true ∧
          (s'.clients i).username = (s.clients i).username ∧
          (s'.clients i).type = (s.clients i).type := by
  have hinv : Inv t s ∧ Slots s := hs.induct (I := fun s => Inv t s ∧ Slots s)
    ⟨inv_init, slots_init⟩ fun _ _ _ ⟨hi, hslots⟩ hstep =>
      ⟨inv_step hi hstep, slots_step hi.connected hslots hstep⟩
  refine ⟨fun bufs rd idx line => ?_, fun act s' hstep i henrolled => ?_⟩
  · exact (handleCommand_effect unbounded (s.withBufs bufs rd) idx line).roleFrame
      (t := t) ⟨hinv.1.covers.name_eq, hinv.1.covers.stock, hinv.1.covers.books⟩
  · exact enrolment_step hinv.1.connected hinv.2 hstep henrolled

theorem role_frame_saltRun :
    ∃ s : Server 2 1, (hogwarts unbounded saltTable 2 60).Reachable s ∧
      (s.clients 1).enrolled = true ∧ RoleFrame s
        (handleCommand unbounded s 1 (cstr "CONSUME SALT 1")).1 1 (cstr "CONSUME SALT 1") := by
  have h : ((hogwarts unbounded saltTable 2 60).runs (initial saltTable) (saltRun 1)).map (fun s =>
      (s.clients 1).enrolled) = some true := by
    decide +kernel
  obtain ⟨s, hrun, henrolled⟩ := Option.map_eq_some_iff.mp h
  have hreach : (hogwarts unbounded saltTable 2 60).Reachable s := Machine.runs_reachable hrun
  exact ⟨s, hreach, henrolled, (role_frame saltTable 2 60 s hreach).1 s.bufs s.reading 1 _⟩

end Cse344.HW6
