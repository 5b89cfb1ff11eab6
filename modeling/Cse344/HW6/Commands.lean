import Cse344.HW6.Hogwarts

/-!
# What a command does to the server of HW6

One call of `handle_command` (`HW6/hogwarts.c` 382-477), and with it of the six functions for single
commands (244-380), as one of five `Effect`s: nothing, only a reply, an `ENROLL`, a `BREW` or a
`CONSUME`.

* Each case carries what the code has tested before it writes: the tokens of the line, the type of
  the client, the quantity and the ingredient.
* What is only a reply may be an error; the other three are answered with a line that starts with
  `OK`. What an `int` keeps of a sum is a parameter.

Results:
* `cmdEnroll_effect`, `cmdBrew_effect` and the like: one lemma for each command.
* **`handleCommand_effect`**: every call is one of the five.
* `not_err_of_ok`, `answer_unique`: an answer is one line, and no `ERR` line is an `OK` line.

Out of scope: what the texts say; `Cse344.HW6.Replies` and `Cse344.HW6.Listings` are about them.
-/

namespace Cse344.HW6

open Cse344.Lib

variable {int : ℤ → ℤ} {n m : ℕ} {s s' : Server n m} {idx : Fin n} {line args : CStr}

/-- The first three tokens of a line: a command and its arguments. -/
def tokens (line : CStr) : Option CStr × Option CStr × Option CStr :=
  let (cmd, args) := strtok blanks line
  let (first, args) := strtok blanks args
  let (second, _) := strtok blanks args
  (cmd, first, second)

/-- The two tokens after the command. -/
theorem tokens_eq {cmd : CStr} (h : strtok blanks line = (some cmd, args)) :
    tokens line = (some cmd, (strtok blanks args).1, (strtok blanks (strtok blanks args).2).1) := by
  unfold tokens
  rw [h]

/-- The client that `ENROLL` makes of `c`. -/
def Client.enroll (c : Client) (role uname : CStr) : Client :=
  { c with
    type := role.take (maxTypeLen - 1)
    username := uname.take (maxUsernameLen - 1)
    enrolled := true }

/-- The stock of ingredient `k` becomes `stock`, and the spellbook of `idx` becomes `book`. -/
def Server.exchange (s : Server n m) (idx : Fin n) (k : Fin m) (stock : ℤ)
    (book : List SpellEntry) : Server n m :=
  { s with
    ingredients := Function.update s.ingredients k ⟨(s.ingredients k).name, stock⟩ }.setClient idx
    { s.clients idx with spellbook := book }

theorem exchange_reply_self (s : Server n m) (idx : Fin n) (k : Fin m) (stock : ℤ)
    (book : List SpellEntry) (text : CStr) :
    ((s.exchange idx k stock book).reply idx text).clients idx =
      { s.clients idx with spellbook := book } :=
  Function.update_self _ _ _

theorem exchange_reply_sent (s : Server n m) (idx : Fin n) (k : Fin m) (stock : ℤ)
    (book : List SpellEntry) (text : CStr) :
    ((s.exchange idx k stock book).reply idx text).sent =
      s.sent ++ [((s.clients idx).fd, text)] := by
  unfold Server.exchange Server.reply sendLine
  rw [setClient_clients, Function.update_self]
  rfl

/-- What `handle_command` may do. -/
inductive Effect (int : ℤ → ℤ) (s : Server n m) (idx : Fin n) (line : CStr) : Server n m → Prop
  | silent : Effect int s idx line s
  | reply (text : CStr) : Effect int s idx line (s.reply idx text)
  | enroll (role uname text : CStr) (hnew : (s.clients idx).enrolled = false)
      (htokens : tokens line = (some (cstr "ENROLL"), some role, some uname))
      (hrole : role = cstr "WIZARD" ∨ role = cstr "PROFESSOR")
      (hlen : 0 < uname.length ∧ uname.length < maxUsernameLen)
      (hfree : usernameTaken s uname idx = false) (hok : (cstr "OK ").isPrefixOf text) :
    Effect int s idx line ((s.setClient idx ((s.clients idx).enroll role uname)).reply idx text)
  | brew (ing qs text : CStr) (qty : ℤ) (k : Fin m) (henrolled : (s.clients idx).enrolled = true)
      (htype : (s.clients idx).type = cstr "WIZARD")
      (htokens : tokens line = (some (cstr "BREW"), some ing, some qs))
      (hqty : parsePositiveInt qs = some qty) (hk : findIngredient s ing = some k)
      (hok : (cstr "OK ").isPrefixOf text) :
    Effect int s idx line ((s.exchange idx k (int ((s.ingredients k).qty + qty))
      (spellAdd int (s.clients idx).spellbook ing qty).1).reply idx text)
  | consume (ing qs text : CStr) (qty : ℤ) (k : Fin m)
      (henrolled : (s.clients idx).enrolled = true)
      (htype : (s.clients idx).type = cstr "WIZARD")
      (htokens : tokens line = (some (cstr "CONSUME"), some ing, some qs))
      (hqty : parsePositiveInt qs = some qty) (hk : findIngredient s ing = some k)
      (hle : qty ≤ spellQty (s.clients idx).spellbook ing) (hok : (cstr "OK ").isPrefixOf text) :
    Effect int s idx line ((s.exchange idx k (int ((s.ingredients k).qty - qty))
      (spellSub int (s.clients idx).spellbook ing qty)).reply idx text)

/-! ## Texts -/

/-- No `ERR` line starts with `OK`. -/
theorem not_err_of_ok {text : CStr} (h : (cstr "OK ").isPrefixOf text) :
    ¬ (cstr "ERR ").isPrefixOf text := by
  obtain ⟨rest, rfl⟩ := List.isPrefixOf_iff_prefix.mp h
  exact Bool.false_ne_true

/-- Only one answer was sent. -/
theorem answer_unique {text text' : CStr} {fd : ℤ} (h : s'.sent = s.sent ++ [(fd, text)])
    (h' : s'.sent = s.sent ++ [(fd, text')]) : text = text' := by
  have hsame := List.append_cancel_left (h.symm.trans h')
  exact (Prod.mk.inj (List.head_eq_of_cons_eq hsame)).2

/-! ## Commands -/

theorem cmdEnroll_effect (hcmd : strtok blanks line = (some (cstr "ENROLL"), args)) :
    Effect int s idx line (cmdEnroll s idx args) := by
  have htokens := tokens_eq hcmd
  unfold cmdEnroll
  dsimp only
  split_ifs with hnew
  · exact .reply _
  · split
    · rename_i role uname hrole huname
      split_ifs with hbad hlen hfree
      · exact .reply _
      · exact .reply _
      · exact .reply _
      · rw [hrole, huname] at htokens
        rw [not_or, not_le] at hlen
        refine .enroll role uname _ (by simpa using hnew) htokens ?_ ⟨?_, hlen.2⟩
          (by simpa using hfree) (isPrefixOf_snprintf (by decide) rfl)
        · rwa [not_and_or, not_not, not_not] at hbad
        · exact Nat.pos_of_ne_zero hlen.1
    · exact .reply _

theorem cmdBrew_effect (hcmd : strtok blanks line = (some (cstr "BREW"), args))
    (henrolled : (s.clients idx).enrolled = true) (htype : (s.clients idx).type = cstr "WIZARD") :
    Effect int s idx line (cmdBrew int s idx args) := by
  have htokens := tokens_eq hcmd
  unfold cmdBrew
  dsimp only
  split
  · rename_i ing qty hing hqty
    obtain ⟨qs, hqs, hqty⟩ := Option.bind_eq_some_iff.mp hqty
    rw [hing, hqs] at htokens
    split
    · exact .reply _
    · rename_i k hk
      exact .brew ing qs _ qty k henrolled htype htokens hqty hk
        (isPrefixOf_snprintf (by decide) rfl)
  · exact .reply _

theorem cmdConsume_effect (hcmd : strtok blanks line = (some (cstr "CONSUME"), args))
    (henrolled : (s.clients idx).enrolled = true) (htype : (s.clients idx).type = cstr "WIZARD") :
    Effect int s idx line (cmdConsume int s idx args) := by
  have htokens := tokens_eq hcmd
  unfold cmdConsume
  dsimp only
  split
  · rename_i ing qty hing hqty
    obtain ⟨qs, hqs, hqty⟩ := Option.bind_eq_some_iff.mp hqty
    rw [hing, hqs] at htokens
    split
    · exact .reply _
    · rename_i k hk
      split_ifs with hlt
      · exact .reply _
      · exact .consume ing qs _ qty k henrolled htype htokens hqty hk (not_lt.mp hlt)
          (isPrefixOf_snprintf (by decide) rfl)
  · exact .reply _

theorem cmdSpellbook_effect : Effect int s idx line (cmdSpellbook s idx) := by
  unfold cmdSpellbook
  split
  · exact .reply _
  · exact .reply _

theorem cmdInspect_effect (args : CStr) : Effect int s idx line (cmdInspect s idx args) := by
  unfold cmdInspect
  split
  · exact .reply _
  · split
    · exact .reply _
    · exact .reply _

theorem authorized_effect {role : String} {run : Server n m}
    (h : (s.clients idx).type = cstr role → Effect int s idx line run) :
    Effect int s idx line (authorized s idx role run) := by
  unfold authorized
  split_ifs with htype
  · exact h htype
  · exact .reply _

/-- **What a command does.** -/
theorem handleCommand_effect (int : ℤ → ℤ) (s : Server n m) (idx : Fin n) (line : CStr) :
    Effect int s idx line (handleCommand int s idx line).1 := by
  have hdispatch := handleCommand_dispatch int s idx line
  generalize handleCommand int s idx line = r at hdispatch ⊢
  cases hdispatch with
  | empty => exact .silent
  | apparate args _ => exact .reply _
  | enroll args hcmd => exact cmdEnroll_effect hcmd
  | notEnrolled => exact .reply _
  | brew args hcmd henrolled => exact authorized_effect (cmdBrew_effect hcmd henrolled)
  | consume args hcmd henrolled => exact authorized_effect (cmdConsume_effect hcmd henrolled)
  | spellbook => exact authorized_effect fun _ => cmdSpellbook_effect
  | inspect args => exact authorized_effect fun _ => cmdInspect_effect args
  | scroll => exact authorized_effect fun _ => .reply _
  | roster => exact authorized_effect fun _ => .reply _
  | unknown cmd => exact .reply _

end Cse344.HW6
