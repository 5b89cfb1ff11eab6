import Cse344.HW6.Clients

/-!
# Replies of HW6 and the buffers of its clients

The replies of `handle_command` (`HW6/hogwarts.c` 223-463, with `send_line` of `common.c` 26-35) and
the 512 bytes of `net_buf` in `wizard.c` and `professor.c` (54-94).

* A client has room for 511 bytes before the newline is there, so a reply has to have 510.
* Most replies have in every state (`Good`). The lists of `SPELLBOOK`, `SCROLL` and `ROSTER` are cut
  off at 511 bytes by `listInto`, and then do not fit.
* A `\r` at the end of a reply is not printed; a username or an unknown command may end in one.
* Quantities may be anything an `int` keeps, also negative: `ReplyFits` counts the digits and the
  sign that `%d` writes. Nothing here depends on what sums come to, so `int` is a parameter.

Results:
* `sendable_reachable`: every reachable state has valid names of ingredients, and usernames that are
  tokens.
* **`list_hears_iff`**: a list is received if all of it fits and it does not end in `\r`.
* **`handleCommand_hears_iff`**: a reply is received exactly if `ReplyFits`, where what the state
  holds can be sent.
* **`reply_received_iff`**: in every reachable state, the clients receive the reply to a line and
  print it whole exactly if `ReplyFits`.

Out of scope: the goodbyes of `check_idle_timeouts` and of the shutdown, which are to stop the
clients.
-/

namespace Cse344.HW6

open Cse344.Lib

variable {int : ℤ → ℤ} {n m : ℕ} {t : Table m} {s s' : Server n m} {idx i : Fin n}
  {line args body w : CStr} {timeoutSec : ℤ} {act : Act n} {items : List CStr}

/-! ## Which replies fit -/

/-- What `%s:%d` takes. -/
def itemLength (name : CStr) (qty : ℤ) : ℕ := name.length + 1 + (decimal qty).length

/-- `OK SPELLBOOK`, the entries as `name:quantity`, and the commas between them. -/
def spellbookLength (book : List SpellEntry) : ℕ :=
  13 + (book.map fun e => itemLength e.name e.qty).sum + (book.length - 1)

/-- `OK SCROLL`, the ingredients as `name:quantity`, and the commas between them. -/
def scrollLength (s : Server n m) : ℕ :=
  10 + ((List.ofFn s.ingredients).map fun g => itemLength g.name g.qty).sum + (m - 1)

/-- The names `ROSTER` lists. -/
def enrolledNames (s : Server n m) : List CStr :=
  ((List.ofFn s.clients).filter fun c => decide (0 ≤ c.fd) && c.enrolled).map Client.username

/-- `OK ROSTER`, the names, and the commas between them. -/
def rosterLength (s : Server n m) : ℕ :=
  10 + ((enrolledNames s).map List.length).sum + ((enrolledNames s).length - 1)

/-- The name does not end in `\r`. -/
def NoReturn (name : CStr) : Prop := name.getLast? ≠ some 13

instance (name : CStr) : Decidable (NoReturn name) :=
  inferInstanceAs (Decidable (name.getLast? ≠ some 13))

/-- `ENROLL` with these arguments is accepted. -/
structure MayEnroll (s : Server n m) (idx : Fin n) (role uname : CStr) : Prop where
  not_enrolled : (s.clients idx).enrolled = false
  role_eq : role = cstr "WIZARD" ∨ role = cstr "PROFESSOR"
  length : 0 < uname.length ∧ uname.length < maxUsernameLen
  free : usernameTaken s uname idx = false

/-- The reply to `line` has at most 510 bytes, and no `\r` at its end. -/
def ReplyFits (s : Server n m) (idx : Fin n) (line : CStr) : Prop :=
  let c := s.clients idx
  match tokens line with
  | (none, _, _) => True
  | (some cmd, first, second) =>
    if cmd = cstr "APPARATE" then True
    else if cmd = cstr "ENROLL" then
      ∀ role uname, first = some role → second = some uname → MayEnroll s idx role uname →
        NoReturn uname
    else if c.enrolled = false then True
    else if cmd = cstr "BREW" then True
    else if cmd = cstr "CONSUME" then True
    else if cmd = cstr "SPELLBOOK" then
      c.type = cstr "WIZARD" → c.spellbook ≠ [] → spellbookLength c.spellbook ≤ maxLineLen - 2
    else if cmd = cstr "INSPECT" then True
    else if cmd = cstr "SCROLL" then
      c.type = cstr "PROFESSOR" → scrollLength s ≤ maxLineLen - 2
    else if cmd = cstr "ROSTER" then
      c.type = cstr "PROFESSOR" → rosterLength s ≤ maxLineLen - 2 ∧
        ∀ name, (enrolledNames s).getLast? = some name → NoReturn name
    else NoReturn (cmd.take 115)

/-! ## Names -/

/-- Bytes of a token of a line. -/
def Word (w : CStr) : Prop := ∀ b ∈ w, b ≠ 0 ∧ b ≠ 10 ∧ b ≠ 32

theorem Word.no_blank (h : Word w) : (32 : UInt8) ∉ w := fun hb => (h 32 hb).2.2 rfl

theorem Word.bytes (h : Word w) : ∀ b ∈ w, b ≠ 0 ∧ b ≠ 10 := fun b hb => ⟨(h b hb).1, (h b hb).2.1⟩

theorem Word.append {w' : CStr} (h : Word w) (h' : Word w') : Word (w ++ w') := by
  intro b hb
  rcases List.mem_append.mp hb with hb | hb
  · exact h b hb
  · exact h' b hb

/-- A token of a line without NUL and newline. -/
theorem word_of_strtok {rest : CStr} (hline : ∀ b ∈ line, b ≠ 0 ∧ b ≠ 10)
    (h : strtok blanks line = (some w, rest)) :
    w ≠ [] ∧ Word w ∧ ∀ b ∈ rest, b ≠ 0 ∧ b ≠ 10 := by
  obtain ⟨hne, hmem, hrest⟩ := strtok_spec h
  refine ⟨hne, fun b hb => ?_, fun b hb => hline b (hrest b hb)⟩
  obtain ⟨hblank, hb⟩ := hmem b hb
  refine ⟨(hline b hb).1, (hline b hb).2, ?_⟩
  rintro rfl
  exact hblank (by decide)

theorem word_of_tokens {cmd role uname : CStr} (hline : ∀ b ∈ line, b ≠ 0 ∧ b ≠ 10)
    (h : tokens line = (some cmd, some role, some uname)) : Word uname := by
  have hfst : ∀ {s : CStr} {w : CStr}, (strtok blanks s).1 = some w →
      strtok blanks s = (some w, (strtok blanks s).2) := fun h => Prod.ext h rfl
  obtain ⟨hcmd, h⟩ := Prod.mk.inj h
  obtain ⟨hrole, huname⟩ := Prod.mk.inj h
  have hargs := (word_of_strtok hline (hfst hcmd)).2.2
  have hargs' := (word_of_strtok hargs (hfst hrole)).2.2
  exact (word_of_strtok hargs' (hfst huname)).2.1

/-- A line that is handled has no NUL and no newline. -/
theorem bytes_of_command (h : .command line ∈ events int s .line) : ∀ b ∈ line, b ≠ 0 ∧ b ≠ 10 := by
  have hbytes : ∀ buf : List UInt8,
      ∀ b ∈ lineString (buf.takeWhile fun b => b != 10), b ≠ 0 ∧ b ≠ 10 := by
    intro buf b hb
    refine ⟨?_, ?_⟩
    · have hzero := List.mem_takeWhile_imp hb
      simpa using hzero
    · have hno := List.mem_takeWhile_imp ((lineString_isPrefix _).mem hb)
      simpa using hno
  unfold events at h
  cases hr : s.reading with
  | none =>
    rw [hr] at h
    cases h
  | some idx =>
    rw [hr] at h
    dsimp only at h
    split_ifs at h
    · rcases List.mem_singleton.mp h with h
      cases h
    · cases h
    · rcases List.mem_cons.mp h with h | h
      · rw [Event.command.inj h]
        exact hbytes _
      · rcases List.mem_singleton.mp h with h
        cases h
    · rw [Event.command.inj (List.mem_singleton.mp h)]
      exact hbytes _

/-- The names of the enrolled clients are tokens. -/
def WordNames (s : Server n m) : Prop :=
  ∀ i, (s.clients i).enrolled = true → Word (s.clients i).username

theorem wordNames_step (hi : s.Attends) (hn : WordNames s)
    (hs : serverStep int timeoutSec s act = some s') : WordNames s' := by
  intro i henrolled
  rcases serverStep_cases hi hs with hstays | ⟨slot, haccepts⟩ |
    ⟨-, idx, line, role, uname, henrolment⟩
  · have hsame := (hstays i).enrolled henrolled
    rw [hsame.username_eq]
    exact hn i (hsame.enrolled_eq ▸ henrolled)
  · have hne : i ≠ slot := by
      rintro rfl
      exact absurd (henrolled.symm.trans haccepts.not_enrolled) (by decide)
    rw [haccepts.others i hne] at henrolled ⊢
    exact hn i henrolled
  · by_cases hidx : i = idx
    · rw [hidx, henrolment.enrolls.username_eq]
      exact word_of_tokens (bytes_of_command henrolment.command) henrolment.tokens_eq
    · rw [henrolment.enrolls.others i hidx] at henrolled ⊢
      exact hn i henrolled

theorem word_of_valid (h : isValidIngredientName w = true) : Word w ∧ Plain w := by
  unfold isValidIngredientName at h
  split_ifs at h
  rw [List.all_eq_true] at h
  refine ⟨fun b hb => ⟨?_, ?_, ?_⟩, fun b hb => ⟨?_, ?_, ?_⟩⟩
  all_goals
    rintro rfl
    exact absurd (h _ hb) (by decide)

theorem word_decimal (v : ℤ) : Word (decimal v) := by
  intro b hb
  rcases mem_decimal hb with rfl | hrange
  · decide
  · refine ⟨?_, ?_, ?_⟩
    all_goals
      rintro rfl
      exact absurd hrange (by decide)

/-! ## Replies that always fit -/

/-- A reply that fits in every state. -/
structure Good (body : CStr) : Prop where
  plain : Plain body
  noStop : NoStop body
  length_le : body.length ≤ maxLineLen - 2

theorem Good.hears (h : Good body) (hsent : s'.sent = s.sent ++ [((s.clients idx).fd, body)]) :
    Hears s s' idx := by
  rw [hears_iff hsent h.plain.bytes h.noStop.stops_eq]
  exact ⟨h.length_le, h.plain.noReturn⟩

theorem Good.hears_reply (h : Good body) : Hears s (s.reply idx body) idx := h.hears rfl

/-- A name of a command. -/
structure Verb (w : CStr) : Prop where
  plain : Plain w
  no_blank : (32 : UInt8) ∉ w
  timeout : ¬ cstr "TIMEOUT" <:+ w
  shutdown : ¬ cstr "SERVER" <:+ w

theorem Verb.cons {rest : CStr} (h : Verb w) (hrest : NoStop rest) : NoStop (w ++ 32 :: rest) :=
  .verb h.no_blank h.timeout h.shutdown hrest

theorem verb_ok : Verb (cstr "OK") := ⟨by decide, by decide, by decide, by decide⟩

theorem plain_cons {rest : CStr} (h : Plain w) (hrest : Plain rest) : Plain (w ++ 32 :: rest) :=
  Plain.append h (Plain.append (a := sp) (by decide) hrest)

theorem noStop_number (v : ℤ) : NoStop (decimal v) := .word (word_decimal v).no_blank

theorem good_snprintf {text : CStr} (hplain : Plain text) (hno : NoStop text) :
    Good (snprintf 128 text) where
  plain := fun b hb => hplain b (List.mem_of_mem_take hb)
  noStop := hno.of_prefix (List.take_prefix _ _)
  length_le := (List.length_take_le _ _).trans (by decide)

/-- `OK`, a command, an ingredient and a number. -/
theorem good_oneNumber (head verb : CStr) {ing : CStr}
    (hhead : head = cstr "OK" ++ 32 :: (verb ++ sp)) (hverb : Verb verb)
    (hing : isValidIngredientName ing = true) (v : ℤ) :
    Good (snprintf 128 (head ++ ing ++ sp ++ decimal v)) := by
  obtain ⟨hword, hplain⟩ := word_of_valid hing
  have htext : head ++ ing ++ sp ++ decimal v =
      cstr "OK" ++ 32 :: (verb ++ 32 :: (ing ++ 32 :: decimal v)) := by
    rw [hhead]
    simp only [sp, List.append_assoc, List.cons_append, List.nil_append]
  rw [htext]
  refine good_snprintf ?_ ?_
  · exact plain_cons verb_ok.plain (plain_cons hverb.plain (plain_cons hplain (plain_decimal v)))
  · have hnumber : NoStop (ing ++ 32 :: (decimal v ++ [])) :=
      .number hword.no_blank (by rw [List.append_nil]; exact noStop_number v)
    rw [List.append_nil] at hnumber
    exact verb_ok.cons (hverb.cons hnumber)

/-- `OK`, a command, an ingredient and two numbers. -/
theorem good_twoNumbers (head verb : CStr) {ing : CStr}
    (hhead : head = cstr "OK" ++ 32 :: (verb ++ sp)) (hverb : Verb verb)
    (hing : isValidIngredientName ing = true) (v v' : ℤ) :
    Good (snprintf 128 (head ++ ing ++ sp ++ decimal v ++ sp ++ decimal v')) := by
  obtain ⟨hword, hplain⟩ := word_of_valid hing
  have htext : head ++ ing ++ sp ++ decimal v ++ sp ++ decimal v' =
      cstr "OK" ++ 32 :: (verb ++ 32 :: (ing ++ 32 :: (decimal v ++ 32 :: decimal v'))) := by
    rw [hhead]
    simp only [sp, List.append_assoc, List.cons_append, List.nil_append]
  rw [htext]
  refine good_snprintf ?_ ?_
  · exact plain_cons verb_ok.plain (plain_cons hverb.plain (plain_cons hplain
      (plain_cons (plain_decimal v) (plain_decimal v'))))
  · have hnumber : NoStop (decimal v ++ 32 :: (decimal v' ++ [])) :=
      .number (word_decimal v).no_blank (by rw [List.append_nil]; exact noStop_number v')
    rw [List.append_nil] at hnumber
    exact verb_ok.cons (hverb.cons (.number hword.no_blank hnumber))

/-- What the state holds can be sent: valid names of ingredients, and tokens as usernames. -/
structure Sendable (s : Server n m) : Prop where
  ingredients : ∀ k, isValidIngredientName (s.ingredients k).name = true
  books : ∀ i, ∀ e ∈ (s.clients i).spellbook, isValidIngredientName e.name = true
  names : ∀ i, (s.clients i).enrolled = true →
    Word (s.clients i).username ∧ (s.clients i).username ≠ []

/-- An ingredient that is found has a valid name. -/
theorem Sendable.found (hv : Sendable s) {k : Fin m} (hk : findIngredient s w = some k) :
    isValidIngredientName w = true := by
  have hname : (s.ingredients k).name = w := by simpa using List.find?_some hk
  exact hname ▸ hv.ingredients k

theorem good_unknownIngredient : Good (cstr "ERR UNKNOWN_INGREDIENT") :=
  ⟨by decide, by decide, by decide⟩

/-- The reply after the sender's record was changed. -/
theorem sent_setClient (s : Server n m) (idx : Fin n) (c : Client) (text : CStr) :
    ((s.setClient idx c).reply idx text).sent = s.sent ++ [(c.fd, text)] := by
  unfold Server.reply sendLine
  rw [setClient_clients, Function.update_self]
  rfl

theorem cmdBrew_hears (int : ℤ → ℤ) (hv : Sendable s) (idx : Fin n) (args : CStr) :
    Hears s (cmdBrew int s idx args) idx := by
  unfold cmdBrew
  dsimp only
  split
  · split
    · exact good_unknownIngredient.hears_reply
    · rename_i k hk
      exact (good_twoNumbers (cstr "OK BREW ") (cstr "BREW") rfl
        ⟨by decide, by decide, by decide, by decide⟩ (hv.found hk) _ _).hears
        (sent_setClient _ idx _ _)
  · exact Good.hears_reply ⟨by decide, by decide, by decide⟩

theorem cmdConsume_hears (int : ℤ → ℤ) (hv : Sendable s) (idx : Fin n) (args : CStr) :
    Hears s (cmdConsume int s idx args) idx := by
  unfold cmdConsume
  dsimp only
  split
  · split
    · exact good_unknownIngredient.hears_reply
    · rename_i k hk
      split_ifs
      · exact Good.hears_reply ⟨by decide, by decide, by decide⟩
      · exact (good_twoNumbers (cstr "OK CONSUME ") (cstr "CONSUME") rfl
          ⟨by decide, by decide, by decide, by decide⟩ (hv.found hk) _ _).hears
            (sent_setClient _ idx _ _)
  · exact Good.hears_reply ⟨by decide, by decide, by decide⟩

theorem cmdInspect_hears (hv : Sendable s) (idx : Fin n) (args : CStr) :
    Hears s (cmdInspect s idx args) idx := by
  unfold cmdInspect
  split
  · exact Good.hears_reply ⟨by decide, by decide, by decide⟩
  · split
    · exact good_unknownIngredient.hears_reply
    · rename_i k hk
      exact (good_oneNumber (cstr "OK INSPECT ") (cstr "INSPECT") rfl
        ⟨by decide, by decide, by decide, by decide⟩ (hv.found hk) _).hears_reply

/-! ## Lists -/

/-- What a list holds of its pieces: as much as fits. -/
theorem listInto_eq : ∀ (pieces : List CStr) (buf : CStr), buf.length ≤ maxLineLen - 1 →
    listInto buf pieces = (buf ++ pieces.flatten).take (maxLineLen - 1)
  | [], buf, h => by
    rw [listInto, List.flatten_nil, List.append_nil, List.take_of_length_le h]
  | piece :: pieces, buf, h => by
    have hmax : maxLineLen = maxLineLen - 1 + 1 := rfl
    rw [listInto, List.flatten_cons, ← List.append_assoc]
    split_ifs with hfull
    · have hle : maxLineLen - 1 ≤ (buf ++ piece).length := by
        rw [List.length_append]
        omega
      rw [List.take_append_of_le_length hle]
    · refine listInto_eq pieces (buf ++ piece) ?_
      rw [List.length_append]
      omega

theorem length_commaBefore (items : List CStr) :
    (commaBefore items).flatten.length = (items.map List.length).sum + (items.length - 1) := by
  cases items with
  | nil => rfl
  | cons item items =>
    have hcomma : (cstr ",").length = 1 := rfl
    have hrest : ((items.map fun item => cstr "," ++ item).flatten).length =
        (items.map List.length).sum + items.length := by
      induction items with
      | nil => rfl
      | cons item items ih =>
        simp only [List.map_cons, List.flatten_cons, List.length_append, List.sum_cons,
          List.length_cons, ih, hcomma]
        omega
    rw [commaBefore, List.flatten_cons, List.length_append, hrest, List.map_cons, List.sum_cons,
      List.length_cons]
    omega

/-- The bytes of a list are those of its items, and commas. -/
theorem mem_commaBefore {b : UInt8} (hb : b ∈ (commaBefore items).flatten) :
    b = 44 ∨ ∃ item ∈ items, b ∈ item := by
  cases items with
  | nil => cases hb
  | cons item items =>
    rw [commaBefore, List.flatten_cons] at hb
    rcases List.mem_append.mp hb with hb | hb
    · exact .inr ⟨item, List.mem_cons_self, hb⟩
    · obtain ⟨piece, hpiece, hb⟩ := List.mem_flatten.mp hb
      obtain ⟨item', hitem', rfl⟩ := List.mem_map.mp hpiece
      rcases List.mem_append.mp hb with hb | hb
      · exact .inl (List.mem_singleton.mp hb)
      · exact .inr ⟨item', List.mem_cons_of_mem _ hitem', hb⟩

/-- A list ends as its last item does. -/
theorem commaBefore_concat (items : List CStr) (item : CStr) :
    ∃ before, (commaBefore (items ++ [item])).flatten = before ++ item := by
  cases items with
  | nil => exact ⟨[], by simp [commaBefore]⟩
  | cons first items =>
    refine ⟨first ++ (items.map fun item => cstr "," ++ item).flatten ++ cstr ",", ?_⟩
    simp [commaBefore]

theorem word_commaBefore (h : ∀ item ∈ items, Word item) : Word (commaBefore items).flatten := by
  intro b hb
  rcases mem_commaBefore hb with rfl | ⟨item, hitem, hb⟩
  · decide
  · exact h item hitem b hb

/-- **A list is received** if all of it fits, and it does not end in `\r`. -/
theorem list_hears_iff (head verb : CStr) (hhead : head = cstr "OK" ++ 32 :: (verb ++ sp))
    (hverb : Verb verb) (hlen : head.length ≤ maxLineLen - 1) (h : ∀ item ∈ items, Word item) :
    Hears s (s.reply idx (listInto head (commaBefore items))) idx ↔
      head.length + (items.map List.length).sum + (items.length - 1) ≤ maxLineLen - 2 ∧
        (head ++ (commaBefore items).flatten).getLast? ≠ some 13 := by
  obtain ⟨text, htext⟩ : ∃ text, text = head ++ (commaBefore items).flatten := ⟨_, rfl⟩
  have hword := word_commaBefore h
  have hsplit : text = cstr "OK" ++ 32 :: (verb ++ 32 :: (commaBefore items).flatten) := by
    rw [htext, hhead]
    simp only [sp, List.append_assoc, List.cons_append, List.nil_append]
  have hno : NoStop text := by
    rw [hsplit]
    exact verb_ok.cons (hverb.cons (.word hword.no_blank))
  have hbytes : ∀ b ∈ text, b ≠ 0 ∧ b ≠ 10 := by
    intro b hb
    rw [htext] at hb
    rcases List.mem_append.mp hb with hb | hb
    · have hplain : Plain head := by
        rw [hhead]
        exact plain_cons verb_ok.plain (Plain.append hverb.plain (by decide))
      exact ⟨(hplain b hb).1, (hplain b hb).2.1⟩
    · exact hword.bytes b hb
  have hlength : text.length = head.length + (items.map List.length).sum + (items.length - 1) := by
    rw [htext, List.length_append, length_commaBefore, Nat.add_assoc]
  rw [listInto_eq _ _ hlen, ← htext, ← hlength,
    hears_iff rfl (fun b hb => hbytes b (List.mem_of_mem_take hb))
      (hno.of_prefix (List.take_prefix _ _)).stops_eq]
  by_cases hfits : text.length ≤ maxLineLen - 2
  · rw [List.take_of_length_le (hfits.trans (by decide))]
  · refine iff_of_false (fun hand => ?_) fun hand => hfits hand.1
    have hle := hand.1
    rw [List.length_take] at hle
    unfold maxLineLen at hle hfits
    omega

/-- Items that all are plain. -/
theorem list_noReturn {head : CStr} (hhead : Plain head) (h : ∀ item ∈ items, Plain item) :
    (head ++ (commaBefore items).flatten).getLast? ≠ some 13 := by
  have hplain : Plain (head ++ (commaBefore items).flatten) := by
    refine Plain.append hhead fun b hb => ?_
    rcases mem_commaBefore hb with rfl | ⟨item, hitem, hb⟩
    · decide
    · exact h item hitem b hb
  exact hplain.noReturn

theorem nameAndQty_item {name : CStr} (h : isValidIngredientName name = true) (qty : ℤ) :
    Word (nameAndQty name qty) ∧ Plain (nameAndQty name qty) := by
  obtain ⟨hword, hplain⟩ := word_of_valid h
  have hcolon : Word (cstr ":") := by
    intro b hb
    obtain rfl := List.mem_singleton.mp hb
    decide
  exact ⟨(hword.append hcolon).append (word_decimal qty),
    Plain.append (Plain.append hplain (by decide)) (plain_decimal qty)⟩

theorem length_nameAndQty (name : CStr) (qty : ℤ) :
    (nameAndQty name qty).length = itemLength name qty := by
  have hcolon : (cstr ":").length = 1 := rfl
  rw [nameAndQty, List.length_append, List.length_append, hcolon, itemLength]

/-- A list of names and quantities. -/
theorem quantities_hears_iff {α : Type*} (head verb : CStr) {l : List α} (name : α → CStr)
    (qty : α → ℤ) (hhead : head = cstr "OK" ++ 32 :: (verb ++ sp)) (hverb : Verb verb)
    (hlen : head.length ≤ maxLineLen - 1)
    (hvalid : ∀ e ∈ l, isValidIngredientName (name e) = true) :
    Hears s (s.reply idx (listInto head (commaBefore (l.map fun e => nameAndQty (name e) (qty e)))))
        idx ↔
      head.length + (l.map fun e => itemLength (name e) (qty e)).sum + (l.length - 1) ≤
        maxLineLen - 2 := by
  have hitem : ∀ item ∈ l.map fun e => nameAndQty (name e) (qty e), Word item ∧ Plain item := by
    intro item hitem
    obtain ⟨e, he, rfl⟩ := List.mem_map.mp hitem
    exact nameAndQty_item (hvalid e he) (qty e)
  have hplain : Plain head := by
    rw [hhead]
    exact plain_cons verb_ok.plain (Plain.append hverb.plain (by decide))
  have hlast := list_noReturn hplain fun item h => (hitem item h).2
  have hlength : List.length ∘ (fun e => nameAndQty (name e) (qty e)) =
      fun e => itemLength (name e) (qty e) := funext fun e => length_nameAndQty (name e) (qty e)
  rw [list_hears_iff head verb hhead hverb hlen fun item h => (hitem item h).1, List.map_map,
    hlength, List.length_map]
  exact and_iff_left hlast

theorem cmdSpellbook_hears_iff (hv : Sendable s) (idx : Fin n) :
    Hears s (cmdSpellbook s idx) idx ↔ ((s.clients idx).spellbook ≠ [] →
      spellbookLength (s.clients idx).spellbook ≤ maxLineLen - 2) := by
  unfold cmdSpellbook
  split
  · rename_i hnil
    exact iff_of_true (Good.hears_reply ⟨by decide, by decide, by decide⟩) fun hne =>
      absurd hnil hne
  · rename_i hne
    rw [quantities_hears_iff (cstr "OK SPELLBOOK ") (cstr "SPELLBOOK") SpellEntry.name
      SpellEntry.qty rfl ⟨by decide, by decide, by decide, by decide⟩ (by decide) (hv.books idx)]
    exact ⟨fun h _ => h, fun h => h hne⟩

theorem cmdScroll_hears_iff (hv : Sendable s) (idx : Fin n) :
    Hears s (cmdScroll s idx) idx ↔ scrollLength s ≤ maxLineLen - 2 := by
  have hvalid : ∀ g ∈ List.ofFn s.ingredients, isValidIngredientName g.name = true := by
    intro g hg
    obtain ⟨k, rfl⟩ := List.mem_ofFn.mp hg
    exact hv.ingredients k
  unfold cmdScroll
  rw [quantities_hears_iff (cstr "OK SCROLL ") (cstr "SCROLL") Ingredient.name Ingredient.qty rfl
    ⟨by decide, by decide, by decide, by decide⟩ (by decide) hvalid, List.length_ofFn]
  rfl

theorem cmdRoster_hears_iff (hv : Sendable s) (idx : Fin n) :
    Hears s (cmdRoster s idx) idx ↔ rosterLength s ≤ maxLineLen - 2 ∧
      ∀ name, (enrolledNames s).getLast? = some name → NoReturn name := by
  have hnames : ∀ name ∈ enrolledNames s, Word name ∧ name ≠ [] := by
    intro name hname
    obtain ⟨c, hc, rfl⟩ := List.mem_map.mp hname
    obtain ⟨hmem, henrolled⟩ := List.mem_filter.mp hc
    obtain ⟨i, rfl⟩ := List.mem_ofFn.mp hmem
    exact hv.names i (Bool.and_eq_true_iff.mp henrolled).2
  have hroster : cmdRoster s idx =
      s.reply idx (listInto (cstr "OK ROSTER ") (commaBefore (enrolledNames s))) := rfl
  rw [hroster, list_hears_iff (cstr "OK ROSTER ") (cstr "ROSTER") rfl
    ⟨by decide, by decide, by decide, by decide⟩ (by decide) fun name h => (hnames name h).1]
  refine and_congr_right fun _ => ?_
  rcases (enrolledNames s).eq_nil_or_concat with hnil | ⟨before, name, hconcat⟩
  · rw [hnil]
    exact iff_of_true (by decide) fun name h => by cases h
  · rw [List.concat_eq_append] at hconcat
    have hne : name ≠ [] := (hnames name (by simp [hconcat])).2
    obtain ⟨text, htext⟩ := commaBefore_concat before name
    rw [hconcat, htext, ← List.append_assoc, List.getLast?_append_of_ne_nil _ hne,
      List.getLast?_concat]
    exact ⟨fun h name' heq => Option.some.inj heq ▸ h, fun h => h name rfl⟩

/-! ## Replies that end in a token -/

theorem token_hears_iff (head first second : CStr) (hhead : head = first ++ 32 :: (second ++ sp))
    (hfirst : Verb first) (hsecond : Verb second) (hword : Word w) (hne : w ≠ [])
    (hlen : (head ++ w).length ≤ maxLineLen - 2)
    (hsent : s'.sent = s.sent ++ [((s.clients idx).fd, head ++ w)]) :
    Hears s s' idx ↔ NoReturn w := by
  have htext : head ++ w = first ++ 32 :: (second ++ 32 :: w) := by
    rw [hhead]
    simp only [sp, List.append_assoc, List.cons_append, List.nil_append]
  have hno : NoStop (head ++ w) := by
    rw [htext]
    exact hfirst.cons (hsecond.cons (.word hword.no_blank))
  have hbytes : ∀ b ∈ head ++ w, b ≠ 0 ∧ b ≠ 10 := by
    intro b hb
    rcases List.mem_append.mp hb with hb | hb
    · have hplain : Plain head := by
        rw [hhead]
        exact plain_cons hfirst.plain (Plain.append hsecond.plain (by decide))
      exact ⟨(hplain b hb).1, (hplain b hb).2.1⟩
    · exact hword.bytes b hb
  rw [hears_iff hsent hbytes hno.stops_eq, List.getLast?_append_of_ne_nil _ hne]
  exact and_iff_right hlen

theorem cmdEnroll_hears_iff (hargs : ∀ b ∈ args, b ≠ 0 ∧ b ≠ 10) :
    Hears s (cmdEnroll s idx args) idx ↔ ∀ role uname, (strtok blanks args).1 = some role →
      (strtok blanks (strtok blanks args).2).1 = some uname → MayEnroll s idx role uname →
        NoReturn uname := by
  have hrefused : ∀ {text}, Good text → (∀ role uname, (strtok blanks args).1 = some role →
      (strtok blanks (strtok blanks args).2).1 = some uname → ¬ MayEnroll s idx role uname) →
      (Hears s (s.reply idx text) idx ↔ ∀ role uname, (strtok blanks args).1 = some role →
        (strtok blanks (strtok blanks args).2).1 = some uname → MayEnroll s idx role uname →
          NoReturn uname) := fun hgood hno =>
    iff_of_true hgood.hears_reply fun role uname hrole huname hmay =>
      absurd hmay (hno role uname hrole huname)
  unfold cmdEnroll
  dsimp only
  split_ifs with henrolled
  · exact hrefused ⟨by decide, by decide, by decide⟩ fun _ _ _ _ hmay =>
      absurd (henrolled.symm.trans hmay.not_enrolled) (by decide)
  · split
    · rename_i role uname hrole huname
      have hsame : ∀ role' uname', (strtok blanks args).1 = some role' →
          (strtok blanks (strtok blanks args).2).1 = some uname' → role' = role ∧ uname' = uname :=
        fun role' uname' hrole' huname' => ⟨Option.some.inj (hrole'.symm.trans hrole),
          Option.some.inj (huname'.symm.trans huname)⟩
      split_ifs with hbad hlen htaken
      · refine hrefused ⟨by decide, by decide, by decide⟩ fun role' uname' hrole' huname' hmay => ?_
        obtain ⟨rfl, -⟩ := hsame role' uname' hrole' huname'
        exact hmay.role_eq.elim hbad.1 hbad.2
      · refine hrefused ⟨by decide, by decide, by decide⟩ fun role' uname' hrole' huname' hmay => ?_
        obtain ⟨-, rfl⟩ := hsame role' uname' hrole' huname'
        exact hlen.elim hmay.length.1.ne' (not_le.mpr hmay.length.2)
      · refine hrefused ⟨by decide, by decide, by decide⟩ fun role' uname' hrole' huname' hmay => ?_
        obtain ⟨-, rfl⟩ := hsame role' uname' hrole' huname'
        exact absurd (htaken.symm.trans hmay.free) (by decide)
      · have hargs' := (word_of_strtok hargs (Prod.ext hrole rfl)).2.2
        obtain ⟨hne, hword, -⟩ := word_of_strtok hargs' (Prod.ext huname rfl)
        rw [not_or, not_le] at hlen
        have htake : uname.take (maxUsernameLen - 1) = uname :=
          List.take_of_length_le (Nat.le_pred_of_lt hlen.2)
        have hmay : MayEnroll s idx role uname :=
          { not_enrolled := by simpa using henrolled
            role_eq := by rwa [not_and_or, not_not, not_not] at hbad
            length := ⟨Nat.pos_of_ne_zero hlen.1, hlen.2⟩
            free := by simpa using htaken }
        have hshort : (cstr "OK ENROLL " ++ uname).length ≤ 127 := by
          have hhead : (cstr "OK ENROLL ").length = 10 := rfl
          have hmax := hlen.2
          unfold maxUsernameLen at hmax
          rw [List.length_append]
          omega
        rw [htake, token_hears_iff (cstr "OK ENROLL ") (cstr "OK") (cstr "ENROLL") rfl verb_ok
          ⟨by decide, by decide, by decide, by decide⟩ hword hne (hshort.trans (by decide))]
        · refine ⟨fun h role' uname' hrole' huname' _ => ?_,
            fun h => h role uname hrole huname hmay⟩
          obtain ⟨-, rfl⟩ := hsame role' uname' hrole' huname'
          exact h
        · rw [sent_setClient]
          unfold snprintf
          rw [List.take_of_length_le hshort]
    · rename_i hnone
      exact hrefused ⟨by decide, by decide, by decide⟩ fun role uname hrole huname _ =>
        hnone role uname hrole huname

theorem unknown_hears_iff (hword : Word w) (hne : w ≠ []) :
    Hears s (s.reply idx (snprintf 128 (cstr "ERR UNKNOWN " ++ w))) idx ↔
      NoReturn (w.take 115) := by
  have hhead : (cstr "ERR UNKNOWN ").length = 12 := rfl
  have htext : snprintf 128 (cstr "ERR UNKNOWN " ++ w) = cstr "ERR UNKNOWN " ++ w.take 115 := by
    unfold snprintf
    rw [List.take_append, List.take_of_length_le (by decide), hhead]
  have hshort : (cstr "ERR UNKNOWN " ++ w.take 115).length ≤ maxLineLen - 2 := by
    have htake := List.length_take_le 115 w
    unfold maxLineLen
    rw [List.length_append]
    omega
  refine token_hears_iff (cstr "ERR UNKNOWN ") (cstr "ERR") (cstr "UNKNOWN") rfl
    ⟨by decide, by decide, by decide, by decide⟩ ⟨by decide, by decide, by decide, by decide⟩
    (fun b hb => hword b (List.mem_of_mem_take hb)) ?_ hshort ?_
  · rw [Ne, List.take_eq_nil_iff]
    exact not_or.mpr ⟨by decide, hne⟩
  · rw [htext]
    rfl

/-! ## All replies -/

theorem authorized_hears_iff {role : String} {run : Server n m} {P : Prop}
    (h : Hears s run idx ↔ P) :
    Hears s (authorized s idx role run) idx ↔ ((s.clients idx).type = cstr role → P) := by
  unfold authorized
  split_ifs with htype
  · exact h.trans ⟨fun hP _ => hP, fun hP => hP htype⟩
  · exact iff_of_true (Good.hears_reply ⟨by decide, by decide, by decide⟩) fun hrole =>
      absurd hrole htype

theorem ite_hears_iff {p : Prop} [Decidable p] {x y : Server n m × Bool} {P Q : Prop}
    (hx : p → (Hears s x.1 idx ↔ P)) (hy : ¬ p → (Hears s y.1 idx ↔ Q)) :
    Hears s (if p then x else y).1 idx ↔ if p then P else Q := by
  split_ifs with hp
  · exact hx hp
  · exact hy hp

/-- **A reply is received exactly if it fits**, where what the state holds can be sent. -/
theorem handleCommand_hears_iff (hv : Sendable s) (hline : ∀ b ∈ line, b ≠ 0 ∧ b ≠ 10) :
    Hears s (handleCommand int s idx line).1 idx ↔ ReplyFits s idx line := by
  unfold handleCommand
  split
  · rename_i args hnone
    refine iff_of_true (fun body hsent => ?_) ?_
    · exact absurd (List.self_eq_append_right.mp hsent) (List.cons_ne_nil _ _)
    · unfold ReplyFits tokens
      rw [hnone]
      trivial
  · rename_i cmd args hcmd
    obtain ⟨hne, hword, hargs⟩ := word_of_strtok hline hcmd
    unfold ReplyFits
    rw [tokens_eq hcmd]
    dsimp only
    have hgood : ∀ {text}, Good text → (Hears s (s.reply idx text) idx ↔ True) :=
      fun hgood => iff_true_intro hgood.hears_reply
    have htrue : ∀ {run role}, Hears s run idx → (Hears s (authorized s idx role run) idx ↔ True) :=
      fun hrun => (authorized_hears_iff (iff_true_intro hrun)).trans (by simp)
    refine ite_hears_iff (fun _ => hgood ⟨by decide, by decide, by decide⟩) fun _ => ?_
    refine ite_hears_iff (fun _ => cmdEnroll_hears_iff hargs) fun _ => ?_
    refine ite_hears_iff (fun _ => hgood ⟨by decide, by decide, by decide⟩) fun _ => ?_
    refine ite_hears_iff (fun _ => htrue (cmdBrew_hears int hv idx args)) fun _ => ?_
    refine ite_hears_iff (fun _ => htrue (cmdConsume_hears int hv idx args)) fun _ => ?_
    refine ite_hears_iff (fun _ => authorized_hears_iff (cmdSpellbook_hears_iff hv idx)) fun _ => ?_
    refine ite_hears_iff (fun _ => htrue (cmdInspect_hears hv idx args)) fun _ => ?_
    refine ite_hears_iff (fun _ => authorized_hears_iff (cmdScroll_hears_iff hv idx)) fun _ => ?_
    refine ite_hears_iff (fun _ => authorized_hears_iff (cmdRoster_hears_iff hv idx)) fun _ => ?_
    exact unknown_hears_iff hword hne

theorem wordNames_init : WordNames (initial t : Server n m) :=
  fun _ henrolled => absurd henrolled Bool.false_ne_true

/-- What a reachable state holds can be sent. -/
theorem sendable_reachable (hs : (hogwarts int t n timeoutSec).Reachable s) : Sendable s := by
  have hnamed := named_reachable hs
  have hinv : s.Attends ∧ Slots s ∧ WordNames s := by
    refine hs.induct (I := fun s => s.Attends ∧ Slots s ∧ WordNames s) ?_ ?_
    · exact ⟨attends_init, slots_init, wordNames_init⟩
    · rintro s a s' ⟨hi, hslots, hnames⟩ hstep
      have hstep : serverStep int timeoutSec s a = some s' := hstep
      exact ⟨attends_step hi hstep, slots_step hi hslots hstep, wordNames_step hi hnames hstep⟩
  obtain ⟨-, hslots, hnames⟩ := hinv
  refine ⟨hnamed.valid, fun i e he => ?_, fun i henrolled => ⟨hnames i henrolled, ?_⟩⟩
  · obtain ⟨k, hk⟩ := (hnamed.books i).known e he
    exact hk ▸ t.valid k
  · exact List.ne_nil_of_length_pos (hslots.length i henrolled).1

/-- **In every reachable state, and whatever is left in the buffers, the clients receive the reply
to a line and print it whole exactly if `ReplyFits`.** -/
theorem reply_received_iff (int : ℤ → ℤ) (t : Table m) (n : ℕ) (timeoutSec : ℤ) (s : Server n m)
    (hs : (hogwarts int t n timeoutSec).Reachable s) (bufs : Fin n → List UInt8 × ℤ)
    (rd : Option (Fin n)) (idx : Fin n) (line : CStr) (hline : ∀ b ∈ line, b ≠ 0 ∧ b ≠ 10) :
    Hears (s.withBufs bufs rd) (handleCommand int (s.withBufs bufs rd) idx line).1 idx ↔
      ReplyFits (s.withBufs bufs rd) idx line := by
  have hv := sendable_reachable hs
  exact handleCommand_hears_iff ⟨hv.ingredients, hv.books, hv.names⟩ hline

theorem reply_received_saltRun :
    ∃ s : Server 2 1, (hogwarts wrap32 saltTable 2 60).Reachable s ∧ (s.clients 1).enrolled = true ∧
      (Hears s (handleCommand wrap32 s 1 (cstr "SPELLBOOK")).1 1 ↔
        ReplyFits s 1 (cstr "SPELLBOOK")) := by
  have h : ((hogwarts wrap32 saltTable 2 60).runs (initial saltTable) (saltRun 1)).map (fun s =>
      (s.clients 1).enrolled) = some true := by
    decide +kernel
  obtain ⟨s, hrun, henrolled⟩ := Option.map_eq_some_iff.mp h
  have hreach : (hogwarts wrap32 saltTable 2 60).Reachable s := Machine.runs_reachable hrun
  have hplain : Plain (cstr "SPELLBOOK") := by decide
  exact ⟨s, hreach, henrolled, reply_received_iff wrap32 saltTable 2 60 s hreach s.bufs s.reading 1
    (cstr "SPELLBOOK") hplain.bytes⟩

/-- A name of 16 letters. -/
def letterName (k : Fin m) : CStr := List.replicate 15 65 ++ [65 + UInt8.ofNat k]

theorem letterName_valid (k : Fin 26) : isValidIngredientName (letterName k) = true := by
  have hlen : (letterName k).length = 16 := by simp [letterName]
  have hlast : ∀ k : Fin 26, (65 ≤ 65 + UInt8.ofNat k && 65 + UInt8.ofNat k ≤ 90) = true := by
    decide +kernel
  rw [isValidIngredientName, if_neg (by rw [hlen]; decide), letterName, List.all_append,
    Bool.and_eq_true]
  refine ⟨by decide +kernel, ?_⟩
  simp only [List.all_cons, hlast k, Bool.true_or, List.all_nil, Bool.and_true]

/-- Twenty-six ingredients with long names. -/
def letterTable : Table 26 where
  ingredients := fun k => ⟨letterName k, 1000000⟩
  le_max := by decide
  valid := letterName_valid
  pos := by decide +kernel
  name_injective := by decide +kernel

/-- A professor enrols. -/
def professorRun (i : Fin n) : List (Act n) :=
  [.accept 4 0, .input i (.data (cstr "ENROLL PROFESSOR albus\n")) 1, .line]

/-- The list of `SCROLL` is cut off, and the client leaves its loop. -/
theorem not_reply_received_scroll :
    ∃ s : Server 1 26, (hogwarts wrap32 letterTable 1 60).Reachable s ∧ 0 ≤ (s.clients 0).fd ∧
      ¬ Hears s (handleCommand wrap32 s 0 (cstr "SCROLL")).1 0 := by
  have h : ((hogwarts wrap32 letterTable 1 60).runs (initial letterTable) (professorRun 0)).map
      (fun s => ((s.clients 0).fd, (s.clients 0).enrolled, (s.clients 0).type,
        decide (scrollLength s ≤ maxLineLen - 2))) = some (4, true, cstr "PROFESSOR", false) := by
    decide +kernel
  obtain ⟨s, hrun, hs⟩ := Option.map_eq_some_iff.mp h
  obtain ⟨hfd, hs⟩ := Prod.mk.inj hs
  obtain ⟨henrolled, hs⟩ := Prod.mk.inj hs
  obtain ⟨htype, hlong⟩ := Prod.mk.inj hs
  have hreach : (hogwarts wrap32 letterTable 1 60).Reachable s := Machine.runs_reachable hrun
  have hplain : Plain (cstr "SCROLL") := by decide
  refine ⟨s, hreach, by rw [hfd]; decide, ?_⟩
  rw [handleCommand_hears_iff (sendable_reachable hreach) hplain.bytes]
  have htokens : tokens (cstr "SCROLL") = (some (cstr "SCROLL"), none, none) := by decide +kernel
  unfold ReplyFits
  rw [htokens]
  dsimp only
  rw [henrolled]
  intro hfits
  exact absurd (hfits htype) (of_decide_eq_false hlong)

end Cse344.HW6
