import Cse344.HW6.Brewing
import Cse344.HW6.Roles

/-!
# What the wizards of HW6 were told

The answers to `BREW` and `CONSUME` (`HW6/hogwarts.c` 244-304) beside the books they speak of, in
the compiled server (`hogwarts wrap32`).

* The `ledger` is a ghost: for each slot, what its client was told it brewed, less what it was told
  it consumed (`record`). A free slot is told nothing.
* `TellsTruth` and `Loses`: what the answer to a line says is what the book gains, or the answer
  speaks of a quantity and the book gains nothing, or goes below zero. The second happens only for a
  `BREW` that the book has no room for (`BookTakes`).
* `Redeemable`: the books hold what was told.

Results:
* **`command_gain`**, **`stepTells_iff`**: a command, and a step, adds to the book what it tells,
  exactly if the book takes its `BREW`.
* **`redeemable_step`**: exactly then a step leaves everything told in the books.
* **`brew_whole_iff`**: in every reachable state a `BREW` is all or nothing exactly if there is room
  for it; in every run the books hold what was told exactly if they take each `BREW`; and what a
  book holds can be consumed.
* `not_brew_whole`: a `BREW` of a 65th ingredient.

Out of scope: the stocks that the answers speak of (`Cse344.HW6.Exact`), and the client's end of the
connection (`Cse344.HW6.Replies`).
-/

namespace Cse344.HW6

open Cse344.Lib

variable {n m : ℕ} {t : Table m} {s s' : Server n m} {idx : Fin n} {line : CStr} {k : Fin m}
  {qty timeoutSec : ℤ} {act : Act n}

/-! ## What a client is told -/

/-- What the answer to a line says was added: what the line states, if the answer is `OK`. -/
def reported (s s' : Server n m) (line : CStr) : Option (CStr × ℤ) :=
  match s'.sent.drop s.sent.length with
  | [(_, text)] => if (cstr "OK ").isPrefixOf text then stated line else none
  | _ => none

/-- What the answer says was added of `a`. -/
def gain (s s' : Server n m) (line a : CStr) : ℤ :=
  match reported s s' line with
  | some (ing, δ) => if a = ing then δ else 0
  | none => 0

theorem reported_of_sent {text : CStr} {fd : ℤ} (h : s'.sent = s.sent ++ [(fd, text)]) :
    reported s s' line = if (cstr "OK ").isPrefixOf text then stated line else none := by
  unfold reported
  rw [h, List.drop_left]

theorem reported_eq_none (h : stated line = none) : reported s s' line = none := by
  unfold reported
  split
  · split_ifs
    · exact h
    · rfl
  · rfl

theorem gain_refused (h : Refused s s' idx) (a : CStr) : gain s s' line a = 0 := by
  obtain ⟨text, rfl, herr⟩ := h
  unfold gain
  rw [reported_of_sent rfl, if_neg fun hok => not_err_of_ok hok herr]

theorem stated_of_asked {cmd : String} (hcmd : (tokens line).1 = some (cstr cmd))
    (hasked : asked s line = some (k, qty)) : stated line =
      if cstr cmd = cstr "BREW" then some ((s.ingredients k).name, qty)
      else if cstr cmd = cstr "CONSUME" then some ((s.ingredients k).name, -qty) else none := by
  obtain ⟨qs, hwords, hqty, -⟩ := asked_eq_some hasked
  have htokens : tokens line = (some (cstr cmd), some (s.ingredients k).name, some qs) :=
    Prod.ext hcmd hwords
  unfold stated
  rw [htokens]
  dsimp only
  rw [hqty]
  rfl

theorem gain_brewed (hsends : WizardSends s idx line "BREW") (hasked : asked s line = some (k, qty))
    (a : CStr) :
    gain s (s.brewed wrap32 idx k qty) line a = if a = (s.ingredients k).name then qty else 0 := by
  have hok : (cstr "OK ").isPrefixOf
      (okBrew (s.ingredients k).name qty (wrap32 ((s.ingredients k).qty + qty))) :=
    ok_of_okBrew (okBrew_ok _ _ _)
  unfold gain
  rw [reported_of_sent (brewed_sent s idx k qty), if_pos hok, stated_of_asked hsends.command hasked,
    if_pos rfl]

theorem gain_consumed (hsends : WizardSends s idx line "CONSUME")
    (hasked : asked s line = some (k, qty)) (a : CStr) :
    gain s (s.consumed wrap32 idx k qty) line a =
      if a = (s.ingredients k).name then -qty else 0 := by
  have hok : (cstr "OK ").isPrefixOf
      (okConsume (s.ingredients k).name qty (wrap32 ((s.ingredients k).qty - qty))) :=
    isPrefixOf_snprintf (by decide) rfl
  unfold gain
  rw [reported_of_sent (consumed_sent s idx k qty), if_pos hok,
    stated_of_asked hsends.command hasked, if_neg (by decide), if_pos rfl]

theorem cmd_of_stated {p : CStr × ℤ} (h : stated line = some p) :
    (tokens line).1 = some (cstr "BREW") ∨ (tokens line).1 = some (cstr "CONSUME") := by
  unfold stated at h
  split at h
  · rename_i cmd ing qs htokens
    rw [htokens]
    split_ifs at h with hbrew hconsume
    · exact .inl (congrArg some hbrew)
    · exact .inr (congrArg some hconsume)
  · cases h

/-! ## What a command adds to a book -/

/-- A `BREW` that is carried out finds room in the book: an entry, and an `int` that holds the sum.
-/
def BookTakes (s : Server n m) (idx : Fin n) (line : CStr) : Prop :=
  HasRoom s idx line ∧ BookFits s idx line

/-- The book gains what the answer says. -/
def TellsTruth (s s' : Server n m) (idx : Fin n) (line : CStr) : Prop :=
  ∀ a, bookQty (s'.clients idx).spellbook a =
    bookQty (s.clients idx).spellbook a + gain s s' line a

/-- The answer speaks of a quantity, and the book gains nothing. -/
structure Loses (s s' : Server n m) (idx : Fin n) (line : CStr) : Prop where
  book : ∀ a, bookQty (s'.clients idx).spellbook a ≤ bookQty (s.clients idx).spellbook a
  nonneg : ∀ a, 0 ≤ gain s s' line a
  pos : ∃ a, 0 < gain s s' line a

theorem bookTakes_of_not_brew (hno : ¬ WizardSends s idx line "BREW") : BookTakes s idx line :=
  ⟨fun hsends => absurd hsends hno, fun hsends => absurd hsends hno⟩

/-- Only `APPARATE` closes, and needs no room. -/
theorem bookTakes_of_close {int : ℤ → ℤ} (h : (handleCommand int s idx line).2 = true) :
    BookTakes s idx line := by
  refine bookTakes_of_not_brew fun hsends => ?_
  have happarate := handleCommand_close h
  rw [hsends.command] at happarate
  exact absurd (Option.some.inj happarate) (by decide)

theorem Refused.tellsTruth (h : Refused s s' idx) : TellsTruth s s' idx line := by
  intro a
  rw [gain_refused h, add_zero]
  obtain ⟨text, rfl, -⟩ := h
  rfl

/-- Where there is no sum that an `int` holds, what it keeps is less. -/
theorem wrap32_add_le {v : ℤ} (h : IsInt v) (hqty : IsInt qty) (hno : intMax - v < qty) :
    wrap32 (v + qty) ≤ v := by
  unfold IsInt at h hqty
  unfold wrap32
  unfold intMax at h hqty hno
  omega

theorem brewed_gain (h : s.Named t) (hints : s.Ints) (hsends : WizardSends s idx line "BREW")
    (hasked : asked s line = some (k, qty)) :
    (BookTakes s idx line → TellsTruth s (s.brewed wrap32 idx k qty) idx line) ∧
      (¬ BookTakes s idx line → Loses s (s.brewed wrap32 idx k qty) idx line) := by
  obtain ⟨qs, -, hqs, -⟩ := asked_eq_some hasked
  have hqty := parsePositiveInt_pos hqs
  have hqtyInt := parsePositiveInt_isInt hqs
  have hint : wrap32 qty = qty := wrap32_eq_self_iff.mpr hqtyInt
  have hheld := bookQty_isInt (h.books idx) (hints.books idx) (s.ingredients k).name
  constructor
  · rintro ⟨hroom, hfits⟩ a
    rw [brewed_book h hint, gain_brewed hsends hasked,
      (wrap32_add_iff hheld hqty).mpr (hfits hsends k qty hasked)]
    by_cases ha : a = (s.ingredients k).name
    · rw [if_pos ⟨hroom hsends k qty hasked, ha⟩, if_pos ha, ha]
    · rw [if_neg fun hand => ha hand.2, if_neg ha, add_zero]
  · intro hno
    refine ⟨fun a => ?_, fun a => ?_, (s.ingredients k).name, ?_⟩
    · rw [brewed_book h hint]
      split_ifs with hand
      · -- there is an entry, so it is the sum that does not fit
        have hover : intMax - bookQty (s.clients idx).spellbook (s.ingredients k).name < qty := by
          by_contra hle
          exact hno ⟨(forall_asked_iff hsends hasked).mpr hand.1,
            (forall_asked_iff hsends hasked).mpr (not_lt.mp hle)⟩
        rw [hand.2]
        exact wrap32_add_le hheld hqtyInt hover
      · exact le_refl _
    · rw [gain_brewed hsends hasked]
      split_ifs
      · exact hqty.le
      · exact le_refl _
    · rw [gain_brewed hsends hasked, if_pos rfl]
      exact hqty

theorem consume_tellsTruth (h : s.Named t) (hints : s.Ints)
    (hsends : WizardSends s idx line "CONSUME") :
    TellsTruth s (handleCommand wrap32 s idx line).1 idx line := by
  have hcases := consume_cases wrap32 hsends
  cases hasked : asked s line with
  | none =>
    rw [hasked] at hcases
    exact hcases.tellsTruth
  | some p =>
    obtain ⟨k, qty⟩ := p
    rw [hasked] at hcases
    obtain ⟨qs, -, hqs, -⟩ := asked_eq_some hasked
    dsimp only at hcases
    split_ifs at hcases with hshort
    · exact hcases.tellsTruth
    · rw [spellQty_eq (h.books idx), not_lt] at hshort
      intro a
      rw [hcases, (consumed_takes h hints (parsePositiveInt_pos hqs) hshort).book,
        gain_consumed hsends hasked]
      split_ifs
      · rfl
      · rfl

/-- Only a line that states a quantity changes the book. -/
theorem Effect.book_eq (he : Effect wrap32 s idx line s') (h : stated line = none) :
    (s'.clients idx).spellbook = (s.clients idx).spellbook := by
  cases he with
  | silent => rfl
  | reply text => rfl
  | enroll =>
    show (Function.update s.clients idx ((s.clients idx).enroll _ _) idx).spellbook = _
    rw [Function.update_self]
    rfl
  | brew ing qs text qty k henrolled htype htokens hqty hk hok =>
    unfold stated at h
    rw [htokens] at h
    dsimp only at h
    rw [if_pos rfl, hqty] at h
    cases h
  | consume ing qs text qty k henrolled htype htokens hqty hk hle hok =>
    unfold stated at h
    rw [htokens] at h
    dsimp only at h
    rw [if_neg (by decide), if_pos rfl, hqty] at h
    cases h

/-- A line that is neither a wizard's `BREW` nor a wizard's `CONSUME`. -/
theorem other_tellsTruth (hbrew : ¬ WizardSends s idx line "BREW")
    (hconsume : ¬ WizardSends s idx line "CONSUME") :
    TellsTruth s (handleCommand wrap32 s idx line).1 idx line := by
  cases hstated : stated line with
  | none =>
    intro a
    have hgain : gain s (handleCommand wrap32 s idx line).1 line a = 0 := by
      unfold gain
      rw [reported_eq_none hstated]
    rw [(handleCommand_effect wrap32 s idx line).book_eq hstated, hgain, add_zero]
  | some p =>
    rcases cmd_of_stated hstated with hcmd | hcmd
    · exact (not_wizard_refused (.inl rfl) hcmd hbrew).tellsTruth
    · exact (not_wizard_refused (.inr rfl) hcmd hconsume).tellsTruth

/-- **A command** adds to the book what it says, but for a `BREW` without room: that speaks of a
quantity, and adds none. -/
theorem command_gain (h : s.Named t) (hints : s.Ints) (idx : Fin n) (line : CStr) :
    (BookTakes s idx line → TellsTruth s (handleCommand wrap32 s idx line).1 idx line) ∧
      (¬ BookTakes s idx line → Loses s (handleCommand wrap32 s idx line).1 idx line) := by
  by_cases hbrew : WizardSends s idx line "BREW"
  · have hcases := brew_cases wrap32 hbrew
    cases hasked : asked s line with
    | none =>
      rw [hasked] at hcases
      have htakes : BookTakes s idx line := ⟨forall_asked_none hasked, forall_asked_none hasked⟩
      exact ⟨fun _ => hcases.tellsTruth, fun hno => absurd htakes hno⟩
    | some p =>
      rw [hasked] at hcases
      rw [hcases]
      exact brewed_gain h hints hbrew hasked
  · refine ⟨fun _ => ?_, fun hno => absurd (bookTakes_of_not_brew hbrew) hno⟩
    by_cases hconsume : WizardSends s idx line "CONSUME"
    · exact consume_tellsTruth h hints hconsume
    · exact other_tellsTruth hbrew hconsume

/-! ## The ledger -/

/-- What a step tells the client in slot `i` it added of `a`. -/
def entry (s : Server n m) (act : Act n) (s' : Server n m) (i : Fin n) (a : CStr) : ℤ :=
  match commandOf s act with
  | some (idx, line) => if i = idx then gain s s' line a else 0
  | none => 0

/-- The ledger after a step: it has nothing for a free slot. -/
def record (s : Server n m) (act : Act n) (s' : Server n m) (told : Fin n → CStr → ℤ) :
    Fin n → CStr → ℤ :=
  fun i a => if (s'.clients i).fd < 0 then 0 else told i a + entry s act s' i a

/-- The server with the ledger. -/
def ledger (t : Table m) (n : ℕ) (timeoutSec : ℤ) :
    Machine (Server n m × (Fin n → CStr → ℤ)) (Act n) :=
  (hogwarts wrap32 t n timeoutSec).withGhost (fun _ _ => 0) record

/-- All that the clients were told they brewed, and have not consumed, is in their books. -/
def Redeemable (x : Server n m × (Fin n → CStr → ℤ)) : Prop :=
  ∀ i a, x.2 i a ≤ bookQty (x.1.clients i).spellbook a

/-- The book takes the step's `BREW`. -/
def StepBookTakes (s : Server n m) (act : Act n) : Prop :=
  ∀ idx line, commandOf s act = some (idx, line) → BookTakes (s.taken idx) idx line

/-- Slots keep their books, or are free. -/
def BooksStay (s s' : Server n m) : Prop :=
  ∀ i, (s'.clients i).spellbook = (s.clients i).spellbook ∧ (s'.clients i).fd = (s.clients i).fd ∨
    (s'.clients i).fd < 0

theorem BooksStay.update {c : Client} (hclients : s'.clients = Function.update s.clients idx c)
    (h : c.spellbook = (s.clients idx).spellbook ∧ c.fd = (s.clients idx).fd ∨ c.fd < 0) :
    BooksStay s s' := by
  unfold BooksStay
  rw [hclients]
  exact rel_update (R := fun c c' : Client => c'.spellbook = c.spellbook ∧ c'.fd = c.fd ∨ c'.fd < 0)
    (fun _ => .inl ⟨rfl, rfl⟩) h

theorem rests_booksStay : Rests (BooksStay : Server n m → Server n m → Prop) where
  refl := fun _ _ => .inl ⟨rfl, rfl⟩
  trans := fun h h' i => by
    rcases h' i with ⟨hbook', hfd'⟩ | hfree
    · rcases h i with ⟨hbook, hfd⟩ | hfree
      · exact .inl ⟨hbook'.trans hbook, hfd'.trans hfd⟩
      · exact .inr (hfd' ▸ hfree)
    · exact .inr hfree
  send := fun _ _ _ _ => .inl ⟨rfl, rfl⟩
  reset := fun _ _ => .update rfl (.inr (by decide))
  fill := fun _ _ _ _ => .update rfl (.inl ⟨rfl, rfl⟩)
  place := fun _ _ _ _ => .inl ⟨rfl, rfl⟩

/-- Connected clients gain what they are told. -/
def StepTells (s : Server n m) (act : Act n) (s' : Server n m) : Prop :=
  ∀ i, 0 ≤ (s'.clients i).fd → ∀ a, bookQty (s'.clients i).spellbook a =
    bookQty (s.clients i).spellbook a + entry s act s' i a

/-- A connected client is told of a quantity, and none gains anything. -/
structure StepLoses (s : Server n m) (act : Act n) (s' : Server n m) : Prop where
  book : ∀ i a, bookQty (s'.clients i).spellbook a ≤ bookQty (s.clients i).spellbook a
  nonneg : ∀ i a, 0 ≤ entry s act s' i a
  pos : ∃ i a, 0 ≤ (s'.clients i).fd ∧ 0 < entry s act s' i a

/-- A step without a command. -/
theorem stepTells_of_no_command (hslots : Slots s)
    (hs : serverStep wrap32 timeoutSec s act = some s') (hno : commandOf s act = none) :
    StepTells s act s' := by
  intro i hfd a
  have hentry : entry s act s' i a = 0 := by
    unfold entry
    rw [hno]
  rw [hentry, add_zero]
  rcases serverStep_rests rests_booksStay hs hno with hstay | ⟨slot, cfd, now, hslot, rfl⟩
  · rcases hstay i with ⟨hbook, -⟩ | hfree
    · rw [hbook]
    · exact absurd hfree (not_lt.mpr hfd)
  · by_cases hi : i = slot
    · -- the slot was free, and its book is empty before and after
      subst hi
      have hwas : (s.clients i).fd < 0 := by simpa using List.find?_some hslot
      rw [(hslots.free i hwas).2, setClient_clients, Function.update_self]
      rfl
    · rw [setClient_clients, Function.update_of_ne hi]

theorem handleCommand_other (s : Server n m) (line : CStr) {i : Fin n} (hi : i ≠ idx) :
    (handleCommand wrap32 (s.taken idx) idx line).1.clients i = s.clients i :=
  ((handleCommand_effect wrap32 (s.taken idx) idx line).other hi).trans (taken_other hi)

theorem removeClient_other (s : Server n m) {i : Fin n} (hi : i ≠ idx) :
    (removeClient s idx).clients i = s.clients i := by
  unfold removeClient
  split_ifs
  · rfl
  · exact Function.update_of_ne hi _ _

theorem entry_of_command (hcmd : commandOf s act = some (idx, line)) (i : Fin n) (a : CStr) :
    entry s act s' i a = if i = idx then gain s s' line a else 0 := by
  unfold entry
  rw [hcmd]

/-- What holds in every reachable state of the compiled server, from a table of `int`s. -/
structure Sound (t : Table m) (s : Server n m) : Prop where
  named : s.Named t
  ints : s.Ints
  attends : s.Attends
  slots : Slots s

theorem sound_init (ht : ∀ k, (t.ingredients k).qty ≤ intMax) :
    Sound t (initial t : Server n m) :=
  ⟨named_init, ints_init ht, attends_init, slots_init⟩

theorem sound_step (h : Sound t s) (hs : serverStep wrap32 timeoutSec s act = some s') :
    Sound t s' :=
  ⟨named_step h.named hs, ints_step h.ints hs, attends_step h.attends hs,
    slots_step h.attends h.slots hs⟩

/-- A step with a command. -/
theorem stepTells_of_command (hi : Sound t s) (hs : serverStep wrap32 timeoutSec s act = some s')
    (hcmd : commandOf s act = some (idx, line)) :
    (BookTakes (s.taken idx) idx line → StepTells s act s') ∧
      (¬ BookTakes (s.taken idx) idx line → StepLoses s act s') := by
  obtain ⟨-, hr, -, -⟩ := commandOf_eq_some hcmd
  have hnamed := taken_named hi.named idx
  have hints : (s.taken idx).Ints := hi.ints.update rfl rfl (hi.ints.books idx)
  have hfd : 0 ≤ ((s.taken idx).clients idx).fd := by
    rw [taken_self]
    exact hi.attends idx hr
  have hfd' : 0 ≤ ((handleCommand wrap32 (s.taken idx) idx line).1.clients idx).fd := by
    rw [(handleCommand_effect wrap32 (s.taken idx) idx line).fd_eq]
    exact hfd
  have hbook : ((s.taken idx).clients idx).spellbook = (s.clients idx).spellbook := by
    rw [taken_self]
  obtain ⟨htells, hloses⟩ := command_gain hnamed hints idx line
  have hs' := serverStep_command hs hcmd
  split_ifs at hs' with hclose
  · refine ⟨fun _ i hconn a => ?_, fun hno => absurd (bookTakes_of_close hclose) hno⟩
    have hne : i ≠ idx := by
      rintro rfl
      rw [hs'] at hconn
      exact absurd (removeClient_fd hfd') (not_lt.mpr hconn)
    have hsame : s'.clients i = s.clients i := by
      rw [hs']
      exact (removeClient_other _ hne).trans (handleCommand_other s line hne)
    rw [entry_of_command hcmd, if_neg hne, add_zero, hsame]
  · subst hs'
    constructor
    · intro hroom i _ a
      rw [entry_of_command hcmd]
      by_cases hne : i = idx
      · subst hne
        rw [if_pos rfl, htells hroom a, hbook]
        rfl
      · rw [if_neg hne, add_zero, handleCommand_other s line hne]
    · intro hno
      have hlost := hloses hno
      obtain ⟨a, ha⟩ := hlost.pos
      refine ⟨fun i a => ?_, fun i a => ?_, idx, a, hfd', ?_⟩
      · by_cases hne : i = idx
        · subst hne
          exact (hlost.book a).trans_eq (congrArg (bookQty · a) hbook)
        · rw [handleCommand_other s line hne]
      · rw [entry_of_command hcmd]
        split_ifs
        · exact hlost.nonneg a
        · exact le_refl _
      · rw [entry_of_command hcmd, if_pos rfl]
        exact ha

/-- **A step** adds to the books what it tells, exactly if it has room. -/
theorem stepTells_iff (hi : Sound t s)
    (hs : serverStep wrap32 timeoutSec s act = some s') :
    (StepBookTakes s act → StepTells s act s') ∧ (¬ StepBookTakes s act → StepLoses s act s') := by
  unfold StepBookTakes
  cases hcmd : commandOf s act with
  | none =>
    refine ⟨fun _ => stepTells_of_no_command hi.slots hs hcmd, fun hno => absurd ?_ hno⟩
    rintro idx line ⟨⟩
  | some command =>
    obtain ⟨idx, line⟩ := command
    have hroom : (∀ idx' line', some (idx, line) = some (idx', line') →
        BookTakes (s.taken idx') idx' line') ↔ BookTakes (s.taken idx) idx line := by
      refine ⟨fun h => h idx line rfl, fun h idx' line' heq => ?_⟩
      obtain ⟨rfl, rfl⟩ := Prod.mk.inj (Option.some.inj heq)
      exact h
    rw [hroom]
    exact stepTells_of_command hi hs hcmd

/-! ## Runs -/

/-- The invariant of the ledger: no book holds more than was told. -/
structure Booked (t : Table m) (x : Server n m × (Fin n → CStr → ℤ)) : Prop where
  sound : Sound t x.1
  le_told : ∀ i a, bookQty (x.1.clients i).spellbook a ≤ x.2 i a

variable {x x' : Server n m × (Fin n → CStr → ℤ)}

theorem Booked.of_step (h : Booked t x)
    (hx : (ledger t n timeoutSec).step x act = some x') :
    Sound t x'.1 ∧ serverStep wrap32 timeoutSec x.1 act = some x'.1 ∧
      x'.2 = record x.1 act x'.1 x.2 := by
  obtain ⟨s', hs, rfl⟩ := Machine.withGhost_step.mp hx
  exact ⟨sound_step h.sound hs, hs, rfl⟩

theorem record_free {told : Fin n → CStr → ℤ} {i : Fin n} (hfree : (s'.clients i).fd < 0)
    (a : CStr) : record s act s' told i a = 0 :=
  if_pos hfree

theorem record_connected {told : Fin n → CStr → ℤ} {i : Fin n} (hfd : 0 ≤ (s'.clients i).fd)
    (a : CStr) : record s act s' told i a = told i a + entry s act s' i a :=
  if_neg (not_lt.mpr hfd)

theorem booked_step (h : Booked t x) (hx : (ledger t n timeoutSec).step x act = some x') :
    Booked t x' := by
  obtain ⟨hi', hs, htold⟩ := h.of_step hx
  obtain ⟨htells, hloses⟩ := stepTells_iff h.sound hs
  refine ⟨hi', fun i a => ?_⟩
  have hle := h.le_told i a
  rw [htold]
  rcases lt_or_ge (x'.1.clients i).fd 0 with hfree | hfd
  · rw [record_free hfree, (hi'.slots.free i hfree).2]
    exact le_refl _
  · rw [record_connected hfd]
    by_cases hroom : StepBookTakes x.1 act
    · rw [htells hroom i hfd a]
      exact Int.add_le_add_right hle _
    · have hlost := hloses hroom
      exact le_add_of_le_of_nonneg ((hlost.book i a).trans hle) (hlost.nonneg i a)

/-- **A step** leaves everything told in the books, exactly if it has room. -/
theorem redeemable_step (h : Booked t x) (hall : Redeemable x)
    (hx : (ledger t n timeoutSec).step x act = some x') :
    Redeemable x' ↔ StepBookTakes x.1 act := by
  obtain ⟨hi', hs, htold⟩ := h.of_step hx
  obtain ⟨htells, hloses⟩ := stepTells_iff h.sound hs
  unfold Redeemable
  rw [htold]
  constructor
  · intro hall'
    by_contra hno
    obtain ⟨i, a, hfd, hpos⟩ := (hloses hno).pos
    have hmore := hall' i a
    have hle := h.le_told i a
    have hbook := (hloses hno).book i a
    rw [record_connected hfd] at hmore
    omega
  · intro hroom i a
    rcases lt_or_ge (x'.1.clients i).fd 0 with hfree | hfd
    · rw [record_free hfree, (hi'.slots.free i hfree).2]
      exact le_refl _
    · rw [record_connected hfd, htells hroom i hfd a]
      exact Int.add_le_add_right (hall i a) _

/-- **All or nothing**: for every `BREW` of an enrolled wizard in every reachable state, whatever is
left in the buffers, exactly if there is room for it; in every run, what clients were told is in
their books all the time exactly if the books take every `BREW`; and what a book holds can be
consumed. -/
theorem brew_whole_iff (t : Table m) (ht : ∀ k, (t.ingredients k).qty ≤ intMax) (n : ℕ)
    (timeoutSec : ℤ) :
    (∀ s, (hogwarts wrap32 t n timeoutSec).Reachable s → ∀ bufs rd idx line,
      WizardSends (s.withBufs bufs rd) idx line "BREW" →
        (AllOrNothing (s.withBufs bufs rd) (handleCommand wrap32 (s.withBufs bufs rd) idx line).1
            idx line ↔
          HasRoom (s.withBufs bufs rd) idx line ∧ BrewFits (s.withBufs bufs rd) idx line ∧
            BookFits (s.withBufs bufs rd) idx line)) ∧
    (∀ as s, (hogwarts wrap32 t n timeoutSec).runs (initial t) as = some s →
      ((ledger t n timeoutSec).AllStates Redeemable (initial t, fun _ _ => 0) as ↔
        (hogwarts wrap32 t n timeoutSec).AllSteps StepBookTakes (initial t) as)) ∧
    ∀ s, (hogwarts wrap32 t n timeoutSec).Reachable s → ∀ bufs rd idx line k qty,
      WizardSends (s.withBufs bufs rd) idx line "CONSUME" →
        asked (s.withBufs bufs rd) line = some (k, qty) →
          qty ≤ bookQty (s.clients idx).spellbook (s.ingredients k).name →
            let s' := (handleCommand wrap32 (s.withBufs bufs rd) idx line).1
            (∃ text, s'.sent = s.sent ++ [((s.clients idx).fd, text)] ∧
              (cstr "OK CONSUME ").isPrefixOf text) ∧
            Takes (s.withBufs bufs rd) s' idx k qty := by
  have hnamed : ∀ s, (hogwarts wrap32 t n timeoutSec).Reachable s → ∀ bufs rd,
      (s.withBufs bufs rd).Named t := fun s hs bufs rd =>
    ⟨(named_reachable hs).name_eq, (named_reachable hs).books⟩
  have hints : ∀ s, (hogwarts wrap32 t n timeoutSec).Reachable s → ∀ bufs rd,
      (s.withBufs bufs rd).Ints := fun s hs bufs rd =>
    ⟨(ints_reachable ht hs).stock, (ints_reachable ht hs).books⟩
  refine ⟨fun s hs bufs rd idx line hsends =>
    allOrNothing_iff (hnamed s hs bufs rd) (hints s hs bufs rd) hsends, fun as s hrun => ?_,
    fun s hs bufs rd idx line k qty hsends hasked hle => ?_⟩
  · obtain ⟨told, hledger⟩ : ∃ told, (ledger t n timeoutSec).runs (initial t, fun _ _ => 0) as =
        some (s, told) := Machine.runs_withGhost (fun (_ : Fin n) (_ : CStr) => (0 : ℤ)) hrun
    have hsteps : (ledger t n timeoutSec).AllSteps (fun x act => StepBookTakes x.1 act)
        (initial t, fun _ _ => 0) as ↔
          (hogwarts wrap32 t n timeoutSec).AllSteps StepBookTakes (initial t) as :=
      Machine.allSteps_withGhost
    rw [← hsteps]
    exact Machine.allStates_iff (J := Booked t) (fun x act x' h hx => booked_step h hx)
      (fun x act x' h hall hx => redeemable_step h hall hx)
      ⟨sound_init ht, fun _ _ => le_refl _⟩ (fun _ _ => le_refl _) hledger
  · have hconsume := consume_iff (hnamed s hs bufs rd) (hints s hs bufs rd) hsends hasked
    rw [if_pos (by exact hle)] at hconsume
    exact hconsume

/-- In `saltRun`, what was told can be consumed. -/
theorem brew_whole_iff_saltRun : ∃ s : Server 2 1,
    (hogwarts wrap32 saltTable 2 60).runs (initial saltTable) (saltRun 1) = some s ∧
      AllOrNothing s (handleCommand wrap32 s 1 (cstr "BREW SALT 2")).1 1 (cstr "BREW SALT 2") ∧
      Takes s (handleCommand wrap32 s 1 (cstr "CONSUME SALT 1")).1 1 0 1 := by
  have h : ((hogwarts wrap32 saltTable 2 60).runs (initial saltTable) (saltRun 1)).map (fun s =>
      decide ((WizardSends s 1 (cstr "BREW SALT 2") "BREW" ∧
        asked s (cstr "BREW SALT 2") = some (0, 2)) ∧
      (WizardSends s 1 (cstr "CONSUME SALT 1") "CONSUME" ∧
        asked s (cstr "CONSUME SALT 1") = some (0, 1)) ∧
      (s.ingredients 0).qty = 6 ∧ (s.clients 1).spellbook = [⟨(s.ingredients 0).name, 1⟩])) =
      some true := by
    decide +kernel
  obtain ⟨s, hrun, hs⟩ := Option.map_eq_some_iff.mp h
  obtain ⟨⟨hbrew, hasked⟩, ⟨hconsume, hasked'⟩, hqty, hbook⟩ := of_decide_eq_true hs
  have hreach : (hogwarts wrap32 saltTable 2 60).Reachable s := Machine.runs_reachable hrun
  obtain ⟨hwhole, -, hredeem⟩ := brew_whole_iff saltTable (by decide) 2 60
  refine ⟨s, hrun, ?_, (hredeem s hreach s.bufs s.reading 1 _ 0 1 hconsume hasked' ?_).2⟩
  · refine (hwhole s hreach s.bufs s.reading 1 _ hbrew).mpr
      ⟨(forall_asked_iff hbrew hasked).mpr (.inr ?_), (forall_asked_iff hbrew hasked).mpr ?_,
        (forall_asked_iff hbrew hasked).mpr ?_⟩
    · rw [withBufs_self, hbook]
      exact (by decide : 1 < 64)
    · rw [withBufs_self, hqty]
      decide
    · rw [withBufs_self, hbook, bookQty_cons, if_pos rfl, bookQty_nil, add_zero]
      exact (by decide : (2 : ℤ) ≤ intMax - 1)
  · rw [hbook, bookQty_cons, if_pos rfl, bookQty_nil, add_zero]

/-- Sixty-five ingredients, one more than a spellbook has entries for. -/
def crowdedTable : Table 65 where
  ingredients := fun k => ⟨[65 + UInt8.ofNat (k / 10), 48 + UInt8.ofNat (k % 10)], 1⟩
  le_max := by decide
  valid := by decide
  pos := fun _ => Int.one_pos
  name_injective := by decide

/-- A line that brews one of ingredient `k`. -/
def brewLine (k : Fin 65) : CStr :=
  cstr "BREW " ++ (crowdedTable.ingredients k).name ++ cstr " 1"

/-- A wizard brews one of each of the first 64 ingredients, in two messages. -/
def crowdedRun : List (Act 1) :=
  let lines := (List.finRange 65).map fun k => brewLine k ++ newline
  [.accept 4 0,
    .input (Fin.last 0) (.data (cstr "ENROLL WIZARD gandalf\n" ++ (lines.take 40).flatten)) 1] ++
  List.replicate 42 .line ++
  [.input (Fin.last 0) (.data ((lines.drop 40).take 24).flatten) 2] ++ List.replicate 25 .line

/-- Not every `BREW` is all or nothing. -/
theorem not_brew_whole : ¬ ∀ (m : ℕ) (t : Table m) (n : ℕ) (timeoutSec : ℤ) (s : Server n m),
    (hogwarts wrap32 t n timeoutSec).Reachable s → ∀ idx line, WizardSends s idx line "BREW" →
      AllOrNothing s (handleCommand wrap32 s idx line).1 idx line := by
  intro hall
  have h : ((hogwarts wrap32 crowdedTable 1 60).runs (initial crowdedTable) crowdedRun).map
      (fun s => decide ((WizardSends s 0 (brewLine (Fin.last 64)) "BREW" ∧
        asked s (brewLine (Fin.last 64)) = some (Fin.last 64, 1)) ∧
      (s.clients 0).spellbook.length = 64 ∧ ((s.clients 0).spellbook.all fun e =>
        decide (e.name ≠ (s.ingredients (Fin.last 64)).name)) = true)) = some true := by
    decide +kernel
  obtain ⟨s, hrun, hs⟩ := Option.map_eq_some_iff.mp h
  obtain ⟨⟨hbrew, hasked⟩, hlength, hnew⟩ := of_decide_eq_true hs
  have hreach : (hogwarts wrap32 crowdedTable 1 60).Reachable s := Machine.runs_reachable hrun
  have hwhole := (allOrNothing_iff (named_reachable hreach) (ints_reachable (by decide) hreach)
    hbrew).mp (hall 65 crowdedTable 1 60 s hreach 0 _ hbrew)
  rcases hwhole.1 hbrew _ _ hasked with ⟨e, he, heq⟩ | hlt
  · exact absurd heq (of_decide_eq_true (List.all_eq_true.mp hnew e he))
  · rw [hlength] at hlt
    exact absurd hlt (by decide)

end Cse344.HW6
