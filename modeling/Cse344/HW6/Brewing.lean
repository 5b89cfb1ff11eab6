import Cse344.HW6.Overflow

/-!
# What HW6 does with a BREW

`cmd_brew` (`HW6/hogwarts.c` 244-268) adds to the stock, calls `spell_add` (209-221), and answers
`OK` whatever that returns. Here the quantities are those of the compiled server (`wrap32`).

* `brew_cases` and `consume_cases`: a wizard's line is carried out (`Server.brewed`,
  `Server.consumed`), or answered with an error (`Refused`).
* `Server.Ints`: all quantities are `int`s, in every reachable state (`ints_reachable`).
* `HasRoom`: the book has the ingredient or a free entry. `BrewFits` and `BookFits`: the sums of the
  stock and of the entry are `int`s.

Results:
* **`allOrNothing_iff`**: a `BREW` is all or nothing exactly if there is room for it in the book, in
  the `int` of the stock and in that of the entry.
* `consume_iff`: what a book holds can be consumed, and no more.

Out of scope: what a client was told over a whole run, which is `Cse344.HW6.Told`.
-/

namespace Cse344.HW6

open Cse344.Lib

variable {int : ℤ → ℤ} {n m : ℕ} {t : Table m} {s s' : Server n m} {idx : Fin n} {line : CStr}
  {k : Fin m} {qty timeoutSec : ℤ} {act : Act n}

/-! ## All or nothing -/

/-- Ingredient `k` grows by `δ` in the stock and in the book of `idx`; nothing else of the two
changes. -/
structure Grows (s s' : Server n m) (idx : Fin n) (k : Fin m) (δ : ℤ) : Prop where
  stock : ∀ k', (s'.ingredients k').qty = (s.ingredients k').qty + if k' = k then δ else 0
  book : ∀ a, bookQty (s'.clients idx).spellbook a =
    bookQty (s.clients idx).spellbook a + if a = (s.ingredients k).name then δ else 0

/-- The line is answered with `OK BREW`, and what it asks for was added; or it is answered
otherwise, and stock and book are as they were. -/
def AllOrNothing (s s' : Server n m) (idx : Fin n) (line : CStr) : Prop :=
  ∃ text, s'.sent = s.sent ++ [((s.clients idx).fd, text)] ∧
    (if (cstr "OK BREW ").isPrefixOf text then
      ∃ k qty, asked s line = some (k, qty) ∧ Grows s s' idx k qty
    else s'.ingredients = s.ingredients ∧ (s'.clients idx).spellbook = (s.clients idx).spellbook)

/-- A `BREW` that is carried out finds its ingredient in the book, or a free entry. -/
def HasRoom (s : Server n m) (idx : Fin n) (line : CStr) : Prop :=
  WizardSends s idx line "BREW" → ∀ k qty, asked s line = some (k, qty) →
    (∃ e ∈ (s.clients idx).spellbook, e.name = (s.ingredients k).name) ∨
      (s.clients idx).spellbook.length < maxSpellbookEntries

/-- A `BREW` that is carried out asks for no more than the entry has room for, up to `INT_MAX`. -/
def BookFits (s : Server n m) (idx : Fin n) (line : CStr) : Prop :=
  WizardSends s idx line "BREW" → ∀ k qty, asked s line = some (k, qty) →
    qty ≤ intMax - bookQty (s.clients idx).spellbook (s.ingredients k).name

/-! ## The two commands -/

/-- `handle_command` on a line of an enrolled wizard's. -/
theorem handleCommand_wizard (int : ℤ → ℤ) {cmd : String} (h : WizardSends s idx line cmd)
    (hcmd : cmd = "BREW" ∨ cmd = "CONSUME") :
    ∃ args, strtok blanks line = (some (cstr cmd), args) ∧
      (tokens line).2 = ((strtok blanks args).1, (strtok blanks (strtok blanks args).2).1) ∧
      handleCommand int s idx line =
        (if cmd = "BREW" then cmdBrew int s idx args else cmdConsume int s idx args, false) := by
  obtain ⟨args, hline, hwords⟩ := h.words
  refine ⟨args, hline, hwords, ?_⟩
  have hnew : ¬ (s.clients idx).enrolled = false := by simp [h.enrolled]
  unfold handleCommand authorized
  rw [hline]
  rcases hcmd with rfl | rfl
  · dsimp only
    rw [if_neg (by decide), if_neg (by decide), if_neg hnew, if_pos rfl, if_pos h.type_eq,
      if_pos rfl]
  · dsimp only
    rw [if_neg (by decide), if_neg (by decide), if_neg hnew, if_neg (by decide), if_pos rfl,
      if_pos h.type_eq, if_neg (by decide)]

/-- The answer to a `BREW` that is carried out. -/
def okBrew (ing : CStr) (qty stock : ℤ) : CStr :=
  snprintf 128 (cstr "OK BREW " ++ ing ++ sp ++ decimal qty ++ sp ++ decimal stock)

/-- The answer to a `CONSUME` that is carried out. -/
def okConsume (ing : CStr) (qty stock : ℤ) : CStr :=
  snprintf 128 (cstr "OK CONSUME " ++ ing ++ sp ++ decimal qty ++ sp ++ decimal stock)

/-- The server after a `BREW` that is carried out. -/
def Server.brewed (int : ℤ → ℤ) (s : Server n m) (idx : Fin n) (k : Fin m) (qty : ℤ) :
    Server n m :=
  let name := (s.ingredients k).name
  let stock := int ((s.ingredients k).qty + qty)
  (s.exchange idx k stock (spellAdd int (s.clients idx).spellbook name qty).1).reply idx
    (okBrew name qty stock)

/-- The server after a `CONSUME` that is carried out. -/
def Server.consumed (int : ℤ → ℤ) (s : Server n m) (idx : Fin n) (k : Fin m) (qty : ℤ) :
    Server n m :=
  let name := (s.ingredients k).name
  let stock := int ((s.ingredients k).qty - qty)
  (s.exchange idx k stock (spellSub int (s.clients idx).spellbook name qty)).reply idx
    (okConsume name qty stock)

/-- The line is answered with an error, and nothing else happens. -/
def Refused (s s' : Server n m) (idx : Fin n) : Prop :=
  ∃ text, s' = s.reply idx text ∧ (cstr "ERR ").isPrefixOf text

/-- The two commands are for enrolled wizards only. -/
theorem not_wizard_refused {cmd : String} (hcmd : cmd = "BREW" ∨ cmd = "CONSUME")
    (hline : (tokens line).1 = some (cstr cmd)) (hno : ¬ WizardSends s idx line cmd) :
    Refused s (handleCommand int s idx line).1 idx := by
  have hstrtok : strtok blanks line = (some (cstr cmd), (strtok blanks line).2) :=
    Prod.ext hline rfl
  unfold handleCommand authorized
  rw [hstrtok]
  by_cases hnew : (s.clients idx).enrolled = false
  · rcases hcmd with rfl | rfl
    · exact ⟨_, congrArg Prod.fst (if_pos hnew), rfl⟩
    · exact ⟨_, congrArg Prod.fst (if_pos hnew), rfl⟩
  · have htype : (s.clients idx).type ≠ cstr "WIZARD" := fun htype =>
      hno ⟨Bool.eq_true_of_not_eq_false hnew, htype, hline⟩
    rcases hcmd with rfl | rfl
    · exact ⟨_, (congrArg Prod.fst (if_neg hnew)).trans (if_neg htype), rfl⟩
    · exact ⟨_, (congrArg Prod.fst (if_neg hnew)).trans (if_neg htype), rfl⟩

/-- **`BREW`** from an enrolled wizard. -/
theorem brew_cases (int : ℤ → ℤ) (h : WizardSends s idx line "BREW") :
    match asked s line with
    | some (k, qty) => (handleCommand int s idx line).1 = s.brewed int idx k qty
    | none => Refused s (handleCommand int s idx line).1 idx := by
  obtain ⟨args, -, hwords, hhandle⟩ := handleCommand_wizard int h (.inl rfl)
  rw [hhandle, if_pos rfl]
  unfold asked cmdBrew
  rw [hwords]
  dsimp only
  cases (strtok blanks args).1 with
  | none => exact ⟨_, rfl, rfl⟩
  | some ing =>
    cases (strtok blanks (strtok blanks args).2).1.bind parsePositiveInt with
    | none => exact ⟨_, rfl, rfl⟩
    | some qty =>
      dsimp only
      cases hk : findIngredient s ing with
      | none => exact ⟨_, rfl, rfl⟩
      | some k =>
        obtain rfl := findIngredient_name hk
        rfl

/-- **`CONSUME`** from an enrolled wizard. -/
theorem consume_cases (int : ℤ → ℤ) (h : WizardSends s idx line "CONSUME") :
    match asked s line with
    | some (k, qty) =>
      if spellQty (s.clients idx).spellbook (s.ingredients k).name < qty then
        Refused s (handleCommand int s idx line).1 idx
      else (handleCommand int s idx line).1 = s.consumed int idx k qty
    | none => Refused s (handleCommand int s idx line).1 idx := by
  obtain ⟨args, -, hwords, hhandle⟩ := handleCommand_wizard int h (.inr rfl)
  rw [hhandle, if_neg (by decide)]
  unfold asked cmdConsume
  rw [hwords]
  dsimp only
  cases (strtok blanks args).1 with
  | none => exact ⟨_, rfl, rfl⟩
  | some ing =>
    cases (strtok blanks (strtok blanks args).2).1.bind parsePositiveInt with
    | none => exact ⟨_, rfl, rfl⟩
    | some qty =>
      dsimp only
      cases hk : findIngredient s ing with
      | none => exact ⟨_, rfl, rfl⟩
      | some k =>
        obtain rfl := findIngredient_name hk
        dsimp only [Option.map_some]
        split_ifs with hshort
        · exact ⟨_, rfl, rfl⟩
        · rfl

/-! ## Integers -/

/-- All quantities are `int`s. -/
structure Server.Ints (s : Server n m) : Prop where
  stock : ∀ k, IsInt (s.ingredients k).qty
  books : ∀ i, ∀ e ∈ (s.clients i).spellbook, IsInt e.qty

theorem parsePositiveInt_isInt {q : CStr} (h : parsePositiveInt q = some qty) : IsInt qty := by
  refine isInt_of_nonneg (parsePositiveInt_pos h).le ?_
  unfold parsePositiveInt at h
  split at h
  · cases h
  · dsimp only at h
    split_ifs at h with hend hrange
    obtain rfl := Option.some.inj h
    unfold intMax
    omega

/-- Only the clients change, and one of them at most. -/
theorem Server.Ints.update (h : s.Ints) {c : Client} (hi : s'.ingredients = s.ingredients)
    (hc : s'.clients = Function.update s.clients idx c) (hbook : ∀ e ∈ c.spellbook, IsInt e.qty) :
    s'.Ints := by
  refine ⟨fun k => by rw [hi]; exact h.stock k, ?_⟩
  rw [hc]
  exact (Function.forall_update_iff s.clients fun _ c => ∀ e ∈ c.spellbook, IsInt e.qty).mpr
    ⟨hbook, fun i _ => h.books i⟩

theorem Server.Ints.exchange (h : s.Ints) {stock : ℤ} {book : List SpellEntry} {text : CStr}
    (hstock : IsInt stock) (hbook : ∀ e ∈ book, IsInt e.qty) :
    ((s.exchange idx k stock book).reply idx text).Ints := by
  have hset : { s with
      ingredients := Function.update s.ingredients k ⟨(s.ingredients k).name, stock⟩ }.Ints := by
    refine ⟨?_, h.books⟩
    exact (Function.forall_update_iff s.ingredients fun _ g => IsInt g.qty).mpr
      ⟨hstock, fun k' _ => h.stock k'⟩
  exact hset.update rfl rfl hbook

/-- **A command computes `int`s.** -/
theorem Effect.ints (he : Effect wrap32 s idx line s') (h : s.Ints) : s'.Ints := by
  cases he with
  | silent => exact h
  | reply text => exact ⟨h.stock, h.books⟩
  | enroll => exact h.update rfl rfl (h.books idx)
  | brew ing qs text qty k henrolled htype htokens hqty hk hok =>
    exact h.exchange (isInt_wrap32 _)
      (spellAdd_forall (h.books idx) (parsePositiveInt_isInt hqty) fun _ _ => isInt_wrap32 _)
  | consume =>
    exact h.exchange (isInt_wrap32 _) (spellSub_forall (h.books idx) fun _ _ _ => isInt_wrap32 _)

theorem rests_ints : Rests fun s s' : Server n m => s.Ints → s'.Ints where
  refl := fun _ h => h
  trans := fun h h' hints => h' (h hints)
  send := fun _ _ _ h => ⟨h.stock, h.books⟩
  reset := fun _ _ h => h.update rfl rfl fun _ he => by cases he
  fill := fun _ idx _ _ h => h.update rfl rfl (h.books idx)
  place := fun _ _ _ h => ⟨h.stock, h.books⟩

theorem ints_step (h : s.Ints) (hs : serverStep wrap32 timeoutSec s act = some s') : s'.Ints := by
  cases hcmd : commandOf s act with
  | none =>
    rcases serverStep_rests rests_ints hs hcmd with hrest | ⟨slot, cfd, now, -, rfl⟩
    · exact hrest h
    · exact h.update rfl rfl fun _ he => by cases he
  | some command =>
    obtain ⟨idx, line⟩ := command
    have htaken : (s.taken idx).Ints := h.update rfl rfl (h.books idx)
    have hkept := (handleCommand_effect wrap32 (s.taken idx) idx line).ints htaken
    rw [serverStep_command hs hcmd]
    split_ifs
    · have hrest := rests_ints.removeClient (handleCommand wrap32 (s.taken idx) idx line).1 idx
      exact ⟨(hrest hkept).stock, (hrest hkept).books⟩
    · exact hkept

theorem ints_init (ht : ∀ k, (t.ingredients k).qty ≤ intMax) : (initial t : Server n m).Ints :=
  ⟨fun k => isInt_of_nonneg (t.pos k).le (ht k), fun _ _ he => by cases he⟩

/-- **In every reachable state** of a server that starts with `int`s. -/
theorem ints_reachable (ht : ∀ k, (t.ingredients k).qty ≤ intMax)
    (h : (hogwarts wrap32 t n timeoutSec).Reachable s) : s.Ints :=
  h.induct (ints_init ht) fun _ _ _ hi hs => ints_step hi hs

/-- What a book holds is an `int`. -/
theorem bookQty_isInt {known : CStr → Prop} {book : List SpellEntry} (h : Names known book)
    (hints : ∀ e ∈ book, IsInt e.qty) (a : CStr) : IsInt (bookQty book a) := by
  cases hfind : spellFind book a with
  | some i =>
    rw [bookQty_of_find h hfind]
    exact hints _ (List.getElem_mem i.isLt)
  | none =>
    rw [bookQty_eq_zero (spellFind_eq_none hfind)]
    exact isInt_of_nonneg (le_refl 0) (by decide)

/-- A sum with a positive quantity is an `int` if it is not too large. -/
theorem wrap32_add_iff {v : ℤ} (h : IsInt v) (hqty : 0 < qty) :
    wrap32 (v + qty) = v + qty ↔ qty ≤ intMax - v := by
  rw [wrap32_eq_self_iff]
  unfold IsInt at h ⊢
  omega

/-! ## One line -/

theorem brewed_sent (s : Server n m) (idx : Fin n) (k : Fin m) (qty : ℤ) :
    (s.brewed int idx k qty).sent = s.sent ++ [((s.clients idx).fd,
      okBrew (s.ingredients k).name qty (int ((s.ingredients k).qty + qty)))] :=
  exchange_reply_sent s idx k _ _ _

theorem consumed_sent (s : Server n m) (idx : Fin n) (k : Fin m) (qty : ℤ) :
    (s.consumed int idx k qty).sent = s.sent ++ [((s.clients idx).fd,
      okConsume (s.ingredients k).name qty (int ((s.ingredients k).qty - qty)))] :=
  exchange_reply_sent s idx k _ _ _

theorem okBrew_ok (ing : CStr) (qty stock : ℤ) :
    (cstr "OK BREW ").isPrefixOf (okBrew ing qty stock) :=
  isPrefixOf_snprintf (by decide) rfl

theorem ok_of_okBrew {text : CStr} (h : (cstr "OK BREW ").isPrefixOf text) :
    (cstr "OK ").isPrefixOf text := by
  obtain ⟨rest, rfl⟩ := List.isPrefixOf_iff_prefix.mp h
  rfl

/-- The stock of ingredient `k` becomes `stock`. -/
theorem exchange_stock (s : Server n m) (idx : Fin n) (k : Fin m) (stock : ℤ)
    (book : List SpellEntry) (text : CStr) (k' : Fin m) :
    (((s.exchange idx k stock book).reply idx text).ingredients k').qty =
      if k' = k then stock else (s.ingredients k').qty := by
  show (Function.update s.ingredients k ⟨(s.ingredients k).name, stock⟩ k').qty = _
  split_ifs with hk
  · rw [hk, Function.update_self]
  · rw [Function.update_of_ne hk]

/-- What the book of the wizard holds after the `BREW`. -/
theorem brewed_book (h : s.Named t) (hint : int qty = qty) (idx : Fin n) (k : Fin m) (a : CStr) :
    bookQty ((s.brewed int idx k qty).clients idx).spellbook a =
      if ((∃ e ∈ (s.clients idx).spellbook, e.name = (s.ingredients k).name) ∨
          (s.clients idx).spellbook.length < maxSpellbookEntries) ∧ a = (s.ingredients k).name
      then int (bookQty (s.clients idx).spellbook (s.ingredients k).name + qty)
      else bookQty (s.clients idx).spellbook a := by
  have hbook : ((s.brewed int idx k qty).clients idx).spellbook =
      (spellAdd int (s.clients idx).spellbook (s.ingredients k).name qty).1 :=
    congrArg Client.spellbook (exchange_reply_self s idx k _ _ _)
  rw [hbook, spellAdd_qty hint (h.books idx) (h.known_name k).2 a]
  simp only [spellAdd_added_iff]

/-- A `BREW` that is carried out grows stock and book exactly if the book has room and an `int`
keeps the sums. -/
theorem brewed_grows_iff (h : s.Named t) (hqty : 0 < qty) (hint : int qty = qty) (idx : Fin n)
    (k : Fin m) :
    Grows s (s.brewed int idx k qty) idx k qty ↔
      ((∃ e ∈ (s.clients idx).spellbook, e.name = (s.ingredients k).name) ∨
        (s.clients idx).spellbook.length < maxSpellbookEntries) ∧
      int ((s.ingredients k).qty + qty) = (s.ingredients k).qty + qty ∧
      int (bookQty (s.clients idx).spellbook (s.ingredients k).name + qty) =
        bookQty (s.clients idx).spellbook (s.ingredients k).name + qty := by
  have hstock : ∀ k', ((s.brewed int idx k qty).ingredients k').qty =
      if k' = k then int ((s.ingredients k).qty + qty) else (s.ingredients k').qty :=
    exchange_stock s idx k _ _ _
  constructor
  · intro hgrows
    have hself := hgrows.stock k
    have hbook := hgrows.book (s.ingredients k).name
    rw [hstock, if_pos rfl, if_pos rfl] at hself
    rw [brewed_book h hint, if_pos rfl] at hbook
    by_cases hroom : (∃ e ∈ (s.clients idx).spellbook, e.name = (s.ingredients k).name) ∨
        (s.clients idx).spellbook.length < maxSpellbookEntries
    · rw [if_pos ⟨hroom, rfl⟩] at hbook
      exact ⟨hroom, hself, hbook⟩
    · rw [if_neg fun hand => hroom hand.1] at hbook
      omega
  · rintro ⟨hroom, hself, hbook⟩
    refine ⟨fun k' => ?_, fun a => ?_⟩
    · rw [hstock]
      split_ifs with hk
      · rw [hk, hself]
      · rw [add_zero]
    · rw [brewed_book h hint]
      by_cases ha : a = (s.ingredients k).name
      · rw [if_pos ⟨hroom, ha⟩, if_pos ha, hbook, ha]
      · rw [if_neg fun hand => ha hand.2, if_neg ha, add_zero]

/-- What is said of what a line asks for. -/
theorem forall_asked_iff {cmd : String} {k : Fin m} {qty : ℤ} {P : Fin m → ℤ → Prop}
    (hsends : WizardSends s idx line cmd) (hasked : asked s line = some (k, qty)) :
    (WizardSends s idx line cmd → ∀ k qty, asked s line = some (k, qty) → P k qty) ↔ P k qty := by
  refine ⟨fun h => h hsends k qty hasked, fun h _ k' qty' hasked' => ?_⟩
  obtain ⟨rfl, rfl⟩ := Prod.mk.inj (Option.some.inj (hasked.symm.trans hasked'))
  exact h

/-- Nothing is said where the line asks for nothing. -/
theorem forall_asked_none {cmd : String} {P : Fin m → ℤ → Prop} (hasked : asked s line = none) :
    WizardSends s idx line cmd → ∀ k qty, asked s line = some (k, qty) → P k qty :=
  fun _ _ _ hk => absurd (hasked.symm.trans hk) (Option.some_ne_none _).symm

/-- **A `BREW`** is all or nothing exactly if there is room for it. -/
theorem allOrNothing_iff (h : s.Named t) (hints : s.Ints) (hsends : WizardSends s idx line "BREW") :
    AllOrNothing s (handleCommand wrap32 s idx line).1 idx line ↔
      HasRoom s idx line ∧ BrewFits s idx line ∧ BookFits s idx line := by
  have hcases := brew_cases wrap32 hsends
  cases hasked : asked s line with
  | none =>
    rw [hasked] at hcases
    obtain ⟨text, heq, herr⟩ := hcases
    refine ⟨fun _ => ⟨forall_asked_none hasked, forall_asked_none hasked,
      forall_asked_none hasked⟩, fun _ => ⟨text, ?_, ?_⟩⟩
    · rw [heq]
      rfl
    · rw [if_neg fun hok => not_err_of_ok (ok_of_okBrew hok) herr, heq]
      exact ⟨rfl, rfl⟩
  | some p =>
    obtain ⟨k, qty⟩ := p
    rw [hasked] at hcases
    obtain ⟨qs, -, hqs, -⟩ := asked_eq_some hasked
    have hqty := parsePositiveInt_pos hqs
    have hint : wrap32 qty = qty := wrap32_eq_self_iff.mpr (parsePositiveInt_isInt hqs)
    have hgrows := brewed_grows_iff h hqty hint idx k
    rw [wrap32_add_iff (hints.stock k) hqty,
      wrap32_add_iff (bookQty_isInt (h.books idx) (hints.books idx) _) hqty] at hgrows
    have hroom : HasRoom s idx line ∧ BrewFits s idx line ∧ BookFits s idx line ↔
        Grows s (s.brewed wrap32 idx k qty) idx k qty :=
      (and_congr (forall_asked_iff hsends hasked) (and_congr (forall_asked_iff hsends hasked)
        (forall_asked_iff hsends hasked))).trans hgrows.symm
    rw [hcases, hroom]
    constructor
    · rintro ⟨text, hsent, hwhole⟩
      obtain rfl := answer_unique (brewed_sent s idx k qty) hsent
      rw [if_pos (okBrew_ok _ _ _)] at hwhole
      obtain ⟨k', qty', hasked', hgrows'⟩ := hwhole
      obtain ⟨rfl, rfl⟩ := Prod.mk.inj (Option.some.inj (hasked.symm.trans hasked'))
      exact hgrows'
    · intro hwhole
      refine ⟨_, brewed_sent s idx k qty, ?_⟩
      rw [if_pos (okBrew_ok _ _ _)]
      exact ⟨k, qty, hasked, hwhole⟩

/-- What was asked for is taken from the book, and from the stock as an `int` keeps it. -/
structure Takes (s s' : Server n m) (idx : Fin n) (k : Fin m) (qty : ℤ) : Prop where
  book : ∀ a, bookQty (s'.clients idx).spellbook a =
    bookQty (s.clients idx).spellbook a - if a = (s.ingredients k).name then qty else 0
  stock : ∀ k', (s'.ingredients k').qty =
    if k' = k then wrap32 ((s.ingredients k).qty - qty) else (s.ingredients k').qty

/-- What is left in the book is an `int`. -/
theorem wrap32_sub_of_le {v : ℤ} (h : IsInt v) (hqty : 0 < qty) (hle : qty ≤ v) :
    wrap32 (v - qty) = v - qty := by
  rw [wrap32_eq_self_iff]
  unfold IsInt at h ⊢
  unfold intMax at h ⊢
  omega

theorem consumed_takes (h : s.Named t) (hints : s.Ints) (hqty : 0 < qty)
    (hle : qty ≤ bookQty (s.clients idx).spellbook (s.ingredients k).name) :
    Takes s (s.consumed wrap32 idx k qty) idx k qty := by
  have hbook : ((s.consumed wrap32 idx k qty).clients idx).spellbook =
      spellSub wrap32 (s.clients idx).spellbook (s.ingredients k).name qty :=
    congrArg Client.spellbook (exchange_reply_self s idx k _ _ _)
  refine ⟨fun a => ?_, exchange_stock s idx k _ _ _⟩
  rw [hbook]
  exact spellSub_qty (h.books idx) hle
    (wrap32_sub_of_le (bookQty_isInt (h.books idx) (hints.books idx) _) hqty hle) hqty a

/-- A `CONSUME` takes what it asks for, exactly if the book holds it. -/
theorem consume_iff (h : s.Named t) (hints : s.Ints) (hsends : WizardSends s idx line "CONSUME")
    (hasked : asked s line = some (k, qty)) :
    if qty ≤ bookQty (s.clients idx).spellbook (s.ingredients k).name then
      (∃ text, (handleCommand wrap32 s idx line).1.sent =
          s.sent ++ [((s.clients idx).fd, text)] ∧ (cstr "OK CONSUME ").isPrefixOf text) ∧
      Takes s (handleCommand wrap32 s idx line).1 idx k qty
    else Refused s (handleCommand wrap32 s idx line).1 idx := by
  have hcases := consume_cases wrap32 hsends
  obtain ⟨qs, -, hqs, -⟩ := asked_eq_some hasked
  rw [hasked] at hcases
  dsimp only at hcases
  rw [spellQty_eq (h.books idx)] at hcases
  split_ifs with hle
  · rw [if_neg (not_lt.mpr hle)] at hcases
    rw [hcases]
    exact ⟨⟨_, consumed_sent s idx k qty, isPrefixOf_snprintf (by decide) rfl⟩,
      consumed_takes h hints (parsePositiveInt_pos hqs) hle⟩
  · rwa [if_pos (not_le.mp hle)] at hcases

end Cse344.HW6
