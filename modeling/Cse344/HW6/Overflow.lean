import Cse344.HW6.Usernames

/-!
# Overflow of the quantities of HW6

The quantities of `HW6/hogwarts.c` are `int`s, and nothing bounds their sums. `commandSums` are the
sums and differences that `spell_add`, `spell_sub`, `cmd_brew` and `cmd_consume` (209-304) compute,
as mathematical values, and `stepSums` those of a step.

* `WizardSends` is when a line is handled by `cmd_brew` or `cmd_consume`, and `asked` what it then
  names; `commandSums_brew` and `commandSums_consume` are the sums in these words.
* `BrewFits`: a `BREW` that is carried out asks for no more than `INT_MAX` less the stock.

Results:
* **`bookQty_lt_stock`**: a wizard's book holds no more of an ingredient than the stock, so that a
  `CONSUME` stays inside the range of an `int`, and a `BREW` does if the new stock does.
* **`noOverflow_iff`**: the sums of a step are `int`s exactly if each `BREW` in it fits.
* **`serverStep_eq_unbounded`**: a step whose sums an `int` keeps is the step in exact arithmetic;
  so is one that fits (`fits_step`).

Out of scope: what happens once a sum is no `int`; `Cse344.HW6.Brewing` and `Cse344.HW6.Told` have
the wrapped sums.
-/

namespace Cse344.HW6

open Cse344.Lib

variable {int : ℤ → ℤ} {n m : ℕ} {t : Table m} {s s' : Server n m} {idx : Fin n} {line args : CStr}
  {timeoutSec : ℤ} {act : Act n}

/-! ## Sums -/

/-- The sums in `spell_add`. -/
def spellAddSums (book : List SpellEntry) (name : CStr) (qty : ℤ) : List ℤ :=
  match spellFind book name with
  | some idx => [(book.get idx).qty + qty]
  | none => []

/-- The differences in `spell_sub`. -/
def spellSubSums (book : List SpellEntry) (name : CStr) (qty : ℤ) : List ℤ :=
  match spellFind book name with
  | some idx => [(book.get idx).qty - qty]
  | none => []

def cmdBrewSums (s : Server n m) (idx : Fin n) (args : CStr) : List ℤ :=
  let (ing, args) := strtok blanks args
  let (qs, _) := strtok blanks args
  match ing, qs.bind parsePositiveInt with
  | some ing, some qty =>
    match findIngredient s ing with
    | none => []
    | some k => ((s.ingredients k).qty + qty) :: spellAddSums (s.clients idx).spellbook ing qty
  | _, _ => []

def cmdConsumeSums (s : Server n m) (idx : Fin n) (args : CStr) : List ℤ :=
  let (ing, args) := strtok blanks args
  let (qs, _) := strtok blanks args
  match ing, qs.bind parsePositiveInt with
  | some ing, some qty =>
    match findIngredient s ing with
    | none => []
    | some k =>
      let c := s.clients idx
      if spellQty c.spellbook ing < qty then []
      else ((s.ingredients k).qty - qty) :: spellSubSums c.spellbook ing qty
  | _, _ => []

/-- The sums of a line: those of the wizards' two commands, which `handle_command` reaches for an
enrolled wizard. -/
def commandSums (s : Server n m) (idx : Fin n) (line : CStr) : List ℤ :=
  match strtok blanks line with
  | (none, _) => []
  | (some cmd, args) =>
    if (s.clients idx).enrolled = false then []
    else if (s.clients idx).type ≠ cstr "WIZARD" then []
    else if cmd = cstr "BREW" then cmdBrewSums s idx args
    else if cmd = cstr "CONSUME" then cmdConsumeSums s idx args
    else []

/-- The sums of a step. -/
def stepSums (s : Server n m) (act : Act n) : List ℤ :=
  match commandOf s act with
  | some (idx, line) => commandSums (s.taken idx) idx line
  | none => []

/-- No sum of the step leaves the range of an `int`. -/
def NoOverflow (s : Server n m) (act : Act n) : Prop := ∀ v ∈ stepSums s act, IsInt v

/-! ## What a line asks for -/

/-- An enrolled wizard sends the command `cmd`. -/
structure WizardSends (s : Server n m) (idx : Fin n) (line : CStr) (cmd : String) : Prop where
  enrolled : (s.clients idx).enrolled = true
  type_eq : (s.clients idx).type = cstr "WIZARD"
  command : (tokens line).1 = some (cstr cmd)

instance (s : Server n m) (idx : Fin n) (line : CStr) (cmd : String) :
    Decidable (WizardSends s idx line cmd) :=
  decidable_of_iff ((s.clients idx).enrolled = true ∧ (s.clients idx).type = cstr "WIZARD" ∧
    (tokens line).1 = some (cstr cmd)) ⟨fun h => ⟨h.1, h.2.1, h.2.2⟩, fun h => ⟨h.1, h.2, h.3⟩⟩

/-- The ingredient and the quantity that a line names, where `cmd_brew` and `cmd_consume` accept
them. -/
def asked (s : Server n m) (line : CStr) : Option (Fin m × ℤ) :=
  match (tokens line).2.1, (tokens line).2.2.bind parsePositiveInt with
  | some ing, some qty => (findIngredient s ing).map fun k => (k, qty)
  | _, _ => none

/-- A `BREW` that is carried out asks for no more than the stock has room for, up to `INT_MAX`. -/
def BrewFits (s : Server n m) (idx : Fin n) (line : CStr) : Prop :=
  WizardSends s idx line "BREW" → ∀ k qty, asked s line = some (k, qty) →
    qty ≤ intMax - (s.ingredients k).qty

theorem tokens_fst (line : CStr) : (tokens line).1 = (strtok blanks line).1 := rfl

/-- The words of the line, as the handlers take them. -/
theorem WizardSends.words {cmd : String} (h : WizardSends s idx line cmd) :
    ∃ args, strtok blanks line = (some (cstr cmd), args) ∧
      (tokens line).2 = ((strtok blanks args).1, (strtok blanks (strtok blanks args).2).1) := by
  have hcmd : strtok blanks line = (some (cstr cmd), (strtok blanks line).2) :=
    Prod.ext ((tokens_fst line).symm.trans h.command) rfl
  exact ⟨_, hcmd, congrArg Prod.snd (tokens_eq hcmd)⟩

/-- What is asked for is what the words say. -/
theorem asked_eq_some {k : Fin m} {qty : ℤ} (h : asked s line = some (k, qty)) :
    ∃ qs, (tokens line).2 = (some (s.ingredients k).name, some qs) ∧
      parsePositiveInt qs = some qty ∧ findIngredient s (s.ingredients k).name = some k := by
  unfold asked at h
  split at h
  · rename_i ing q hing hq
    obtain ⟨k', hk, hpair⟩ := Option.map_eq_some_iff.mp h
    obtain ⟨rfl, rfl⟩ := Prod.mk.inj hpair
    obtain ⟨qs, hqs, hqty⟩ := Option.bind_eq_some_iff.mp hq
    obtain rfl := findIngredient_name hk
    exact ⟨qs, Prod.ext hing hqs, hqty, hk⟩
  · cases h

theorem commandSums_brew (h : WizardSends s idx line "BREW") :
    commandSums s idx line = match asked s line with
      | some (k, qty) => ((s.ingredients k).qty + qty) ::
          spellAddSums (s.clients idx).spellbook (s.ingredients k).name qty
      | none => [] := by
  obtain ⟨args, hcmd, hwords⟩ := h.words
  unfold commandSums asked
  rw [hcmd, hwords]
  dsimp only
  rw [if_neg (by simp [h.enrolled]), if_neg (by simp [h.type_eq]), if_pos rfl]
  unfold cmdBrewSums
  dsimp only
  split
  · rename_i ing qty _ _
    cases hk : findIngredient s ing with
    | none => rfl
    | some k =>
      rw [← findIngredient_name hk]
      rfl
  · rfl

theorem commandSums_consume (h : WizardSends s idx line "CONSUME") :
    commandSums s idx line = match asked s line with
      | some (k, qty) =>
        if spellQty (s.clients idx).spellbook (s.ingredients k).name < qty then []
        else ((s.ingredients k).qty - qty) ::
          spellSubSums (s.clients idx).spellbook (s.ingredients k).name qty
      | none => [] := by
  obtain ⟨args, hcmd, hwords⟩ := h.words
  unfold commandSums asked
  rw [hcmd, hwords]
  dsimp only
  rw [if_neg (by simp [h.enrolled]), if_neg (by simp [h.type_eq]), if_neg (by decide), if_pos rfl]
  unfold cmdConsumeSums
  dsimp only
  split
  · rename_i ing qty _ _
    cases hk : findIngredient s ing with
    | none => rfl
    | some k =>
      rw [← findIngredient_name hk]
      rfl
  · rfl

/-- Nobody else's line computes a sum. -/
theorem commandSums_other (hbrew : ¬ WizardSends s idx line "BREW")
    (hconsume : ¬ WizardSends s idx line "CONSUME") : commandSums s idx line = [] := by
  unfold commandSums
  split
  · rfl
  · rename_i cmd args hcmd
    split_ifs with hnew htype hb hc
    · rfl
    · rfl
    · refine absurd ⟨by simpa using hnew, not_not.mp htype, ?_⟩ hbrew
      rw [tokens_fst, hcmd, hb]
    · refine absurd ⟨by simpa using hnew, not_not.mp htype, ?_⟩ hconsume
      rw [tokens_fst, hcmd, hc]
    · rfl

/-! ## The sums of a command -/

/-- All stocks are at most `INT_MAX`. -/
def StocksFit (s : Server n m) : Prop := ∀ k, (s.ingredients k).qty ≤ intMax

/-- **A book holds less of an ingredient than there is.** -/
theorem bookQty_lt_stock (h : StockCovers t s) (hfd : 0 ≤ (s.clients idx).fd) (k : Fin m) :
    bookQty (s.clients idx).spellbook (s.ingredients k).name < (s.ingredients k).qty := by
  have hstock := h.stock k
  rw [sum_held] at hstock
  have hone : (s.clients idx).held (t.ingredients k).name ≤
      ∑ i, (s.clients i).held (t.ingredients k).name :=
    Finset.single_le_sum (f := fun i => (s.clients i).held (t.ingredients k).name)
      (fun i _ => held_nonneg (h.books i) _) (Finset.mem_univ idx)
  have hself : (s.clients idx).held (t.ingredients k).name =
      bookQty (s.clients idx).spellbook (t.ingredients k).name := if_pos hfd
  have hpos := t.pos k
  rw [h.name_eq k]
  omega

/-- The sums of `spell_add` are below that of the stock. -/
theorem spellAddSums_isInt (h : StockCovers t s) (hfd : 0 ≤ (s.clients idx).fd) {k : Fin m}
    {qty v : ℤ} (hqty : 0 < qty) (hfits : qty ≤ intMax - (s.ingredients k).qty)
    (hv : v ∈ spellAddSums (s.clients idx).spellbook (s.ingredients k).name qty) : IsInt v := by
  have hlt := bookQty_lt_stock h hfd k
  have hnonneg := bookQty_nonneg (h.books idx) (s.ingredients k).name
  unfold spellAddSums at hv
  split at hv
  · rename_i i hi
    have hheld : bookQty (s.clients idx).spellbook (s.ingredients k).name =
      ((s.clients idx).spellbook.get i).qty := bookQty_of_find (h.books idx).toNames hi
    obtain rfl := List.mem_singleton.mp hv
    exact isInt_of_nonneg (by omega) (by omega)
  · cases hv

/-- What `spell_sub` leaves is not negative. -/
theorem spellSubSums_isInt (h : StockCovers t s) (hfd : 0 ≤ (s.clients idx).fd)
    (hints : StocksFit s) {k : Fin m} {qty v : ℤ} (hqty : 0 < qty)
    (hle : qty ≤ bookQty (s.clients idx).spellbook (s.ingredients k).name)
    (hv : v ∈ spellSubSums (s.clients idx).spellbook (s.ingredients k).name qty) : IsInt v := by
  have hlt := bookQty_lt_stock h hfd k
  have hstock := hints k
  unfold spellSubSums at hv
  split at hv
  · rename_i i hi
    have hheld : bookQty (s.clients idx).spellbook (s.ingredients k).name =
      ((s.clients idx).spellbook.get i).qty := bookQty_of_find (h.books idx).toNames hi
    obtain rfl := List.mem_singleton.mp hv
    exact isInt_of_nonneg (by omega) (by omega)
  · cases hv

/-- A `CONSUME` never leaves the range. -/
theorem consume_isInt (h : StockCovers t s) (hfd : 0 ≤ (s.clients idx).fd) (hints : StocksFit s)
    (hsends : WizardSends s idx line "CONSUME") {v : ℤ} (hv : v ∈ commandSums s idx line) :
    IsInt v := by
  rw [commandSums_consume hsends] at hv
  split at hv
  · rename_i k qty hasked
    obtain ⟨qs, -, hqs, -⟩ := asked_eq_some hasked
    have hqty := parsePositiveInt_pos hqs
    split_ifs at hv with hshort
    · cases hv
    · rw [spellQty_eq (h.books idx).toNames, not_lt] at hshort
      rcases List.mem_cons.mp hv with rfl | hv
      · have hlt := bookQty_lt_stock h hfd k
        have hstock := hints k
        exact isInt_of_nonneg (by omega) (by omega)
      · exact spellSubSums_isInt h hfd hints hqty hshort hv
  · cases hv

/-- **A command** computes `int`s only, exactly if the stock has room for what it brews. -/
theorem commandSums_isInt_iff (h : StockCovers t s) (hfd : 0 ≤ (s.clients idx).fd)
    (hints : StocksFit s) (line : CStr) :
    (∀ v ∈ commandSums s idx line, IsInt v) ↔ BrewFits s idx line := by
  constructor
  · intro hall hsends k qty hasked
    rw [commandSums_brew hsends, hasked] at hall
    exact le_sub_iff_add_le'.mpr (hall _ List.mem_cons_self).2
  · intro hfits v hv
    by_cases hbrew : WizardSends s idx line "BREW"
    · rw [commandSums_brew hbrew] at hv
      split at hv
      · rename_i k qty hasked
        obtain ⟨qs, -, hqs, -⟩ := asked_eq_some hasked
        have hqty := parsePositiveInt_pos hqs
        have hroom := hfits hbrew k qty hasked
        rcases List.mem_cons.mp hv with rfl | hv
        · have hlt := bookQty_lt_stock h hfd k
          have hnonneg := bookQty_nonneg (h.books idx) (s.ingredients k).name
          exact isInt_of_nonneg (by omega) (by omega)
        · exact spellAddSums_isInt h hfd hqty hroom hv
      · cases hv
    · by_cases hconsume : WizardSends s idx line "CONSUME"
      · exact consume_isInt h hfd hints hconsume hv
      · rw [commandSums_other hbrew hconsume] at hv
        cases hv

/-! ## Runs -/

/-- The step carries out no `BREW` that the stock has no room for. -/
def StepFits (s : Server n m) (act : Act n) : Prop :=
  ∀ idx line, commandOf s act = some (idx, line) → BrewFits (s.taken idx) idx line

theorem asked_of_tokens {cmd ing qs : CStr} {k : Fin m} {qty : ℤ}
    (htokens : tokens line = (some cmd, some ing, some qs)) (hqty : parsePositiveInt qs = some qty)
    (hk : findIngredient s ing = some k) : asked s line = some (k, qty) := by
  unfold asked
  rw [htokens]
  dsimp only [Option.bind_some]
  rw [hqty]
  dsimp only
  rw [hk]
  rfl

theorem Effect.stocksFit (he : Effect unbounded s idx line s') (hints : StocksFit s)
    (hfits : BrewFits s idx line) : StocksFit s' := by
  cases he with
  | silent => exact hints
  | reply text => exact hints
  | enroll => exact hints
  | brew ing qs text qty k henrolled htype htokens hqty hk hok =>
    have hroom := hfits ⟨henrolled, htype, by rw [htokens]⟩ k qty (asked_of_tokens htokens hqty hk)
    intro k'
    refine le_of_eq_of_le (update_stock s k k' qty).2 ?_
    split_ifs with heq
    · rw [heq]
      exact le_sub_iff_add_le'.mp hroom
    · rw [add_zero]
      exact hints k'
  | consume ing qs text qty k henrolled htype htokens hqty hk hle hok =>
    have hpos := parsePositiveInt_pos hqty
    intro k'
    refine le_of_eq_of_le (update_stock s k k' (-qty)).2 ?_
    have hk' := hints k'
    split_ifs
    · omega
    · omega

theorem rests_ingredients :
    Rests fun s s' : Server n m => s'.ingredients = s.ingredients where
  refl := fun _ => rfl
  trans := fun h h' => h'.trans h
  send := fun _ _ _ => rfl
  reset := fun _ _ => rfl
  fill := fun _ _ _ _ => rfl
  place := fun _ _ _ => rfl

/-- A step without a command leaves the stocks alone. -/
theorem ingredients_eq_of_no_command (hs : serverStep unbounded timeoutSec s act = some s')
    (hno : commandOf s act = none) : s'.ingredients = s.ingredients := by
  rcases serverStep_rests rests_ingredients hs hno with heq | ⟨slot, cfd, now, -, rfl⟩
  · exact heq
  · rfl

/-- **A step keeps the stocks in range**, if it fits. -/
theorem stocksFit_step (hs : serverStep unbounded timeoutSec s act = some s') (hints : StocksFit s)
    (hfits : StepFits s act) : StocksFit s' := by
  unfold StocksFit
  cases hcmd : commandOf s act with
  | none =>
    rw [ingredients_eq_of_no_command hs hcmd]
    exact hints
  | some command =>
    obtain ⟨idx, line⟩ := command
    have hkept := (handleCommand_effect unbounded (s.taken idx) idx line).stocksFit hints
      (hfits idx line hcmd)
    rw [serverStep_command hs hcmd]
    split_ifs
    · intro k
      have hsame := rests_ingredients.removeClient
        (handleCommand unbounded (s.taken idx) idx line).1 idx
      exact (congrArg (fun g => (g k).qty) hsame).trans_le (hkept k)
    · exact hkept

theorem taken_covers (h : StockCovers t s) (idx : Fin n) : StockCovers t (s.taken idx) :=
  setClient_covers h rfl rfl (.inr ⟨rfl, rfl⟩)

/-- **A step** computes `int`s only, exactly if it fits. -/
theorem noOverflow_iff (hi : Inv t s) (hints : StocksFit s) (act : Act n) :
    NoOverflow s act ↔ StepFits s act := by
  unfold NoOverflow stepSums StepFits
  cases hcmd : commandOf s act with
  | none => simp
  | some command =>
    obtain ⟨idx, line⟩ := command
    obtain ⟨-, hr, -, -⟩ := commandOf_eq_some hcmd
    have hfd : 0 ≤ ((s.taken idx).clients idx).fd := by
      rw [taken_self]
      exact hi.connected idx hr
    have hiff := commandSums_isInt_iff (taken_covers hi.covers idx) hfd hints line
    constructor
    · rintro hall idx' line' heq
      obtain ⟨rfl, rfl⟩ := Prod.mk.inj (Option.some.inj heq)
      exact hiff.mp hall
    · exact fun hfits => hiff.mpr (hfits idx line rfl)

/-- An entry of a client's book is an `int`. -/
theorem entry_isInt (hi : Inv t s) (hslots : Slots s) (hints : StocksFit s) (i : Fin n)
    {e : SpellEntry} (he : e ∈ (s.clients i).spellbook) : IsInt e.qty := by
  have hbook := hi.covers.books i
  have hfd : 0 ≤ (s.clients i).fd := by
    by_contra hfree
    rw [(hslots.free i (not_le.mp hfree)).2] at he
    cases he
  obtain ⟨k, hk⟩ := hbook.known e he
  have hlt := bookQty_lt_stock hi.covers hfd k
  have hstock := hints k
  obtain ⟨j, rfl⟩ := List.get_of_mem he
  have hheld : bookQty (s.clients i).spellbook ((s.clients i).spellbook.get j).name =
      ((s.clients i).spellbook.get j).qty := keySum_of_get hbook.nodup j
  rw [hi.covers.name_eq k, hk, hheld] at hlt
  exact isInt_of_nonneg (hbook.pos _ he).le (by omega)

/-! ## Up to the first overflow -/

theorem spellAdd_eq {book : List SpellEntry} {name : CStr} {qty : ℤ}
    (h : ∀ v ∈ spellAddSums book name qty, int v = v) :
    spellAdd int book name qty = spellAdd unbounded book name qty := by
  unfold spellAddSums at h
  unfold spellAdd
  split
  · rename_i idx hidx
    rw [hidx] at h
    have hsum : int (book[idx].qty + qty) = book[idx].qty + qty :=
      h _ (List.mem_singleton.mpr rfl)
    rw [unbounded_eq, hsum]
  · rfl

theorem spellSub_eq {book : List SpellEntry} {name : CStr} {qty : ℤ}
    (h : ∀ v ∈ spellSubSums book name qty, int v = v) :
    spellSub int book name qty = spellSub unbounded book name qty := by
  unfold spellSubSums at h
  unfold spellSub
  split
  · rfl
  · rename_i idx hidx
    rw [hidx] at h
    have hleft : int (book[idx].qty - qty) = book[idx].qty - qty :=
      h _ (List.mem_singleton.mpr rfl)
    rw [unbounded_eq, hleft]

theorem cmdBrew_eq (h : ∀ v ∈ cmdBrewSums s idx args, int v = v) :
    cmdBrew int s idx args = cmdBrew unbounded s idx args := by
  unfold cmdBrewSums at h
  unfold cmdBrew
  dsimp only at h ⊢
  split
  · rename_i ing qty hing hqty
    rw [hing, hqty] at h
    dsimp only at h
    cases hk : findIngredient s ing with
    | none => rfl
    | some k =>
      rw [hk] at h
      rw [List.forall_mem_cons] at h
      dsimp only
      rw [h.1, spellAdd_eq h.2]
      rfl
  · rfl

theorem cmdConsume_eq (h : ∀ v ∈ cmdConsumeSums s idx args, int v = v) :
    cmdConsume int s idx args = cmdConsume unbounded s idx args := by
  unfold cmdConsumeSums at h
  unfold cmdConsume
  dsimp only at h ⊢
  split
  · rename_i ing qty hing hqty
    rw [hing, hqty] at h
    dsimp only at h
    cases hk : findIngredient s ing with
    | none => rfl
    | some k =>
      rw [hk] at h
      dsimp only at h ⊢
      split_ifs at h ⊢ with hshort
      · rfl
      · rw [List.forall_mem_cons] at h
        rw [h.1, spellSub_eq h.2]
        rfl
  · rfl

/-- A command whose sums an `int` keeps is the command in exact arithmetic. -/
theorem handleCommand_eq (h : ∀ v ∈ commandSums s idx line, int v = v) :
    handleCommand int s idx line = handleCommand unbounded s idx line := by
  unfold commandSums at h
  unfold handleCommand
  split
  · rfl
  · rename_i cmd args hcmd
    rw [hcmd] at h
    dsimp only at h
    by_cases hnew : (s.clients idx).enrolled = false
    · simp only [if_pos hnew]
    · rw [if_neg hnew] at h
      by_cases htype : (s.clients idx).type = cstr "WIZARD"
      · rw [if_neg (not_not.mpr htype)] at h
        by_cases hbrew : cmd = cstr "BREW"
        · rw [if_pos hbrew] at h
          rw [cmdBrew_eq h, hbrew]
          rfl
        · rw [if_neg hbrew] at h
          by_cases hconsume : cmd = cstr "CONSUME"
          · rw [if_pos hconsume] at h
            rw [cmdConsume_eq h, hconsume]
            rfl
          · simp only [if_neg hbrew, if_neg hconsume]
      · unfold authorized
        simp only [if_neg htype]

/-- A round of the loop whose sums an `int` keeps is the round in exact arithmetic. -/
theorem handleLine_eq (hr : s.reading = some idx) (h : ∀ v ∈ stepSums s .line, int v = v) :
    handleLine int s idx = handleLine unbounded s idx := by
  unfold handleLine
  dsimp only
  by_cases hlen : ((s.clients idx).lineBuf.takeWhile fun b => b != 10).length =
      (s.clients idx).lineBuf.length
  · rw [if_pos hlen, if_pos hlen]
  · have hsums : stepSums s .line = commandSums (s.taken idx) idx
        (lineString ((s.clients idx).lineBuf.takeWhile fun b => b != 10)) := by
      unfold stepSums commandOf
      rw [hr]
      dsimp only
      rw [if_neg hlen]
    have hcommand := handleCommand_eq (hsums ▸ h)
    unfold Server.taken at hcommand
    rw [if_neg hlen, if_neg hlen, hcommand]

/-- **A step** whose sums an `int` keeps is the step in exact arithmetic. -/
theorem serverStep_eq_unbounded (h : ∀ v ∈ stepSums s act, int v = v) :
    serverStep int timeoutSec s act = serverStep unbounded timeoutSec s act := by
  unfold serverStep
  split_ifs with hrunning
  · cases hr : s.reading with
    | none =>
      cases act with
      | _ => rfl
    | some idx =>
      cases act with
      | line => exact congrArg some (handleLine_eq hr h)
      | _ => rfl
  · rfl

theorem serverStep_of_noOverflow (h : NoOverflow s act)
    (hs : serverStep wrap32 timeoutSec s act = some s') :
    serverStep unbounded timeoutSec s act = some s' :=
  (serverStep_eq_unbounded fun v hv => wrap32_eq_self_iff.mpr (h v hv)).symm.trans hs

/-- **A step that fits** is the step in exact arithmetic, and keeps what holds there. -/
theorem fits_step (hi : Inv t s) (hints : StocksFit s) (hfits : StepFits s act)
    (hs : serverStep wrap32 timeoutSec s act = some s') :
    serverStep unbounded timeoutSec s act = some s' ∧ Inv t s' ∧ StocksFit s' := by
  have hexact := serverStep_of_noOverflow ((noOverflow_iff hi hints act).mpr hfits) hs
  exact ⟨hexact, inv_step hi hexact, stocksFit_step hexact hints hfits⟩

instance (s : Server n m) (act : Act n) : Decidable (NoOverflow s act) :=
  inferInstanceAs (Decidable (∀ v ∈ stepSums s act, IsInt v))

end Cse344.HW6
