import Cse344.HW6.Listings
import Cse344.HW6.Brewing

/-!
# Exact quantities in HW6

The stocks are `int`s, to which `cmd_brew` adds and from which `cmd_consume` takes without a check
(`HW6/hogwarts.c` 244-304), and which `BREW`, `CONSUME`, `INSPECT` (324-341) and `SCROLL` (343-361)
report. The server here is the compiled one (`hogwarts wrap32`).

* `stocktaking` carries the exact stocks as a ghost: what was there at the start, and what each line
  that is carried out adds or takes, as mathematical values (`stockChange`).
* `TellsStocks` is what a reply has to say: the decimal of the exact stock, and in a list of
  `SCROLL` no other number behind a name.
* `buf[512]` may cut the list of `SCROLL` inside a number: `NumbersWhole` says that it does not.

Results:
* `stock_step`: a step that fits keeps the stocks equal to the exact ones.
* `tellsStocks_iff`: then the reply tells them, but for a list with a number that is cut.
* **`quantities_exact`**: in every run from a table of `int`s, no sum overflows and every reply
  tells the exact stocks, exactly if each `BREW` fits and no list is cut inside a number; and
  without an overflow the run is that of the server in exact arithmetic.

Out of scope: the quantities of a spellbook in the reply to `SPELLBOOK` (`Listings`).
-/

namespace Cse344.HW6

open Cse344.Lib

variable {n m : ℕ} {t : Table m} {s s' : Server n m} {idx : Fin n} {line : CStr} {k : Fin m}
  {qty timeoutSec : ℤ} {act : Act n} {exact : Fin m → ℤ}

/-! ## The exact stocks -/

/-- What a line that is carried out changes of the stock of `k`. -/
def stockChange (s : Server n m) (idx : Fin n) (line : CStr) (k : Fin m) : ℤ :=
  match asked s line with
  | some (k', qty) =>
    if k ≠ k' then 0
    else if WizardSends s idx line "BREW" then qty
    else if WizardSends s idx line "CONSUME" ∧
        qty ≤ spellQty (s.clients idx).spellbook (s.ingredients k').name then -qty
    else 0
  | none => 0

/-- The exact stocks after a step. -/
def takeStock (s : Server n m) (act : Act n) (_ : Server n m) (exact : Fin m → ℤ) : Fin m → ℤ :=
  match commandOf s act with
  | some (idx, line) => fun k => exact k + stockChange (s.taken idx) idx line k
  | none => exact

/-- The server with the exact stocks. -/
def stocktaking (t : Table m) (n : ℕ) (timeoutSec : ℤ) :
    Machine (Server n m × (Fin m → ℤ)) (Act n) :=
  (hogwarts wrap32 t n timeoutSec).withGhost (fun k => (t.ingredients k).qty) takeStock

/-! ## What is reported -/

/-- An enrolled professor sends the command `cmd`. -/
structure ProfessorSends (s : Server n m) (idx : Fin n) (line : CStr) (cmd : String) : Prop where
  enrolled : (s.clients idx).enrolled = true
  type_eq : (s.clients idx).type = cstr "PROFESSOR"
  command : (tokens line).1 = some (cstr cmd)

/-- The ingredient that an `INSPECT` names. -/
def inspected (s : Server n m) (line : CStr) : Option (Fin m) :=
  (tokens line).2.1.bind (findIngredient s)

/-- The replies that report a stock say what it is; `exact` are the stocks after the line. -/
structure TellsStocks (s s' : Server n m) (idx : Fin n) (line : CStr) (exact : Fin m → ℤ) :
    Prop where
  brew : WizardSends s idx line "BREW" → ∀ k qty, asked s line = some (k, qty) →
    s'.sent = s.sent ++ [((s.clients idx).fd, cstr "OK BREW " ++ (s.ingredients k).name ++ sp ++
      decimal qty ++ sp ++ decimal (exact k))]
  consume : WizardSends s idx line "CONSUME" → ∀ k qty, asked s line = some (k, qty) →
    qty ≤ spellQty (s.clients idx).spellbook (s.ingredients k).name →
      s'.sent = s.sent ++ [((s.clients idx).fd, cstr "OK CONSUME " ++ (s.ingredients k).name ++
        sp ++ decimal qty ++ sp ++ decimal (exact k))]
  inspect : ProfessorSends s idx line "INSPECT" → ∀ k, inspected s line = some k →
    s'.sent = s.sent ++ [((s.clients idx).fd, cstr "OK INSPECT " ++ (s.ingredients k).name ++ sp ++
      decimal (exact k))]
  /-- What stands behind a name and a colon is the stock of that ingredient. -/
  scroll : ProfessorSends s idx line "SCROLL" → ∃ body,
    s'.sent = s.sent ++ [((s.clients idx).fd, cstr "OK SCROLL " ++ body)] ∧
      ∀ name digits, name ++ cstr ":" ++ digits ∈ itemsIn comma body → digits ≠ [] →
        ∃ k, (s.ingredients k).name = name ∧ digits = decimal (exact k)

/-- No sum of the step overflows, and its reply tells the exact stocks. -/
def TellsExact (x : Server n m × (Fin m → ℤ)) (act : Act n) : Prop :=
  NoOverflow x.1 act ∧ ∀ idx line, commandOf x.1 act = some (idx, line) →
    let s := x.1.taken idx
    TellsStocks s (handleCommand wrap32 s idx line).1 idx line
      fun k => x.2 k + stockChange s idx line k

/-- Where the digits of `k` start in the whole list of `SCROLL`. -/
def digitsStart (s : Server n m) (k : Fin m) : ℕ :=
  10 + itemStart (scrollItems s) k + (s.ingredients k).name.length + 1

/-- A number that starts in the bytes that are sent ends in them. -/
def NumbersWhole (s : Server n m) : Prop :=
  ∀ k, digitsStart s k < maxLineLen - 1 →
    digitsStart s k + (decimal (s.ingredients k).qty).length ≤ maxLineLen - 1

/-- A list of `SCROLL` is not cut inside a number. -/
def StepNumbersWhole (s : Server n m) (act : Act n) : Prop :=
  ∀ idx line, commandOf s act = some (idx, line) →
    ProfessorSends (s.taken idx) idx line "SCROLL" → NumbersWhole (s.taken idx)

/-- The step fits, and cuts no number. -/
def StepExact (s : Server n m) (act : Act n) : Prop := StepFits s act ∧ StepNumbersWhole s act

/-! ## The list of SCROLL -/

theorem scrollItems_get (s : Server n m) (k : Fin m) :
    (scrollItems s)[k.val]? = some (nameAndQty (s.ingredients k).name (s.ingredients k).qty) := by
  unfold scrollItems
  rw [List.getElem?_map, List.getElem?_ofFn, dif_pos k.isLt]
  rfl

theorem scrollItems_eq_some {j : ℕ} {item : CStr} (h : (scrollItems s)[j]? = some item) :
    ∃ k : Fin m, k.val = j ∧ item = nameAndQty (s.ingredients k).name (s.ingredients k).qty := by
  have hlt : j < m := by
    have hlen := (List.getElem?_eq_some_iff.mp h).1
    unfold scrollItems at hlen
    rwa [List.length_map, List.length_ofFn] at hlen
  refine ⟨⟨j, hlt⟩, rfl, ?_⟩
  rw [scrollItems_get s ⟨j, hlt⟩] at h
  exact (Option.some.inj h).symm

/-- A name of an ingredient has no colon and no comma. -/
theorem name_no_stop {w : CStr} (h : isValidIngredientName w = true) :
    (58 : UInt8) ∉ w ∧ comma ∉ w := by
  unfold isValidIngredientName at h
  split_ifs at h
  rw [List.all_eq_true] at h
  exact ⟨fun hb => absurd (h _ hb) (by decide), fun hb => absurd (h _ hb) (by decide)⟩

theorem decimal_no_stop (v : ℤ) : (58 : UInt8) ∉ decimal v ∧ comma ∉ decimal v :=
  ⟨fun hb => absurd (mem_decimal hb) (by decide), fun hb => absurd (mem_decimal hb) (by decide)⟩

/-- A name and a number in the text of an ingredient are its name and a first part of its number. -/
theorem name_of_isPrefix {name digits w : CStr} {v : ℤ} (hw : isValidIngredientName w = true)
    (h : name ++ cstr ":" ++ digits <+: nameAndQty w v) : name = w ∧ digits <+: decimal v := by
  obtain ⟨rest, hrest⟩ := h
  have hcolon : cstr ":" = [58] := rfl
  have hsplit : w ++ 58 :: decimal v = name ++ 58 :: (digits ++ rest) := by
    unfold nameAndQty at hrest
    rw [hcolon] at hrest
    simpa using hrest.symm
  obtain ⟨rfl, -, htail⟩ :=
    (List.append_cons_inj_of_notMem (name_no_stop hw).1 (decimal_no_stop v).1).mp hsplit
  exact ⟨rfl, rest, htail.symm⟩

theorem scrollItems_comma (h : s.Named t) : ∀ item ∈ scrollItems s, item ≠ [] ∧ comma ∉ item := by
  intro item hitem
  obtain ⟨j, hj⟩ := List.getElem?_of_mem hitem
  obtain ⟨k, -, rfl⟩ := scrollItems_eq_some hj
  refine ⟨nameAndQty_ne_nil _ _, fun hmem => ?_⟩
  have hname := name_no_stop (h.valid k)
  unfold nameAndQty at hmem
  rcases List.mem_append.mp hmem with hmem | hmem
  · rcases List.mem_append.mp hmem with hmem | hmem
    · exact hname.2 hmem
    · exact absurd (List.mem_singleton.mp hmem) (by decide)
  · exact (decimal_no_stop _).2 hmem

/-- What is sent of the list. -/
def scrollBody (s : Server n m) : CStr :=
  ([comma].intercalate (scrollItems s)).take (maxLineLen - 1 - 10)

/-- **The list tells the stocks** exactly if it is not cut inside a number. -/
theorem scrollBody_tells_iff (h : s.Named t) (hexact : ∀ k, exact k = (s.ingredients k).qty) :
    (∀ name digits, name ++ cstr ":" ++ digits ∈ itemsIn comma (scrollBody s) → digits ≠ [] →
      ∃ k, (s.ingredients k).name = name ∧ digits = decimal (exact k)) ↔ NumbersWhole s := by
  have hpieces : ∀ piece, piece ∈ itemsIn comma (scrollBody s) ↔ ∃ j item,
      (scrollItems s)[j]? = some item ∧ itemStart (scrollItems s) j ≤ maxLineLen - 1 - 10 ∧
        piece = item.take (maxLineLen - 1 - 10 - itemStart (scrollItems s) j) := fun piece =>
    mem_itemsIn_take_iff (fun item hitem => (scrollItems_comma h item hitem).1)
      (fun item hitem => (scrollItems_comma h item hitem).2) (by decide)
  unfold NumbersWhole digitsStart maxLineLen at *
  constructor
  · intro htells k hstart
    -- the number of `k` as it is sent: at least its first digit
    obtain ⟨d, hd⟩ : ∃ d, 512 - 1 - 10 - itemStart (scrollItems s) k =
        (s.ingredients k).name.length + 1 + (d + 1) :=
      ⟨512 - 1 - 10 - itemStart (scrollItems s) k - (s.ingredients k).name.length - 2, by omega⟩
    have hpiece : (s.ingredients k).name ++ cstr ":" ++
        (decimal (s.ingredients k).qty).take (d + 1) ∈ itemsIn comma (scrollBody s) := by
      refine (hpieces _).mpr ⟨k, _, scrollItems_get s k, by omega, ?_⟩
      have hlen : ((s.ingredients k).name ++ cstr ":").length =
          (s.ingredients k).name.length + 1 := List.length_append
      rw [hd, nameAndQty, ← hlen, List.take_length_add_append]
    have hne : (decimal (s.ingredients k).qty).take (d + 1) ≠ [] := by
      rw [Ne, List.take_eq_nil_iff]
      exact not_or.mpr ⟨Nat.succ_ne_zero d, decimal_ne_nil _⟩
    obtain ⟨k', hname, hdigits⟩ := htells _ _ hpiece hne
    rw [h.name_eq, h.name_eq] at hname
    obtain rfl := t.name_injective _ _ hname
    rw [hexact, List.take_eq_self_iff] at hdigits
    omega
  · intro hwhole name digits hmem hne
    obtain ⟨j, item, hj, hstart, hpiece⟩ := (hpieces _).mp hmem
    obtain ⟨k, rfl, rfl⟩ := scrollItems_eq_some hj
    obtain ⟨rfl, hdigits⟩ := name_of_isPrefix (h.valid k) (hpiece ▸ List.take_prefix _ _)
    refine ⟨k, rfl, ?_⟩
    have hlen := congrArg List.length hpiece
    have hcolon : (cstr ":").length = 1 := rfl
    have hpos := List.length_pos_iff.mpr hne
    rw [List.length_take, List.length_append, List.length_append, hcolon] at hlen
    have hall := hwhole k (by omega)
    have htext := length_nameAndQty (s.ingredients k).name (s.ingredients k).qty
    unfold itemLength at htext
    rw [List.take_of_length_le (by omega)] at hpiece
    rw [hexact]
    exact List.append_cancel_left hpiece

/-! ## One line -/

/-- Nobody else's line changes a stock. -/
theorem Effect.ingredients_eq (he : Effect wrap32 s idx line s')
    (hbrew : ¬ WizardSends s idx line "BREW") (hconsume : ¬ WizardSends s idx line "CONSUME") :
    s'.ingredients = s.ingredients := by
  cases he with
  | silent => rfl
  | reply text => rfl
  | enroll => rfl
  | brew ing qs text qty k henrolled htype htokens hqty hk hok =>
    exact absurd ⟨henrolled, htype, by rw [htokens]⟩ hbrew
  | consume ing qs text qty k henrolled htype htokens hqty hk hle hok =>
    exact absurd ⟨henrolled, htype, by rw [htokens]⟩ hconsume

theorem Refused.ingredients_eq (h : Refused s s' idx) : s'.ingredients = s.ingredients := by
  obtain ⟨text, rfl, -⟩ := h
  rfl

theorem stockChange_brew (hsends : WizardSends s idx line "BREW")
    (hasked : asked s line = some (k, qty)) (k' : Fin m) :
    stockChange s idx line k' = if k' = k then qty else 0 := by
  unfold stockChange
  rw [hasked]
  dsimp only
  by_cases hk : k' = k
  · rw [if_neg (not_not.mpr hk), if_pos hsends, if_pos hk]
  · rw [if_pos hk, if_neg hk]

theorem WizardSends.not_brew (hsends : WizardSends s idx line "CONSUME") :
    ¬ WizardSends s idx line "BREW" := fun hbrew => by
  have hcmd := Option.some.inj (hsends.command.symm.trans hbrew.command)
  exact absurd hcmd (by decide)

theorem stockChange_consume (hsends : WizardSends s idx line "CONSUME")
    (hasked : asked s line = some (k, qty)) (k' : Fin m) :
    stockChange s idx line k' =
      if k' = k ∧ qty ≤ spellQty (s.clients idx).spellbook (s.ingredients k).name then -qty
      else 0 := by
  unfold stockChange
  rw [hasked]
  dsimp only
  by_cases hk : k' = k
  · rw [if_neg (not_not.mpr hk), if_neg hsends.not_brew]
    by_cases hle : qty ≤ spellQty (s.clients idx).spellbook (s.ingredients k).name
    · rw [if_pos ⟨hsends, hle⟩, if_pos ⟨hk, hle⟩]
    · rw [if_neg fun h => hle h.2, if_neg fun h => hle h.2]
  · rw [if_pos hk, if_neg fun h => hk h.1]

theorem stockChange_of_not_asked (hasked : asked s line = none) (k : Fin m) :
    stockChange s idx line k = 0 := by
  unfold stockChange
  rw [hasked]

theorem stockChange_other (hbrew : ¬ WizardSends s idx line "BREW")
    (hconsume : ¬ WizardSends s idx line "CONSUME") (k : Fin m) :
    stockChange s idx line k = 0 := by
  unfold stockChange
  split
  · split_ifs with hk hcarried
    · rfl
    · exact absurd hcarried.1 hconsume
    · rfl
  · rfl

/-- The stock that a `BREW` leaves. -/
theorem brew_stock (hsends : WizardSends s idx line "BREW")
    (hasked : asked s line = some (k, qty)) (hsums : ∀ v ∈ commandSums s idx line, IsInt v) :
    wrap32 ((s.ingredients k).qty + qty) = (s.ingredients k).qty + qty := by
  rw [commandSums_brew hsends, hasked] at hsums
  exact wrap32_eq_self_iff.mpr (hsums _ List.mem_cons_self)

/-- The stock that a `CONSUME` leaves. -/
theorem consume_stock (hsends : WizardSends s idx line "CONSUME")
    (hasked : asked s line = some (k, qty))
    (hle : qty ≤ spellQty (s.clients idx).spellbook (s.ingredients k).name)
    (hsums : ∀ v ∈ commandSums s idx line, IsInt v) :
    wrap32 ((s.ingredients k).qty - qty) = (s.ingredients k).qty - qty := by
  rw [commandSums_consume hsends, hasked] at hsums
  dsimp only at hsums
  rw [if_neg (not_lt.mpr hle)] at hsums
  exact wrap32_eq_self_iff.mpr (hsums _ List.mem_cons_self)

/-- **A line whose sums are `int`s** changes the stocks by what it says. -/
theorem handleCommand_stock (hsums : ∀ v ∈ commandSums s idx line, IsInt v) (k' : Fin m) :
    ((handleCommand wrap32 s idx line).1.ingredients k').qty =
      (s.ingredients k').qty + stockChange s idx line k' := by
  by_cases hbrew : WizardSends s idx line "BREW"
  · have hcases := brew_cases wrap32 hbrew
    cases hasked : asked s line with
    | none =>
      rw [hasked] at hcases
      rw [hcases.ingredients_eq, stockChange_of_not_asked hasked, add_zero]
    | some p =>
      obtain ⟨k, qty⟩ := p
      rw [hasked] at hcases
      rw [hcases, stockChange_brew hbrew hasked]
      refine (exchange_stock s idx k _ _ _ k').trans ?_
      split_ifs with hk
      · rw [brew_stock hbrew hasked hsums, hk]
      · rw [add_zero]
  · by_cases hconsume : WizardSends s idx line "CONSUME"
    · have hcases := consume_cases wrap32 hconsume
      cases hasked : asked s line with
      | none =>
        rw [hasked] at hcases
        rw [hcases.ingredients_eq, stockChange_of_not_asked hasked, add_zero]
      | some p =>
        obtain ⟨k, qty⟩ := p
        rw [hasked] at hcases
        dsimp only at hcases
        rw [stockChange_consume hconsume hasked]
        split_ifs at hcases with hshort
        · rw [hcases.ingredients_eq, if_neg fun h => not_le.mpr hshort h.2, add_zero]
        · rw [hcases]
          refine (exchange_stock s idx k _ _ _ k').trans ?_
          by_cases hk : k' = k
          · rw [if_pos hk, if_pos ⟨hk, not_lt.mp hshort⟩,
              consume_stock hconsume hasked (not_lt.mp hshort) hsums, hk]
            rfl
          · rw [if_neg hk, if_neg fun h => hk h.1, add_zero]
    · rw [(handleCommand_effect wrap32 s idx line).ingredients_eq hbrew hconsume,
        stockChange_other hbrew hconsume, add_zero]

/-! ## What the replies say -/

theorem length_decimal_int {v : ℤ} (h : IsInt v) : (decimal v).length ≤ 11 := by
  refine length_decimal_le (by decide) ?_
  unfold IsInt intMax at h
  omega

/-- A text that fits in `reply[128]` is sent whole. -/
theorem snprintf_oneNumber {head name : CStr} {v : ℤ} (hhead : head.length ≤ 11)
    (hname : isValidIngredientName name = true) (hv : IsInt v) :
    snprintf 128 (head ++ name ++ sp ++ decimal v) = head ++ name ++ sp ++ decimal v := by
  have hsp : sp.length = 1 := rfl
  have hlen := length_lt_of_valid hname
  have hdigits := length_decimal_int hv
  unfold maxIngredientLen at hlen
  refine List.take_of_length_le ?_
  rw [List.length_append, List.length_append, List.length_append, hsp]
  omega

theorem snprintf_twoNumbers {head name : CStr} {v v' : ℤ} (hhead : head.length ≤ 11)
    (hname : isValidIngredientName name = true) (hv : IsInt v) (hv' : IsInt v') :
    snprintf 128 (head ++ name ++ sp ++ decimal v ++ sp ++ decimal v') =
      head ++ name ++ sp ++ decimal v ++ sp ++ decimal v' := by
  have hsp : sp.length = 1 := rfl
  have hlen := length_lt_of_valid hname
  have hdigits := length_decimal_int hv
  have hdigits' := length_decimal_int hv'
  unfold maxIngredientLen at hlen
  refine List.take_of_length_le ?_
  simp only [List.length_append, hsp]
  omega

theorem inspect_reply (hsends : ProfessorSends s idx line "INSPECT")
    (hk : inspected s line = some k) : (handleCommand wrap32 s idx line).1 =
      s.reply idx (snprintf 128 (cstr "OK INSPECT " ++ (s.ingredients k).name ++ sp ++
        decimal (s.ingredients k).qty)) := by
  obtain ⟨args, hline⟩ := handleCommand_of_cmd hsends.command
  obtain ⟨ing, hing, hfind⟩ := Option.bind_eq_some_iff.mp hk
  rw [tokens_eq hline] at hing
  obtain rfl := findIngredient_name hfind
  unfold handleCommand authorized cmdInspect
  rw [hline]
  dsimp only at hing ⊢
  rw [if_neg (by decide), if_neg (by decide), if_neg (by simp [hsends.enrolled]),
    if_neg (by decide), if_neg (by decide), if_neg (by decide), if_pos rfl, if_pos hsends.type_eq,
    hing]
  dsimp only
  rw [hfind]

theorem scroll_reply (hsends : ProfessorSends s idx line "SCROLL") :
    (handleCommand wrap32 s idx line).1 = s.reply idx (cstr "OK SCROLL " ++ scrollBody s) := by
  have hlist : listing s idx line = some (cstr "OK SCROLL ", scrollItems s) := by
    unfold listing
    dsimp only
    rw [if_neg (by simp [hsends.enrolled]), hsends.command, if_neg (by decide), if_pos rfl,
      if_pos hsends.type_eq]
  rw [handleCommand_of_listing hlist, listInto_commaBefore (by decide)]
  rfl

/-- A professor's line states no change of a stock. -/
theorem ProfessorSends.not_wizard {cmd cmd' : String} (h : ProfessorSends s idx line cmd) :
    ¬ WizardSends s idx line cmd' := fun hwizard => by
  have htype := h.type_eq.symm.trans hwizard.type_eq
  exact absurd htype (by decide)

/-- **The reply tells the exact stocks**, but for a list that is cut inside a number. -/
theorem tellsStocks_iff (h : s.Named t) (hints : ∀ k, IsInt (s.ingredients k).qty)
    (hsums : ∀ v ∈ commandSums s idx line, IsInt v)
    (hexact : ∀ k, exact k = (s.ingredients k).qty + stockChange s idx line k) :
    TellsStocks s (handleCommand wrap32 s idx line).1 idx line exact ↔
      (ProfessorSends s idx line "SCROLL" → NumbersWhole s) := by
  have hsame : ∀ {cmd}, ProfessorSends s idx line cmd → ∀ k, exact k = (s.ingredients k).qty :=
    fun hsends k => by rw [hexact, stockChange_other hsends.not_wizard hsends.not_wizard, add_zero]
  constructor
  · intro htells hsends
    obtain ⟨body, hsent, hall⟩ := htells.scroll hsends
    rw [scroll_reply hsends] at hsent
    obtain rfl := List.append_cancel_left (answer_unique rfl hsent)
    exact (scrollBody_tells_iff h (hsame hsends)).mp hall
  · intro hwhole
    refine ⟨fun hsends k qty hasked => ?_, fun hsends k qty hasked hle => ?_, fun hsends k hk => ?_,
      fun hsends => ?_⟩
    · obtain ⟨qs, -, hqs, -⟩ := asked_eq_some hasked
      have hcases := brew_cases wrap32 hsends
      rw [hasked] at hcases
      have hstock : wrap32 ((s.ingredients k).qty + qty) = exact k := by
        rw [brew_stock hsends hasked hsums, hexact, stockChange_brew hsends hasked, if_pos rfl]
      rw [hcases, brewed_sent, okBrew, hstock, snprintf_twoNumbers (by decide) (h.valid k)
        (parsePositiveInt_isInt hqs) (hstock ▸ isInt_wrap32 _)]
    · obtain ⟨qs, -, hqs, -⟩ := asked_eq_some hasked
      have hcases := consume_cases wrap32 hsends
      rw [hasked] at hcases
      dsimp only at hcases
      rw [if_neg (not_lt.mpr hle)] at hcases
      have hstock : wrap32 ((s.ingredients k).qty - qty) = exact k := by
        rw [consume_stock hsends hasked hle hsums, hexact, stockChange_consume hsends hasked,
          if_pos ⟨rfl, hle⟩]
        rfl
      rw [hcases, consumed_sent, okConsume, hstock, snprintf_twoNumbers (by decide) (h.valid k)
        (parsePositiveInt_isInt hqs) (hstock ▸ isInt_wrap32 _)]
    · rw [inspect_reply hsends hk, hsame hsends,
        snprintf_oneNumber (by decide) (h.valid k) (hints k)]
      rfl
    · refine ⟨scrollBody s, ?_, (scrollBody_tells_iff h (hsame hsends)).mpr (hwhole hsends)⟩
      rw [scroll_reply hsends]
      rfl

/-! ## Runs -/

/-- What holds as long as no sum overflows: the exact stocks are the stocks. -/
structure Exactly (t : Table m) (x : Server n m × (Fin m → ℤ)) : Prop where
  inv : Inv t x.1
  fits : StocksFit x.1
  exact_eq : ∀ k, x.2 k = (x.1.ingredients k).qty

variable {x x' : Server n m × (Fin m → ℤ)}

theorem exactly_init (ht : ∀ k, (t.ingredients k).qty ≤ intMax) :
    Exactly t ((initial t : Server n m), fun k => (t.ingredients k).qty) :=
  ⟨inv_init, ht, fun _ => rfl⟩

/-- The sums of the command of a step that fits. -/
theorem Exactly.sums (h : Exactly t x) (hfits : StepFits x.1 act)
    (hcmd : commandOf x.1 act = some (idx, line)) :
    ∀ v ∈ commandSums (x.1.taken idx) idx line, IsInt v := by
  have hno := (noOverflow_iff h.inv h.fits act).mpr hfits
  unfold NoOverflow stepSums at hno
  rwa [hcmd] at hno

/-- **A step that fits** keeps the stocks equal to the exact ones. -/
theorem stock_step (h : Exactly t x) (hfits : StepFits x.1 act)
    (hx : (stocktaking t n timeoutSec).step x act = some x') : Exactly t x' := by
  obtain ⟨s', hs, rfl⟩ := Machine.withGhost_step.mp hx
  obtain ⟨hexact, hinv, hkept⟩ := fits_step h.inv h.fits hfits hs
  refine ⟨hinv, hkept, fun k => ?_⟩
  show takeStock x.1 act s' x.2 k = (s'.ingredients k).qty
  unfold takeStock
  cases hcmd : commandOf x.1 act with
  | none =>
    rw [ingredients_eq_of_no_command hexact hcmd]
    exact h.exact_eq k
  | some command =>
    obtain ⟨idx, line⟩ := command
    have hstock := handleCommand_stock (h.sums hfits hcmd) k
    have hclosed : s'.ingredients =
        (handleCommand wrap32 (x.1.taken idx) idx line).1.ingredients := by
      rw [serverStep_command hs hcmd]
      split_ifs
      · exact rests_ingredients.removeClient _ idx
      · rfl
    dsimp only
    rw [hclosed, hstock, h.exact_eq k]
    rfl

/-- **A step** tells the exact stocks, exactly if it fits and cuts no number. -/
theorem tellsExact_iff (h : Exactly t x) (act : Act n) : TellsExact x act ↔ StepExact x.1 act := by
  unfold TellsExact StepExact StepNumbersWhole
  rw [noOverflow_iff h.inv h.fits act]
  refine and_congr_right fun hfits => forall_congr' fun idx => forall_congr' fun line =>
    forall_congr' fun hcmd => ?_
  have hnamed : (x.1.taken idx).Named t :=
    taken_named ⟨h.inv.covers.name_eq, fun i => (h.inv.covers.books i).toNames⟩ idx
  have hints : ∀ k, IsInt ((x.1.taken idx).ingredients k).qty := fun k =>
    isInt_of_nonneg ((t.pos k).le.trans (h.inv.covers.qty_le k)) (h.fits k)
  exact tellsStocks_iff hnamed hints (h.sums hfits hcmd) fun k => by
    rw [h.exact_eq k]
    rfl

/-- **Exact quantities**: in every run from a table of `int`s, no sum overflows exactly if every
`BREW` fits; the replies besides tell the exact stocks exactly if no list is cut inside a number;
and a run that fits is one of exact arithmetic, and ends with `int`s. -/
theorem quantities_exact (t : Table m) (ht : ∀ k, (t.ingredients k).qty ≤ intMax) (n : ℕ)
    (timeoutSec : ℤ) (as : List (Act n)) (s : Server n m)
    (h : (hogwarts wrap32 t n timeoutSec).runs (initial t) as = some s) :
    ((hogwarts wrap32 t n timeoutSec).AllSteps NoOverflow (initial t) as ↔
      (hogwarts wrap32 t n timeoutSec).AllSteps StepFits (initial t) as) ∧
    ((stocktaking t n timeoutSec).AllSteps TellsExact
        (initial t, fun k => (t.ingredients k).qty) as ↔
      (hogwarts wrap32 t n timeoutSec).AllSteps StepExact (initial t) as) ∧
    ((hogwarts wrap32 t n timeoutSec).AllSteps StepFits (initial t) as →
      (hogwarts unbounded t n timeoutSec).runs (initial t) as = some s ∧
        (∀ k, IsInt (s.ingredients k).qty) ∧ ∀ i, ∀ e ∈ (s.clients i).spellbook, IsInt e.qty) := by
  refine ⟨?_, ?_, fun hall => ?_⟩
  · exact Machine.allSteps_iff (J := fun s => Inv t s ∧ StocksFit s)
      (fun s act s' ⟨hi, hints⟩ hfits hs => (fits_step hi hints hfits hs).2)
      (fun s act s' ⟨hi, hints⟩ _ => noOverflow_iff hi hints act) ⟨inv_init, ht⟩ h
  · obtain ⟨told, hrun⟩ : ∃ told, (stocktaking t n timeoutSec).runs
        (initial t, fun k => (t.ingredients k).qty) as = some (s, told) :=
      Machine.runs_withGhost (fun k => (t.ingredients k).qty) h
    have hsteps : (stocktaking t n timeoutSec).AllSteps (fun x act => StepExact x.1 act)
        (initial t, fun k => (t.ingredients k).qty) as ↔
          (hogwarts wrap32 t n timeoutSec).AllSteps StepExact (initial t) as :=
      Machine.allSteps_withGhost
    rw [← hsteps]
    exact Machine.allSteps_iff (J := Exactly t)
      (fun x act x' hx hgood hs => stock_step hx hgood.1 hs)
      (fun x act x' hx _ => tellsExact_iff hx act) (exactly_init ht) hrun
  · obtain ⟨hexact, hi, hslots, hints⟩ :=
      Machine.AllSteps.runs_of_agree (N := hogwarts unbounded t n timeoutSec)
        (I := fun s => Inv t s ∧ Slots s ∧ StocksFit s)
        (fun s act s' ⟨hi, hslots, hints⟩ hfits hs => by
          obtain ⟨hexact, hi', hints'⟩ := fits_step hi hints hfits hs
          exact ⟨hexact, hi', slots_step hi.connected hslots hs, hints'⟩)
        ⟨inv_init, slots_init, ht⟩ hall h
    exact ⟨hexact, fun k => isInt_of_nonneg ((t.pos k).le.trans (hi.covers.qty_le k)) (hints k),
      fun i e he => entry_isInt hi hslots hints i he⟩

/-- The run of `saltRun` fits. -/
theorem quantities_exact_saltRun : ∃ s : Server 2 1,
    (hogwarts wrap32 saltTable 2 60).runs (initial saltTable) (saltRun 1) = some s ∧
      (hogwarts wrap32 saltTable 2 60).AllSteps StepFits (initial saltTable) (saltRun 1) ∧
        IsInt (s.ingredients 0).qty := by
  have h : ((hogwarts wrap32 saltTable 2 60).runs (initial saltTable) (saltRun 1)).isSome ∧
      (hogwarts wrap32 saltTable 2 60).AllSteps NoOverflow (initial saltTable) (saltRun 1) := by
    decide +kernel
  obtain ⟨s, hrun⟩ := Option.isSome_iff_exists.mp h.1
  obtain ⟨hiff, -, hall⟩ := quantities_exact saltTable (by decide) 2 60 (saltRun 1) s hrun
  exact ⟨s, hrun, hiff.mp h.2, (hall (hiff.mp h.2)).2.1 0⟩

/-- The same ingredients, `qty` of each. -/
def Table.restock (t : Table m) (qty : ℤ) (h : 0 < qty) : Table m where
  ingredients := fun k => ⟨(t.ingredients k).name, qty⟩
  le_max := t.le_max
  valid := t.valid
  pos := fun _ => h
  name_injective := t.name_injective

/-- As much of one ingredient as an `int` holds. -/
def maxTable : Table 1 := saltTable.restock 2147483647 (by decide)

/-- Not in every run from a table of `int`s. -/
theorem not_quantities_exact : ¬ ∀ (m : ℕ) (t : Table m), (∀ k, (t.ingredients k).qty ≤ intMax) →
    ∀ (n : ℕ) (timeoutSec : ℤ) (as : List (Act n)) (s : Server n m),
      (hogwarts wrap32 t n timeoutSec).runs (initial t) as = some s →
        (stocktaking t n timeoutSec).AllSteps TellsExact
          (initial t, fun k => (t.ingredients k).qty) as := by
  intro hall
  have h : ((hogwarts wrap32 maxTable 2 60).runs (initial maxTable) (saltRun 1)).isSome ∧
      ¬ (hogwarts wrap32 maxTable 2 60).AllSteps NoOverflow (initial maxTable) (saltRun 1) := by
    decide +kernel
  obtain ⟨s, hrun⟩ := Option.isSome_iff_exists.mp h.1
  have hsums := Machine.AllSteps.imp (I := fun _ => True) (fun _ _ _ _ _ _ => trivial)
    (fun x act _ hx => And.left hx) trivial (hall 1 maxTable (by decide) 2 60 _ s hrun)
  exact h.2 (Machine.allSteps_withGhost.mp hsums)

end Cse344.HW6
