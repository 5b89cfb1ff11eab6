import Cse344.Final.Market

/-!
# Symbols of the final's commands

`PRICE`, `BUY` and `SELL` (`Final/ServerTrd.c` 219-228 and 271-345) read their symbol with `%8s`,
which stops after 8 bytes wherever the token ends. What is left of a longer token is ignored by
`PRICE`, and is where `BUY` and `SELL` look for the quantity.

* `firstToken` is the word after the command, `afterToken` and `afterField` what follows it and what
  follows its first 8 bytes.
* `MatchedWhole` is what an `OK` should mean: a listed stock whose symbol is the whole first token,
  and for a trade a positive quantity after it.
* `CutsSymbol` is where it does not: a token of more than 8 bytes that starts with a listed symbol,
  for a trade with a positive number right behind these 8 bytes, for a `SELL` with enough held.

Results:
* `scanTrade_iff`, `scanTrade_short`, `scanTrade_long`: what a trade is read from, by the length of
  the first token.
* `answeredOk_iff`: when a command is answered with `OK`.
* **`matched_whole_iff`**: in every reachable state, a command that is answered with `OK` names a
  listed stock by its whole first token, and its quantity stands apart from it, unless `CutsSymbol`.

Out of scope: `JOIN`, which reads its two words with `%15s` and `%31s`.
-/

namespace Cse344.Final

open Cse344.Lib

variable {m : ℕ} {t : Table m} {s s' : Server m} {idx : Fin maxClients} {line args text sym : CStr}
  {qty : ℤ} {o : Outcome}

/-! ## Tokens -/

/-- The first token of the arguments. -/
def firstToken (args : CStr) : CStr := (args.dropWhile isspace).takeWhile fun c => !isspace c

/-- What stands after it. -/
def afterToken (args : CStr) : CStr := (args.dropWhile isspace).dropWhile fun c => !isspace c

/-- `%8s` has stopped. -/
def afterField (args : CStr) : CStr := (args.dropWhile isspace).drop (symbolLen - 1)

/-- A positive number is read. -/
def ReadsPositive (args : CStr) (qty : ℤ) : Prop :=
  ∃ rest, scanInt args = some (qty, rest) ∧ 0 < qty

/-- A stock has this symbol. -/
def Listed (s : Server m) (sym : CStr) : Prop := ∃ k, (s.stocks k).symbol = sym

/-- `process_line` replies with an `OK` line. -/
def AnsweredOk (s : Server m) (idx : Fin maxClients) (line : CStr) : Prop :=
  ∃ s' o text, processLine s idx line = some (s', o) ∧
    s'.sent = s.sent ++ [((s.clients idx).fd, text)] ∧ (cstr "OK ").isPrefixOf text

/-- The trade is in the stock that the whole first token names, and its quantity is read after that
token. -/
def WholeTrade (s : Server m) (args : CStr) : Prop :=
  Listed s (firstToken args) ∧
    ∃ qty, scanTrade args = some (firstToken args, qty) ∧ ReadsPositive (afterToken args) qty

/-- What an `OK` is to say of the arguments of a command. -/
structure MatchedWhole (s : Server m) (line : CStr) : Prop where
  price : (cstr "PRICE ").isPrefixOf line → Listed s (firstToken (line.drop 6))
  buy : (cstr "BUY ").isPrefixOf line → WholeTrade s (line.drop 4)
  sell : (cstr "SELL ").isPrefixOf line → WholeTrade s (line.drop 5)

/-- The first token is longer than a symbol, and starts with a listed one of 8 bytes. -/
def LongToken (s : Server m) (args : CStr) : Prop :=
  symbolLen - 1 < (firstToken args).length ∧ Listed s ((firstToken args).take (symbolLen - 1))

/-- The seller has so much of what the first 8 bytes name. -/
def HoldsCut (s : Server m) (idx : Fin maxClients) (args : CStr) (qty : ℤ) : Prop :=
  ∃ i, findHolding (s.clients idx).portfolio ((firstToken args).take (symbolLen - 1)) = some i ∧
    qty ≤ ((s.clients idx).portfolio.get i).qty

/-- A command that is accepted for a part of its first token. -/
def CutsSymbol (s : Server m) (idx : Fin maxClients) (line : CStr) : Prop :=
  (s.clients idx).joined = true ∧
    ((s.clients idx).type = cstr "ANALYST" ∧ (cstr "PRICE ").isPrefixOf line ∧
        LongToken s (line.drop 6) ∨
      (s.clients idx).type = cstr "TRADER" ∧ (cstr "BUY ").isPrefixOf line ∧
        LongToken s (line.drop 4) ∧ (∃ qty, ReadsPositive (afterField (line.drop 4)) qty) ∨
      (s.clients idx).type = cstr "TRADER" ∧ (cstr "SELL ").isPrefixOf line ∧
        LongToken s (line.drop 5) ∧
        ∃ qty, ReadsPositive (afterField (line.drop 5)) qty ∧ HoldsCut s idx (line.drop 5) qty)

/-! ## Scanning -/

/-- `%8s` takes the first bytes of the token. -/
theorem scanString_iff {rest : CStr} : scanString (symbolLen - 1) args = some (sym, rest) ↔
    sym = (firstToken args).take (symbolLen - 1) ∧ sym ≠ [] ∧
      rest = (args.dropWhile isspace).drop sym.length := by
  have htoken : ((args.dropWhile isspace).takeWhile fun c => !isspace c) = firstToken args := rfl
  rw [scanString, htoken]
  cases (firstToken args).take (symbolLen - 1) with
  | nil =>
    constructor
    · intro h
      cases h
    · exact fun h => absurd h.1 h.2.1
  | cons c field =>
    rw [Option.some_inj, Prod.mk.injEq]
    constructor
    · rintro ⟨rfl, rfl⟩
      exact ⟨rfl, List.cons_ne_nil _ _, rfl⟩
    · rintro ⟨rfl, -, rfl⟩
      exact ⟨rfl, rfl⟩

theorem scanTrade_iff : scanTrade args = some (sym, qty) ↔
    sym = (firstToken args).take (symbolLen - 1) ∧ sym ≠ [] ∧
      ReadsPositive ((args.dropWhile isspace).drop sym.length) qty := by
  unfold scanTrade
  constructor
  · intro h
    split at h
    · cases h
    · rename_i sym' rest hscan
      split at h
      · cases h
      · rename_i qty' rest' hint
        split_ifs at h with hpos
        obtain ⟨rfl, rfl⟩ := Prod.mk.inj (Option.some.inj h)
        obtain ⟨hsym, hne, rfl⟩ := scanString_iff.mp hscan
        exact ⟨hsym, hne, rest', hint, not_le.mp hpos⟩
  · rintro ⟨hsym, hne, rest, hint, hpos⟩
    rw [scanString_iff.mpr ⟨hsym, hne, rfl⟩]
    dsimp only
    rw [hint]
    dsimp only
    rw [if_neg (not_le.mpr hpos)]

/-- A short token is read whole. -/
theorem take_firstToken (h : (firstToken args).length ≤ symbolLen - 1) :
    (firstToken args).take (symbolLen - 1) = firstToken args := List.take_of_length_le h

theorem drop_firstToken (args : CStr) :
    (args.dropWhile isspace).drop (firstToken args).length = afterToken args := by
  have hsplit : args.dropWhile isspace = firstToken args ++ afterToken args :=
    List.takeWhile_append_dropWhile.symm
  conv_lhs => rw [hsplit]
  exact List.drop_left

/-- **What a trade is read from**, by the length of the first token. -/
theorem scanTrade_short (h : (firstToken args).length ≤ symbolLen - 1)
    (hscan : scanTrade args = some (sym, qty)) :
    sym = firstToken args ∧ ReadsPositive (afterToken args) qty := by
  obtain ⟨hsym, -, hreads⟩ := scanTrade_iff.mp hscan
  rw [take_firstToken h] at hsym
  subst hsym
  rw [drop_firstToken] at hreads
  exact ⟨rfl, hreads⟩

theorem scanTrade_long (h : symbolLen - 1 < (firstToken args).length) :
    scanTrade args = some (sym, qty) ↔
      sym = (firstToken args).take (symbolLen - 1) ∧ ReadsPositive (afterField args) qty := by
  have hlen : ((firstToken args).take (symbolLen - 1)).length = symbolLen - 1 :=
    List.length_take_of_le h.le
  have hne : (firstToken args).take (symbolLen - 1) ≠ [] := by
    intro hnil
    rw [hnil] at hlen
    cases hlen
  rw [scanTrade_iff]
  constructor
  · rintro ⟨rfl, -, hreads⟩
    rw [hlen] at hreads
    exact ⟨rfl, hreads⟩
  · rintro ⟨rfl, hreads⟩
    rw [hlen]
    exact ⟨rfl, hne, hreads⟩

/-! ## The commands -/

/-- The reply in `s'` is an `OK` line. -/
def OkReply (s : Server m) (idx : Fin maxClients) (s' : Server m) : Prop :=
  ∃ text, s'.sent = s.sent ++ [((s.clients idx).fd, text)] ∧ (cstr "OK ").isPrefixOf text

theorem not_okReply (h : (cstr "ERR ").isPrefixOf text) :
    ¬OkReply s idx (s.safeSend idx text) := by
  rintro ⟨text', hsent, hok⟩
  have heq := List.append_cancel_left (show s.sent ++ [((s.clients idx).fd, text)] = _ from hsent)
  have htext : text = text' := (Prod.mk.inj (List.singleton_inj.mp heq)).2
  exact not_err_of_ok hok (htext ▸ h)

theorem listed_iff : Listed s sym ↔ ∃ k, findStock s sym = some k := by
  constructor
  · rintro ⟨k, hk⟩
    refine Option.isSome_iff_exists.mp (List.find?_isSome.mpr ⟨k, List.mem_finRange k, ?_⟩)
    simpa using hk
  · exact fun ⟨k, hk⟩ => ⟨k, findStock_symbol hk⟩

theorem not_listed (h : findStock s sym = none) : ¬Listed s sym := by
  rw [listed_iff, h]
  exact fun ⟨k, hk⟩ => nomatch hk

theorem cmdPrice_ok_iff : OkReply s idx (cmdPrice s idx args) ↔
    (firstToken args).take (symbolLen - 1) ≠ [] ∧
      Listed s ((firstToken args).take (symbolLen - 1)) := by
  unfold cmdPrice
  split
  · rename_i hscan
    refine iff_of_false (not_okReply (by decide)) fun h => ?_
    rw [scanString_iff.mpr ⟨rfl, h.1, rfl⟩] at hscan
    cases hscan
  · rename_i sym rest hscan
    obtain ⟨rfl, hne, -⟩ := scanString_iff.mp hscan
    split
    · rename_i hk
      exact iff_of_false (not_okReply (by decide)) fun h => not_listed hk h.2
    · rename_i k hk
      exact iff_of_true ⟨_, rfl, isPrefixOf_snprintf (by decide) rfl⟩
        ⟨hne, listed_iff.mpr ⟨k, hk⟩⟩

theorem cmdBuy_ok_iff : OkReply s idx (cmdBuy s idx args).1 ↔
    ∃ sym qty, scanTrade args = some (sym, qty) ∧ Listed s sym := by
  unfold cmdBuy
  split
  · rename_i hscan
    refine iff_of_false (not_okReply (by decide)) ?_
    rintro ⟨sym, qty, h, -⟩
    rw [hscan] at h
    cases h
  · rename_i sym qty hscan
    split
    · rename_i hk
      refine iff_of_false (not_okReply (by decide)) ?_
      rintro ⟨sym', qty', h, hlisted⟩
      rw [hscan] at h
      obtain ⟨rfl, -⟩ := Prod.mk.inj (Option.some.inj h)
      exact not_listed hk hlisted
    · rename_i k hk
      exact iff_of_true ⟨_, sent_setClient _ idx _ _, isPrefixOf_snprintf (by decide) rfl⟩
        ⟨sym, qty, hscan, listed_iff.mpr ⟨k, hk⟩⟩

theorem cmdSell_ok_iff : OkReply s idx (cmdSell s idx args).1 ↔
    ∃ sym qty, scanTrade args = some (sym, qty) ∧ Listed s sym ∧
      ∃ i, findHolding (s.clients idx).portfolio sym = some i ∧
        qty ≤ ((s.clients idx).portfolio.get i).qty := by
  unfold cmdSell
  split
  · rename_i hscan
    refine iff_of_false (not_okReply (by decide)) ?_
    rintro ⟨sym, qty, h, -⟩
    rw [hscan] at h
    cases h
  · rename_i sym qty hscan
    have hunique : ∀ {sym' qty'}, scanTrade args = some (sym', qty') → sym' = sym ∧ qty' = qty := by
      intro sym' qty' h
      rw [hscan] at h
      obtain ⟨rfl, rfl⟩ := Prod.mk.inj (Option.some.inj h)
      exact ⟨rfl, rfl⟩
    split
    · rename_i hk
      refine iff_of_false (not_okReply (by decide)) ?_
      rintro ⟨sym', qty', h, hlisted, -⟩
      obtain ⟨rfl, -⟩ := hunique h
      exact not_listed hk hlisted
    · rename_i k hk
      dsimp only
      split
      · rename_i hnone
        refine iff_of_false (not_okReply (by decide)) ?_
        rintro ⟨sym', qty', h, -, i, hi, -⟩
        obtain ⟨rfl, -⟩ := hunique h
        rw [hnone] at hi
        cases hi
      · rename_i i hi
        split_ifs with hlt
        · refine iff_of_false (not_okReply (by decide)) ?_
          rintro ⟨sym', qty', h, -, i', hi', hle⟩
          obtain ⟨rfl, rfl⟩ := hunique h
          obtain rfl := Option.some.inj (hi.symm.trans hi')
          exact absurd hlt (not_lt.mpr hle)
        · exact iff_of_true ⟨_, sent_setClient _ idx _ _, isPrefixOf_snprintf (by decide) rfl⟩
            ⟨sym, qty, hscan, listed_iff.mpr ⟨k, hk⟩, i, hi, not_lt.mp hlt⟩

/-! ## Lines -/

theorem answeredOk_of_reply (hp : processLine s idx line = some (s', o)) :
    AnsweredOk s idx line ↔ OkReply s idx s' := by
  constructor
  · rintro ⟨s₁, o₁, text, hp₁, hsent, hok⟩
    rw [hp] at hp₁
    obtain ⟨rfl, -⟩ := Prod.mk.inj (Option.some.inj hp₁)
    exact ⟨text, hsent, hok⟩
  · exact fun ⟨text, hsent, hok⟩ => ⟨s', o, text, hp, hsent, hok⟩

/-- A `PRICE`, `BUY` or `SELL` line. -/
def IsCommand (line : CStr) : Prop :=
  (cstr "PRICE ").isPrefixOf line ∨ (cstr "BUY ").isPrefixOf line ∨ (cstr "SELL ").isPrefixOf line

/-- Who may give the command, and what it replies. -/
def CommandOk (s : Server m) (idx : Fin maxClients) (line : CStr) : Prop :=
  (s.clients idx).joined = true ∧
    ((s.clients idx).type = cstr "ANALYST" ∧ (cstr "PRICE ").isPrefixOf line ∧
        OkReply s idx (cmdPrice s idx (line.drop 6)) ∨
      (s.clients idx).type = cstr "TRADER" ∧ (cstr "BUY ").isPrefixOf line ∧
        OkReply s idx (cmdBuy s idx (line.drop 4)).1 ∨
      (s.clients idx).type = cstr "TRADER" ∧ (cstr "SELL ").isPrefixOf line ∧
        OkReply s idx (cmdSell s idx (line.drop 5)).1)

/-- A line is one of the commands only. -/
theorem not_both {a b : CStr} (ha : a.isPrefixOf line) (hab : ¬a <+: b) (hba : ¬b <+: a) :
    ¬b.isPrefixOf line := fun hb => hba (prefix_unique ha hb hab)

theorem answeredOk_analyst (h : IsCommand line) (hjoined : (s.clients idx).joined = true)
    (htype : (s.clients idx).type = cstr "ANALYST")
    (hline : processLine s idx line = analystLine s idx line) :
    AnsweredOk s idx line ↔ CommandOk s idx line := by
  have htrader : (s.clients idx).type ≠ cstr "TRADER" := by
    rw [htype]
    decide
  by_cases hprice : (cstr "PRICE ").isPrefixOf line
  · have hp : processLine s idx line = some (cmdPrice s idx (line.drop 6), .stay) := by
      rw [hline, analystLine, if_pos hprice]
    rw [answeredOk_of_reply hp]
    constructor
    · exact fun hok => ⟨hjoined, .inl ⟨htype, hprice, hok⟩⟩
    · rintro ⟨-, ⟨-, -, hok⟩ | ⟨ht, -⟩ | ⟨ht, -⟩⟩
      · exact hok
      · exact absurd ht htrader
      · exact absurd ht htrader
  · have htrade := h.resolve_left hprice
    have hreport : line ≠ cstr "REPORT" := by
      rcases htrade with h | h <;> exact ne_of_startsWith h (by decide)
    have hlist : line ≠ cstr "LIST" := by
      rcases htrade with h | h <;> exact ne_of_startsWith h (by decide)
    have hp : processLine s idx line =
        some (s.safeSend idx (cstr "ERR UNAUTHORIZED\n"), .stay) := by
      rw [hline, analystLine, if_neg hprice, if_neg hreport, if_neg hlist, if_pos htrade]
    rw [answeredOk_of_reply hp]
    refine iff_of_false (not_okReply (by decide)) ?_
    rintro ⟨-, ⟨-, hpre, -⟩ | ⟨ht, -⟩ | ⟨ht, -⟩⟩
    · exact hprice hpre
    · exact htrader ht
    · exact htrader ht

theorem answeredOk_trader (h : IsCommand line) (hjoined : (s.clients idx).joined = true)
    (htype : (s.clients idx).type = cstr "TRADER")
    (hline : processLine s idx line = traderLine s idx line) :
    AnsweredOk s idx line ↔ CommandOk s idx line := by
  have hanalyst : (s.clients idx).type ≠ cstr "ANALYST" := by
    rw [htype]
    decide
  rcases h with hprice | hbuy | hsell
  · have hbuy : ¬(cstr "BUY ").isPrefixOf line := not_both hprice (by decide) (by decide)
    have hsell : ¬(cstr "SELL ").isPrefixOf line := not_both hprice (by decide) (by decide)
    have hportfolio : line ≠ cstr "PORTFOLIO" := ne_of_startsWith hprice (by decide)
    have hp : processLine s idx line =
        some (s.safeSend idx (cstr "ERR UNAUTHORIZED\n"), .stay) := by
      rw [hline, traderLine, if_neg hbuy, if_neg hsell, if_neg hportfolio, if_pos (.inl hprice)]
    rw [answeredOk_of_reply hp]
    refine iff_of_false (not_okReply (by decide)) ?_
    rintro ⟨-, ⟨ht, -⟩ | ⟨-, hpre, -⟩ | ⟨-, hpre, -⟩⟩
    · exact hanalyst ht
    · exact hbuy hpre
    · exact hsell hpre
  · have hsell : ¬(cstr "SELL ").isPrefixOf line := not_both hbuy (by decide) (by decide)
    have hp : processLine s idx line = some (cmdBuy s idx (line.drop 4)) := by
      rw [hline, traderLine, if_pos hbuy]
    rw [answeredOk_of_reply hp]
    constructor
    · exact fun hok => ⟨hjoined, .inr (.inl ⟨htype, hbuy, hok⟩)⟩
    · rintro ⟨-, ⟨ht, -⟩ | ⟨-, -, hok⟩ | ⟨-, hpre, -⟩⟩
      · exact absurd ht hanalyst
      · exact hok
      · exact absurd hpre hsell
  · have hbuy : ¬(cstr "BUY ").isPrefixOf line := not_both hsell (by decide) (by decide)
    have hp : processLine s idx line = some (cmdSell s idx (line.drop 5)) := by
      rw [hline, traderLine, if_neg hbuy, if_pos hsell]
    rw [answeredOk_of_reply hp]
    constructor
    · exact fun hok => ⟨hjoined, .inr (.inr ⟨htype, hsell, hok⟩)⟩
    · rintro ⟨-, ⟨ht, -⟩ | ⟨-, hpre, -⟩ | ⟨-, -, hok⟩⟩
      · exact absurd ht hanalyst
      · exact absurd hpre hbuy
      · exact hok

/-- Which commands are answered with `OK`. -/
theorem answeredOk_iff (h : IsCommand line) : AnsweredOk s idx line ↔ CommandOk s idx line := by
  have hjoin : ¬(cstr "JOIN ").isPrefixOf line := fun hj => by
    rcases h with h | h | h <;> exact absurd (prefix_unique hj h (by decide)) (by decide)
  have hquit : line ≠ cstr "QUIT" := by
    rcases h with h | h | h <;> exact ne_of_startsWith h (by decide)
  by_cases hjoined : (s.clients idx).joined = true
  · obtain ⟨hanalyst, htrader⟩ := processLine_joined hjoined hjoin hquit
    by_cases ha : (s.clients idx).type = cstr "ANALYST"
    · exact answeredOk_analyst h hjoined ha (hanalyst ha)
    · by_cases ht : (s.clients idx).type = cstr "TRADER"
      · exact answeredOk_trader h hjoined ht (htrader ht)
      · have hp : processLine s idx line = some (s.safeSend idx (cstr "ERR UNKNOWN\n"), .stay) := by
          unfold processLine
          dsimp only
          rw [if_neg hjoin, if_neg (by simp [hjoined]), if_neg hquit, if_neg ha, if_neg ht]
        rw [answeredOk_of_reply hp]
        refine iff_of_false (not_okReply (by decide)) ?_
        rintro ⟨-, ⟨h', -⟩ | ⟨h', -⟩ | ⟨h', -⟩⟩
        · exact ha h'
        · exact ht h'
        · exact ht h'
  · have hp : processLine s idx line =
        some (s.safeSend idx (cstr "ERR NOT_JOINED\n"), .stay) := by
      unfold processLine
      dsimp only
      rw [if_neg hjoin, if_pos (by simpa using hjoined)]
    rw [answeredOk_of_reply hp]
    exact iff_of_false (not_okReply (by decide)) fun hok => hjoined hok.1

/-! ## Whole tokens -/

/-- No listed symbol is longer than 8 bytes. -/
theorem length_le_of_listed (hi : Inv t s) (h : Listed s sym) : sym.length ≤ symbolLen - 1 := by
  obtain ⟨k, rfl⟩ := h
  exact (plain_symbol hi k).2

/-- A listed symbol of a first token that is not too long names that token. -/
theorem wholeTrade_of_short (hlen : (firstToken args).length ≤ symbolLen - 1)
    (hscan : scanTrade args = some (sym, qty)) (hlisted : Listed s sym) : WholeTrade s args := by
  obtain ⟨rfl, hreads⟩ := scanTrade_short hlen hscan
  exact ⟨hlisted, qty, hscan, hreads⟩

/-- A command that cuts a symbol is answered with `OK`. -/
theorem commandOk_of_cuts (h : CutsSymbol s idx line) : CommandOk s idx line := by
  obtain ⟨hjoined, hcuts⟩ := h
  refine ⟨hjoined, ?_⟩
  rcases hcuts with ⟨htype, hpre, hlen, hlisted⟩ | ⟨htype, hpre, ⟨hlen, hlisted⟩, qty, hreads⟩ |
    ⟨htype, hpre, ⟨hlen, hlisted⟩, qty, hreads, hholds⟩
  · refine .inl ⟨htype, hpre, cmdPrice_ok_iff.mpr ⟨fun hnil => ?_, hlisted⟩⟩
    have hcut := List.length_take_of_le hlen.le
    rw [hnil] at hcut
    cases hcut
  · exact .inr (.inl ⟨htype, hpre,
      cmdBuy_ok_iff.mpr ⟨_, qty, (scanTrade_long hlen).mpr ⟨rfl, hreads⟩, hlisted⟩⟩)
  · exact .inr (.inr ⟨htype, hpre,
      cmdSell_ok_iff.mpr ⟨_, qty, (scanTrade_long hlen).mpr ⟨rfl, hreads⟩, hlisted, hholds⟩⟩)

theorem isCommand_of_cuts (h : CutsSymbol s idx line) : IsCommand line := by
  rcases h.2 with ⟨-, hpre, -⟩ | ⟨-, hpre, -⟩ | ⟨-, hpre, -⟩
  · exact .inl hpre
  · exact .inr (.inl hpre)
  · exact .inr (.inr hpre)

/-- And does not name a listed stock. -/
theorem not_matchedWhole_of_cuts (hi : Inv t s) (h : CutsSymbol s idx line) :
    ¬MatchedWhole s line := by
  intro hwhole
  rcases h.2 with ⟨-, hpre, hlen, -⟩ | ⟨-, hpre, ⟨hlen, -⟩, -⟩ | ⟨-, hpre, ⟨hlen, -⟩, -⟩
  · exact absurd hlen (not_lt.mpr (length_le_of_listed hi (hwhole.price hpre)))
  · exact absurd hlen (not_lt.mpr (length_le_of_listed hi (hwhole.buy hpre).1))
  · exact absurd hlen (not_lt.mpr (length_le_of_listed hi (hwhole.sell hpre).1))

theorem matchedWhole_of_commandOk (hok : CommandOk s idx line) (hcuts : ¬CutsSymbol s idx line) :
    MatchedWhole s line := by
  obtain ⟨hjoined, hok⟩ := hok
  rcases hok with ⟨htype, hpre, hreply⟩ | ⟨htype, hpre, hreply⟩ | ⟨htype, hpre, hreply⟩
  · refine ⟨fun _ => ?_, fun h => absurd h (not_both hpre (by decide) (by decide)),
      fun h => absurd h (not_both hpre (by decide) (by decide))⟩
    obtain ⟨-, hlisted⟩ := cmdPrice_ok_iff.mp hreply
    rcases Nat.lt_or_ge (symbolLen - 1) (firstToken (line.drop 6)).length with hlen | hlen
    · exact absurd ⟨hjoined, .inl ⟨htype, hpre, hlen, hlisted⟩⟩ hcuts
    · rwa [take_firstToken hlen] at hlisted
  · refine ⟨fun h => absurd h (not_both hpre (by decide) (by decide)), fun _ => ?_,
      fun h => absurd h (not_both hpre (by decide) (by decide))⟩
    obtain ⟨sym, qty, hscan, hlisted⟩ := cmdBuy_ok_iff.mp hreply
    rcases Nat.lt_or_ge (symbolLen - 1) (firstToken (line.drop 4)).length with hlen | hlen
    · obtain ⟨rfl, hreads⟩ := (scanTrade_long hlen).mp hscan
      exact absurd ⟨hjoined, .inr (.inl ⟨htype, hpre, ⟨hlen, hlisted⟩, qty, hreads⟩)⟩ hcuts
    · exact wholeTrade_of_short hlen hscan hlisted
  · refine ⟨fun h => absurd h (not_both hpre (by decide) (by decide)),
      fun h => absurd h (not_both hpre (by decide) (by decide)), fun _ => ?_⟩
    obtain ⟨sym, qty, hscan, hlisted, hholds⟩ := cmdSell_ok_iff.mp hreply
    rcases Nat.lt_or_ge (symbolLen - 1) (firstToken (line.drop 5)).length with hlen | hlen
    · obtain ⟨rfl, hreads⟩ := (scanTrade_long hlen).mp hscan
      exact absurd ⟨hjoined, .inr (.inr ⟨htype, hpre, ⟨hlen, hlisted⟩, qty, hreads, hholds⟩)⟩ hcuts
    · exact wholeTrade_of_short hlen hscan hlisted

/-- **An `OK` names a listed stock by the whole first token**, and the quantity stands apart,
exactly if the command does not cut a symbol. -/
theorem matched_whole_iff (t : Table m) (s : Server m) (idx : Fin maxClients) (line : CStr)
    (hs : (serverTrd t).Reachable s) :
    (AnsweredOk s idx line → MatchedWhole s line) ↔ ¬CutsSymbol s idx line := by
  have hi : Inv t s := inv_reachable hs
  constructor
  · intro h hcuts
    have hok := (answeredOk_iff (isCommand_of_cuts hcuts)).mpr (commandOk_of_cuts hcuts)
    exact not_matchedWhole_of_cuts hi hcuts (h hok)
  · intro hcuts hok
    by_cases hcommand : IsCommand line
    · exact matchedWhole_of_commandOk ((answeredOk_iff hcommand).mp hok) hcuts
    · exact ⟨fun h => absurd (.inl h) hcommand, fun h => absurd (.inr (.inl h)) hcommand,
        fun h => absurd (.inr (.inr h)) hcommand⟩

/-- A joined trader, and a symbol that is listed. -/
theorem matched_whole_annJoins : ∃ s, (serverTrd oneStock).Reachable s ∧
    (s.clients firstSlot).joined = true ∧
      (AnsweredOk s firstSlot (cstr "BUY ACME 3") → MatchedWhole s (cstr "BUY ACME 3")) := by
  obtain ⟨s, hrun, -, hjoined, htype⟩ := runs_annJoins
  have hreach : (serverTrd oneStock).Reachable s := Machine.runs_reachable hrun
  refine ⟨s, hreach, hjoined, (matched_whole_iff oneStock s firstSlot _ hreach).mpr ?_⟩
  rintro ⟨-, ⟨-, hpre, -⟩ | ⟨-, -, ⟨hlen, -⟩, -⟩ | ⟨-, hpre, -⟩⟩
  · exact absurd hpre (by decide)
  · exact absurd hlen (by decide)
  · exact absurd hpre (by decide)

/-- A table with one symbol only. -/
def Table.withSymbol (t : Table m) (sym : CStr) (h : isValidSymbol sym = true) : Table m where
  stocks := fun k => ⟨sym, (t.stocks k).price⟩
  pos := t.pos
  le_max := t.le_max
  valid := fun _ => h
  price_pos := t.price_pos

/-- A stock whose symbol has 8 letters. -/
def longSymbol : Table 1 := oneStock.withSymbol (cstr "AAAAAAAA") (by decide)

/-- A trader joins. -/
def annJoinsOnly : List Act :=
  [.accept 4, .input firstSlot (.data (cstr "JOIN TRADER ann\n")), .line, .line]

/-- **A token that starts with a symbol buys**, and the rest of it is the quantity. -/
theorem buys_rest_of_token : ∃ s, (serverTrd longSymbol).Reachable s ∧
    AnsweredOk s firstSlot (cstr "BUY AAAAAAAA12") ∧ ¬MatchedWhole s (cstr "BUY AAAAAAAA12") := by
  have h : ((serverTrd longSymbol).runs (initial longSymbol) annJoinsOnly).map (fun s =>
      ((s.clients firstSlot).joined, (s.clients firstSlot).type)) = some (true, cstr "TRADER") := by
    decide +kernel
  obtain ⟨s, hrun, hclient⟩ := Option.map_eq_some_iff.mp h
  obtain ⟨hjoined, htype⟩ := Prod.mk.inj hclient
  have hreach : (serverTrd longSymbol).Reachable s := Machine.runs_reachable hrun
  have hi : Inv longSymbol s := inv_reachable hreach
  have hlisted : Listed s (cstr "AAAAAAAA") := ⟨Fin.last 0, hi.symbol_eq _⟩
  have hcuts : CutsSymbol s firstSlot (cstr "BUY AAAAAAAA12") :=
    ⟨hjoined, .inr (.inl ⟨htype, by decide, ⟨by decide, hlisted⟩, 12, [], by decide, by decide⟩)⟩
  exact ⟨s, hreach, (answeredOk_iff (isCommand_of_cuts hcuts)).mpr (commandOk_of_cuts hcuts),
    not_matchedWhole_of_cuts hi hcuts⟩

end Cse344.Final
