import Cse344.Final.Replies

/-!
# Who may change the market of the final

What `process_line` (`Final/ServerTrd.c` 182-378) does to prices and portfolios, by the kind of line
and the reply it sends. It makes a trade for a `BUY` or a `SELL` of a joined trader, and for nothing
else.

* `processAndBroadcast` is `process_line` with the broadcast that follows a trade.
* `AsksTrade` is a `BUY` or `SELL` of a joined trader. `SameMarket` says that a line left the stocks
  and all portfolios alone, `TradeOf` that it changed the price of one stock, and what the sender
  holds of its symbol.
* `Tries` are the two ways a trade ends: with `ERR` and the same market, or with `OK` and a trade.

Results:
* `processLine_cases`: a line is a `JOIN`, a trade that is tried, or only replied to.
* **`market_frame`**: prices and portfolios stay as they are unless the reply accepts a trade of a
  trader; a trade changes the price of its stock and what the sender holds of it.

Out of scope: which price a trade leaves; `buyPrice` and `sellPrice` are the code's, in `Float32`.
-/

namespace Cse344.Final

open Cse344.Lib

variable {m : ℕ} {s s' s₁ : Server m} {idx i : Fin maxClients} {line args text sym : CStr}
  {k : Fin m} {o : Outcome} {portfolio : List Holding} {qty : ℤ}

/-- `process_line`, with the broadcast of a trade. -/
def processAndBroadcast (s : Server m) (idx : Fin maxClients) (line : CStr) : Option (Server m) :=
  match processLine s idx line with
  | none => none
  | some (s, .traded) => sendPriceBroadcast s
  | some (s, _) => some s

/-- A trade that a joined trader asks for. -/
structure AsksTrade (c : Client) (line : CStr) : Prop where
  joined : c.joined = true
  type_eq : c.type = cstr "TRADER"
  verb : (cstr "BUY ").isPrefixOf line ∨ (cstr "SELL ").isPrefixOf line

/-- The fields that `JOIN` writes. -/
def Client.setJoin (c : Client) (username type : CStr) (joined : Bool) : Client :=
  { c with username := username, type := type, joined := joined }

/-- What a trade writes. -/
def Client.setAccount (c : Client) (portfolio : List Holding) (trades : List Trade) : Client :=
  { c with portfolio := portfolio, trades := trades }

/-- What is held of all stocks but one. -/
def otherHoldings (portfolio : List Holding) (sym : CStr) : List Holding :=
  portfolio.filter fun h => h.symbol ≠ sym

/-- No price and no portfolio changes, and of the clients only the join fields of `idx`. -/
structure Server.SameMarket (s s' : Server m) (idx : Fin maxClients) : Prop where
  stocks_eq : s'.stocks = s.stocks
  others : ∀ i, i ≠ idx → s'.clients i = s.clients i
  sender : ∃ username type joined, s'.clients idx = (s.clients idx).setJoin username type joined

/-- Of the prices, only that of stock `k` changes, and of the clients only what `idx` holds of
`sym`. -/
structure Server.TradeOf (s s' : Server m) (idx : Fin maxClients) (k : Fin m) (sym : CStr) :
    Prop where
  symbol_eq : ∀ j, (s'.stocks j).symbol = (s.stocks j).symbol
  prices : ∀ j, j ≠ k → s'.stocks j = s.stocks j
  others : ∀ i, i ≠ idx → s'.clients i = s.clients i
  sender : ∃ portfolio trades, s'.clients idx = (s.clients idx).setAccount portfolio trades
  holdings : (otherHoldings (s'.clients idx).portfolio sym).Perm
    (otherHoldings (s.clients idx).portfolio sym)

/-! ## Holdings -/

theorem otherHoldings_set {i : Fin portfolio.length} (hi : (portfolio.get i).symbol = sym)
    (qty : ℤ) :
    (otherHoldings (portfolio.set i ⟨(portfolio.get i).symbol, qty⟩) sym).Perm
      (otherHoldings portfolio sym) := by
  have hset := (set_perm i (⟨(portfolio.get i).symbol, qty⟩ : Holding)).filter
    fun h => decide (h.symbol ≠ sym)
  have hself := (perm_eraseIdx i).filter fun h => decide (h.symbol ≠ sym)
  rw [List.filter_cons_of_neg (by simpa using hi)] at hset hself
  exact hset.trans hself.symm

theorem otherHoldings_eraseIdx {i : Fin portfolio.length} (hi : (portfolio.get i).symbol = sym) :
    (otherHoldings (portfolio.eraseIdx i) sym).Perm (otherHoldings portfolio sym) := by
  have hself := (perm_eraseIdx i).filter fun h => decide (h.symbol ≠ sym)
  rw [List.filter_cons_of_neg (by simpa using hi)] at hself
  exact hself.symm

theorem otherHoldings_addHolding (portfolio : List Holding) (sym : CStr) (qty : ℤ) :
    (otherHoldings (addHolding portfolio sym qty) sym).Perm (otherHoldings portfolio sym) := by
  unfold addHolding
  split
  · rename_i i hi
    exact otherHoldings_set (findHolding_eq_some hi) _
  · split_ifs
    · unfold otherHoldings
      rw [List.filter_append, List.filter_cons_of_neg (by simp), List.filter_nil, List.append_nil]
    · exact List.Perm.refl _

theorem otherHoldings_subHolding {i : Fin portfolio.length}
    (hi : findHolding portfolio sym = some i) (qty : ℤ) :
    (otherHoldings (subHolding portfolio i qty) sym).Perm (otherHoldings portfolio sym) := by
  have hsym := findHolding_eq_some hi
  unfold subHolding
  dsimp only
  split_ifs
  · exact ((swapRemove_set_perm i _).filter _).trans (otherHoldings_eraseIdx hsym)
  · exact otherHoldings_set hsym _

/-! ## Lines -/

theorem Server.SameMarket.reply (s : Server m) (idx : Fin maxClients) (text : CStr) :
    s.SameMarket (s.safeSend idx text) idx :=
  ⟨rfl, fun _ _ => rfl, (s.clients idx).username, (s.clients idx).type, (s.clients idx).joined, rfl⟩

/-- Any new price of stock `k` and any new entry of `sym`. -/
theorem Server.TradeOf.of_update (s : Server m) (idx : Fin maxClients) (k : Fin m) (price : CFloat)
    (trades : List Trade) (text : CStr)
    (h : (otherHoldings portfolio sym).Perm (otherHoldings (s.clients idx).portfolio sym)) :
    s.TradeOf (((s.setPrice k price).setClient idx { s.clients idx with
      portfolio := portfolio, trades := trades }).safeSend idx text) idx k sym where
  symbol_eq := (Function.forall_update_iff s.stocks fun j st => st.symbol = (s.stocks j).symbol).mpr
    ⟨rfl, fun _ _ => rfl⟩
  prices := fun j hj => Function.update_of_ne hj _ _
  others := fun i hi => Function.update_of_ne hi _ _
  sender := ⟨portfolio, trades, Function.update_self _ _ _⟩
  holdings := by
    rw [safeSend_clients, setClient_clients, Function.update_self]
    exact h

theorem sent_setClient (s : Server m) (idx : Fin maxClients) (c : Client) (text : CStr) :
    ((s.setClient idx c).safeSend idx text).sent = s.sent ++ [(c.fd, text)] := by
  unfold Server.safeSend
  rw [setClient_clients, Function.update_self]
  rfl

/-- What a trade comes to: an `ERR` line, or a trade. -/
def Tries (s : Server m) (idx : Fin maxClients) (args : CStr) (r : Server m × Outcome) : Prop :=
  (∃ text, (cstr "ERR ").isPrefixOf text ∧ r = (s.safeSend idx text, .stay)) ∨
    ∃ sym qty k text, scanTrade args = some (sym, qty) ∧ findStock s sym = some k ∧
      s.TradeOf r.1 idx k sym ∧ (cstr "OK ").isPrefixOf text ∧
      r.1.sent = s.sent ++ [((s.clients idx).fd, text)]

theorem tries_err (h : (cstr "ERR ").isPrefixOf text) :
    Tries s idx args (s.safeSend idx text, .stay) := .inl ⟨text, h, rfl⟩

theorem cmdBuy_tries (s : Server m) (idx : Fin maxClients) (args : CStr) :
    Tries s idx args (cmdBuy s idx args) := by
  unfold cmdBuy
  split
  · exact tries_err (by decide)
  · rename_i sym qty hscan
    split
    · exact tries_err (by decide)
    · rename_i k hk
      exact .inr ⟨sym, qty, k, _, hscan, hk, .of_update s idx k _ _ _
        (otherHoldings_addHolding _ sym qty), isPrefixOf_snprintf (by decide) rfl,
        sent_setClient _ idx _ _⟩

theorem cmdSell_tries (s : Server m) (idx : Fin maxClients) (args : CStr) :
    Tries s idx args (cmdSell s idx args) := by
  unfold cmdSell
  split
  · exact tries_err (by decide)
  · rename_i sym qty hscan
    split
    · exact tries_err (by decide)
    · rename_i k hk
      dsimp only
      split
      · exact tries_err (by decide)
      · rename_i j hj
        split_ifs with hlt
        · exact tries_err (by decide)
        · exact .inr ⟨sym, qty, k, _, hscan, hk, .of_update s idx k _ _ _
            (otherHoldings_subHolding hj qty), isPrefixOf_snprintf (by decide) rfl,
            sent_setClient _ idx _ _⟩

/-- What `JOIN` leaves alone. -/
theorem cmdJoin_sameMarket (s : Server m) (idx : Fin maxClients) (args : CStr) :
    s.SameMarket (cmdJoin s idx args) idx ∧
      ∃ text, (cmdJoin s idx args).sent = s.sent ++ [((s.clients idx).fd, text)] := by
  have hreply : ∀ text, s.SameMarket (s.safeSend idx text) idx ∧
      ∃ text', (s.safeSend idx text).sent = s.sent ++ [((s.clients idx).fd, text')] :=
    fun text => ⟨.reply s idx text, text, rfl⟩
  unfold cmdJoin
  dsimp only
  split_ifs with hjoined
  · exact hreply _
  · split
    · exact hreply _
    · split
      · exact hreply _
      · split_ifs
        · exact hreply _
        · exact hreply _
        · exact ⟨⟨rfl, fun i hi => Function.update_of_ne hi _ _, _, _, _,
            Function.update_self _ _ _⟩, _, sent_setClient s idx _ _⟩

/-- **The kinds of lines**: a `JOIN`, a `BUY` or `SELL` of a joined trader, and what is only replied
to. -/
theorem processLine_cases (h : processLine s idx line = some (s', o)) :
    ((cstr "JOIN ").isPrefixOf line ∧ s' = cmdJoin s idx (line.drop 5) ∧ o = .stay) ∨
      (AsksTrade (s.clients idx) line ∧ ((cstr "BUY ").isPrefixOf line ∧
          (s', o) = cmdBuy s idx (line.drop 4) ∨
        (cstr "SELL ").isPrefixOf line ∧ (s', o) = cmdSell s idx (line.drop 5))) ∨
      (¬ AsksTrade (s.clients idx) line ∧ o ≠ .traded ∧ ∃ text, s' = s.safeSend idx text) := by
  have hbuilt : ∀ {text : Option CStr}, (text.map (s.safeSend idx)).map (·, Outcome.stay) =
      some (s', o) → o ≠ .traded ∧ ∃ text, s' = s.safeSend idx text := by
    intro text h
    rw [Option.map_map, Option.map_eq_some_iff] at h
    obtain ⟨text, -, heq⟩ := h
    obtain ⟨rfl, rfl⟩ := Prod.mk.inj heq
    exact ⟨by decide, text, rfl⟩
  unfold processLine at h
  dsimp only at h
  split_ifs at h with hjoin hjoined hquit hanalyst htrader
  · obtain ⟨rfl, rfl⟩ := Prod.mk.inj (Option.some.inj h)
    exact .inl ⟨hjoin, rfl, rfl⟩
  · obtain ⟨rfl, rfl⟩ := Prod.mk.inj (Option.some.inj h)
    exact .inr (.inr ⟨fun hask => absurd (hjoined.symm.trans hask.joined) (by decide), by decide,
      _, rfl⟩)
  · obtain ⟨rfl, rfl⟩ := Prod.mk.inj (Option.some.inj h)
    refine .inr (.inr ⟨fun hask => ?_, by decide, _, rfl⟩)
    rw [hquit] at hask
    exact absurd hask.verb (by decide)
  · refine .inr (.inr ⟨fun hask => absurd (hanalyst.symm.trans hask.type_eq) (by decide), ?_⟩)
    unfold analystLine at h
    split_ifs at h
    · obtain ⟨rfl, rfl⟩ := Prod.mk.inj (Option.some.inj h)
      unfold cmdPrice
      split
      · exact ⟨by decide, _, rfl⟩
      · split
        · exact ⟨by decide, _, rfl⟩
        · exact ⟨by decide, _, rfl⟩
    · exact hbuilt h
    · exact hbuilt h
    · obtain ⟨rfl, rfl⟩ := Prod.mk.inj (Option.some.inj h)
      exact ⟨by decide, _, rfl⟩
    · obtain ⟨rfl, rfl⟩ := Prod.mk.inj (Option.some.inj h)
      exact ⟨by decide, _, rfl⟩
  · have hjoined : (s.clients idx).joined = true := by simpa using hjoined
    unfold traderLine at h
    split_ifs at h with hbuy hsell hportfolio hread
    · exact .inr (.inl ⟨⟨hjoined, htrader, .inl hbuy⟩, .inl ⟨hbuy, (Option.some.inj h).symm⟩⟩)
    · exact .inr (.inl ⟨⟨hjoined, htrader, .inr hsell⟩, .inr ⟨hsell, (Option.some.inj h).symm⟩⟩)
    · refine .inr (.inr ⟨fun hask => hask.verb.elim hbuy hsell, ?_⟩)
      unfold cmdPortfolio at h
      split at h
      · obtain ⟨rfl, rfl⟩ := Prod.mk.inj (Option.some.inj h)
        exact ⟨by decide, _, rfl⟩
      · exact hbuilt h
    · obtain ⟨rfl, rfl⟩ := Prod.mk.inj (Option.some.inj h)
      exact .inr (.inr ⟨fun hask => hask.verb.elim hbuy hsell, by decide, _, rfl⟩)
    · obtain ⟨rfl, rfl⟩ := Prod.mk.inj (Option.some.inj h)
      exact .inr (.inr ⟨fun hask => hask.verb.elim hbuy hsell, by decide, _, rfl⟩)
  · obtain ⟨rfl, rfl⟩ := Prod.mk.inj (Option.some.inj h)
    exact .inr (.inr ⟨fun hask => htrader hask.type_eq, by decide, _, rfl⟩)
/-- What the symbol and the quantity of a `BUY` or a `SELL` are read from. -/
def tradeArgs (line : CStr) : CStr :=
  if (cstr "BUY ").isPrefixOf line then line.drop 4 else line.drop 5

/-- The reply is one text. If it is an `ERR` line, or the sender has not joined or is an analyst,
prices and portfolios stay, and the clients too but for a `JOIN`; a trade that is not refused is one
of the stock it names. -/
def MarketFrame (s s' : Server m) (idx : Fin maxClients) (line : CStr) : Prop :=
  ∃ text, s'.sent = s.sent ++ [((s.clients idx).fd, text)] ∧
    ((cstr "ERR ").isPrefixOf text ∨ (s.clients idx).joined = false ∨
        (s.clients idx).type = cstr "ANALYST" →
      s.SameMarket s' idx ∧ (¬ (cstr "JOIN ").isPrefixOf line → s'.clients = s.clients)) ∧
    (AsksTrade (s.clients idx) line → ¬ (cstr "ERR ").isPrefixOf text →
      ∃ sym qty k, scanTrade (tradeArgs line) = some (sym, qty) ∧ findStock s sym = some k ∧
        s.TradeOf s' idx k sym)

theorem AsksTrade.not_join (h : AsksTrade (s.clients idx) line) :
    ¬ (cstr "JOIN ").isPrefixOf line := by
  intro hjoin
  rcases h.verb with hverb | hverb
  · exact absurd (prefix_unique hjoin hverb (by decide)) (by decide)
  · exact absurd (prefix_unique hjoin hverb (by decide)) (by decide)

/-- No `ERR` line starts with `OK`. -/
theorem not_err_of_ok (h : (cstr "OK ").isPrefixOf text) : ¬ (cstr "ERR ").isPrefixOf text := by
  obtain ⟨rest, rfl⟩ := List.isPrefixOf_iff_prefix.mp h
  exact Bool.false_ne_true

theorem tries_frame {r : Server m × Outcome} (hask : AsksTrade (s.clients idx) line)
    (h : Tries s idx (tradeArgs line) r) : MarketFrame s r.1 idx line := by
  rcases h with ⟨text, herr, rfl⟩ | ⟨sym, qty, k, text, hscan, hk, htrade, hok, hsent⟩
  · exact ⟨text, rfl, fun _ => ⟨.reply s idx text, fun _ => rfl⟩,
      fun _ hno => absurd herr hno⟩
  · refine ⟨text, hsent, fun hrefused => ?_, fun _ _ => ⟨sym, qty, k, hscan, hk, htrade⟩⟩
    rcases hrefused with herr | hjoined | htype
    · exact absurd herr (not_err_of_ok hok)
    · exact absurd (hjoined.symm.trans hask.joined) (by decide)
    · exact absurd (htype.symm.trans hask.type_eq) (by decide)

theorem processLine_frame (h : processLine s idx line = some (s', o)) :
    MarketFrame s s' idx line := by
  rcases processLine_cases h with ⟨hjoin, rfl, -⟩ | ⟨hask, htrade⟩ | ⟨hno, -, text, rfl⟩
  · obtain ⟨hsame, text, hsent⟩ := cmdJoin_sameMarket s idx (line.drop 5)
    exact ⟨text, hsent, fun _ => ⟨hsame, fun hno => absurd hjoin hno⟩,
      fun hask => absurd hjoin hask.not_join⟩
  · rcases htrade with ⟨hbuy, heq⟩ | ⟨hsell, heq⟩
    · have htries := cmdBuy_tries s idx (line.drop 4)
      rw [← heq] at htries
      exact tries_frame hask (by rwa [tradeArgs, if_pos hbuy])
    · have htries := cmdSell_tries s idx (line.drop 5)
      have hbuy : ¬ (cstr "BUY ").isPrefixOf line := fun hbuy =>
        absurd (prefix_unique hbuy hsell (by decide)) (by decide)
      rw [← heq] at htries
      exact tries_frame hask (by rwa [tradeArgs, if_neg hbuy])
  · exact ⟨text, rfl, fun _ => ⟨.reply s idx text, fun _ => rfl⟩,
      fun hask => absurd hask hno⟩

/-- **Only accepted trades change the market.** -/
theorem market_frame (s s' : Server m) (idx : Fin maxClients) (line : CStr)
    (h : processAndBroadcast s idx line = some s') : MarketFrame s s' idx line := by
  unfold processAndBroadcast at h
  split at h
  · cases h
  · rename_i s₁ hprocess
    obtain ⟨broadcasts, rfl⟩ := sendPriceBroadcast_eq h
    obtain ⟨text, hsent, hsame, htrade⟩ := processLine_frame hprocess
    refine ⟨text, hsent, fun hrefused => ?_, fun hask hok => ?_⟩
    · obtain ⟨hmarket, hclients⟩ := hsame hrefused
      exact ⟨⟨hmarket.stocks_eq, hmarket.others, hmarket.sender⟩, hclients⟩
    · obtain ⟨sym, qty, k, hscan, hk, hof⟩ := htrade hask hok
      exact ⟨sym, qty, k, hscan, hk,
        ⟨hof.symbol_eq, hof.prices, hof.others, hof.sender, hof.holdings⟩⟩
  · rename_i s₁ o _ hprocess
    obtain rfl := Option.some.inj h
    exact processLine_frame hprocess

/-- A joined trader buys. -/
def annServer : Server 1 :=
  (initial oneStock).setClient firstSlot
    { Client.empty with fd := 4, username := cstr "ann", type := cstr "TRADER", joined := true }

theorem market_frame_annServer : ∃ s', processAndBroadcast annServer firstSlot (cstr "BUY ACME 3") =
    some s' ∧ MarketFrame annServer s' firstSlot (cstr "BUY ACME 3") := by
  have h : (processAndBroadcast annServer firstSlot (cstr "BUY ACME 3")).isSome = true := by
    decide +kernel
  obtain ⟨s', hs⟩ := Option.isSome_iff_exists.mp h
  exact ⟨s', hs, market_frame annServer s' firstSlot (cstr "BUY ACME 3") hs⟩

end Cse344.Final
