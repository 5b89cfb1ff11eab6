import Cse344.Final.Accounts

/-!
# No share that is bought is dropped

`BUY` (`Final/ServerTrd.c` 284-295) enters a new stock into the portfolio if fewer than `MAX_STOCKS`
entries are in use, and does nothing if not; the trade is answered with `OK` either way.

* `Inv` keeps the symbols of a portfolio different and in the table, however many stocks of the
  table share a symbol, and whatever `SELL` has removed by putting the last entry in its place.
* So a symbol that is not in the portfolio leaves room for itself (`length_lt_maxStocks`).

Results:
* `cmdBuy_portfolio`: the portfolio that an accepted `BUY` leaves.
* **`buy_never_drops`**: in every reachable state, a portfolio has different symbols of the table
  and room for each of them, and after each `BUY` that is accepted it has the entry with its shares.

Out of scope: whether the quantity of that entry is right, which is `Cse344.Final.Accounts`.
-/

namespace Cse344.Final

open Cse344.Lib

variable {m : ℕ} {t : Table m} {s s' : Server m} {idx : Fin maxClients} {line : CStr} {sym : CStr}
  {qty : ℤ}

/-- A portfolio with the shares of a `BUY`, added to their entry or in a new one. -/
def withShares (portfolio : List Holding) (sym : CStr) (qty : ℤ) : List Holding :=
  match findHolding portfolio sym with
  | some i => portfolio.set i ⟨(portfolio.get i).symbol, wrap32 ((portfolio.get i).qty + qty)⟩
  | none => portfolio ++ [⟨sym, qty⟩]

/-- Where there is room, `BUY` skips nothing. -/
theorem addHolding_eq_withShares {portfolio : List Holding}
    (h : findHolding portfolio sym = none → portfolio.length < maxStocks) :
    addHolding portfolio sym qty = withShares portfolio sym qty := by
  unfold addHolding withShares
  cases hfind : findHolding portfolio sym with
  | some i => rfl
  | none => exact if_pos (h hfind)

/-- What `BUY` makes of a line that it accepts. -/
theorem bought_eq_some (h : bought s idx line = some (sym, qty)) :
    ((s.clients idx).joined = true ∧ (s.clients idx).type = cstr "TRADER" ∧
      (cstr "BUY ").isPrefixOf line) ∧
    scanTrade (line.drop 4) = some (sym, qty) ∧ ∃ k, findStock s sym = some k := by
  unfold bought at h
  split_ifs at h with hcond
  refine ⟨hcond, ?_⟩
  split at h
  · cases h
  · rename_i hscan
    obtain ⟨k, hk, heq⟩ := Option.map_eq_some_iff.mp h
    obtain ⟨rfl, rfl⟩ := Prod.mk.inj heq
    exact ⟨hscan, k, hk⟩

/-- A line of a trader that asks to buy. -/
theorem processLine_buy (h : bought s idx line = some (sym, qty)) :
    processLine s idx line = some (cmdBuy s idx (line.drop 4)) := by
  obtain ⟨⟨hjoined, htype, hbuy⟩, -⟩ := bought_eq_some h
  have hjoin : ¬ (cstr "JOIN ").isPrefixOf line := fun hjoin =>
    absurd (prefix_unique hjoin hbuy (by decide)) (by decide)
  have hquit : line ≠ cstr "QUIT" := by
    rintro rfl
    exact absurd hbuy (by decide)
  have hanalyst : ¬ (s.clients idx).type = cstr "ANALYST" := by
    rw [htype]
    decide
  unfold processLine traderLine
  dsimp only
  rw [if_neg hjoin, if_neg (by simp [hjoined]), if_neg hquit, if_neg hanalyst, if_pos htype,
    if_pos hbuy]

theorem cmdBuy_portfolio (h : bought s idx line = some (sym, qty)) :
    (cmdBuy s idx (line.drop 4)).2 = .traded ∧
      (((cmdBuy s idx (line.drop 4)).1).clients idx).portfolio =
        addHolding (s.clients idx).portfolio sym qty := by
  obtain ⟨-, hscan, k, hk⟩ := bought_eq_some h
  unfold cmdBuy
  rw [hscan]
  dsimp only
  rw [hk]
  dsimp only
  rw [safeSend_clients, setClient_clients, Function.update_self]
  exact ⟨rfl, rfl⟩

/-- **No share is dropped**: in every reachable state, the symbols of a portfolio are different and
are symbols of stocks; there is room for each known symbol that is not among them; and a `BUY` that
is accepted enters its shares. -/
theorem buy_never_drops (t : Table m) (s : Server m) (hs : (serverTrd t).Reachable s)
    (idx : Fin maxClients) :
    ((s.clients idx).portfolio.map Holding.symbol).Nodup ∧
    (∀ h ∈ (s.clients idx).portfolio, ∃ k, (s.stocks k).symbol = h.symbol) ∧
    (∀ sym k, findStock s sym = some k → findHolding (s.clients idx).portfolio sym = none →
      (s.clients idx).portfolio.length < maxStocks) ∧
    ∀ line sym qty, bought s idx line = some (sym, qty) →
      ∃ s', processLine s idx line = some (s', .traded) ∧
        (s'.clients idx).portfolio = withShares (s.clients idx).portfolio sym qty := by
  have hi := inv_reachable hs
  have hroom : ∀ sym k, findStock s sym = some k →
      findHolding (s.clients idx).portfolio sym = none →
        (s.clients idx).portfolio.length < maxStocks := fun sym k hk =>
    length_lt_maxStocks (hi.kept idx) (known_of_findStock hi hk)
  refine ⟨(hi.kept idx).nodup, fun h hh => ?_, hroom, fun line sym qty hbought => ?_⟩
  · obtain ⟨k, hk⟩ := (hi.kept idx).known h hh
    exact ⟨k, (hi.symbol_eq k).trans hk⟩
  · obtain ⟨-, -, k, hk⟩ := bought_eq_some hbought
    obtain ⟨htraded, hportfolio⟩ := cmdBuy_portfolio hbought
    refine ⟨(cmdBuy s idx (line.drop 4)).1, ?_, ?_⟩
    · rw [processLine_buy hbought, ← htraded]
    · rw [hportfolio, addHolding_eq_withShares (hroom sym k hk)]

/-- Two stocks with one symbol. -/
def twinStocks : Table 2 where
  stocks := fun _ => ⟨cstr "ACME", ⟨100.5, false⟩⟩
  pos := Nat.two_pos
  le_max := by decide
  valid := by decide
  price_pos := by decide +kernel

/-- After all shares are sold, the entry is gone, and there is room for it. -/
theorem buy_never_drops_smallBuys : ∃ s, (serverTrd twinStocks).Reachable s ∧
    bought s firstSlot (cstr "BUY ACME 5") = some (cstr "ACME", 5) ∧
      ∃ s', processLine s firstSlot (cstr "BUY ACME 5") = some (s', .traded) ∧
        (s'.clients firstSlot).portfolio = [⟨cstr "ACME", 5⟩] := by
  have h : ((serverTrd twinStocks).runs (initial twinStocks) smallBuys).map (fun s =>
      decide (bought s firstSlot (cstr "BUY ACME 5") = some (cstr "ACME", 5) ∧
        (s.clients firstSlot).portfolio = [])) = some true := by
    decide +kernel
  obtain ⟨s, hrun, hstate⟩ := Option.map_eq_some_iff.mp h
  obtain ⟨hbought, hempty⟩ := of_decide_eq_true hstate
  have hreach : (serverTrd twinStocks).Reachable s := Machine.runs_reachable hrun
  obtain ⟨-, -, -, hbuy⟩ := buy_never_drops twinStocks s hreach firstSlot
  obtain ⟨s', hprocess, hportfolio⟩ := hbuy _ _ _ hbought
  rw [hempty] at hportfolio
  exact ⟨s, hreach, hbought, s', hprocess, hportfolio⟩

end Cse344.Final
