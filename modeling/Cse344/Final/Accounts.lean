import Cse344.Final.Lines

/-!
# The accounts of the traders

What `BUY` and `SELL` of `process_line` (`Final/ServerTrd.c` 271-345) do to the portfolios over a
whole run of the server.

* `Accounts` is the law of the portfolios: for each connected trader, what the portfolio holds of a
  stock is what the trades of the session come to, with different symbols and positive quantities,
  and a `SELL` is accepted exactly when there is enough.
* The sum in `BUY` (line 287) is an `int` and is not checked. `BuyFits` says of a step, by the state
  before it, that it makes no sum above `INT_MAX`.
* `Inv` is what holds whatever the sums are: the symbols of the table stay as they were loaded, a
  portfolio has different ones of them, and no quantity is above `INT_MAX`.

Results:
* `length_lt_maxStocks`: by counting, a portfolio has room for a stock that is not in it.
* `sellAccepted_iff`: a `SELL` is accepted exactly when the portfolio holds enough.
* `accounts_step_iff`: a step from a state with right accounts leaves them right exactly if its
  `BUY` fits.
* **`accounts_iff`**: the accounts are right in every state of a run exactly if all its steps fit.

Out of scope: what becomes of an account after a sum that does not fit, beyond that it is not right.
-/

namespace Cse344.Final

open Cse344.Lib

variable {m : ℕ} {t : Table m} {s s' s₁ : Server m} {idx i : Fin maxClients} {line : CStr}
  {o : Outcome} {act : Act} {c c' : Client} {sym : CStr} {qty : ℤ}

/-! ## The law -/

/-- A connected `TRADER`. -/
structure Client.Trader (c : Client) : Prop where
  connected : 0 ≤ c.fd
  joined : c.joined = true
  type_eq : c.type = cstr "TRADER"

/-- `process_line` accepts a `SELL` and enters it into the history of the session. -/
def SellAccepted (s : Server m) (idx : Fin maxClients) (line sym : CStr) (qty : ℤ) : Prop :=
  ∃ s' o, processLine s idx line = some (s', o) ∧
    (s'.clients idx).trades = (s.clients idx).trades ++ [⟨sym, -qty⟩]

/-- The account of client `idx` is right. -/
structure Accounted (s : Server m) (idx : Fin maxClients) : Prop where
  holds : ∀ sym, held (s.clients idx).portfolio sym = balance (s.clients idx).trades sym
  nodup : ((s.clients idx).portfolio.map Holding.symbol).Nodup
  pos : Positive (s.clients idx).portfolio
  sells : ∀ line sym qty, (cstr "SELL ").isPrefixOf line →
    scanTrade (line.drop 5) = some (sym, qty) →
      (SellAccepted s idx line sym qty ↔ qty ≤ balance (s.clients idx).trades sym)

/-- The accounts of all connected traders are right. -/
def Accounts (s : Server m) : Prop := ∀ idx, (s.clients idx).Trader → Accounted s idx

/-- A `BUY` that `process_line` accepts makes no sum above `INT_MAX`. -/
def BuyFits (s : Server m) (act : Act) : Prop :=
  act = .line → ∀ idx line sym qty, s.reading = some idx →
    nextLine (s.clients idx).lineBuf = some line → bought s idx line = some (sym, qty) →
      held (s.clients idx).portfolio sym + qty ≤ intMax

/-! ## What every step keeps -/

/-- The symbols of a table. -/
def Table.Known (t : Table m) (sym : CStr) : Prop := ∃ k, (t.stocks k).symbol = sym

/-- What holds whatever is bought and sold. -/
structure Inv (t : Table m) (s : Server m) : Prop where
  symbol_eq : ∀ k, (s.stocks k).symbol = (t.stocks k).symbol
  kept : ∀ i, Kept t.Known (s.clients i).portfolio
  fresh : ∀ i, 0 ≤ (s.clients i).fd → (s.clients i).joined = false →
    (s.clients i).portfolio = [] ∧ (s.clients i).trades = []
  connected : ReadsConnected s

theorem findStock_symbol {k : Fin m} (hk : findStock s sym = some k) :
    (s.stocks k).symbol = sym := by
  have := List.find?_some hk
  simpa using this

theorem known_of_findStock (hi : Inv t s) {k : Fin m} (hk : findStock s sym = some k) :
    t.Known sym := ⟨k, (hi.symbol_eq k).symm.trans (findStock_symbol hk)⟩

theorem not_known_of_findStock (hi : Inv t s) (hk : findStock s sym = none) : ¬ t.Known sym := by
  rintro ⟨k, rfl⟩
  have := List.find?_eq_none.mp hk k (List.mem_finRange k)
  exact this (by simpa using hi.symbol_eq k)

/-- **There is room** for a stock the portfolio does not have. -/
theorem length_lt_maxStocks {portfolio : List Holding} (hk : Kept t.Known portfolio)
    (hknown : t.Known sym) (hnone : findHolding portfolio sym = none) :
    portfolio.length < maxStocks := by
  have hnodup : (sym :: portfolio.map Holding.symbol).Nodup := by
    refine List.nodup_cons.mpr ⟨fun hmem => ?_, hk.nodup⟩
    obtain ⟨h, hh, hsym⟩ := List.mem_map.mp hmem
    exact findHolding_eq_none hnone h hh hsym
  have hsub : (sym :: portfolio.map Holding.symbol) ⊆ List.ofFn fun k => (t.stocks k).symbol := by
    refine List.cons_subset.mpr ⟨List.mem_ofFn.mpr hknown, fun a ha => ?_⟩
    obtain ⟨h, hh, rfl⟩ := List.mem_map.mp ha
    exact List.mem_ofFn.mpr (hk.known h hh)
  have hlen := (List.subperm_of_subset hnodup hsub).length_le
  rw [List.length_cons, List.length_map, List.length_ofFn] at hlen
  exact lt_of_lt_of_le hlen t.le_max

/-- The rest of a step keeps what `process_line` keeps. -/
theorem Inv.carries (hi : Inv t s) (hc : s.Carries s') (hr : ReadsConnected s') : Inv t s' where
  symbol_eq := fun k => by rw [hc.stocks_eq, hi.symbol_eq]
  kept := fun i => (hc.clients i).portfolio_eq ▸ hi.kept i
  fresh := fun i hfd hjoined => by
    obtain ⟨hfd', hj, -, -⟩ := (hc.clients i).connected hfd
    rw [(hc.clients i).portfolio_eq, (hc.clients i).trades_eq]
    exact hi.fresh i hfd' (hj.symm.trans hjoined)
  connected := hr

/-- One client changes, and no descriptor. -/
theorem Inv.update (hi : Inv t s) {c : Client}
    (hsymbol : ∀ k, (s'.stocks k).symbol = (s.stocks k).symbol)
    (hclients : s'.clients = Function.update s.clients idx c) (hreading : s'.reading = s.reading)
    (hfd : c.fd = (s.clients idx).fd) (hkept : Kept t.Known c.portfolio)
    (hfresh : 0 ≤ c.fd → c.joined = false → c.portfolio = [] ∧ c.trades = []) : Inv t s' where
  symbol_eq := fun k => (hsymbol k).trans (hi.symbol_eq k)
  kept := by
    rw [hclients]
    exact (Function.forall_update_iff s.clients fun _ c => Kept t.Known c.portfolio).mpr
      ⟨hkept, fun i _ => hi.kept i⟩
  fresh := by
    rw [hclients]
    exact (Function.forall_update_iff s.clients fun _ c =>
      0 ≤ c.fd → c.joined = false → c.portfolio = [] ∧ c.trades = []).mpr
        ⟨hfresh, fun i _ => hi.fresh i⟩
  connected := by
    rw [ReadsConnected, hclients, hreading]
    exact (Function.forall_update_iff s.clients fun i c => s.reading = some i → 0 ≤ c.fd).mpr
      ⟨fun hr => hfd ▸ hi.connected idx hr, fun i _ hr => hi.connected i hr⟩

theorem setPrice_symbol (s : Server m) (k : Fin m) (price : CFloat) (k' : Fin m) :
    ((s.setPrice k price).stocks k').symbol = (s.stocks k').symbol := by
  by_cases h : k' = k
  · subst h
    simp [Server.setPrice]
  · simp [Server.setPrice, h]

theorem inv_effect (hi : Inv t s) (hr : s.reading = some idx) (he : Effect s idx line s' o) :
    Inv t s' := by
  have hfd : 0 ≤ (s.clients idx).fd := hi.connected idx hr
  cases he with
  | reply text o hb ho => exact ⟨hi.symbol_eq, hi.kept, hi.fresh, hi.connected⟩
  | join uname typeStr text hb hjoined huname htype =>
    exact hi.update (fun _ => rfl) rfl rfl rfl (hi.kept idx) fun _ hno => by cases hno
  | buy sym qty k price text hb hqty hk =>
    refine hi.update (fun k' => setPrice_symbol s k price k') rfl rfl rfl
      (addHolding_kept (hi.kept idx) (known_of_findStock hi hk) hqty.2) fun _ hno => ?_
    have hjoined : (s.clients idx).joined = true := by
      unfold bought at hb
      split_ifs at hb with hcond
      exact hcond.1
    exact absurd (hjoined.symm.trans hno) (by decide)
  | sell sym qty k price text j hb hqty hj hle =>
    refine hi.update (fun k' => setPrice_symbol s k price k') rfl rfl rfl
      (subHolding_kept (hi.kept idx) j qty) fun _ hno => ?_
    have hlen := congrArg List.length (hi.fresh idx hfd hno).1
    exact absurd (lt_of_lt_of_eq j.isLt hlen) (Nat.not_lt_zero _)

theorem effect_frame (he : Effect s idx line s' o) : s'.reading = s.reading ∧
    (s'.clients idx).fd = (s.clients idx).fd ∧ ∀ i, i ≠ idx → s'.clients i = s.clients i := by
  cases he with
  | reply => exact ⟨rfl, rfl, fun _ _ => rfl⟩
  | join => exact ⟨rfl, by simp, fun i hi => by simp [hi]⟩
  | buy => exact ⟨rfl, by simp, fun i hi => by simp [hi]⟩
  | sell => exact ⟨rfl, by simp, fun i hi => by simp [hi]⟩

theorem inv_init : Inv t (initial t) where
  symbol_eq := fun _ => rfl
  kept := fun _ => .nil
  fresh := fun _ _ _ => ⟨rfl, rfl⟩
  connected := fun _ hr => by cases hr

/-- A new client has an empty account. -/
theorem inv_accept (hi : Inv t s) (fd : ℕ) (i : Fin maxClients) (hr : s.reading = none) :
    Inv t (s.setClient i { Client.empty with fd := fd }) where
  symbol_eq := hi.symbol_eq
  kept := (Function.forall_update_iff s.clients fun _ c => Kept t.Known c.portfolio).mpr
    ⟨.nil, fun j _ => hi.kept j⟩
  fresh := (Function.forall_update_iff s.clients fun _ c =>
    0 ≤ c.fd → c.joined = false → c.portfolio = [] ∧ c.trades = []).mpr
      ⟨fun _ _ => ⟨rfl, rfl⟩, fun j _ => hi.fresh j⟩
  connected := fun j hj => by
    rw [show (s.setClient i _).reading = s.reading from rfl, hr] at hj
    cases hj

theorem inv_step (hi : Inv t s) (hs : serverStep s act = some s') : Inv t s' := by
  rcases serverStep_cases hs with ⟨hcarries, -, hconn⟩ | ⟨fd, i, rfl, rfl, hr⟩ |
    ⟨idx, line, s₁, o, rfl, hr, -, hprocess, hcarries, hreading⟩
  · exact hi.carries hcarries (hconn hi.connected)
  · exact inv_accept hi fd i hr
  · have hi₁ : Inv t s₁ := inv_effect hi hr (processLine_effect hprocess)
    refine hi₁.carries hcarries fun i hri => ?_
    rcases hreading with ⟨-, hnone⟩ | ⟨-, hsame, hfd⟩
    · rw [hnone] at hri
      cases hri
    · rw [hfd]
      exact hi₁.connected i (hsame.symm.trans hri)

theorem inv_reachable (h : (serverTrd t).Reachable s) : Inv t s :=
  h.induct inv_init fun _ _ _ hi hs => inv_step hi hs

/-! ## `SELL` -/

/-- A line of a trader that asks to sell. -/
theorem processLine_sell (htrader : (s.clients idx).Trader)
    (hsell : (cstr "SELL ").isPrefixOf line) :
    processLine s idx line = some (cmdSell s idx (line.drop 5)) := by
  have hjoin : ¬ (cstr "JOIN ").isPrefixOf line := fun hjoin =>
    absurd (prefix_unique hjoin hsell (by decide)) (by decide)
  have hbuy : ¬ (cstr "BUY ").isPrefixOf line := fun hbuy =>
    absurd (prefix_unique hbuy hsell (by decide)) (by decide)
  have hquit : line ≠ cstr "QUIT" := by
    rintro rfl
    exact absurd hsell (by decide)
  have hanalyst : ¬ (s.clients idx).type = cstr "ANALYST" := by
    rw [htrader.type_eq]
    decide
  unfold processLine traderLine
  dsimp only
  rw [if_neg hjoin, if_neg (by simp [htrader.joined]), if_neg hquit, if_neg hanalyst,
    if_pos htrader.type_eq, if_neg hbuy, if_pos hsell]

/-- **A `SELL` is accepted exactly when there is enough.** -/
theorem sellAccepted_iff (hi : Inv t s) (htrader : (s.clients idx).Trader)
    (hsell : (cstr "SELL ").isPrefixOf line) (hscan : scanTrade (line.drop 5) = some (sym, qty)) :
    SellAccepted s idx line sym qty ↔ qty ≤ held (s.clients idx).portfolio sym := by
  have hqty : 0 < qty := (scanTrade_range hscan).1
  have hprocess := processLine_sell htrader hsell
  -- a refusal leaves the history as it is
  have hrefused : ∀ text, cmdSell s idx (line.drop 5) = (s.safeSend idx text, .stay) →
      ¬ SellAccepted s idx line sym qty := by
    rintro text hcmd ⟨s', o, hs', htrades⟩
    rw [hprocess, hcmd] at hs'
    obtain ⟨rfl, -⟩ := Prod.mk.inj (Option.some.inj hs')
    have hlen := congrArg List.length htrades
    simp at hlen
  unfold cmdSell at hrefused
  rw [hscan] at hrefused
  dsimp only at hrefused
  cases hk : findStock s sym with
  | none =>
    rw [hk] at hrefused
    have hzero : held (s.clients idx).portfolio sym = 0 := keySum_eq_zero fun h hh heq =>
      not_known_of_findStock hi hk (heq ▸ (hi.kept idx).known h hh)
    exact iff_of_false (hrefused _ rfl) (by omega)
  | some k =>
    rw [hk] at hrefused
    dsimp only at hrefused
    cases hj : findHolding (s.clients idx).portfolio sym with
    | none =>
      rw [hj] at hrefused
      exact iff_of_false (hrefused _ rfl) (by rw [held_of_none hj]; omega)
    | some j =>
      rw [hj] at hrefused
      dsimp only at hrefused
      rw [held_of_find (hi.kept idx) hj]
      by_cases hlt : ((s.clients idx).portfolio.get j).qty < qty
      · rw [if_pos hlt] at hrefused
        exact iff_of_false (hrefused _ rfl) (not_le.mpr hlt)
      · refine iff_of_true ?_ (not_lt.mp hlt)
        have hcmd : (((cmdSell s idx (line.drop 5)).1).clients idx).trades =
            (s.clients idx).trades ++ [⟨sym, -qty⟩] := by
          unfold cmdSell
          rw [hscan]
          dsimp only
          rw [hk]
          dsimp only
          rw [hj]
          dsimp only
          rw [if_neg hlt]
          simp
        exact ⟨_, _, hprocess, hcmd⟩

/-! ## The law, client by client -/

/-- The part of the law that speaks of the account alone. -/
structure Client.Sound (c : Client) : Prop where
  holds : ∀ sym, held c.portfolio sym = balance c.trades sym
  pos : Positive c.portfolio

theorem accounts_iff_sound (hi : Inv t s) :
    Accounts s ↔ ∀ idx, (s.clients idx).Trader → (s.clients idx).Sound := by
  constructor
  · intro h idx htrader
    exact ⟨(h idx htrader).holds, (h idx htrader).pos⟩
  · intro h idx htrader
    refine ⟨(h idx htrader).holds, (hi.kept idx).nodup, (h idx htrader).pos, ?_⟩
    intro line sym qty hsell hscan
    rw [← (h idx htrader).holds]
    exact sellAccepted_iff hi htrader hsell hscan

theorem sound_nil (hp : c.portfolio = []) (ht : c.trades = []) : c.Sound :=
  ⟨fun sym => by rw [hp, ht]; rfl, by rw [hp]; exact fun h hh => by cases hh⟩

theorem balance_concat (trades : List Trade) (sym : CStr) (qty : ℤ) (a : CStr) :
    balance (trades ++ [⟨sym, qty⟩]) a = balance trades a + if sym = a then qty else 0 :=
  keySum_concat _ _ _

/-- **`BUY` keeps an account right exactly if the sum fits.** -/
theorem sound_buy (c' : Client) (hk : Kept t.Known c.portfolio) (hc : c.Sound)
    (hknown : t.Known sym) (hqty : 0 < qty ∧ qty ≤ intMax)
    (hp : c'.portfolio = addHolding c.portfolio sym qty)
    (ht : c'.trades = c.trades ++ [⟨sym, qty⟩]) :
    c'.Sound ↔ held c.portfolio sym + qty ≤ intMax := by
  constructor
  · intro hc'
    by_contra hwraps
    exact addHolding_wraps hk hqty.2 (not_le.mp hwraps) (hp ▸ hc'.pos)
  · intro hfits
    obtain ⟨hpos, hheld⟩ := addHolding_fits hk hc.pos hqty.1 (length_lt_maxStocks hk hknown) hfits
    refine ⟨fun a => ?_, hp ▸ hpos⟩
    rw [hp, ht, hheld, hc.holds, balance_concat]

theorem sound_sell (hk : Kept t.Known c.portfolio) (hc : c.Sound)
    {i : Fin c.portfolio.length} (hi : findHolding c.portfolio sym = some i) (hqty : 0 < qty)
    (hle : qty ≤ (c.portfolio.get i).qty) (hp : c'.portfolio = subHolding c.portfolio i qty)
    (ht : c'.trades = c.trades ++ [⟨sym, -qty⟩]) : c'.Sound := by
  obtain ⟨hpos, hheld⟩ := subHolding_spec hk hc.pos i hqty hle
  refine ⟨fun a => ?_, hp ▸ hpos⟩
  rw [hp, ht, hheld, findHolding_eq_some hi, hc.holds, balance_concat]

theorem Client.Carries.trader (hc : c.Carries c') (h : c'.Trader) : c.Trader := by
  obtain ⟨hfd, hjoined, htype, -⟩ := hc.connected h.connected
  exact ⟨hfd, hjoined.symm.trans h.joined, htype.symm.trans h.type_eq⟩

theorem Client.Carries.sound (hc : c.Carries c') (h : c.Sound) : c'.Sound := by
  refine ⟨fun sym => ?_, hc.portfolio_eq ▸ h.pos⟩
  rw [hc.portfolio_eq, hc.trades_eq]
  exact h.holds sym

theorem Client.Carries.trader_of (hc : c.Carries c') (h : c.Trader) (hfd : c'.fd = c.fd) :
    c'.Trader := by
  have hconn : 0 ≤ c'.fd := hfd ▸ h.connected
  obtain ⟨-, hjoined, htype, -⟩ := hc.connected hconn
  exact ⟨hconn, hjoined.trans h.joined, htype.trans h.type_eq⟩

theorem Client.Carries.sound_of (hc : c.Carries c') (h : c'.Sound) : c.Sound := by
  refine ⟨fun sym => ?_, hc.portfolio_eq ▸ h.pos⟩
  rw [← hc.portfolio_eq, ← hc.trades_eq]
  exact h.holds sym

/-- What a line does to the accounts. -/
theorem effect_sound_iff (hi : Inv t s) (hr : s.reading = some idx)
    (hs : ∀ i, (s.clients i).Trader → (s.clients i).Sound) (he : Effect s idx line s₁ o) :
    ((s₁.clients idx).Trader → (s₁.clients idx).Sound) ↔
      ∀ sym qty, bought s idx line = some (sym, qty) →
        held (s.clients idx).portfolio sym + qty ≤ intMax := by
  have hfd : 0 ≤ (s.clients idx).fd := hi.connected idx hr
  cases he with
  | reply text o hb ho =>
    exact iff_of_true (hs idx) fun sym qty hsome => by rw [hb] at hsome; cases hsome
  | join uname typeStr text hb hjoined huname htype =>
    obtain ⟨hp, ht⟩ := hi.fresh idx hfd hjoined
    refine iff_of_true (fun _ => sound_nil (by simpa using hp) (by simpa using ht)) ?_
    exact fun sym qty hsome => by rw [hb] at hsome; cases hsome
  | buy sym qty k price text hb hqty hk =>
    have htrader : (s.clients idx).Trader := by
      unfold bought at hb
      split_ifs at hb with hcond
      exact ⟨hfd, hcond.1, hcond.2.1⟩
    have hbuy := sound_buy
      { s.clients idx with
        portfolio := addHolding (s.clients idx).portfolio sym qty
        trades := (s.clients idx).trades ++ [⟨sym, qty⟩] }
      (hi.kept idx) (hs idx htrader) (known_of_findStock hi hk) hqty rfl rfl
    rw [safeSend_clients, setClient_clients, Function.update_self]
    constructor
    · intro hsound sym' qty' hsome
      obtain ⟨rfl, rfl⟩ := Prod.mk.inj (Option.some.inj (hb.symm.trans hsome))
      exact hbuy.mp (hsound ⟨htrader.connected, htrader.joined, htrader.type_eq⟩)
    · intro hfits _
      exact hbuy.mpr (hfits sym qty hb)
  | sell sym qty k price text j hb hqty hj hle =>
    refine iff_of_true ?_ fun sym qty hsome => by rw [hb] at hsome; cases hsome
    rw [safeSend_clients, setClient_clients, Function.update_self]
    intro htrader
    have hbefore : (s.clients idx).Trader := ⟨hfd, htrader.joined, htrader.type_eq⟩
    exact sound_sell (hi.kept idx) (hs idx hbefore) hj hqty.1 hle rfl rfl

/-- **A step keeps the law exactly if its `BUY` fits.** -/
theorem accounts_step_iff (hi : Inv t s) (ha : Accounts s) (hs : serverStep s act = some s') :
    Accounts s' ↔ BuyFits s act := by
  have hi' := inv_step hi hs
  rw [accounts_iff_sound hi] at ha
  rw [accounts_iff_sound hi']
  rcases serverStep_cases hs with ⟨hcarries, hnone, -⟩ | ⟨fd, i, rfl, rfl, -⟩ |
    ⟨idx, line, s₁, o, rfl, hr, hline, hprocess, hcarries, hreading⟩
  · refine iff_of_true (fun i htrader => ?_) fun hact idx line sym qty hr hline => ?_
    · exact (hcarries.clients i).sound (ha i ((hcarries.clients i).trader htrader))
    · rw [hnone hact idx hr] at hline
      cases hline
  · refine iff_of_true ?_ fun hact => by cases hact
    exact (Function.forall_update_iff s.clients fun _ c => c.Trader → c.Sound).mpr
      ⟨fun _ => sound_nil rfl rfl, fun j _ => ha j⟩
  · have heffect := processLine_effect hprocess
    have hiff := effect_sound_iff hi hr ha heffect
    obtain ⟨hreads, hfd, hother⟩ := effect_frame heffect
    constructor
    · rintro hsound - idx' line' sym qty hr' hline' hbought
      obtain rfl := Option.some.inj (hr.symm.trans hr')
      obtain rfl := Option.some.inj (hline.symm.trans hline')
      rcases hreading with ⟨rfl, -⟩ | ⟨-, -, hsame⟩
      · cases heffect with
        | reply text o hb ho =>
          rw [hb] at hbought
          cases hbought
      · refine hiff.mp (fun htrader => ?_) sym qty hbought
        exact (hcarries.clients idx).sound_of
          (hsound idx ((hcarries.clients idx).trader_of htrader (hsame idx)))
    · intro hfits i htrader
      refine (hcarries.clients i).sound ?_
      have htrader₁ := (hcarries.clients i).trader htrader
      by_cases hidx : i = idx
      · subst hidx
        exact hiff.mpr (fun sym qty => hfits rfl i line sym qty hr hline) htrader₁
      · rw [hother i hidx] at htrader₁ ⊢
        exact ha i htrader₁

theorem accounts_init : Accounts (initial t) := fun idx htrader =>
  absurd htrader.connected (by simp [initial, Client.empty])

/-- **The portfolios of a run are right exactly if no `BUY` of it makes a sum above `INT_MAX`.** -/
theorem accounts_iff (t : Table m) (as : List Act) (s : Server m)
    (h : (serverTrd t).runs (initial t) as = some s) :
    (serverTrd t).AllStates Accounts (initial t) as ↔
      (serverTrd t).AllSteps BuyFits (initial t) as :=
  Machine.allStates_iff (J := Inv t) (fun _ _ _ hi hs => inv_step hi hs)
    (fun _ _ _ hi ha hs => accounts_step_iff hi ha hs) inv_init accounts_init h

/-- One stock. -/
def oneStock : Table 1 where
  stocks := fun _ => ⟨cstr "ACME", ⟨100.5, false⟩⟩
  pos := Nat.one_pos
  le_max := by decide
  valid := by decide
  price_pos := by decide +kernel

/-- The slot of the first client. -/
def firstSlot : Fin maxClients := ⟨0, Nat.zero_lt_succ 9⟩

/-- Two buys whose sum is an `int`, and a sale of all. -/
def smallBuys : List Act :=
  [.accept 4,
    .input firstSlot (.data (cstr "JOIN TRADER ann\nBUY ACME 3\nBUY ACME 4\nSELL ACME 7\n")),
    .line, .line, .line, .line, .line]

theorem accounts_smallBuys :
    ∃ s, (serverTrd oneStock).runs (initial oneStock) smallBuys = some s ∧
      (s.clients firstSlot).trades = [⟨cstr "ACME", 3⟩, ⟨cstr "ACME", 4⟩, ⟨cstr "ACME", -7⟩] ∧
      ((serverTrd oneStock).AllStates Accounts (initial oneStock) smallBuys ↔
        (serverTrd oneStock).AllSteps BuyFits (initial oneStock) smallBuys) := by
  have h : ((serverTrd oneStock).runs (initial oneStock) smallBuys).map (fun s =>
      (s.clients firstSlot).trades) =
        some [⟨cstr "ACME", 3⟩, ⟨cstr "ACME", 4⟩, ⟨cstr "ACME", -7⟩] := by
    decide +kernel
  obtain ⟨s, hrun, htrades⟩ := Option.map_eq_some_iff.mp h
  exact ⟨s, hrun, htrades, accounts_iff oneStock smallBuys s hrun⟩

/-- Two buys whose sum is none. -/
def largeBuys : List Act :=
  [.accept 4, .input firstSlot (.data (cstr "JOIN TRADER ann\nBUY ACME 2147483647\nBUY ACME 1\n")),
    .line, .line, .line]

/-- After them the portfolio holds -2147483648 shares. -/
theorem not_accounts_largeBuys :
    ∃ s, (serverTrd oneStock).runs (initial oneStock) largeBuys = some s ∧
      (s.clients firstSlot).portfolio = [⟨cstr "ACME", -2147483648⟩] ∧
      ¬ (serverTrd oneStock).AllStates Accounts (initial oneStock) largeBuys := by
  have h : ((serverTrd oneStock).runs (initial oneStock) largeBuys).map (fun s =>
      ((s.clients firstSlot).portfolio, (s.clients firstSlot).fd, (s.clients firstSlot).joined,
        (s.clients firstSlot).type)) =
        some ([⟨cstr "ACME", -2147483648⟩], 4, true, cstr "TRADER") := by
    decide +kernel
  obtain ⟨s, hrun, hclient⟩ := Option.map_eq_some_iff.mp h
  obtain ⟨hportfolio, hclient⟩ := Prod.mk.inj hclient
  obtain ⟨hfd, hclient⟩ := Prod.mk.inj hclient
  obtain ⟨hjoined, htype⟩ := Prod.mk.inj hclient
  refine ⟨s, hrun, hportfolio, fun hall => ?_⟩
  have hpos := ((hall.last hrun) firstSlot ⟨by rw [hfd]; decide, hjoined, htype⟩).pos
  rw [hportfolio] at hpos
  exact absurd (hpos _ List.mem_cons_self) (by decide)

end Cse344.Final
