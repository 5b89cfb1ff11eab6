import Cse344.Final.Portfolio
import Mathlib.Data.List.Infix

/-!
# What a line does to the server of the final

The effects of `process_line` (`Final/ServerTrd.c` 182-378) on what is kept of the clients, and of a
step of the server. Later modules read their invariants from these two lists of cases and open no
command.

* `Effect` is what a line does: a reply, a `JOIN`, a `BUY` or a `SELL`, with the state after it.
  `bought` is the purchase of an accepted `BUY`.
* `Carries` says that a step leaves an account alone: the stocks stay, and a client keeps
  descriptor, type, portfolio and trades, or is disconnected.
* `nextLine` is the line that a round of the loop of `client_read` (400-440) gives `process_line`.

Results:
* **`processLine_effect`**: `process_line` only replies, or lets a client join, or makes a trade.
* **`serverStep_cases`**: a step changes no account, or gives a slot to a new client, or handles a
  line.

Out of scope: the replies themselves; their texts are in `Cse344.Final.Replies`.
-/

namespace Cse344.Final

open Cse344.Lib

variable {m : ℕ} {s s' s₁ : Server m} {idx i : Fin maxClients} {line : CStr} {o : Outcome}
  {act : Act}

/-! ## Lines -/

/-- Two prefixes of one line. -/
theorem prefix_unique {a b : CStr} (ha : a.isPrefixOf line) (hb : b.isPrefixOf line)
    (hab : ¬ a <+: b) : b <+: a :=
  (List.prefix_or_prefix_of_prefix (List.isPrefixOf_iff_prefix.mp ha)
    (List.isPrefixOf_iff_prefix.mp hb)).resolve_left hab

/-- The trade that `BUY` makes of a line: the code's checks. -/
def bought (s : Server m) (idx : Fin maxClients) (line : CStr) : Option (CStr × ℤ) :=
  if (s.clients idx).joined = true ∧ (s.clients idx).type = cstr "TRADER" ∧
      (cstr "BUY ").isPrefixOf line then
    match scanTrade (line.drop 4) with
    | none => none
    | some (sym, qty) => (findStock s sym).map fun _ => (sym, qty)
  else none

theorem bought_eq_none (h : ¬ (cstr "BUY ").isPrefixOf line) : bought s idx line = none :=
  if_neg fun hb => h hb.2.2

/-- What `process_line` may do. -/
inductive Effect (s : Server m) (idx : Fin maxClients) (line : CStr) : Server m → Outcome → Prop
  | reply (text : CStr) (o : Outcome) (hb : bought s idx line = none) (ho : o ≠ .traded) :
    Effect s idx line (s.safeSend idx text) o
  | join (uname typeStr text : CStr) (hb : bought s idx line = none)
      (hjoined : (s.clients idx).joined = false)
      (huname : uname.length ≤ 31 ∧ ∀ b ∈ uname, isspace b = false ∧ b ∈ line)
      (htype : typeStr = cstr "TRADER" ∨ typeStr = cstr "ANALYST") :
    Effect s idx line
      ((s.setClient idx
        { s.clients idx with username := uname, type := typeStr, joined := true }).safeSend idx
          text)
      .stay
  | buy (sym : CStr) (qty : ℤ) (k : Fin m) (price : CFloat) (text : CStr)
      (hb : bought s idx line = some (sym, qty)) (hqty : 0 < qty ∧ qty ≤ intMax)
      (hk : findStock s sym = some k) :
    Effect s idx line
      (((s.setPrice k price).setClient idx { s.clients idx with
        portfolio := addHolding (s.clients idx).portfolio sym qty
        trades := (s.clients idx).trades ++ [⟨sym, qty⟩] }).safeSend idx text)
      .traded
  | sell (sym : CStr) (qty : ℤ) (k : Fin m) (price : CFloat) (text : CStr)
      (i : Fin (s.clients idx).portfolio.length) (hb : bought s idx line = none)
      (hqty : 0 < qty ∧ qty ≤ intMax)
      (hi : findHolding (s.clients idx).portfolio sym = some i)
      (hle : qty ≤ ((s.clients idx).portfolio.get i).qty) :
    Effect s idx line
      (((s.setPrice k price).setClient idx { s.clients idx with
        portfolio := subHolding (s.clients idx).portfolio i qty
        trades := (s.clients idx).trades ++ [⟨sym, -qty⟩] }).safeSend idx text)
      .traded

theorem Effect.stay (text : CStr) (hb : bought s idx line = none) :
    Effect s idx line (s.safeSend idx text) .stay :=
  .reply text .stay hb (by decide)

theorem cmdJoin_effect (hb : bought s idx line = none) :
    Effect s idx line (cmdJoin s idx (line.drop 5)) .stay := by
  unfold cmdJoin
  dsimp only
  split_ifs with hjoined
  · exact .stay _ hb
  · split
    · exact .stay _ hb
    · rename_i htypeStr
      obtain ⟨-, -, hrest⟩ := scanString_spec htypeStr
      split
      · exact .stay _ hb
      · rename_i huname
        obtain ⟨hlen, hmem, -⟩ := scanString_spec huname
        split_ifs with htype
        · exact .stay _ hb
        · exact .stay _ hb
        · refine .join _ _ _ hb (by simpa using hjoined) ⟨hlen, fun b hb => ?_⟩ ?_
          · exact ⟨(hmem b hb).1, List.mem_of_mem_drop (hrest b (hmem b hb).2)⟩
          · rwa [not_and_or, not_not, not_not] at htype

theorem cmdPrice_effect (hb : bought s idx line = none) (args : CStr) :
    Effect s idx line (cmdPrice s idx args) .stay := by
  unfold cmdPrice
  split
  · exact .stay _ hb
  · split
    · exact .stay _ hb
    · exact .stay _ hb

/-- A text that is built is sent. -/
theorem built_effect (hb : bought s idx line = none) {text : Option CStr}
    (h : (text.map (s.safeSend idx)).map (·, Outcome.stay) = some (s', o)) :
    Effect s idx line s' o := by
  rw [Option.map_map, Option.map_eq_some_iff] at h
  obtain ⟨text, -, heq⟩ := h
  obtain ⟨rfl, rfl⟩ := Prod.mk.inj heq
  exact .stay _ hb

theorem cmdPortfolio_effect (hb : bought s idx line = none)
    (h : (cmdPortfolio s idx).map (·, Outcome.stay) = some (s', o)) : Effect s idx line s' o := by
  unfold cmdPortfolio at h
  split at h
  · obtain ⟨rfl, rfl⟩ := Prod.mk.inj (Option.some.inj h)
    exact .stay _ hb
  · exact built_effect hb h

theorem cmdBuy_effect (hjoined : (s.clients idx).joined = true)
    (htype : (s.clients idx).type = cstr "TRADER") (hbuy : (cstr "BUY ").isPrefixOf line) :
    Effect s idx line (cmdBuy s idx (line.drop 4)).1 (cmdBuy s idx (line.drop 4)).2 := by
  have hbought : bought s idx line =
      match scanTrade (line.drop 4) with
      | none => none
      | some (sym, qty) => (findStock s sym).map fun _ => (sym, qty) :=
    if_pos ⟨hjoined, htype, hbuy⟩
  unfold cmdBuy
  split
  · rename_i hscan
    rw [hscan] at hbought
    exact .stay _ hbought
  · rename_i sym qty hscan
    rw [hscan] at hbought
    dsimp only at hbought
    split
    · rename_i hk
      rw [hk] at hbought
      exact .stay _ hbought
    · rename_i k hk
      rw [hk] at hbought
      exact .buy sym qty k _ _ hbought (scanTrade_range hscan) hk

theorem cmdSell_effect (hb : bought s idx line = none) (args : CStr) :
    Effect s idx line (cmdSell s idx args).1 (cmdSell s idx args).2 := by
  unfold cmdSell
  split
  · exact .stay _ hb
  · rename_i sym qty hscan
    split
    · exact .stay _ hb
    · rename_i k _
      dsimp only
      split
      · exact .stay _ hb
      · rename_i j hj
        split_ifs with hlt
        · exact .stay _ hb
        · exact .sell sym qty k _ _ j hb (scanTrade_range hscan) hj (not_lt.mp hlt)

/-- **What `process_line` does.** -/
theorem processLine_effect (h : processLine s idx line = some (s', o)) :
    Effect s idx line s' o := by
  unfold processLine at h
  dsimp only at h
  split_ifs at h with hjoin hjoined hquit hanalyst htrader
  · obtain ⟨rfl, rfl⟩ := Prod.mk.inj (Option.some.inj h)
    exact cmdJoin_effect (bought_eq_none fun hbuy =>
      absurd (prefix_unique hjoin hbuy (by decide)) (by decide))
  · obtain ⟨rfl, rfl⟩ := Prod.mk.inj (Option.some.inj h)
    exact .reply _ _ (if_neg (by simp [hjoined])) (by decide)
  · obtain ⟨rfl, rfl⟩ := Prod.mk.inj (Option.some.inj h)
    exact .reply _ _ (bought_eq_none (by rw [hquit]; decide)) (by decide)
  · have hb : bought s idx line = none :=
      if_neg fun hb => absurd (hanalyst.symm.trans hb.2.1) (by decide)
    unfold analystLine at h
    split_ifs at h
    · obtain ⟨rfl, rfl⟩ := Prod.mk.inj (Option.some.inj h)
      exact cmdPrice_effect hb _
    · exact built_effect hb h
    · exact built_effect hb h
    · obtain ⟨rfl, rfl⟩ := Prod.mk.inj (Option.some.inj h)
      exact .stay _ hb
    · obtain ⟨rfl, rfl⟩ := Prod.mk.inj (Option.some.inj h)
      exact .stay _ hb
  · have hjoined : (s.clients idx).joined = true := by simpa using hjoined
    unfold traderLine at h
    by_cases hbuy : (cstr "BUY ").isPrefixOf line
    · rw [if_pos hbuy] at h
      have heffect := cmdBuy_effect hjoined htrader hbuy
      rwa [Option.some.inj h] at heffect
    · have hb : bought s idx line = none := bought_eq_none hbuy
      rw [if_neg hbuy] at h
      split_ifs at h
      · have heffect := cmdSell_effect hb (line.drop 5)
        rwa [Option.some.inj h] at heffect
      · exact cmdPortfolio_effect hb h
      · obtain ⟨rfl, rfl⟩ := Prod.mk.inj (Option.some.inj h)
        exact .stay _ hb
      · obtain ⟨rfl, rfl⟩ := Prod.mk.inj (Option.some.inj h)
        exact .stay _ hb
  · obtain ⟨rfl, rfl⟩ := Prod.mk.inj (Option.some.inj h)
    exact .reply _ _ (if_neg fun hb => htrader hb.2.1) (by decide)

/-! ## Steps -/

/-- A client keeps its account, and what it is while it is connected. -/
structure Client.Carries (c c' : Client) : Prop where
  portfolio_eq : c'.portfolio = c.portfolio
  trades_eq : c'.trades = c.trades
  connected : 0 ≤ c'.fd → 0 ≤ c.fd ∧ c'.joined = c.joined ∧ c'.type = c.type ∧
    c'.username = c.username

theorem Client.Carries.refl (c : Client) : c.Carries c :=
  ⟨rfl, rfl, fun h => ⟨h, rfl, rfl, rfl⟩⟩

theorem Client.Carries.trans {c c' c'' : Client} (h : c.Carries c') (h' : c'.Carries c'') :
    c.Carries c'' where
  portfolio_eq := h'.portfolio_eq.trans h.portfolio_eq
  trades_eq := h'.trades_eq.trans h.trades_eq
  connected := fun hfd => by
    obtain ⟨hfd', hj', ht', hu'⟩ := h'.connected hfd
    obtain ⟨hfd, hj, ht, hu⟩ := h.connected hfd'
    exact ⟨hfd, hj'.trans hj, ht'.trans ht, hu'.trans hu⟩

/-- No account changes, and nobody joins or connects. -/
structure Server.Carries (s s' : Server m) : Prop where
  stocks_eq : s'.stocks = s.stocks
  clients : ∀ i, (s.clients i).Carries (s'.clients i)

theorem Server.Carries.refl (s : Server m) : s.Carries s := ⟨rfl, fun _ => .refl _⟩

theorem Server.Carries.trans (h : s.Carries s₁) (h' : s₁.Carries s') : s.Carries s' :=
  ⟨h'.stocks_eq.trans h.stocks_eq, fun i => (h.clients i).trans (h'.clients i)⟩

/-- Only one client changes. -/
theorem Server.Carries.update {c : Client} (hstocks : s'.stocks = s.stocks)
    (hclients : s'.clients = Function.update s.clients idx c) (h : (s.clients idx).Carries c) :
    s.Carries s' where
  stocks_eq := hstocks
  clients := by
    rw [hclients]
    exact (Function.forall_update_iff s.clients fun i c => (s.clients i).Carries c).mpr
      ⟨h, fun _ _ => .refl _⟩

theorem Client.carries_lineBuf (c : Client) (buf : List UInt8) :
    c.Carries { c with lineBuf := buf } :=
  ⟨rfl, rfl, fun h => ⟨h, rfl, rfl, rfl⟩⟩

/-- A client that goes. -/
theorem Client.Carries.gone {c c' : Client} (hp : c'.portfolio = c.portfolio)
    (ht : c'.trades = c.trades) (hfd : c'.fd = -1) : c.Carries c' :=
  ⟨hp, ht, fun h => absurd h (by rw [hfd]; decide)⟩

theorem consume_carries (s : Server m) (idx : Fin maxClients) (n : ℕ) :
    s.Carries (consume s idx n) :=
  .update rfl rfl ((s.clients idx).carries_lineBuf _)

theorem disconnectClient_carries (s : Server m) (idx : Fin maxClients) :
    s.Carries (disconnectClient s idx) := by
  unfold disconnectClient
  split_ifs
  · exact .refl s
  · exact .update rfl rfl (.gone rfl rfl rfl)

theorem disconnectClient_reading (s : Server m) (idx : Fin maxClients) :
    (disconnectClient s idx).reading = s.reading := by
  unfold disconnectClient
  split_ifs <;> rfl

theorem readInput_carries {input : Input} (h : readInput s idx input = some s') : s.Carries s' := by
  unfold readInput at h
  dsimp only at h
  split_ifs at h
  · obtain rfl := Option.some.inj h
    exact .update rfl rfl ((s.clients idx).carries_lineBuf _)
  · cases input with
    | error =>
      obtain rfl := Option.some.inj h
      exact disconnectClient_carries s idx
    | hangup =>
      obtain rfl := Option.some.inj h
      exact disconnectClient_carries s idx
    | data bytes =>
      dsimp only at h
      split_ifs at h
      obtain rfl := Option.some.inj h
      exact .update rfl rfl ((s.clients idx).carries_lineBuf _)

/-- A client that `client_read` begins to handle is connected. -/
theorem readInput_reads {input : Input} (hfd : 0 ≤ (s.clients idx).fd) (hr : s.reading = none)
    (h : readInput s idx input = some s') {j : Fin maxClients} (hj : s'.reading = some j) :
    0 ≤ (s'.clients j).fd := by
  have hsame : s'.reading ≠ s.reading := by
    rw [hr, hj]
    exact Option.some_ne_none j
  unfold readInput at h
  dsimp only at h
  split_ifs at h
  · obtain rfl := Option.some.inj h
    exact absurd rfl hsame
  · cases input with
    | error =>
      obtain rfl := Option.some.inj h
      exact absurd (disconnectClient_reading s idx) hsame
    | hangup =>
      obtain rfl := Option.some.inj h
      exact absurd (disconnectClient_reading s idx) hsame
    | data bytes =>
      dsimp only at h
      split_ifs at h
      obtain rfl := Option.some.inj h
      obtain rfl := Option.some.inj hj
      simpa using hfd

theorem shutdownClient_carries (s : Server m) (idx : Fin maxClients) :
    s.Carries (shutdownClient s idx) := by
  unfold shutdownClient
  split_ifs
  · exact .update rfl rfl (.gone rfl rfl rfl)
  · exact .refl s

theorem shutdown_carries : ∀ (l : List (Fin maxClients)) (s : Server m),
    s.Carries (l.foldl shutdownClient s)
  | [], s => .refl s
  | idx :: l, s => (shutdownClient_carries s idx).trans (shutdown_carries l _)

theorem shutdown_reading : ∀ (l : List (Fin maxClients)) (s : Server m),
    (l.foldl shutdownClient s).reading = s.reading
  | [], _ => rfl
  | idx :: l, s => by
    rw [List.foldl_cons, shutdown_reading l]
    unfold shutdownClient
    split_ifs <;> rfl

theorem sendPriceBroadcast_eq (h : sendPriceBroadcast s = some s') :
    ∃ broadcasts, s' = { s with broadcasts } := by
  obtain ⟨text, -, rfl⟩ := Option.map_eq_some_iff.mp h
  exact ⟨_, rfl⟩

/-- The line that the loop of `client_read` gives to `process_line`. -/
def nextLine (buf : List UInt8) : Option CStr :=
  let line := buf.takeWhile fun b => b != 10
  if line.length = buf.length ∨ maxLine - 1 ≤ line.length then none else some (lineString line)

/-- What the loop does with a line: after `process_line`, only the buffer of the client changes, or
the client is disconnected. -/
theorem handleLine_cases (h : handleLine s idx = some s') :
    nextLine (s.clients idx).lineBuf = none ∧ s.Carries s' ∧
        (s'.reading = none ∨ s'.reading = s.reading ∧ ∀ i, (s'.clients i).fd = (s.clients i).fd) ∨
      ∃ line s₁ o, nextLine (s.clients idx).lineBuf = some line ∧
        processLine s idx line = some (s₁, o) ∧ s₁.Carries s' ∧
        (o = .quit ∧ s'.reading = none ∨ o ≠ .quit ∧ s'.reading = s₁.reading ∧
          ∀ i, (s'.clients i).fd = (s₁.clients i).fd) := by
  have hconsume : ∀ (s : Server m) n, (consume s idx n).reading = s.reading ∧
      ∀ i, ((consume s idx n).clients i).fd = (s.clients i).fd := fun s n =>
    ⟨rfl, (Function.forall_update_iff s.clients fun i c => c.fd = (s.clients i).fd).mpr
      ⟨rfl, fun _ _ => rfl⟩⟩
  obtain ⟨line, hline⟩ : ∃ line, line = (s.clients idx).lineBuf.takeWhile fun b => b != 10 :=
    ⟨_, rfl⟩
  unfold handleLine at h
  unfold nextLine
  dsimp only at h ⊢
  rw [← hline] at h ⊢
  split_ifs at h with hnone hlong
  · obtain rfl := Option.some.inj h
    exact Or.inl ⟨if_pos (Or.inl hnone), ⟨rfl, fun _ => .refl _⟩, Or.inl rfl⟩
  · obtain rfl := Option.some.inj h
    exact Or.inl ⟨if_pos (Or.inr hlong),
      .update rfl rfl ((s.clients idx).carries_lineBuf _),
      Or.inr (hconsume (s.safeSend idx (cstr "ERR TOOLONG\n")) (line.length + 1))⟩
  · rw [if_neg (not_or.mpr ⟨hnone, hlong⟩)]
    refine Or.inr ⟨lineString line, ?_⟩
    split at h
    · cases h
    · rename_i s₁ hprocess
      obtain rfl := Option.some.inj h
      have hcarries := disconnectClient_carries s₁ idx
      exact ⟨s₁, .quit, rfl, hprocess, ⟨hcarries.stocks_eq, hcarries.clients⟩, Or.inl ⟨rfl, rfl⟩⟩
    · rename_i s₁ hprocess
      obtain rfl := Option.some.inj h
      exact ⟨s₁, .stay, rfl, hprocess, consume_carries s₁ idx _,
        Or.inr ⟨by decide, hconsume s₁ _⟩⟩
    · rename_i s₁ hprocess
      obtain ⟨s₂, hbroadcast, rfl⟩ := Option.map_eq_some_iff.mp h
      obtain ⟨broadcasts, rfl⟩ := sendPriceBroadcast_eq hbroadcast
      have hcarries := consume_carries { s₁ with broadcasts } idx (line.length + 1)
      exact ⟨s₁, .traded, rfl, hprocess, ⟨hcarries.stocks_eq, hcarries.clients⟩,
        Or.inr ⟨by decide, hconsume { s₁ with broadcasts } _⟩⟩

/-- A client that is being read from is connected. -/
def ReadsConnected (s : Server m) : Prop := ∀ idx, s.reading = some idx → 0 ≤ (s.clients idx).fd

/-- **What a step does to the accounts.** -/
theorem serverStep_cases (h : serverStep s act = some s') :
    (s.Carries s' ∧ (act = .line → ∀ idx, s.reading = some idx →
        nextLine (s.clients idx).lineBuf = none) ∧ (ReadsConnected s → ReadsConnected s')) ∨
      (∃ fd i, act = .accept fd ∧ s' = s.setClient i { Client.empty with fd := fd } ∧
        s.reading = none) ∨
      ∃ idx line s₁ o, act = .line ∧ s.reading = some idx ∧
        nextLine (s.clients idx).lineBuf = some line ∧ processLine s idx line = some (s₁, o) ∧
        s₁.Carries s' ∧ (o = .quit ∧ s'.reading = none ∨ o ≠ .quit ∧ s'.reading = s₁.reading ∧
          ∀ i, (s'.clients i).fd = (s₁.clients i).fd) := by
  unfold serverStep at h
  split at h
  · split at h
    case h_1 idx hr =>
      rcases handleLine_cases h with ⟨hnone, hcarries, hreading⟩ | ⟨line, s₁, o, hcase⟩
      · refine Or.inl ⟨hcarries, fun _ j hj => ?_, fun hconn j hj => ?_⟩
        · obtain rfl := Option.some.inj (hr.symm.trans hj)
          exact hnone
        · rcases hreading with hr' | ⟨hr', hfd⟩
          · rw [hr'] at hj
            cases hj
          · rw [hfd]
            exact hconn j (hr'.symm.trans hj)
      · exact Or.inr (Or.inr ⟨idx, line, s₁, o, rfl, hr, hcase⟩)
    case h_2 => cases h
    case h_3 => cases h
    case h_4 hr =>
      obtain ⟨broadcasts, rfl⟩ := sendPriceBroadcast_eq h
      exact Or.inl ⟨⟨rfl, fun _ => .refl _⟩, (fun hact => by cases hact), fun hconn => hconn⟩
    case h_5 fd hr =>
      obtain rfl := Option.some.inj h
      unfold acceptClient
      split
      · exact Or.inl ⟨.refl s, (fun hact => by cases hact), fun hconn => hconn⟩
      · exact Or.inr (Or.inl ⟨fd, _, rfl, rfl, hr⟩)
    case h_6 idx input hr =>
      split_ifs at h with hfd
      refine Or.inl ⟨readInput_carries h, (fun hact => by cases hact), fun _ j hj => ?_⟩
      exact readInput_reads hfd hr h hj
    case h_7 hr =>
      obtain rfl := Option.some.inj h
      have hcarries := shutdown_carries (List.finRange maxClients) s
      refine Or.inl ⟨⟨hcarries.stocks_eq, hcarries.clients⟩, (fun hact => by cases hact),
        fun _ j hj => ?_⟩
      exact absurd ((shutdown_reading _ s).symm.trans hj) (by simp [hr])
  · cases h

end Cse344.Final
