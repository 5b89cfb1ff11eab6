import Cse344.Final.Accounts
import Cse344.Final.Receive
import Mathlib.Algebra.Group.Action.Defs
import Mathlib.Algebra.Order.BigOperators.Group.List

/-!
# Replies of the final and the buffers of its clients

Which replies of `process_line` (`Final/ServerTrd.c` 182-378) the client that asked receives and
prints whole (`trader.c` and `analyst.c` 84-128). A reply is received if it fits in the 511 bytes of
`srv_buf` with its newline.

* Most replies do in every state: `Short`. The texts of `REPORT` and `PORTFOLIO` grow with the
  state, that of an unknown line with the line. `ReplyFits` says of a line when its reply fits.
* `reportLength` and `portfolioLength` are the lengths of the texts, from the symbols, the prices as
  `%.2f` and the quantities as `%d`.
* `ReplyDelivered` is about the reply after any lines that the client has received before.
* `Named` is what `JOIN` has made sure of: a type, and a name of at most 31 bytes without white
  space. `LIST` always fits by that.

Results:
* `named_reachable`: it holds of the joined clients of every reachable state.
* `unknown_delivered_iff`, `report_delivered_iff`, `portfolio_delivered_iff`: the three replies that
  may be too long.
* **`reply_delivered_iff`**: in every reachable state, a client receives a reply and prints it
  whole, whatever it received before and however TCP splits it, exactly if `ReplyFits`.

Out of scope: the reply to `QUIT`, after which the client does not go back to its loop, and the
broadcasts, which are datagrams.
-/

namespace Cse344.Final

open Cse344.Lib

variable {m : ℕ} {t : Table m} {s s' : Server m} {idx i : Fin maxClients} {line body : CStr}
  {tag user : CStr} {before : List CStr} {o : Outcome} {act : Act}

/-! ## What a client receives -/

/-- The name a client of this type prints: `analyst` or `trader`. -/
def clientTag (type user : CStr) : CStr :=
  if type = cstr "ANALYST" then analystTag user else traderTag user

/-- `process_line` replies with a line. -/
def Replies (s : Server m) (idx : Fin maxClients) (line body : CStr) : Prop :=
  ∃ s' o, processLine s idx line = some (s', o) ∧
    s'.sent = s.sent ++ [((s.clients idx).fd, body ++ newline)]

/-- `process_line` replies with a line that the client receives and prints whole after the lines
`before`. -/
def ReplyDelivered (s : Server m) (idx : Fin maxClients) (user : CStr) (before : List CStr)
    (line : CStr) : Prop :=
  ∃ body, Replies s idx line body ∧ (∀ b ∈ body, (b == 10) = false) ∧
    Delivered (clientTag (s.clients idx).type user) before body

/-- A line that is no command of a client of this type. -/
structure UnknownLine (type line : CStr) : Prop where
  join : ¬ (cstr "JOIN ").isPrefixOf line
  price : ¬ (cstr "PRICE ").isPrefixOf line
  report : line ≠ cstr "REPORT"
  list : line ≠ cstr "LIST"
  buy : ¬ (cstr "BUY ").isPrefixOf line
  sell : ¬ (cstr "SELL ").isPrefixOf line
  portfolio : type = cstr "TRADER" → line ≠ cstr "PORTFOLIO"

/-- `OK REPORT`, the stocks as `symbol:price`, and the commas between them. -/
def reportLength (s : Server m) : ℕ :=
  10 + ((List.ofFn s.stocks).map fun st => st.symbol.length + 1 + st.price.text.length).sum +
    (m - 1)

/-- `OK PORTFOLIO`, the holdings as `symbol:quantity`, and the commas between them. -/
def portfolioLength (portfolio : List Holding) : ℕ :=
  13 + (portfolio.map fun h => h.symbol.length + 1 + (decimal h.qty).length).sum +
    (portfolio.length - 1)

/-- The reply to `line` has at most 510 bytes, and no `\r` at its end. -/
structure ReplyFits (s : Server m) (idx : Fin maxClients) (line : CStr) : Prop where
  report : (s.clients idx).type = cstr "ANALYST" → line = cstr "REPORT" →
    reportLength s ≤ maxLine - 2
  portfolio : (s.clients idx).type = cstr "TRADER" → line = cstr "PORTFOLIO" →
    (s.clients idx).portfolio ≠ [] → portfolioLength (s.clients idx).portfolio ≤ maxLine - 2
  unknown : UnknownLine (s.clients idx).type line →
    line.length ≤ maxLine - 14 ∧ line.getLast? ≠ some 13

/-- The reply is what decides. -/
theorem replyDelivered_iff (h : Replies s idx line body) (hno : ∀ b ∈ body, (b == 10) = false) :
    ReplyDelivered s idx user before line ↔
      Delivered (clientTag (s.clients idx).type user) before body := by
  obtain ⟨s', o, hprocess, hsent⟩ := h
  constructor
  · rintro ⟨body', ⟨s'', o', hprocess', hsent'⟩, -, hdelivered⟩
    obtain ⟨rfl, rfl⟩ := Prod.mk.inj (Option.some.inj (hprocess.symm.trans hprocess'))
    have hsame := List.append_cancel_left (hsent.symm.trans hsent')
    obtain ⟨-, htext⟩ := Prod.mk.inj (List.head_eq_of_cons_eq hsame)
    rwa [List.append_cancel_right htext]
  · intro hdelivered
    exact ⟨body, ⟨s', o, hprocess, hsent⟩, hno, hdelivered⟩

/-! ## Lines that print as they are -/

theorem Plain.noLine (h : Plain body) : ∀ b ∈ body, (b == 10) = false := fun b hb => by
  simpa using (h b hb).2.1

/-- A reply that fits in every state: it starts with `OK` or `ERR`, and is not long. -/
structure Short (body : CStr) : Prop where
  plain : Plain body
  length_le : body.length ≤ maxLine - 2
  head : body.head? = some 79 ∨ body.head? = some 69

/-- No reply tells the client to stop. -/
theorem ne_shutdown (h : body.head? = some 79 ∨ body.head? = some 69) :
    lineString body ≠ shutdownLine := by
  intro hshut
  obtain ⟨rest, hrest⟩ := hshut ▸ lineString_isPrefix body
  rw [← hrest] at h
  rcases h with h | h <;> cases h

theorem delivered_iff_of_plain (hbefore : ∀ line ∈ before, Prints line) (hp : Plain body)
    (h : body.head? = some 79 ∨ body.head? = some 69) :
    Delivered tag before body ↔ body.length ≤ maxLine - 2 := by
  rw [delivered_iff tag hbefore hp.bytes (ne_shutdown h)]
  exact and_iff_left hp.noReturn

theorem Short.delivered (h : Short body) (hbefore : ∀ line ∈ before, Prints line) :
    Delivered tag before body := (delivered_iff_of_plain hbefore h.plain h.head).mpr h.length_le

theorem Short.replyDelivered (h : Short body) (hbefore : ∀ line ∈ before, Prints line)
    (hr : Replies s idx line body) : ReplyDelivered s idx user before line :=
  (replyDelivered_iff hr (Plain.noLine h.plain)).mpr (h.delivered hbefore)

/-- What `resp` holds of a text that is not too long for it. -/
theorem resp_eq (h : body.length ≤ maxLine + 62) : resp body = body ++ newline := by
  unfold resp snprintf
  refine List.take_of_length_le ?_
  have hnewline : newline.length = 1 := rfl
  rw [List.length_append]
  omega

/-! ## Names and symbols -/

theorem plain_of_validSymbol {sym : CStr} (h : isValidSymbol sym = true) :
    Plain sym ∧ sym.length ≤ 8 := by
  unfold isValidSymbol at h
  rw [Bool.and_eq_true, decide_eq_true_iff, List.all_eq_true] at h
  refine ⟨fun b hb => ?_, Nat.le_of_lt_succ h.1.2⟩
  have hb := h.2 b hb
  refine ⟨?_, ?_, ?_⟩ <;> rintro rfl <;> revert hb <;> decide

theorem plain_symbol (hi : Inv t s) (k : Fin m) :
    Plain (s.stocks k).symbol ∧ (s.stocks k).symbol.length ≤ 8 := by
  rw [hi.symbol_eq]
  exact plain_of_validSymbol (t.valid k)

/-- What `JOIN` has made sure of. -/
structure Client.Named (c : Client) : Prop where
  type_eq : c.type = cstr "TRADER" ∨ c.type = cstr "ANALYST"
  plain : Plain c.username
  length_le : c.username.length ≤ 31

def Named (s : Server m) : Prop :=
  ∀ i, 0 ≤ (s.clients i).fd → (s.clients i).joined = true → (s.clients i).Named

theorem plain_of_noSpace (h : ∀ b ∈ body, isspace b = false) (hzero : ∀ b ∈ body, b ≠ 0) :
    Plain body := by
  rintro b hb
  have hspace := h b hb
  refine ⟨hzero b hb, ?_, ?_⟩ <;> rintro rfl <;> revert hspace <;> decide

theorem nextLine_ne_zero {buf : List UInt8} (h : nextLine buf = some line) : ∀ b ∈ line, b ≠ 0 := by
  unfold nextLine at h
  dsimp only at h
  split_ifs at h
  obtain rfl := Option.some.inj h
  intro b hb
  have := List.mem_takeWhile_imp hb
  simpa using this

theorem named_effect (hn : Named s) (hzero : ∀ b ∈ line, b ≠ 0) (he : Effect s idx line s' o) :
    Named s' := by
  have hupdate : ∀ c : Client, (0 ≤ c.fd → c.joined = true → c.Named) →
      ∀ i, 0 ≤ (Function.update s.clients idx c i).fd →
        (Function.update s.clients idx c i).joined = true →
          (Function.update s.clients idx c i).Named := fun c hc =>
    (Function.forall_update_iff s.clients fun _ c => 0 ≤ c.fd → c.joined = true → c.Named).mpr
      ⟨hc, fun i _ => hn i⟩
  cases he with
  | reply => exact hn
  | join uname typeStr text hb hjoined huname htype =>
    refine hupdate _ fun _ _ => ⟨htype, ?_, huname.1⟩
    exact plain_of_noSpace (fun b hb => (huname.2 b hb).1) fun b hb => hzero b (huname.2 b hb).2
  | buy =>
    refine hupdate _ fun hfd hjoined => ?_
    exact ⟨(hn idx hfd hjoined).type_eq, (hn idx hfd hjoined).plain, (hn idx hfd hjoined).length_le⟩
  | sell =>
    refine hupdate _ fun hfd hjoined => ?_
    exact ⟨(hn idx hfd hjoined).type_eq, (hn idx hfd hjoined).plain, (hn idx hfd hjoined).length_le⟩

theorem Named.carries (hn : Named s) (hc : s.Carries s') : Named s' := by
  intro i hfd hjoined
  obtain ⟨hfd', hj, ht, hu⟩ := (hc.clients i).connected hfd
  have h := hn i hfd' (hj.symm.trans hjoined)
  exact ⟨ht ▸ h.type_eq, hu ▸ h.plain, hu ▸ h.length_le⟩

theorem named_step (hn : Named s) (hs : serverStep s act = some s') : Named s' := by
  rcases serverStep_cases hs with ⟨hcarries, -, -⟩ | ⟨fd, i, rfl, rfl, -⟩ |
    ⟨idx, line, s₁, o, rfl, -, hline, hprocess, hcarries, -⟩
  · exact hn.carries hcarries
  · exact (Function.forall_update_iff s.clients fun _ c =>
      0 ≤ c.fd → c.joined = true → c.Named).mpr
        ⟨fun _ hno => absurd hno Bool.false_ne_true, fun j _ => hn j⟩
  · exact (named_effect hn (nextLine_ne_zero hline) (processLine_effect hprocess)).carries hcarries

theorem named_init : Named (initial t) := fun _ hfd _ =>
  absurd hfd (by simp [initial, Client.empty])

theorem named_reachable (h : (serverTrd t).Reachable s) : Named s :=
  h.induct named_init fun _ _ _ hn hs => named_step hn hs

/-! ## Lists -/

theorem intercalate_cons_cons (sep item item' : CStr) (items : List CStr) :
    sep.intercalate (item :: item' :: items) =
      item ++ (sep ++ sep.intercalate (item' :: items)) := by
  simp [List.intercalate, List.intersperse]

theorem length_intercalate (sep : CStr) : ∀ items : List CStr,
    (sep.intercalate items).length =
      (items.map List.length).sum + (items.length - 1) * sep.length
  | [] => by simp [List.intercalate]
  | [item] => by simp [List.intercalate]
  | item :: item' :: items => by
    have ih := length_intercalate sep (item' :: items)
    rw [intercalate_cons_cons, List.length_append, List.length_append, ih]
    simp only [List.map_cons, List.sum_cons, List.length_cons, Nat.add_sub_cancel, Nat.succ_mul]
    omega

theorem plain_intercalate {sep : CStr} (hsep : Plain sep) : ∀ {items : List CStr},
    (∀ item ∈ items, Plain item) → Plain (sep.intercalate items)
  | [], _ => by simp [List.intercalate, Plain]
  | [item], h => by simpa [List.intercalate] using h item List.mem_cons_self
  | item :: item' :: items, h => by
    rw [intercalate_cons_cons]
    rw [List.forall_mem_cons] at h
    exact Plain.append h.1 (Plain.append hsep (plain_intercalate hsep h.2))

/-- The stocks as the server writes them. -/
theorem plain_stockText (hi : Inv t s) (k : Fin m) : Plain (s.stocks k).text :=
  Plain.append (Plain.append (plain_symbol hi k).1 (by decide)) (CFloat.plain_text _)

theorem plain_reportText (hi : Inv t s) : Plain (reportText s) := by
  refine Plain.append (by decide) (plain_intercalate (by decide) fun item hitem => ?_)
  obtain ⟨st, hst, rfl⟩ := List.mem_map.mp hitem
  obtain ⟨k, rfl⟩ := List.mem_ofFn.mp hst
  exact plain_stockText hi k

theorem length_reportText (s : Server m) : (reportText s).length = reportLength s := by
  have hhead : (cstr "OK REPORT ").length = 10 := rfl
  have hcomma : (cstr ",").length = 1 := rfl
  have hcolon : (cstr ":").length = 1 := rfl
  have htext :
      List.length ∘ Stock.text = fun st => st.symbol.length + 1 + st.price.text.length := by
    funext st
    simp only [Function.comp_apply, Stock.text, List.length_append, hcolon]
  rw [reportText, List.length_append, length_intercalate, List.map_map, htext, List.length_map,
    List.length_ofFn, hhead, hcomma, mul_one, reportLength, Nat.add_assoc]

theorem plain_portfolioText (hi : Inv t s) (idx : Fin maxClients) :
    Plain (portfolioText (s.clients idx).portfolio) := by
  refine Plain.append (by decide) (plain_intercalate (by decide) fun item hitem => ?_)
  obtain ⟨h, hh, rfl⟩ := List.mem_map.mp hitem
  obtain ⟨k, hk⟩ := (hi.kept idx).known h hh
  exact Plain.append (Plain.append (hk ▸ (plain_of_validSymbol (t.valid k)).1) (by decide))
    (plain_decimal _)

theorem length_portfolioText (portfolio : List Holding) :
    (portfolioText portfolio).length = portfolioLength portfolio := by
  have hhead : (cstr "OK PORTFOLIO ").length = 13 := rfl
  have hcomma : (cstr ",").length = 1 := rfl
  have hcolon : (cstr ":").length = 1 := rfl
  have htext : List.length ∘ Holding.text =
      fun h => h.symbol.length + 1 + (decimal h.qty).length := by
    funext h
    simp only [Function.comp_apply, Holding.text, List.length_append, hcolon]
  rw [portfolioText, List.length_append, length_intercalate, List.map_map, htext, List.length_map,
    hhead, hcomma, mul_one, portfolioLength, Nat.add_assoc]

/-- Ten names always fit. -/
theorem short_listText (hn : Named s) : Short (listText s) := by
  have hnames : ∀ name ∈ joinedNames s, Plain name ∧ name.length ≤ 31 := by
    rintro name hname
    obtain ⟨c, hc, rfl⟩ := List.mem_map.mp hname
    obtain ⟨hc, hjoined⟩ := List.mem_filter.mp hc
    obtain ⟨i, rfl⟩ := List.mem_ofFn.mp hc
    rw [Bool.and_eq_true, decide_eq_true_iff] at hjoined
    have h := hn i hjoined.1 hjoined.2
    exact ⟨h.plain, h.length_le⟩
  refine ⟨Plain.append (by decide) (plain_intercalate (by decide) fun name hname =>
    (hnames name hname).1), ?_, Or.inl rfl⟩
  have hcount : (joinedNames s).length ≤ 10 := by
    unfold joinedNames
    rw [List.length_map]
    exact (List.length_filter_le _ _).trans (le_of_eq List.length_ofFn)
  have hsum : ((joinedNames s).map List.length).sum ≤ (joinedNames s).length * 31 := by
    have hle := List.sum_le_card_nsmul ((joinedNames s).map List.length) 31 fun n hn => by
      obtain ⟨name, hname, rfl⟩ := List.mem_map.mp hn
      exact (hnames name hname).2
    rwa [List.length_map, smul_eq_mul] at hle
  have hhead : (cstr "OK LIST ").length = 8 := rfl
  have hcomma : (cstr ",").length = 1 := rfl
  rw [listText, List.length_append, length_intercalate, hhead, hcomma]
  unfold maxLine
  omega

/-! ## Replies that always fit -/

/-- A reply that is given as it is. -/
theorem replies_of_safeSend
    (h : processLine s idx line = some (s.safeSend idx (body ++ newline), o)) :
    Replies s idx line body := ⟨_, _, h, rfl⟩

/-- `s'` is `s` with a short reply. -/
def RepliesShort (s : Server m) (idx : Fin maxClients) (s' : Server m) : Prop :=
  ∃ body, Short body ∧ s'.sent = s.sent ++ [((s.clients idx).fd, body ++ newline)]

theorem RepliesShort.replyDelivered (h : RepliesShort s idx s')
    (hbefore : ∀ line ∈ before, Prints line) (hp : processLine s idx line = some (s', o)) :
    ReplyDelivered s idx user before line := by
  obtain ⟨body, hbody, hsent⟩ := h
  exact hbody.replyDelivered hbefore ⟨s', o, hp, hsent⟩

theorem repliesShort_literal (hbody : Short body) :
    RepliesShort s idx (s.safeSend idx (body ++ newline)) := ⟨body, hbody, rfl⟩

theorem short_unknownSymbol : Short (cstr "ERR UNKNOWN_SYMBOL") := ⟨by decide, by decide, by decide⟩

/-- A symbol and two numbers at most. -/
theorem short_trade {head sym : CStr} {qty : ℤ} (hhead : Plain head ∧ head.length ≤ 8)
    (hO : head.head? = some 79) (hsym : Plain sym ∧ sym.length ≤ 8) (hqty : 0 < qty ∧ qty ≤ intMax)
    (price : CFloat) : Short (head ++ sym ++ sp ++ decimal qty ++ sp ++ price.text) := by
  have hdecimal : (decimal qty).length ≤ 11 := length_decimal_le (by decide) (by
    unfold intMax at hqty
    omega)
  have htext := price.length_text_le
  have hsp : sp.length = 1 := rfl
  refine ⟨?_, ?_, Or.inl ?_⟩
  · exact ((((hhead.1.append hsym.1).append (by decide)).append (plain_decimal _)).append
      (by decide)).append price.plain_text
  · simp only [List.length_append]
    unfold maxLine
    omega
  · simp only [List.append_assoc]
    cases head with
    | nil => cases hO
    | cons c head => exact hO

/-- What is built in `resp` is short. -/
theorem repliesShort_resp {body : CStr} (hbody : Short body) (hsent : s'.sent = s.sent)
    (hfd : (s'.clients idx).fd = (s.clients idx).fd) :
    RepliesShort s idx (s'.safeSend idx (resp body)) := by
  refine ⟨body, hbody, ?_⟩
  have hlen : body.length ≤ maxLine + 62 := hbody.length_le.trans (by decide)
  rw [resp_eq hlen, ← hsent, ← hfd]
  rfl

theorem short_price (hi : Inv t s) (k : Fin m) :
    Short (cstr "OK PRICE " ++ (s.stocks k).symbol ++ sp ++ (s.stocks k).price.text) := by
  obtain ⟨hplain, hlen⟩ := plain_symbol hi k
  have htext := (s.stocks k).price.length_text_le
  have hhead : (cstr "OK PRICE ").length = 9 := rfl
  have hsp : sp.length = 1 := rfl
  refine ⟨?_, ?_, Or.inl rfl⟩
  · exact ((Plain.append (by decide) hplain).append (by decide)).append (CFloat.plain_text _)
  · simp only [List.length_append]
    unfold maxLine
    omega

theorem cmdPrice_short (hi : Inv t s) (args : CStr) : RepliesShort s idx (cmdPrice s idx args) := by
  unfold cmdPrice
  split
  · exact repliesShort_literal short_unknownSymbol
  · split
    · exact repliesShort_literal short_unknownSymbol
    · exact repliesShort_resp (short_price hi _) rfl rfl

theorem plain_found (hi : Inv t s) {sym : CStr} {k : Fin m} (hk : findStock s sym = some k) :
    Plain sym ∧ sym.length ≤ 8 := by
  rw [← findStock_symbol hk]
  exact plain_symbol hi k

theorem cmdBuy_short (hi : Inv t s) (args : CStr) : RepliesShort s idx (cmdBuy s idx args).1 := by
  unfold cmdBuy
  split
  · exact repliesShort_literal short_unknownSymbol
  · rename_i hscan
    split
    · exact repliesShort_literal short_unknownSymbol
    · rename_i k hk
      exact repliesShort_resp
        (short_trade (by decide) rfl (plain_found hi hk) (scanTrade_range hscan) _) rfl (by simp)

theorem cmdSell_short (hi : Inv t s) (args : CStr) : RepliesShort s idx (cmdSell s idx args).1 := by
  have hshort : Short (cstr "ERR INSUFFICIENT_SHARES") := ⟨by decide, by decide, by decide⟩
  have hrefused : RepliesShort s idx (s.safeSend idx (cstr "ERR INSUFFICIENT_SHARES\n")) :=
    repliesShort_literal hshort
  unfold cmdSell
  split
  · exact repliesShort_literal short_unknownSymbol
  · rename_i hscan
    split
    · exact repliesShort_literal short_unknownSymbol
    · rename_i k hk
      dsimp only
      split
      · exact hrefused
      · split_ifs
        · exact hrefused
        · exact repliesShort_resp
            (short_trade (by decide) rfl (plain_found hi hk) (scanTrade_range hscan) _) rfl
            (by simp)

/-! ## The other replies -/

/-- A text that is built in a buffer of more than 512 bytes is delivered exactly if the client's
buffer holds it. -/
theorem built_delivered_iff (hbefore : ∀ line ∈ before, Prints line) (size : ℕ)
    (hsize : maxLine ≤ size) (hplain : Plain body) (hhead : body.head? = some 79)
    (hp : processLine s idx line = ((built size body).map (s.safeSend idx)).map (·, Outcome.stay)) :
    ReplyDelivered s idx user before line ↔ body.length ≤ maxLine - 2 := by
  by_cases hbuilt : body.length + 2 ≤ size
  · have hreplies : Replies s idx line body := by
      refine replies_of_safeSend (o := .stay) ?_
      rw [hp, built, if_pos hbuilt]
      rfl
    rw [replyDelivered_iff hreplies (Plain.noLine hplain)]
    exact delivered_iff_of_plain hbefore hplain (Or.inl hhead)
  · refine iff_of_false ?_ ?_
    · rintro ⟨-, ⟨s', o, hprocess, -⟩, -, -⟩
      rw [hp, built, if_neg hbuilt] at hprocess
      cases hprocess
    · unfold maxLine at *
      omega

theorem report_delivered_iff (hi : Inv t s) (hbefore : ∀ line ∈ before, Prints line)
    (hp : processLine s idx line = (cmdReport s idx).map (·, Outcome.stay)) :
    ReplyDelivered s idx user before line ↔ reportLength s ≤ maxLine - 2 := by
  rw [← length_reportText]
  exact built_delivered_iff hbefore _ (by decide) (plain_reportText hi) rfl hp

theorem portfolio_delivered_iff (hi : Inv t s) (hbefore : ∀ line ∈ before, Prints line)
    (hp : processLine s idx line = (cmdPortfolio s idx).map (·, Outcome.stay)) :
    ReplyDelivered s idx user before line ↔ ((s.clients idx).portfolio ≠ [] →
      portfolioLength (s.clients idx).portfolio ≤ maxLine - 2) := by
  rw [← length_portfolioText]
  by_cases hempty : (s.clients idx).portfolio = []
  · refine iff_of_true ?_ fun hne => absurd hempty hne
    have hshort : Short (cstr "OK PORTFOLIO EMPTY") := ⟨by decide, by decide, by decide⟩
    refine hshort.replyDelivered hbefore (replies_of_safeSend (o := .stay) ?_)
    rw [hp, cmdPortfolio, hempty]
    rfl
  · rw [forall_prop_of_true hempty]
    refine built_delivered_iff hbefore 2048 (by decide) (plain_portfolioText hi idx) rfl ?_
    rw [hp, cmdPortfolio]
    split
    · contradiction
    · rfl

/-- A line that is sent back ends as it did. -/
theorem getLast?_unknown : (cstr "ERR UNKNOWN " ++ line).getLast? = some 13 ↔
    line.getLast? = some 13 := by
  rw [List.getLast?_append]
  cases line.getLast? with
  | none => decide
  | some b => rfl

theorem unknown_delivered_iff (hbefore : ∀ line ∈ before, Prints line)
    (hlen : line.length ≤ maxLine - 2) (hline : ∀ b ∈ line, b ≠ 0 ∧ b ≠ 10)
    (hp : processLine s idx line = some (cmdUnknown s idx line, .stay)) :
    ReplyDelivered s idx user before line ↔
      line.length ≤ maxLine - 14 ∧ line.getLast? ≠ some 13 := by
  have hhead : (cstr "ERR UNKNOWN ").length = 12 := rfl
  have hresp : resp (cstr "ERR UNKNOWN " ++ line) = cstr "ERR UNKNOWN " ++ line ++ newline := by
    refine resp_eq ?_
    rw [List.length_append, hhead]
    unfold maxLine at *
    omega
  have hreplies : Replies s idx line (cstr "ERR UNKNOWN " ++ line) := by
    refine replies_of_safeSend (o := .stay) ?_
    rw [hp, cmdUnknown, hresp]
  have hbytes : ∀ b ∈ cstr "ERR UNKNOWN " ++ line, b ≠ 0 ∧ b ≠ 10 := by
    have hplain : Plain (cstr "ERR UNKNOWN ") := by decide
    exact List.forall_mem_append.mpr ⟨hplain.bytes, hline⟩
  have hno : ∀ b ∈ cstr "ERR UNKNOWN " ++ line, (b == 10) = false := fun b hb => by
    simpa using (hbytes b hb).2
  rw [replyDelivered_iff hreplies hno,
    delivered_iff _ hbefore hbytes (ne_shutdown (Or.inr rfl)), Ne, getLast?_unknown,
    List.length_append, hhead]
  unfold maxLine
  exact and_congr_left fun _ => by omega

/-! ## All lines -/

/-- Lines whose replies are always short. -/
theorem replyFits_of (hreport : line ≠ cstr "REPORT") (hportfolio : line ≠ cstr "PORTFOLIO")
    (hunknown : ¬ UnknownLine (s.clients idx).type line) : ReplyFits s idx line :=
  ⟨fun _ h => absurd h hreport, fun _ h => absurd h hportfolio, fun h => absurd h hunknown⟩

/-- A line with an argument is none without. -/
theorem ne_of_startsWith {a b : CStr} (ha : a.isPrefixOf line) (h : ¬ a.isPrefixOf b) :
    line ≠ b := by
  rintro rfl
  exact h ha

theorem short_unauthorized : Short (cstr "ERR UNAUTHORIZED") := ⟨by decide, by decide, by decide⟩

theorem cmdList_short (idx : Fin maxClients) (hn : Named s) :
    ∃ s', cmdList s idx = some s' ∧ RepliesShort s idx s' := by
  have hshort := short_listText hn
  have hsize : (listText s).length + 2 ≤ 2048 := by
    have := hshort.length_le
    unfold maxLine at this
    omega
  refine ⟨_, ?_, repliesShort_literal hshort⟩
  rw [cmdList, built, if_pos hsize]
  rfl

theorem analyst_delivered_iff (hi : Inv t s) (hn : Named s)
    (hbefore : ∀ line ∈ before, Prints line)
    (htype : (s.clients idx).type = cstr "ANALYST") (hjoin : ¬ (cstr "JOIN ").isPrefixOf line)
    (hlen : line.length ≤ maxLine - 2) (hline : ∀ b ∈ line, b ≠ 0 ∧ b ≠ 10)
    (hp : processLine s idx line = analystLine s idx line) :
    ReplyDelivered s idx user before line ↔ ReplyFits s idx line := by
  unfold analystLine at hp
  split_ifs at hp with hprice hreport hlist htrade
  · refine iff_of_true ((cmdPrice_short hi _).replyDelivered hbefore hp) ?_
    exact replyFits_of (ne_of_startsWith hprice (by decide)) (ne_of_startsWith hprice (by decide))
      fun h => h.price hprice
  · rw [report_delivered_iff hi hbefore hp]
    refine ⟨fun hfits => ⟨fun _ _ => hfits, fun htrader => ?_, fun h => absurd hreport h.report⟩,
      fun h => h.report htype hreport⟩
    exact absurd (htype.symm.trans htrader) (by decide)
  · obtain ⟨s', hcmd, hshort⟩ := cmdList_short idx hn
    rw [hcmd] at hp
    refine iff_of_true (hshort.replyDelivered hbefore hp) ?_
    exact replyFits_of (hlist ▸ by decide) (hlist ▸ by decide) fun h => h.list hlist
  · refine iff_of_true ((repliesShort_literal short_unauthorized).replyDelivered hbefore hp) ?_
    rcases htrade with htrade | htrade
    · exact replyFits_of (ne_of_startsWith htrade (by decide)) (ne_of_startsWith htrade (by decide))
        fun h => h.buy htrade
    · exact replyFits_of (ne_of_startsWith htrade (by decide)) (ne_of_startsWith htrade (by decide))
        fun h => h.sell htrade
  · have hunknown : UnknownLine (s.clients idx).type line :=
      ⟨hjoin, hprice, hreport, hlist, fun h => htrade (Or.inl h), fun h => htrade (Or.inr h),
        fun htrader => absurd (htype.symm.trans htrader) (by decide)⟩
    rw [unknown_delivered_iff hbefore hlen hline hp]
    refine ⟨fun hfits => ⟨fun _ h => absurd h hreport, fun htrader => ?_, fun _ => hfits⟩,
      fun h => h.unknown hunknown⟩
    exact absurd (htype.symm.trans htrader) (by decide)

theorem trader_delivered_iff (hi : Inv t s) (hbefore : ∀ line ∈ before, Prints line)
    (htype : (s.clients idx).type = cstr "TRADER")
    (hjoin : ¬ (cstr "JOIN ").isPrefixOf line) (hlen : line.length ≤ maxLine - 2)
    (hline : ∀ b ∈ line, b ≠ 0 ∧ b ≠ 10) (hp : processLine s idx line = traderLine s idx line) :
    ReplyDelivered s idx user before line ↔ ReplyFits s idx line := by
  unfold traderLine at hp
  split_ifs at hp with hbuy hsell hportfolio hread
  · refine iff_of_true ((cmdBuy_short hi _).replyDelivered hbefore hp) ?_
    exact replyFits_of (ne_of_startsWith hbuy (by decide)) (ne_of_startsWith hbuy (by decide))
      fun h => h.buy hbuy
  · refine iff_of_true ((cmdSell_short hi _).replyDelivered hbefore hp) ?_
    exact replyFits_of (ne_of_startsWith hsell (by decide)) (ne_of_startsWith hsell (by decide))
      fun h => h.sell hsell
  · rw [portfolio_delivered_iff hi hbefore hp]
    refine ⟨fun hfits => ⟨fun hanalyst => ?_, fun _ _ => hfits,
      fun h => absurd hportfolio (h.portfolio htype)⟩, fun h => h.portfolio htype hportfolio⟩
    exact absurd (htype.symm.trans hanalyst) (by decide)
  · refine iff_of_true ((repliesShort_literal short_unauthorized).replyDelivered hbefore hp) ?_
    refine ⟨fun hanalyst => absurd (htype.symm.trans hanalyst) (by decide),
      fun _ h => absurd h hportfolio, fun h => ?_⟩
    rcases hread with hprice | hreport | hlist
    · exact absurd hprice h.price
    · exact absurd hreport h.report
    · exact absurd hlist h.list
  · have hunknown : UnknownLine (s.clients idx).type line :=
      ⟨hjoin, fun h => hread (Or.inl h), fun h => hread (Or.inr (Or.inl h)),
        fun h => hread (Or.inr (Or.inr h)), hbuy, hsell, fun _ => hportfolio⟩
    rw [unknown_delivered_iff hbefore hlen hline hp]
    refine ⟨fun hfits => ⟨fun hanalyst => ?_, fun _ h => absurd h hportfolio, fun _ => hfits⟩,
      fun h => h.unknown hunknown⟩
    exact absurd (htype.symm.trans hanalyst) (by decide)

/-- What `process_line` does with a line of a joined client. -/
theorem processLine_joined (hjoined : (s.clients idx).joined = true)
    (hjoin : ¬ (cstr "JOIN ").isPrefixOf line) (hquit : line ≠ cstr "QUIT") :
    ((s.clients idx).type = cstr "ANALYST" → processLine s idx line = analystLine s idx line) ∧
      ((s.clients idx).type = cstr "TRADER" → processLine s idx line = traderLine s idx line) := by
  have hno : ¬ (s.clients idx).joined = false := by simp [hjoined]
  unfold processLine
  dsimp only
  rw [if_neg hjoin, if_neg hno, if_neg hquit]
  refine ⟨fun htype => if_pos htype, fun htype => ?_⟩
  have hanalyst : ¬ (s.clients idx).type = cstr "ANALYST" := by
    rw [htype]
    decide
  rw [if_neg hanalyst, if_pos htype]

/-- **In every reachable state, a client receives the reply to a line and prints it whole exactly if
`ReplyFits`**, whatever lines it has received before. -/
theorem reply_delivered_iff (t : Table m) (s : Server m) (idx : Fin maxClients) (user line : CStr)
    (before : List CStr) (hs : (serverTrd t).Reachable s)
    (hbefore : ∀ line ∈ before, Prints line) (hconn : 0 ≤ (s.clients idx).fd)
    (hjoined : (s.clients idx).joined = true) (hlen : line.length ≤ maxLine - 2)
    (hline : ∀ b ∈ line, b ≠ 0 ∧ b ≠ 10) (hquit : line ≠ cstr "QUIT") :
    ReplyDelivered s idx user before line ↔ ReplyFits s idx line := by
  have hi : Inv t s := inv_reachable hs
  have hn : Named s := named_reachable hs
  by_cases hjoin : (cstr "JOIN ").isPrefixOf line
  · have hp : processLine s idx line =
        some (s.safeSend idx (cstr "ERR ALREADY_JOINED" ++ newline), .stay) := by
      unfold processLine cmdJoin
      dsimp only
      rw [if_pos hjoin, if_pos hjoined]
      rfl
    have hshort : Short (cstr "ERR ALREADY_JOINED") := ⟨by decide, by decide, by decide⟩
    refine iff_of_true ((repliesShort_literal hshort).replyDelivered hbefore hp) ?_
    exact replyFits_of (ne_of_startsWith hjoin (by decide)) (ne_of_startsWith hjoin (by decide))
      fun h => h.join hjoin
  · obtain ⟨hanalyst, htrader⟩ := processLine_joined hjoined hjoin hquit
    rcases (hn idx hconn hjoined).type_eq with htype | htype
    · exact trader_delivered_iff hi hbefore htype hjoin hlen hline (htrader htype)
    · exact analyst_delivered_iff hi hn hbefore htype hjoin hlen hline (hanalyst htype)

/-- A trader joins and buys. -/
def annJoins : List Act :=
  [.accept 4, .input firstSlot (.data (cstr "JOIN TRADER ann\nBUY ACME 3\n")), .line, .line, .line]

theorem runs_annJoins : ∃ s, (serverTrd oneStock).runs (initial oneStock) annJoins = some s ∧
    (s.clients firstSlot).fd = 4 ∧ (s.clients firstSlot).joined = true ∧
      (s.clients firstSlot).type = cstr "TRADER" := by
  have h : ((serverTrd oneStock).runs (initial oneStock) annJoins).map (fun s =>
      ((s.clients firstSlot).fd, (s.clients firstSlot).joined, (s.clients firstSlot).type)) =
        some (4, true, cstr "TRADER") := by
    decide +kernel
  obtain ⟨s, hrun, hclient⟩ := Option.map_eq_some_iff.mp h
  obtain ⟨hfd, hclient⟩ := Prod.mk.inj hclient
  obtain ⟨hjoined, htype⟩ := Prod.mk.inj hclient
  exact ⟨s, hrun, hfd, hjoined, htype⟩

theorem reply_delivered_annJoins :
    ∃ s, (serverTrd oneStock).Reachable s ∧ (s.clients firstSlot).joined = true ∧
      (ReplyDelivered s firstSlot (cstr "ann") [cstr "OK JOIN ann"] (cstr "PORTFOLIO") ↔
        ReplyFits s firstSlot (cstr "PORTFOLIO")) := by
  obtain ⟨s, hrun, hfd, hjoined, -⟩ := runs_annJoins
  have hreach : (serverTrd oneStock).Reachable s := Machine.runs_reachable hrun
  have hprints : Prints (cstr "OK JOIN ann") := ⟨by decide +kernel, by decide, by decide, by decide⟩
  have hplain : Plain (cstr "PORTFOLIO") := by decide
  exact ⟨s, hreach, hjoined, reply_delivered_iff oneStock s firstSlot (cstr "ann")
    (cstr "PORTFOLIO") [cstr "OK JOIN ann"] hreach (List.forall_mem_singleton.mpr hprints)
    (by rw [hfd]; decide) hjoined (by decide) hplain.bytes (by decide)⟩

/-- A line of 499 letters. -/
def longLine : CStr := List.replicate 499 88

/-- The reply to it has 511 bytes before the newline: the client leaves its loop. -/
theorem not_reply_delivered_longLine :
    ∃ s, (serverTrd oneStock).Reachable s ∧ 0 ≤ (s.clients firstSlot).fd ∧
      (s.clients firstSlot).joined = true ∧ longLine.length ≤ maxLine - 2 ∧
      ¬ ReplyDelivered s firstSlot (cstr "ann") [] longLine := by
  obtain ⟨s, hrun, hfd, hjoined, htype⟩ := runs_annJoins
  have hreach : (serverTrd oneStock).Reachable s := Machine.runs_reachable hrun
  have hlen : longLine.length ≤ maxLine - 2 := by decide +kernel
  have hline : ∀ b ∈ longLine, b ≠ 0 ∧ b ≠ 10 := by
    intro b hb
    rw [List.eq_of_mem_replicate hb]
    decide
  have hp : processLine s firstSlot longLine = some (cmdUnknown s firstSlot longLine, .stay) := by
    rw [(processLine_joined hjoined (by decide +kernel) (by decide +kernel)).2 htype]
    unfold traderLine
    rw [if_neg (by decide +kernel), if_neg (by decide +kernel), if_neg (by decide +kernel),
      if_neg (by decide +kernel)]
  refine ⟨s, hreach, by rw [hfd]; decide, hjoined, hlen, ?_⟩
  rw [unknown_delivered_iff (fun line hline => by cases hline) hlen hline hp]
  decide +kernel

end Cse344.Final
