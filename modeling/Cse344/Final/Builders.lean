import Cse344.Final.LoadStocks
import Cse344.Final.Replies

/-!
# The buffers that lists are built in

`PORTFOLIO`, `REPORT`, `LIST` (`process_line`, `Final/ServerTrd.c` 347-363 and 230-258) and
`send_price_broadcast` (380-398) build a text in a buffer on the stack: a head, the items with a
separating byte between them, a newline and the NUL.

* `off` is where the next piece goes. Every `snprintf` is given what is left of the buffer, and
  `off` grows by what it returns, the length of the whole piece. No builder looks at `off`.
* `writes` are the pieces of a builder and the offsets they go to, `WritesFit` says that each of
  them is inside the buffer. A run goes on only while they are, as C says nothing about what
  follows.

Results:
* `writesFit_iff`: they fit if the text, its newline and its NUL do; `writesFit_iff_built`: which is
  where the server has a step.
* **`builders_fit`**: in every reachable state `LIST` fits, and of the others exactly those whose
  lengths do.
* `dearTable_overflows`, `loadStocks_dear`: a file with 128 dear stocks, which `load_stocks`
  accepts, makes the first `REPORT` and broadcast leave their buffers.

Out of scope: what is overwritten then.
-/

namespace Cse344.Final

open Cse344.Lib

variable {m : ℕ} {t : Table m} {s : Server m} {size : ℕ} {head sep : CStr} {items : List CStr}

/-! ## A builder -/

/-- What a builder writes: a byte at an offset, or with `snprintf` a piece from an offset on. -/
inductive Write
  | byte (off : ℕ)
  | print (off : ℕ) (piece : CStr)

/-- The byte is in the buffer, and the piece is written in full, with the NUL after it. -/
def Write.Fits (size : ℕ) : Write → Prop
  | .byte off => off < size
  | .print off piece => off + piece.length < size

/-- The loop over the items, and the end of the builder; `first` is the item that has no separator
before it. -/
def loopWrites (first : Bool) (off : ℕ) : List CStr → List Write
  | [] => [.byte off, .byte (off + 1)]
  | item :: items =>
    if first then .print off item :: loopWrites false (off + item.length) items
    else .byte off :: .print (off + 1) item :: loopWrites false (off + 1 + item.length) items

def writes (head : CStr) (items : List CStr) : List Write :=
  .print 0 head :: loopWrites true head.length items

/-- Every write of a builder stays in its buffer. -/
def WritesFit (size : ℕ) (head : CStr) (items : List CStr) : Prop :=
  ∀ w ∈ writes head items, w.Fits size

/-- The length that the loop adds. -/
def loopLength (first : Bool) (items : List CStr) : ℕ :=
  (items.map List.length).sum + if first then items.length - 1 else items.length

theorem loopWrites_fit_iff (first : Bool) (off : ℕ) (items : List CStr) :
    (∀ w ∈ loopWrites first off items, w.Fits size) ↔ off + loopLength first items + 1 < size := by
  induction items generalizing first off with
  | nil =>
    simp only [loopWrites, List.forall_mem_cons, Write.Fits, List.not_mem_nil, loopLength,
      List.map_nil, List.sum_nil, List.length_nil, ite_self]
    simp
    omega
  | cons item items ih =>
    cases first with
    | true =>
      rw [loopWrites, if_pos rfl, List.forall_mem_cons, ih]
      simp only [Write.Fits, loopLength, List.map_cons, List.sum_cons, List.length_cons, if_true,
        Nat.add_sub_cancel, Bool.false_eq_true, if_false]
      omega
    | false =>
      rw [loopWrites, if_neg Bool.false_ne_true, List.forall_mem_cons, List.forall_mem_cons, ih]
      simp only [Write.Fits, loopLength, List.map_cons, List.sum_cons, List.length_cons,
        Bool.false_eq_true, if_false]
      omega

/-- **A builder stays in its buffer** if the text has room there with a newline and a NUL. -/
theorem writesFit_iff (hsep : sep.length = 1) :
    WritesFit size head items ↔ (head ++ sep.intercalate items).length + 2 ≤ size := by
  rw [WritesFit, writes, List.forall_mem_cons, loopWrites_fit_iff, List.length_append,
    length_intercalate, hsep]
  simp only [Write.Fits, loopLength, if_true]
  omega

/-- The server has a step for the text then, and only then. -/
theorem writesFit_iff_built (hsep : sep.length = 1) :
    WritesFit size head items ↔ (built size (head ++ sep.intercalate items)).isSome = true := by
  rw [writesFit_iff hsep, built]
  split_ifs with h
  · exact iff_of_true h rfl
  · exact iff_of_false h Bool.false_ne_true

/-! ## The four builders -/

/-- The stocks as `REPORT` and the broadcast write them. -/
def stockTexts (s : Server m) : List CStr := (List.ofFn s.stocks).map Stock.text

theorem length_broadcastText (s : Server m) :
    (broadcastText s).length = reportLength s + 3 := by
  have hreport := length_reportText s
  have hsp : sp.length = 1 := rfl
  have hcomma : (cstr ",").length = 1 := rfl
  have hhead : (cstr "OK REPORT ").length = 10 := rfl
  have hhead' : (cstr "PRICE_UPDATE ").length = 13 := rfl
  rw [reportText, List.length_append, length_intercalate, hhead, hcomma] at hreport
  rw [broadcastText, List.length_append, length_intercalate, hhead', hsp]
  omega

/-- The names of a table are short: each is a symbol. -/
theorem list_fits (hs : (serverTrd t).Reachable s) :
    WritesFit 2048 (cstr "OK LIST ") (joinedNames s) := by
  have hcomma : (cstr ",").length = 1 := rfl
  have hshort := (short_listText (named_reachable hs)).length_le
  rw [writesFit_iff hcomma, ← listText]
  unfold maxLine at hshort
  omega

theorem report_fits_iff :
    WritesFit 4096 (cstr "OK REPORT ") (stockTexts s) ↔ reportLength s + 2 ≤ 4096 := by
  have hcomma : (cstr ",").length = 1 := rfl
  rw [writesFit_iff hcomma, ← length_reportText]
  rfl

theorem broadcast_fits_iff :
    WritesFit 4096 (cstr "PRICE_UPDATE ") (stockTexts s) ↔ reportLength s + 5 ≤ 4096 := by
  have hsp : sp.length = 1 := rfl
  rw [writesFit_iff hsp]
  change (broadcastText s).length + 2 ≤ 4096 ↔ _
  rw [length_broadcastText]

theorem portfolio_fits_iff (portfolio : List Holding) :
    WritesFit 2048 (cstr "OK PORTFOLIO ") (portfolio.map Holding.text) ↔
      portfolioLength portfolio + 2 ≤ 2048 := by
  have hcomma : (cstr ",").length = 1 := rfl
  rw [writesFit_iff hcomma, ← length_portfolioText]
  rfl

/-- **Where the builders stay in their buffers**, in a reachable state: `LIST` always does, `REPORT`
and the broadcast by the length of the stocks as they are written, `PORTFOLIO` by that of the
holdings. -/
theorem builders_fit (t : Table m) (s : Server m) (hs : (serverTrd t).Reachable s) :
    WritesFit 2048 (cstr "OK LIST ") (joinedNames s) ∧
    (WritesFit 4096 (cstr "OK REPORT ") (stockTexts s) ↔ reportLength s + 2 ≤ 4096) ∧
    (WritesFit 4096 (cstr "PRICE_UPDATE ") (stockTexts s) ↔ reportLength s + 5 ≤ 4096) ∧
    ∀ idx, WritesFit 2048 (cstr "OK PORTFOLIO ") ((s.clients idx).portfolio.map Holding.text) ↔
      portfolioLength (s.clients idx).portfolio + 2 ≤ 2048 :=
  ⟨list_fits hs, report_fits_iff, broadcast_fits_iff,
    fun idx => portfolio_fits_iff (s.clients idx).portfolio⟩

/-- One stock at 100.50. -/
theorem builders_fit_oneStock :
    WritesFit 4096 (cstr "PRICE_UPDATE ") (stockTexts (initial oneStock)) :=
  (builders_fit oneStock (initial oneStock) .init).2.2.1.mpr (by decide +kernel)

/-! ## Short lists -/

/-- Prices below 10^18, with two digits after the point, have at most 21 bytes. -/
theorem stockTexts_fit (hs : (serverTrd t).Reachable s)
    (hprice : ∀ k, (s.stocks k).price.text.length ≤ 21) :
    WritesFit 4096 (cstr "OK REPORT ") (stockTexts s) ∧
      WritesFit 4096 (cstr "PRICE_UPDATE ") (stockTexts s) := by
  have hi : Inv t s := inv_reachable hs
  have hsum : ((List.ofFn s.stocks).map
      fun st => st.symbol.length + 1 + st.price.text.length).sum ≤ m * 30 := by
    have hle := List.sum_le_card_nsmul ((List.ofFn s.stocks).map
      fun st => st.symbol.length + 1 + st.price.text.length) 30 fun n hn => by
        obtain ⟨st, hst, rfl⟩ := List.mem_map.mp hn
        obtain ⟨k, rfl⟩ := List.mem_ofFn.mp hst
        have hsymbol := (plain_symbol hi k).2
        have := hprice k
        omega
    rwa [List.length_map, List.length_ofFn, smul_eq_mul] at hle
  have hmax : m ≤ 128 := t.le_max
  rw [report_fits_iff, broadcast_fits_iff, reportLength]
  omega

/-- A portfolio of at most 96 stocks, whatever is held of them. -/
theorem portfolio_fits (hs : (serverTrd t).Reachable s) (idx : Fin maxClients)
    (hint : ∀ h ∈ (s.clients idx).portfolio, h.qty.natAbs < 10 ^ 10)
    (hlen : (s.clients idx).portfolio.length ≤ 96) :
    WritesFit 2048 (cstr "OK PORTFOLIO ") ((s.clients idx).portfolio.map Holding.text) := by
  have hi : Inv t s := inv_reachable hs
  have hsum : ((s.clients idx).portfolio.map
      fun h => h.symbol.length + 1 + (decimal h.qty).length).sum ≤
        (s.clients idx).portfolio.length * 20 := by
    have hle := List.sum_le_card_nsmul ((s.clients idx).portfolio.map
      fun h => h.symbol.length + 1 + (decimal h.qty).length) 20 fun n hn => by
        obtain ⟨h, hh, rfl⟩ := List.mem_map.mp hn
        obtain ⟨k, hk⟩ := (hi.kept idx).known h hh
        have hsymbol := (plain_of_validSymbol (t.valid k)).2
        rw [hk] at hsymbol
        have hqty := length_decimal_le (by decide) (hint h hh)
        omega
    rwa [List.length_map, smul_eq_mul] at hle
  rw [portfolio_fits_iff, portfolioLength]
  omega

/-! ## Long prices -/

/-- As many stocks as there can be, with symbols of 8 letters and prices of 39 digits. -/
def dearTable : Table maxStocks where
  stocks := fun _ => ⟨cstr "AAAAAAAA", ⟨3e38, false⟩⟩
  pos := by decide
  le_max := le_refl maxStocks
  valid := fun _ => by decide
  price_pos := fun _ => by decide +kernel

/-- It is the table of a file with 128 times the same line. -/
theorem loadStocks_dear : loadStocks [] (List.replicate maxStocks (cstr "AAAAAAAA 3e38\n")) =
    List.ofFn dearTable.stocks := by
  have hscan : scanStock (cstr "AAAAAAAA 3e38\n") = some ⟨cstr "AAAAAAAA", ⟨3e38, false⟩⟩ := by
    decide +kernel
  rw [loadStocks_eq _ [] (Nat.zero_le _), List.nil_append,
    List.filterMap_replicate_of_some hscan, List.take_replicate, Nat.min_self]
  exact (List.ofFn_const _ _).symm

/-- **`REPORT` and the broadcast of that table leave their buffers**, from the start on. -/
theorem dearTable_overflows : (serverTrd dearTable).Reachable (initial dearTable) ∧
    ¬WritesFit 4096 (cstr "OK REPORT ") (stockTexts (initial dearTable)) ∧
    ¬WritesFit 4096 (cstr "PRICE_UPDATE ") (stockTexts (initial dearTable)) := by
  have hreach : (serverTrd dearTable).Reachable (initial dearTable) := .init
  have hprice : (CFloat.text ⟨3e38, false⟩).length = 42 := by decide +kernel
  have hlength : reportLength (initial dearTable) = 6665 := by
    have hstocks : List.ofFn (initial dearTable).stocks =
        List.replicate maxStocks ⟨cstr "AAAAAAAA", ⟨3e38, false⟩⟩ := List.ofFn_const _ _
    have hsymbol : (cstr "AAAAAAAA").length = 8 := rfl
    rw [reportLength, hstocks, List.map_replicate, List.sum_replicate, hsymbol, hprice]
    rfl
  refine ⟨hreach, ?_, ?_⟩
  · rw [report_fits_iff, hlength]
    decide
  · rw [broadcast_fits_iff, hlength]
    decide

end Cse344.Final
