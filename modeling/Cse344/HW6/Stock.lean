import Cse344.HW6.Names
import Cse344.Lib.Totals

/-!
# The stock covers the spellbooks

In exact arithmetic (`hogwarts unbounded`), an invariant of `cmd_brew`, `cmd_consume` and
`remove_client` (`HW6/hogwarts.c` 192-304).

* `StockCovers`: every ingredient's stock is at least what it was at the start and what the
  connected clients' spellbooks hold of it, and the spellbooks are good (`Book`). A free slot has an
  empty book, so the sum is over all slots.
* It is not an equality: a client that leaves takes its book along, and a `BREW` into a full book
  adds to the stock alone.
* `Inv` adds to it that the client whose lines are read is connected.

Results:
* `cmdBrew_keeps`: BREW adds to both sides, or to the stock alone when the book is full.
* `cmdConsume_keeps`: CONSUME takes the same from both, having looked at the book first.
* `setClient_covers`: a disconnect takes a book from the right side alone. Nothing else touches
  either (`handleCommand_keeps`, `inv_step`).
* **`stock_covers_books`**: the invariant holds in every reachable state, so no stock is ever
  negative.

Out of scope: overflow. `Cse344.HW6.Exact` says up to where the code does the same.
-/

namespace Cse344.HW6

open Cse344.Lib

variable {n m : ℕ} {t : Table m} {s s' : Server n m}

/-- The stock covers the spellbooks of the connected clients, over what there was at the start. -/
structure StockCovers (t : Table m) (s : Server n m) : Prop where
  name_eq : ∀ k, (s.ingredients k).name = (t.ingredients k).name
  stock : ∀ k, (t.ingredients k).qty + ∑ i with 0 ≤ (s.clients i).fd,
    bookQty (s.clients i).spellbook (t.ingredients k).name ≤ (s.ingredients k).qty
  books : ∀ i, Book t.Knows (s.clients i).spellbook

/-- What a slot holds under `name`: nothing, when nobody is connected there. -/
def Client.held (c : Client) (name : CStr) : ℤ := if 0 ≤ c.fd then bookQty c.spellbook name else 0

theorem sum_held (s : Server n m) (name : CStr) :
    ∑ i with 0 ≤ (s.clients i).fd, bookQty (s.clients i).spellbook name =
      ∑ i, (s.clients i).held name :=
  Finset.sum_filter _ _

theorem held_nonneg {c : Client} (h : Book t.Knows c.spellbook) (name : CStr) :
    0 ≤ c.held name := by
  unfold Client.held
  split
  · exact bookQty_nonneg h name
  · exact le_refl 0

/-- A stock that covers the books is not below what there was at the start. -/
theorem StockCovers.qty_le (h : StockCovers t s) (k : Fin m) :
    (t.ingredients k).qty ≤ (s.ingredients k).qty := by
  refine le_trans (le_add_of_nonneg_right ?_) (h.stock k)
  rw [sum_held]
  exact Finset.sum_nonneg fun i _ => held_nonneg (h.books i) _

theorem StockCovers.congr (h : StockCovers t s) (hi : s'.ingredients = s.ingredients)
    (hc : s'.clients = s.clients) : StockCovers t s' where
  name_eq := by rw [hi]; exact h.name_eq
  stock := by rw [hi, hc]; exact h.stock
  books := by rw [hc]; exact h.books

/-- One stock and one client change, the client by no more than the stock. -/
theorem StockCovers.exchange (h : StockCovers t s) {idx : Fin n} {c : Client}
    {ingredients : Fin m → Ingredient} (δ : Fin m → ℤ)
    (hname : ∀ k, (ingredients k).name = (s.ingredients k).name)
    (hqty : ∀ k, (ingredients k).qty = (s.ingredients k).qty + δ k)
    (hbook : Book t.Knows c.spellbook)
    (hheld : ∀ k, c.held (t.ingredients k).name ≤
      (s.clients idx).held (t.ingredients k).name + δ k)
    (hi : s'.ingredients = ingredients) (hc : s'.clients = Function.update s.clients idx c) :
    StockCovers t s' where
  name_eq := fun k => by rw [hi, hname, h.name_eq]
  stock := fun k => by
    have hsum := sum_update_add (fun c : Client => c.held (t.ingredients k).name) s.clients idx c
    have hstock := h.stock k
    have hle := hheld k
    rw [sum_held] at hstock ⊢
    rw [hi, hqty, hc]
    omega
  books := by
    rw [hc]
    exact (Function.forall_update_iff s.clients fun _ c => Book t.Knows c.spellbook).mpr
      ⟨hbook, fun i _ => h.books i⟩

/-- A client gives up its book, or keeps it. -/
theorem setClient_covers (h : StockCovers t s) {idx : Fin n} {c : Client}
    (hi : s'.ingredients = s.ingredients) (hc : s'.clients = Function.update s.clients idx c)
    (hbook : c.spellbook = [] ∨
      c.spellbook = (s.clients idx).spellbook ∧ c.fd = (s.clients idx).fd) :
    StockCovers t s' := by
  refine h.exchange (fun _ => 0) (fun _ => rfl) (fun _ => (add_zero _).symm) ?_ (fun k => ?_) hi hc
  · rcases hbook with hnil | ⟨hsame, _⟩
    · rw [hnil]
      exact Book.nil
    · rw [hsame]
      exact h.books idx
  · rw [add_zero]
    rcases hbook with hnil | ⟨hsame, hfd⟩
    · have hzero : c.held (t.ingredients k).name = 0 := by simp [Client.held, hnil]
      rw [hzero]
      exact held_nonneg (h.books idx) _
    · rw [Client.held, Client.held, hsame, hfd]

theorem removeClient_covers (h : StockCovers t s) (idx : Fin n) :
    StockCovers t (removeClient s idx) := by
  unfold removeClient
  split
  · exact h
  · exact setClient_covers h rfl rfl (.inl rfl)

/-! ## Commands -/

/-- A command keeps the invariant, the descriptors and the place in the loop. -/
structure Keeps (t : Table m) (s s' : Server n m) : Prop where
  covers : StockCovers t s'
  fd_eq : ∀ i, (s'.clients i).fd = (s.clients i).fd
  reading_eq : s'.reading = s.reading

theorem keeps_reply (h : StockCovers t s) (idx : Fin n) (line : CStr) :
    Keeps t s (s.reply idx line) :=
  ⟨h.congr rfl rfl, fun _ => rfl, rfl⟩

/-- A command that changes its own client, but for the descriptor. -/
theorem Keeps.of_update (h : StockCovers t s') {idx : Fin n} {c : Client}
    (hc : s'.clients = Function.update s.clients idx c) (hfd : c.fd = (s.clients idx).fd)
    (hr : s'.reading = s.reading) : Keeps t s s' where
  covers := h
  fd_eq := by
    rw [hc]
    exact rel_update (R := fun c c' : Client => c'.fd = c.fd) (fun _ => rfl) hfd
  reading_eq := hr

theorem findIngredient_spec {name : CStr} {k : Fin m} (h : StockCovers t s)
    (hk : findIngredient s name = some k) : (t.ingredients k).name = name := by
  rw [← h.name_eq k]
  simpa using List.find?_some hk

theorem parsePositiveInt_pos {q : CStr} {qty : ℤ} (h : parsePositiveInt q = some qty) :
    0 < qty := by
  unfold parsePositiveInt at h
  split at h
  · cases h
  · dsimp only at h
    split_ifs at h with hend hrange
    obtain rfl := Option.some.inj h
    exact not_le.mp (not_or.mp hrange).1

/-- The name of ingredient `k` is that of `k` alone. -/
theorem name_eq_iff (t : Table m) (k k' : Fin m) :
    (t.ingredients k').name = (t.ingredients k).name ↔ k' = k :=
  ⟨t.name_injective k' k, fun h => h ▸ rfl⟩

/-- The stock of ingredient `k` is changed by `δ`. -/
theorem update_stock (s : Server n m) (k k' : Fin m) (δ : ℤ) :
    let g := Function.update s.ingredients k ⟨(s.ingredients k).name, (s.ingredients k).qty + δ⟩ k'
    g.name = (s.ingredients k').name ∧
      g.qty = (s.ingredients k').qty + if k' = k then δ else 0 := by
  by_cases hk : k' = k
  · subst hk
    simp
  · simp [hk]

theorem cmdBrew_keeps (h : StockCovers t s) {idx : Fin n} (hfd : 0 ≤ (s.clients idx).fd)
    (args : CStr) : Keeps t s (cmdBrew unbounded s idx args) := by
  unfold cmdBrew
  dsimp only
  split
  · rename_i ing qty _ hqty
    obtain ⟨q, _, hqty⟩ := Option.bind_eq_some_iff.mp hqty
    split
    · exact keeps_reply h _ _
    · rename_i k hk
      obtain rfl := findIngredient_spec h hk
      obtain ⟨hbook, hadd⟩ := spellAdd_spec (h.books idx) ⟨k, rfl⟩ (length_lt_of_valid (t.valid k))
        (parsePositiveInt_pos hqty)
      refine .of_update ?_ rfl rfl rfl
      refine h.exchange (fun k' => if k' = k then qty else 0)
        (fun k' => (update_stock s k k' qty).1)
        (fun k' => (update_stock s k k' qty).2) hbook (fun k' => ?_) rfl rfl
      have hpos := parsePositiveInt_pos hqty
      simp only [Client.held, hfd, if_true, hadd, name_eq_iff]
      refine Int.add_le_add_left ?_ _
      by_cases hk' : k' = k
      · rw [if_pos hk']
        split
        · exact le_refl _
        · exact hpos.le
      · rw [if_neg hk', if_neg fun hand => hk' hand.2]
  · exact keeps_reply h _ _

theorem cmdConsume_keeps (h : StockCovers t s) {idx : Fin n} (hfd : 0 ≤ (s.clients idx).fd)
    (args : CStr) : Keeps t s (cmdConsume unbounded s idx args) := by
  unfold cmdConsume
  dsimp only
  split
  · rename_i ing qty _ hqty
    obtain ⟨q, _, hqty⟩ := Option.bind_eq_some_iff.mp hqty
    split
    · exact keeps_reply h _ _
    · rename_i k hk
      obtain rfl := findIngredient_spec h hk
      split
      · exact keeps_reply h _ _
      · rename_i henough
        rw [spellQty_eq (h.books idx).toNames, not_lt] at henough
        obtain ⟨hbook, hsub⟩ := spellSub_spec (h.books idx) (parsePositiveInt_pos hqty) henough
        refine .of_update ?_ rfl rfl rfl
        refine h.exchange (fun k' => if k' = k then -qty else 0)
          (fun k' => (update_stock s k k' (-qty)).1) (fun k' => (update_stock s k k' (-qty)).2)
          hbook (fun k' => ?_) rfl rfl
        simp only [Client.held, hfd, if_true, hsub, name_eq_iff]
        split <;> omega
  · exact keeps_reply h _ _

theorem cmdEnroll_keeps (h : StockCovers t s) (idx : Fin n) (args : CStr) :
    Keeps t s (cmdEnroll s idx args) := by
  unfold cmdEnroll
  dsimp only
  split
  · exact keeps_reply h _ _
  · split
    · split_ifs
      · exact keeps_reply h _ _
      · exact keeps_reply h _ _
      · exact keeps_reply h _ _
      · refine .of_update ?_ rfl rfl rfl
        exact setClient_covers h rfl rfl (.inr ⟨rfl, rfl⟩)
    · exact keeps_reply h _ _

theorem cmdInspect_keeps (h : StockCovers t s) (idx : Fin n) (args : CStr) :
    Keeps t s (cmdInspect s idx args) := by
  unfold cmdInspect
  split
  · exact keeps_reply h _ _
  · split <;> exact keeps_reply h _ _

theorem cmdSpellbook_keeps (h : StockCovers t s) (idx : Fin n) :
    Keeps t s (cmdSpellbook s idx) := by
  unfold cmdSpellbook
  split <;> exact keeps_reply h _ _

theorem authorized_keeps (h : StockCovers t s) {idx : Fin n} {role : String} {run : Server n m}
    (hrun : Keeps t s run) : Keeps t s (authorized s idx role run) := by
  unfold authorized
  split
  · exact hrun
  · exact keeps_reply h _ _

/-- **Every command keeps the invariant.** -/
theorem handleCommand_keeps (h : StockCovers t s) {idx : Fin n} (hfd : 0 ≤ (s.clients idx).fd)
    (line : CStr) : Keeps t s (handleCommand unbounded s idx line).1 := by
  have hdispatch := handleCommand_dispatch unbounded s idx line
  generalize handleCommand unbounded s idx line = r at hdispatch ⊢
  cases hdispatch with
  | empty => exact ⟨h, fun _ => rfl, rfl⟩
  | apparate args _ => exact keeps_reply h _ _
  | enroll args _ => exact cmdEnroll_keeps h _ _
  | notEnrolled => exact keeps_reply h _ _
  | brew args _ _ => exact authorized_keeps h (cmdBrew_keeps h hfd _)
  | consume args _ _ => exact authorized_keeps h (cmdConsume_keeps h hfd _)
  | spellbook => exact authorized_keeps h (cmdSpellbook_keeps h _)
  | inspect args => exact authorized_keeps h (cmdInspect_keeps h _ _)
  | scroll => exact authorized_keeps h (keeps_reply h _ _)
  | roster => exact authorized_keeps h (keeps_reply h _ _)
  | unknown cmd => exact keeps_reply h _ _

/-! ## Steps -/

/-- The invariant of the server: while it goes through the lines of a client, that client is
connected. -/
structure Inv (t : Table m) (s : Server n m) : Prop where
  covers : StockCovers t s
  connected : ∀ idx, s.reading = some idx → 0 ≤ (s.clients idx).fd

/-- The invariant, when the server is not going through a client's lines. -/
structure Idle (t : Table m) (s : Server n m) : Prop where
  covers : StockCovers t s
  reading_eq : s.reading = none

theorem Idle.inv (h : Idle t s) : Inv t s :=
  ⟨h.covers, fun idx hidx => by rw [h.reading_eq] at hidx; cases hidx⟩

theorem removeClient_idle (h : Idle t s) (idx : Fin n) : Idle t (removeClient s idx) := by
  refine ⟨removeClient_covers h.covers idx, ?_⟩
  unfold removeClient
  split <;> exact h.reading_eq

theorem reply_idle (h : Idle t s) (idx : Fin n) (line : CStr) : Idle t (s.reply idx line) :=
  ⟨(keeps_reply h.covers idx line).covers, h.reading_eq⟩

theorem checkIdle_idle {timeoutSec now : ℤ} (h : Idle t s) (idx : Fin n) :
    Idle t (checkIdle timeoutSec now s idx) := by
  unfold checkIdle
  split_ifs
  · exact h
  · exact removeClient_idle (reply_idle h _ _) idx
  · exact h

theorem shutdownClient_idle (h : Idle t s) (idx : Fin n) : Idle t (shutdownClient s idx) := by
  unfold shutdownClient
  split
  · exact ⟨setClient_covers h.covers rfl rfl (.inl rfl), h.reading_eq⟩
  · exact h

/-- A loop over the slots keeps what each of its rounds keeps. -/
theorem foldl_keeps {P : Server n m → Prop} {f : Server n m → Fin n → Server n m}
    (hf : ∀ s idx, P s → P (f s idx)) :
    ∀ (l : List (Fin n)) (s : Server n m), P s → P (l.foldl f s)
  | [], _, h => h
  | idx :: l, s, h => foldl_keeps hf l (f s idx) (hf s idx h)

theorem acceptNewConnection_idle (h : Idle t s) (cfd : ℕ) (now : ℤ) :
    Idle t (acceptNewConnection s cfd now) := by
  unfold acceptNewConnection
  split
  · exact ⟨h.covers.congr rfl rfl, h.reading_eq⟩
  · exact ⟨setClient_covers h.covers rfl rfl (.inl rfl), h.reading_eq⟩

theorem readInput_inv {idx : Fin n} {input : Input} {now : ℤ} (h : Idle t s)
    (hfd : 0 ≤ (s.clients idx).fd) (hs : readInput s idx input now = some s') : Inv t s' := by
  unfold readInput at hs
  dsimp only at hs
  split at hs
  · obtain rfl := Option.some.inj hs
    exact (removeClient_idle (reply_idle h _ _) idx).inv
  · split at hs
    · obtain rfl := Option.some.inj hs
      exact (removeClient_idle h idx).inv
    · obtain rfl := Option.some.inj hs
      exact (removeClient_idle h idx).inv
    · split at hs
      · obtain rfl := Option.some.inj hs
        refine ⟨setClient_covers h.covers rfl rfl (.inr ⟨rfl, rfl⟩), ?_⟩
        rintro i ⟨⟩
        simp [hfd]
      · cases hs

theorem handleLine_inv {idx : Fin n} (h : Inv t s) (hr : s.reading = some idx) :
    Inv t (handleLine unbounded s idx) := by
  have hfd := h.connected idx hr
  unfold handleLine
  dsimp only
  split
  · split
    · have hremoved :=
        removeClient_covers (keeps_reply h.covers idx (cstr "ERR TOOLONG")).covers idx
      exact Idle.inv ⟨hremoved.congr rfl rfl, rfl⟩
    · exact Idle.inv ⟨h.covers.congr rfl rfl, rfl⟩
  · -- the rest of the buffer is put back, and the line is a command
    have hback : StockCovers t (s.setClient idx { s.clients idx with
        lineBuf := (s.clients idx).lineBuf.drop
          (((s.clients idx).lineBuf.takeWhile fun b => b != 10).length + 1) }) :=
      setClient_covers h.covers rfl rfl (.inr ⟨rfl, rfl⟩)
    have hconn : 0 ≤ ((s.setClient idx { s.clients idx with
        lineBuf := (s.clients idx).lineBuf.drop
          (((s.clients idx).lineBuf.takeWhile fun b => b != 10).length + 1) }).clients idx).fd := by
      simpa using hfd
    have hkeeps := handleCommand_keeps hback hconn
      (lineString ((s.clients idx).lineBuf.takeWhile fun b => b != 10))
    split
    · exact Idle.inv ⟨(removeClient_covers hkeeps.covers idx).congr rfl rfl, rfl⟩
    · refine ⟨hkeeps.covers, fun i hi => ?_⟩
      rw [hkeeps.reading_eq] at hi
      obtain rfl := Option.some.inj (hr.symm.trans hi)
      rw [hkeeps.fd_eq]
      simpa using hfd

/-- **A step keeps the invariant.** -/
theorem inv_step {timeoutSec : ℤ} {act : Act n} (h : Inv t s)
    (hs : serverStep unbounded timeoutSec s act = some s') : Inv t s' := by
  unfold serverStep at hs
  split at hs
  · split at hs
    case h_1 idx hr =>
      obtain rfl := Option.some.inj hs
      exact handleLine_inv h hr
    case h_2 => cases hs
    case h_3 => cases hs
    case h_4 now hr =>
      obtain rfl := Option.some.inj hs
      exact (foldl_keeps (P := Idle t) (fun _ idx h => checkIdle_idle h idx) _ _ ⟨h.covers, hr⟩).inv
    case h_5 fd now hr =>
      obtain rfl := Option.some.inj hs
      exact (acceptNewConnection_idle ⟨h.covers, hr⟩ fd now).inv
    case h_6 idx input now hr =>
      split at hs
      · rename_i hfd
        exact readInput_inv ⟨h.covers, hr⟩ hfd hs
      · cases hs
    case h_7 hr =>
      obtain rfl := Option.some.inj hs
      have hidle := foldl_keeps (P := Idle t) (fun _ idx h => shutdownClient_idle h idx)
        (List.finRange n) s
        ⟨h.covers, hr⟩
      exact Idle.inv ⟨hidle.covers.congr rfl rfl, hidle.reading_eq⟩
  · cases hs

theorem inv_init : Inv t (initial t : Server n m) := by
  refine Idle.inv ⟨⟨fun _ => rfl, fun k => ?_, fun _ => Book.nil⟩, rfl⟩
  simp [initial, Client.reset]

theorem inv_reachable {timeoutSec : ℤ} (h : (hogwarts unbounded t n timeoutSec).Reachable s) :
    Inv t s :=
  h.induct inv_init fun _ _ _ hi hs => inv_step hi hs

/-- **In every reachable state** the stock covers the spellbooks, the spellbooks are good, and no
stock is negative. -/
theorem stock_covers_books (t : Table m) (n : ℕ) (timeoutSec : ℤ) (s : Server n m)
    (h : (hogwarts unbounded t n timeoutSec).Reachable s) :
    StockCovers t s ∧ ∀ k, 0 ≤ (s.ingredients k).qty := by
  have hinv : Inv t s := inv_reachable h
  exact ⟨hinv.covers, fun k => (t.pos k).le.trans (hinv.covers.qty_le k)⟩

/-- One ingredient. -/
def saltTable : Table 1 where
  ingredients := fun _ => ⟨cstr "SALT", 5⟩
  le_max := by decide
  valid := by decide
  pos := by decide
  name_injective := by decide

/-- A wizard brews 4 and consumes 3 in one message. -/
def saltRun (i : Fin n) : List (Act n) :=
  [.accept 4 0, .accept 5 0,
    .input i (.data (cstr "ENROLL WIZARD gandalf\nBREW SALT 4\nCONSUME SALT 3\n")) 1,
    .line, .line, .line]

theorem stock_covers_books_saltRun :
    ∃ s : Server 2 1, (hogwarts unbounded saltTable 2 60).Reachable s ∧ (s.ingredients 0).qty = 6 ∧
      (s.clients 1).spellbook = [⟨cstr "SALT", 1⟩] ∧
      StockCovers saltTable s ∧ ∀ k, 0 ≤ (s.ingredients k).qty := by
  have h : ((hogwarts unbounded saltTable 2 60).runs (initial saltTable) (saltRun 1)).map (fun s =>
      ((s.ingredients 0).qty, (s.clients 1).spellbook)) = some (6, [⟨cstr "SALT", 1⟩]) := by
    decide +kernel
  obtain ⟨s, hrun, hs⟩ := Option.map_eq_some_iff.mp h
  obtain ⟨hqty, hbook⟩ := Prod.mk.inj hs
  have hreach : (hogwarts unbounded saltTable 2 60).Reachable s := Machine.runs_reachable hrun
  exact ⟨s, hreach, hqty, hbook, stock_covers_books saltTable 2 60 s hreach⟩

end Cse344.HW6
