import Cse344.Lib.CString
import Cse344.Lib.Ledger
import Mathlib.Algebra.Order.BigOperators.Group.List

/-!
# Spellbooks

Model of `spell_find`, `spell_add` and `spell_sub` (`HW6/hogwarts.c` 202-232). A spellbook is the
list of its first `spell_count` entries.

* The quantities are `int`s. What an `int` keeps of a sum is the parameter `int` of the model:
  `wrap32` in the code, where an overflow goes round, and `unbounded` in exact arithmetic. What does
  not depend on it is said of every `int`.
* `spell_sub` removes an entry by putting the last one in its place, so what is said of spellbooks
  here does not depend on the order.
* `strncpy` cuts a name at 16 bytes, and the names of ingredients have no more (`spellAdd_names`).

Results:
* `spellAdd_names`, `spellSub_names`: the names in a book stay different and known (`Names`).
* **`spellAdd_qty`**, **`spellSub_qty`**: they change what a book holds (`bookQty`) under the one
  name.
* `spellAdd_spec`, `spellSub_spec`: in exact arithmetic they keep a book good (`Book`).

Out of scope: when the server calls them, which is `Cse344.HW6.Hogwarts`.
-/

namespace Cse344.HW6

open Cse344.Lib

/-- `MAX_INGREDIENT_LEN`. -/
def maxIngredientLen : ℕ := 17

/-- `MAX_SPELLBOOK_ENTRIES`. -/
def maxSpellbookEntries : ℕ := 64

/-- `spell_entry_t`. -/
structure SpellEntry where
  name : CStr
  qty : ℤ
  deriving DecidableEq, Repr

/-- Exact arithmetic: an `int` that keeps every value. -/
def unbounded (v : ℤ) : ℤ := v

@[simp] theorem unbounded_eq (v : ℤ) : unbounded v = v := rfl

def spellFind (book : List SpellEntry) (name : CStr) : Option (Fin book.length) :=
  book.findFinIdx? fun e => e.name = name

/-- The book after `spell_add`, and its return value. -/
def spellAdd (int : ℤ → ℤ) (book : List SpellEntry) (name : CStr) (qty : ℤ) :
    List SpellEntry × Bool :=
  match spellFind book name with
  | some idx => (book.set idx ⟨book[idx].name, int (book[idx].qty + qty)⟩, true)
  | none =>
    if maxSpellbookEntries ≤ book.length then (book, false)
    else (book ++ [⟨name.take (maxIngredientLen - 1), qty⟩], true)

def spellSub (int : ℤ → ℤ) (book : List SpellEntry) (name : CStr) (qty : ℤ) : List SpellEntry :=
  match spellFind book name with
  | none => book
  | some idx =>
    let left := int (book[idx].qty - qty)
    let left := if left < 0 then 0 else left
    if left = 0 then swapRemove (book.set idx ⟨book[idx].name, left⟩) idx
    else book.set idx ⟨book[idx].name, left⟩

/-! ## Entries -/

theorem spellFind_eq_some {book : List SpellEntry} {name : CStr} {idx : Fin book.length}
    (h : spellFind book name = some idx) : book[idx].name = name := by
  have := (List.findFinIdx?_eq_some_iff.mp h).1
  simpa using this

theorem spellFind_eq_none {book : List SpellEntry} {name : CStr} (h : spellFind book name = none) :
    ∀ e ∈ book, e.name ≠ name := by
  have := List.findFinIdx?_eq_none_iff.mp h
  simpa using this

/-! ## Books -/

/-- What a book holds under `name`. -/
def bookQty (book : List SpellEntry) (name : CStr) : ℤ :=
  keySum SpellEntry.name SpellEntry.qty book name

/-- Different names, all of them known. -/
structure Names (known : CStr → Prop) (book : List SpellEntry) : Prop where
  nodup : (book.map SpellEntry.name).Nodup
  known : ∀ e ∈ book, known e.name

/-- Different names, all of them known, with positive quantities. -/
structure Book (known : CStr → Prop) (book : List SpellEntry) : Prop
    extends Names known book where
  pos : ∀ e ∈ book, 0 < e.qty

variable {int : ℤ → ℤ} {known : CStr → Prop} {book book' rest : List SpellEntry} {e : SpellEntry}
  {name : CStr} {qty : ℤ}

@[simp] theorem bookQty_nil (name : CStr) : bookQty [] name = 0 := rfl

theorem bookQty_cons (e : SpellEntry) (book : List SpellEntry) (name : CStr) :
    bookQty (e :: book) name = (if e.name = name then e.qty else 0) + bookQty book name :=
  keySum_cons e book name

theorem bookQty_perm (h : book.Perm book') (name : CStr) : bookQty book name = bookQty book' name :=
  keySum_perm h name

/-- An entry with another quantity. -/
theorem bookQty_set (idx : Fin book.length) (qty : ℤ) (a : CStr) :
    bookQty (book.set idx ⟨book[idx].name, qty⟩) a =
      bookQty book a + if book[idx].name = a then qty - book[idx].qty else 0 :=
  keySum_set SpellEntry.name SpellEntry.qty (e := ⟨book[idx].name, qty⟩) idx rfl a

theorem bookQty_nonneg (h : Book known book) (name : CStr) : 0 ≤ bookQty book name := by
  refine List.sum_nonneg fun q hq => ?_
  obtain ⟨e, he, rfl⟩ := List.mem_map.mp hq
  exact (h.pos e (List.mem_of_mem_filter he)).le

theorem Names.nil : Names known [] := ⟨List.nodup_nil, by simp⟩

theorem Names.perm (h : Names known book) (hp : book.Perm book') : Names known book' where
  nodup := (hp.map _).nodup_iff.mp h.nodup
  known := fun e he => h.known e (hp.mem_iff.mpr he)

theorem names_cons_iff : Names known (e :: book) ↔
    known e.name ∧ (∀ x ∈ book, x.name ≠ e.name) ∧ Names known book := by
  constructor
  · rintro ⟨hnd, hk⟩
    rw [nodup_map_cons] at hnd
    rw [List.forall_mem_cons] at hk
    exact ⟨hk.1, hnd.1, hnd.2, hk.2⟩
  · rintro ⟨hk, hne, hnd, hks⟩
    exact ⟨nodup_map_cons.mpr ⟨hne, hnd⟩, List.forall_mem_cons.mpr ⟨hk, hks⟩⟩

theorem Book.nil : Book known [] := ⟨.nil, by simp⟩

/-- The entry `spell_find` finds is all the book holds under the name. -/
theorem bookQty_of_find (h : Names known book) {idx : Fin book.length}
    (hidx : spellFind book name = some idx) : bookQty book name = book[idx].qty := by
  unfold bookQty
  rw [← spellFind_eq_some hidx]
  exact keySum_of_get h.nodup idx

theorem bookQty_eq_zero (h : ∀ e ∈ book, e.name ≠ name) : bookQty book name = 0 := keySum_eq_zero h

/-- A new entry, whose name is not cut. -/
theorem newEntry_perm (hlen : name.length < maxIngredientLen) :
    (book ++ [(⟨name.take (maxIngredientLen - 1), qty⟩ : SpellEntry)]).Perm
      (⟨name, qty⟩ :: book) := by
  have htake : name.take (maxIngredientLen - 1) = name :=
    List.take_of_length_le (Nat.le_pred_of_lt hlen)
  rw [htake]
  exact List.perm_append_singleton _ _

/-! ## `spell_add` -/

/-- `spell_add` returns 1 exactly if the name is in the book or an entry is free. -/
theorem spellAdd_added_iff : (spellAdd int book name qty).2 = true ↔
    (∃ e ∈ book, e.name = name) ∨ book.length < maxSpellbookEntries := by
  unfold spellAdd
  cases hfind : spellFind book name with
  | some i => exact ⟨fun _ => .inl ⟨_, List.get_mem book i, spellFind_eq_some hfind⟩, fun _ => rfl⟩
  | none =>
    have hno : ¬ ∃ e ∈ book, e.name = name := fun ⟨e, he, heq⟩ => spellFind_eq_none hfind e he heq
    dsimp only
    split_ifs with hfull
    · exact ⟨fun h => h.elim, fun h => absurd (h.resolve_left hno) hfull.not_gt⟩
    · exact ⟨fun _ => .inr (not_le.mp hfull), fun _ => rfl⟩

theorem spellAdd_names (h : Names known book) (hname : known name)
    (hlen : name.length < maxIngredientLen) : Names known (spellAdd int book name qty).1 := by
  unfold spellAdd
  split
  · rename_i idx _
    have hsplit := names_cons_iff.mp (h.perm (perm_eraseIdx idx))
    exact (names_cons_iff.mpr hsplit : Names known
      (⟨book[idx].name, int (book[idx].qty + qty)⟩ :: book.eraseIdx idx)).perm (set_perm idx _).symm
  · rename_i hnone
    split
    · exact h
    · exact (names_cons_iff.mpr ⟨hname, spellFind_eq_none hnone, h⟩).perm (newEntry_perm hlen).symm

/-- **`spell_add`** adds to what the book holds under the name, when it returns 1. -/
theorem spellAdd_qty (hint : int qty = qty) (h : Names known book)
    (hlen : name.length < maxIngredientLen) (a : CStr) :
    bookQty (spellAdd int book name qty).1 a =
      if (spellAdd int book name qty).2 ∧ a = name then int (bookQty book name + qty)
      else bookQty book a := by
  unfold spellAdd
  split
  · rename_i idx hidx
    rw [bookQty_of_find h hidx, bookQty_set, spellFind_eq_some hidx]
    by_cases ha : a = name
    · rw [if_pos ha.symm, if_pos ⟨rfl, ha⟩, ha, bookQty_of_find h hidx, add_sub_cancel]
    · rw [if_neg fun heq => ha heq.symm, if_neg fun hand => ha hand.2, add_zero]
  · rename_i hnone
    split
    · rw [if_neg fun hand => Bool.false_ne_true hand.1]
    · rw [bookQty_perm (newEntry_perm hlen), bookQty_cons,
        bookQty_eq_zero (spellFind_eq_none hnone), zero_add, hint]
      by_cases ha : a = name
      · rw [if_pos ha.symm, if_pos ⟨rfl, ha⟩, ha, bookQty_eq_zero (spellFind_eq_none hnone),
          add_zero]
      · rw [if_neg fun heq => ha heq.symm, if_neg fun hand => ha hand.2, zero_add]

/-- What holds of the quantities before, of the new one and of the sum, holds after. -/
theorem spellAdd_forall {P : ℤ → Prop} (h : ∀ e ∈ book, P e.qty) (hnew : P qty)
    (hsum : ∀ e ∈ book, P (int (e.qty + qty))) :
    ∀ e ∈ (spellAdd int book name qty).1, P e.qty := by
  unfold spellAdd
  split
  · rename_i idx _
    intro e he
    rcases List.mem_or_eq_of_mem_set he with he | rfl
    · exact h e he
    · exact hsum _ (List.getElem_mem idx.isLt)
  · split
    · exact h
    · refine List.forall_mem_append.mpr ⟨h, fun e he => ?_⟩
      rw [List.mem_singleton.mp he]
      exact hnew

/-! ## `spell_sub` -/

theorem spellSub_names (h : Names known book) : Names known (spellSub int book name qty) := by
  unfold spellSub
  split
  · exact h
  · rename_i idx _
    have hsplit := names_cons_iff.mp (h.perm (perm_eraseIdx idx))
    dsimp only
    generalize (if int (book[idx].qty - qty) < 0 then 0 else int (book[idx].qty - qty)) = left
    split
    · exact hsplit.2.2.perm (swapRemove_set_perm idx _).symm
    · exact (names_cons_iff.mpr hsplit : Names known
        (⟨book[idx].name, left⟩ :: book.eraseIdx idx)).perm (set_perm idx _).symm

/-- **`spell_sub`** takes from what the book holds under the name, when that is enough. -/
theorem spellSub_qty (h : Names known book) (hle : qty ≤ bookQty book name)
    (hint : int (bookQty book name - qty) = bookQty book name - qty) (hqty : 0 < qty) (a : CStr) :
    bookQty (spellSub int book name qty) a =
      bookQty book a - if a = name then qty else 0 := by
  unfold spellSub
  split
  · rename_i hnone
    rw [bookQty_eq_zero (spellFind_eq_none hnone)] at hle
    omega
  · rename_i idx hidx
    rw [bookQty_of_find h hidx] at hle hint
    have hn := spellFind_eq_some hidx
    rw [hint]
    dsimp only
    rw [if_neg (not_lt.mpr (sub_nonneg.mpr hle))]
    split
    · rename_i hzero
      rw [bookQty_perm (swapRemove_set_perm idx _)]
      unfold bookQty
      rw [keySum_eraseIdx, hn, sub_eq_zero.mp hzero]
      simp only [eq_comm (a := a)]
    · rw [bookQty_set, hn, sub_sub_cancel_left]
      simp only [eq_comm (a := a)]
      split <;> ring

/-- What holds of the quantities before, and of a difference that is left, holds after. -/
theorem spellSub_forall {P : ℤ → Prop} (h : ∀ e ∈ book, P e.qty)
    (hleft : ∀ e ∈ book, 0 < int (e.qty - qty) → P (int (e.qty - qty))) :
    ∀ e ∈ spellSub int book name qty, P e.qty := by
  unfold spellSub
  split
  · exact h
  · rename_i idx _
    dsimp only
    generalize hcut :
      (if int (book[idx].qty - qty) < 0 then 0 else int (book[idx].qty - qty)) = left
    split
    · exact fun e he =>
        h e (List.mem_of_mem_eraseIdx ((swapRemove_set_perm idx _).mem_iff.mp he))
    · rename_i hne
      intro e he
      rcases List.mem_or_eq_of_mem_set he with he | rfl
      · exact h e he
      · split_ifs at hcut with hneg
        · exact absurd hcut.symm hne
        · subst hcut
          exact hleft _ (List.getElem_mem idx.isLt) (lt_of_le_of_ne (not_lt.mp hneg) (Ne.symm hne))

/-! ## Exact arithmetic -/

theorem spellAdd_spec (h : Book known book) (hname : known name)
    (hlen : name.length < maxIngredientLen) (hqty : 0 < qty) :
    Book known (spellAdd unbounded book name qty).1 ∧
      ∀ a, bookQty (spellAdd unbounded book name qty).1 a =
        bookQty book a + if (spellAdd unbounded book name qty).2 ∧ a = name then qty else 0 := by
  refine ⟨⟨spellAdd_names h.toNames hname hlen,
    spellAdd_forall h.pos hqty fun e he => add_pos (h.pos e he) hqty⟩, fun a => ?_⟩
  rw [spellAdd_qty rfl h.toNames hlen, unbounded_eq]
  split_ifs with hand
  · rw [hand.2]
  · rw [add_zero]

theorem spellSub_spec (h : Book known book) (hqty : 0 < qty) (hle : qty ≤ bookQty book name) :
    Book known (spellSub unbounded book name qty) ∧ ∀ a,
      bookQty (spellSub unbounded book name qty) a = bookQty book a - if a = name then qty else 0 :=
  ⟨⟨spellSub_names h.toNames, spellSub_forall h.pos fun _ _ hpos => hpos⟩,
    spellSub_qty h.toNames hle rfl hqty⟩

end Cse344.HW6
