import Cse344.Final.Server
import Mathlib.Data.Fintype.Card
import Mathlib.Data.List.Perm.Subperm

/-!
# Portfolios of the final

`BUY` (`Final/ServerTrd.c` 284-295) adds to an entry of the portfolio or makes one, `SELL` (315-336)
takes from an entry or removes it, with the last entry put in its place. The sum that `BUY` makes is
a 32-bit `int`, and nothing checks it.

* A portfolio is the list of its first `port_count` entries. `held` is what it holds of a symbol,
  and `balance` what the trades of a session come to.
* `Kept` is what `BUY` and `SELL` keep whatever the quantities: different symbols of known stocks,
  and `int`s. `Positive` is what they keep only while the sums fit.

Results:
* `addHolding_fits`, `addHolding_wraps`: a `BUY` adds what it says exactly if the sum is at most
  `INT_MAX`, and leaves a negative quantity if not.
* `subHolding_spec`: a `SELL` of what is there takes what it says.
* `addHolding_kept`, `subHolding_kept`: both keep `Kept`.

Out of scope: which orders reach them; that is in `Cse344.Final.Lines` and `Cse344.Final.Accounts`.
-/

namespace Cse344.Final

open Cse344.Lib

/-- What a portfolio holds of a stock. -/
def held (portfolio : List Holding) (sym : CStr) : ℤ :=
  keySum Holding.symbol Holding.qty portfolio sym

/-- What the trades of a session come to. -/
def balance (trades : List Trade) (sym : CStr) : ℤ := keySum Trade.symbol Trade.qty trades sym

/-- Different symbols, all of them known, with `int`s. -/
structure Kept (known : CStr → Prop) (portfolio : List Holding) : Prop where
  nodup : (portfolio.map Holding.symbol).Nodup
  known : ∀ h ∈ portfolio, known h.symbol
  le_max : ∀ h ∈ portfolio, h.qty ≤ intMax

/-- Nobody holds nothing, or less. -/
def Positive (portfolio : List Holding) : Prop := ∀ h ∈ portfolio, 0 < h.qty

variable {known : CStr → Prop} {portfolio portfolio' : List Holding} {h : Holding} {sym : CStr}
  {qty : ℤ}

/-! ## `int`s -/

/-- A sum of two positive `int`s that is none. -/
theorem wrap32_neg {v : ℤ} (hlt : intMax < v) (hle : v ≤ 2 * intMax) : wrap32 v < 0 := by
  unfold wrap32
  unfold intMax at hlt hle
  omega

theorem scanTrade_range {args : CStr} (hscan : scanTrade args = some (sym, qty)) :
    0 < qty ∧ qty ≤ intMax := by
  unfold scanTrade at hscan
  split at hscan
  · cases hscan
  · split at hscan
    · cases hscan
    · rename_i hint
      split_ifs at hscan with hpos
      obtain ⟨-, rfl⟩ := Prod.mk.inj (Option.some.inj hscan)
      refine ⟨not_le.mp hpos, ?_⟩
      unfold scanInt at hint
      dsimp only at hint
      split_ifs at hint
      obtain ⟨rfl, -⟩ := Prod.mk.inj (Option.some.inj hint)
      exact wrap32_le _

/-! ## Entries -/

theorem findHolding_eq_some {i : Fin portfolio.length} (hi : findHolding portfolio sym = some i) :
    (portfolio.get i).symbol = sym := by
  have := (List.findFinIdx?_eq_some_iff.mp hi).1
  simpa using this

theorem findHolding_eq_none (hnone : findHolding portfolio sym = none) :
    ∀ h ∈ portfolio, h.symbol ≠ sym := by
  have := List.findFinIdx?_eq_none_iff.mp hnone
  simpa using this

/-- The entry that is found is all the portfolio holds of the stock. -/
theorem held_of_find (hk : Kept known portfolio) {i : Fin portfolio.length}
    (hi : findHolding portfolio sym = some i) : held portfolio sym = (portfolio.get i).qty := by
  rw [← findHolding_eq_some hi]
  exact keySum_of_get hk.nodup i

theorem held_of_none (hnone : findHolding portfolio sym = none) : held portfolio sym = 0 :=
  keySum_eq_zero (findHolding_eq_none hnone)

/-- An entry with another quantity changes what is held of its stock. -/
theorem held_set (i : Fin portfolio.length) (qty : ℤ) (a : CStr) :
    held (portfolio.set i ⟨(portfolio.get i).symbol, qty⟩) a =
      held portfolio a +
        if (portfolio.get i).symbol = a then qty - (portfolio.get i).qty else 0 :=
  keySum_set Holding.symbol Holding.qty (e := ⟨(portfolio.get i).symbol, qty⟩) i rfl a

theorem Kept.nil : Kept known [] := ⟨List.nodup_nil, by simp, by simp⟩

theorem Kept.perm (hk : Kept known portfolio) (hp : portfolio.Perm portfolio') :
    Kept known portfolio' where
  nodup := (hp.map _).nodup_iff.mp hk.nodup
  known := fun h hh => hk.known h (hp.mem_iff.mpr hh)
  le_max := fun h hh => hk.le_max h (hp.mem_iff.mpr hh)

theorem Positive.perm (hpos : Positive portfolio) (hp : portfolio.Perm portfolio') :
    Positive portfolio' := fun h hh => hpos h (hp.mem_iff.mpr hh)

theorem kept_cons_iff : Kept known (h :: portfolio) ↔
    known h.symbol ∧ h.qty ≤ intMax ∧ (∀ x ∈ portfolio, x.symbol ≠ h.symbol) ∧
      Kept known portfolio := by
  constructor
  · rintro ⟨hnd, hk, hle⟩
    rw [nodup_map_cons] at hnd
    rw [List.forall_mem_cons] at hk hle
    exact ⟨hk.1, hle.1, hnd.1, hnd.2, hk.2, hle.2⟩
  · rintro ⟨hk, hle, hne, hnd, hks, hles⟩
    exact ⟨nodup_map_cons.mpr ⟨hne, hnd⟩, List.forall_mem_cons.mpr ⟨hk, hks⟩,
      List.forall_mem_cons.mpr ⟨hle, hles⟩⟩

/-- An entry gets another quantity. -/
theorem Kept.set (hk : Kept known portfolio) (i : Fin portfolio.length) (hle : qty ≤ intMax) :
    Kept known (portfolio.set i ⟨(portfolio.get i).symbol, qty⟩) := by
  obtain ⟨hknown, -, hne, hrest⟩ := kept_cons_iff.mp (hk.perm (perm_eraseIdx i))
  exact (kept_cons_iff.mpr ⟨hknown, hle, hne, hrest⟩ :
    Kept known (⟨(portfolio.get i).symbol, qty⟩ :: portfolio.eraseIdx i)).perm (set_perm i _).symm

theorem Kept.eraseIdx (hk : Kept known portfolio) (i : Fin portfolio.length) :
    Kept known (portfolio.eraseIdx i) :=
  (kept_cons_iff.mp (hk.perm (perm_eraseIdx i))).2.2.2

theorem Positive.set (hpos : Positive portfolio) (i : Fin portfolio.length) (hqty : 0 < qty) :
    Positive (portfolio.set i ⟨(portfolio.get i).symbol, qty⟩) := by
  refine Positive.perm (List.forall_mem_cons.mpr ⟨hqty, ?_⟩) (set_perm i _).symm
  exact fun h hh => hpos h (List.mem_of_mem_eraseIdx hh)

/-! ## `BUY` -/

theorem addHolding_kept (hk : Kept known portfolio) (hknown : known sym) (hqty : qty ≤ intMax) :
    Kept known (addHolding portfolio sym qty) := by
  unfold addHolding
  split
  · exact hk.set _ (wrap32_le _)
  · rename_i hnone
    split_ifs
    · exact (kept_cons_iff.mpr ⟨hknown, hqty, findHolding_eq_none hnone, hk⟩ :
        Kept known (⟨sym, qty⟩ :: portfolio)).perm (List.perm_append_singleton _ _).symm
    · exact hk

/-- **A `BUY` whose sum is an `int`** adds what it says. -/
theorem addHolding_fits (hk : Kept known portfolio) (hpos : Positive portfolio) (hqty : 0 < qty)
    (hroom : findHolding portfolio sym = none → portfolio.length < maxStocks)
    (hfits : held portfolio sym + qty ≤ intMax) :
    Positive (addHolding portfolio sym qty) ∧ ∀ a, held (addHolding portfolio sym qty) a =
      held portfolio a + if sym = a then qty else 0 := by
  unfold addHolding
  split
  · rename_i i hi
    rw [held_of_find hk hi] at hfits
    have hsum : 0 < (portfolio.get i).qty + qty := add_pos (hpos _ (List.getElem_mem i.isLt)) hqty
    rw [wrap32_eq_self_iff.mpr (isInt_of_nonneg hsum.le hfits)]
    refine ⟨hpos.set i hsum, fun a => ?_⟩
    rw [held_set, findHolding_eq_some hi, add_sub_cancel_left]
  · rename_i hnone
    rw [if_pos (hroom hnone)]
    refine ⟨?_, fun a => keySum_concat _ _ _⟩
    rintro h hh
    rcases List.mem_append.mp hh with hh | hh
    · exact hpos h hh
    · rw [List.mem_singleton.mp hh]
      exact hqty

/-- **A `BUY` whose sum is none** leaves a negative quantity. -/
theorem addHolding_wraps (hk : Kept known portfolio) (hle : qty ≤ intMax)
    (hwraps : intMax < held portfolio sym + qty) : ¬ Positive (addHolding portfolio sym qty) := by
  intro hpos
  unfold addHolding at hpos
  split at hpos
  · rename_i i hi
    rw [held_of_find hk hi] at hwraps
    have hmax : (portfolio.get i).qty ≤ intMax := hk.le_max _ (List.getElem_mem i.isLt)
    have hneg := wrap32_neg hwraps (by omega)
    have hlt := hpos _ (List.mem_set i.isLt _)
    exact absurd hlt (not_lt.mpr hneg.le)
  · rename_i hnone
    rw [held_of_none hnone] at hwraps
    omega

/-! ## `SELL` -/

theorem subHolding_kept (hk : Kept known portfolio) (i : Fin portfolio.length) (qty : ℤ) :
    Kept known (subHolding portfolio i qty) := by
  unfold subHolding
  dsimp only
  split_ifs
  · exact (hk.eraseIdx i).perm (swapRemove_set_perm i _).symm
  · exact hk.set i (wrap32_le _)

/-- **A `SELL` of what is there** takes what it says. -/
theorem subHolding_spec (hk : Kept known portfolio) (hpos : Positive portfolio)
    (i : Fin portfolio.length) (hqty : 0 < qty) (hle : qty ≤ (portfolio.get i).qty) :
    Positive (subHolding portfolio i qty) ∧ ∀ a, held (subHolding portfolio i qty) a =
      held portfolio a + if (portfolio.get i).symbol = a then -qty else 0 := by
  have hmax : (portfolio.get i).qty ≤ intMax := hk.le_max _ (List.getElem_mem i.isLt)
  have hleft : wrap32 ((portfolio.get i).qty - qty) = (portfolio.get i).qty - qty :=
    wrap32_eq_self_iff.mpr (isInt_of_nonneg (sub_nonneg.mpr hle) (by omega))
  unfold subHolding
  dsimp only
  rw [hleft]
  split_ifs with hzero
  · have hperm := swapRemove_set_perm i
      (⟨(portfolio.get i).symbol, (portfolio.get i).qty - qty⟩ : Holding)
    refine ⟨Positive.perm (fun h hh => hpos h (List.mem_of_mem_eraseIdx hh)) hperm.symm,
      fun a => ?_⟩
    rw [held, keySum_perm hperm, keySum_eraseIdx i, ← sub_eq_zero.mp hzero, Fin.getElem_fin,
      ← List.get_eq_getElem]
    unfold held
    split_ifs <;> ring
  · refine ⟨hpos.set i (lt_of_le_of_ne (sub_nonneg.mpr hle) (Ne.symm hzero)), fun a => ?_⟩
    rw [held_set, sub_sub_cancel_left]

end Cse344.Final
