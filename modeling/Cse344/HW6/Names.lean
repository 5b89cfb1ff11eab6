import Cse344.HW6.Steps
import Cse344.Lib.Totals

/-!
# The names in the server of HW6

Two invariants of `run_server` (`HW6/hogwarts.c` 619-666) that hold whatever an `int` keeps of a
sum, and so of the server as it is compiled.

* `Server.Named`: `load_ingredients` is the only one that writes the name of an ingredient, and the
  names in a spellbook are different names of the table.
* `Server.Attends`: while `handle_client_input` goes through the lines of a client, that client is
  connected.

Results:
* `Effect.named`, `Effect.fd_eq`, `Effect.other`, `Effect.reading_eq`: a command keeps the names,
  the descriptors, the records of the other clients and the place in the loop.
* `named_step`, `attends_step`: every step keeps the two.
* `named_reachable`, `attends_reachable`: both hold in every reachable state.

Out of scope: the quantities (`Cse344.HW6.Stock` and `Cse344.HW6.Brewing`) and the names of the
clients (`Cse344.HW6.Usernames`).
-/

namespace Cse344.HW6

open Cse344.Lib

variable {int : ℤ → ℤ} {n m : ℕ} {t : Table m} {s s' : Server n m} {idx : Fin n} {line : CStr}
  {timeoutSec : ℤ} {act : Act n} {k : Fin m} {stock : ℤ} {book : List SpellEntry} {text : CStr}

/-- The ingredients have the names of the table, and so have the entries of a spellbook, each its
own. -/
structure Server.Named (t : Table m) (s : Server n m) : Prop where
  name_eq : ∀ k, (s.ingredients k).name = (t.ingredients k).name
  books : ∀ i, Names t.Knows (s.clients i).spellbook

/-- While the server goes through the lines of a client, that client is connected. -/
def Server.Attends (s : Server n m) : Prop := ∀ idx, s.reading = some idx → 0 ≤ (s.clients idx).fd

/-! ## Commands -/

theorem findIngredient_name {name : CStr} (h : findIngredient s name = some k) :
    (s.ingredients k).name = name := by
  simpa using List.find?_some h

/-- The name of an ingredient is a known one, and fits in an entry. -/
theorem Server.Named.valid (h : s.Named t) (k : Fin m) :
    isValidIngredientName (s.ingredients k).name = true := by
  rw [h.name_eq k]
  exact t.valid k

theorem Server.Named.known_name (h : s.Named t) (k : Fin m) :
    t.Knows (s.ingredients k).name ∧ (s.ingredients k).name.length < maxIngredientLen :=
  ⟨⟨k, (h.name_eq k).symm⟩, length_lt_of_valid (h.valid k)⟩

/-- The quantity CONSUME looks at is what the book holds. -/
theorem spellQty_eq {known : CStr → Prop} (h : Names known book) (name : CStr) :
    spellQty book name = bookQty book name := by
  unfold spellQty
  split
  · rename_i idx hidx
    exact (bookQty_of_find h hidx).symm
  · rename_i hnone
    exact (bookQty_eq_zero (spellFind_eq_none hnone)).symm

/-- Only the clients change, and one of them at most. -/
theorem Server.Named.update (h : s.Named t) {c : Client} (hi : s'.ingredients = s.ingredients)
    (hc : s'.clients = Function.update s.clients idx c) (hbook : Names t.Knows c.spellbook) :
    s'.Named t := by
  refine ⟨fun k => by rw [hi]; exact h.name_eq k, ?_⟩
  rw [hc]
  exact (Function.forall_update_iff s.clients fun _ c => Names t.Knows c.spellbook).mpr
    ⟨hbook, fun i _ => h.books i⟩

/-- A quantity changes in the stock and in a book. -/
theorem Server.Named.exchange (h : s.Named t) (hbook : Names t.Knows book) :
    ((s.exchange idx k stock book).reply idx text).Named t := by
  have hstock : { s with
      ingredients := Function.update s.ingredients k ⟨(s.ingredients k).name, stock⟩ }.Named t := by
    refine ⟨fun k' => ?_, h.books⟩
    by_cases hk : k' = k
    · subst hk
      simpa using h.name_eq k'
    · simpa [hk] using h.name_eq k'
  exact hstock.update rfl rfl hbook

/-- **A command keeps the names.** -/
theorem Effect.named (he : Effect int s idx line s') (h : s.Named t) : s'.Named t := by
  cases he with
  | silent => exact h
  | reply text => exact ⟨h.name_eq, h.books⟩
  | enroll => exact h.update rfl rfl (h.books idx)
  | brew ing qs text qty k henrolled htype htokens hqty hk hok =>
    obtain rfl := findIngredient_name hk
    exact h.exchange (spellAdd_names (h.books idx) (h.known_name k).1 (h.known_name k).2)
  | consume => exact h.exchange (spellSub_names (h.books idx))

/-- A command that writes one client keeps the descriptors, if it keeps that client's. -/
theorem update_fd (s : Server n m) (idx i : Fin n) {c : Client} (hfd : c.fd = (s.clients idx).fd) :
    (Function.update s.clients idx c i).fd = (s.clients i).fd :=
  rel_update (R := fun c c' : Client => c'.fd = c.fd) (fun _ => rfl) hfd i

theorem Effect.fd_eq (he : Effect int s idx line s') (i : Fin n) :
    (s'.clients i).fd = (s.clients i).fd := by
  cases he with
  | silent => rfl
  | reply text => rfl
  | enroll =>
    refine update_fd s idx i ?_
    rfl
  | brew =>
    refine update_fd s idx i ?_
    rfl
  | consume =>
    refine update_fd s idx i ?_
    rfl

/-- A command writes no record but its client's. -/
theorem Effect.other (he : Effect int s idx line s') {i : Fin n} (hi : i ≠ idx) :
    s'.clients i = s.clients i := by
  cases he with
  | silent => rfl
  | reply text => rfl
  | enroll => exact Function.update_of_ne hi _ _
  | brew => exact Function.update_of_ne hi _ _
  | consume => exact Function.update_of_ne hi _ _

theorem Effect.reading_eq (he : Effect int s idx line s') : s'.reading = s.reading := by
  cases he with
  | silent => rfl
  | reply text => rfl
  | enroll => rfl
  | brew => rfl
  | consume => rfl

/-! ## Steps -/

theorem rests_named (t : Table m) :
    Rests fun s s' : Server n m => s.Named t → s'.Named t where
  refl := fun _ h => h
  trans := fun h h' hnamed => h' (h hnamed)
  send := fun _ _ _ h => ⟨h.name_eq, h.books⟩
  reset := fun _ _ h => h.update rfl rfl .nil
  fill := fun _ idx _ _ h => h.update rfl rfl (h.books idx)
  place := fun _ _ _ h => ⟨h.name_eq, h.books⟩

theorem taken_named (h : s.Named t) (idx : Fin n) : (s.taken idx).Named t :=
  h.update rfl rfl (h.books idx)

/-- **A step keeps the names.** -/
theorem named_step (h : s.Named t) (hs : serverStep int timeoutSec s act = some s') :
    s'.Named t := by
  cases hcmd : commandOf s act with
  | none =>
    rcases serverStep_rests (rests_named t) hs hcmd with hrest | ⟨slot, cfd, now, -, rfl⟩
    · exact hrest h
    · exact h.update rfl rfl .nil
  | some command =>
    obtain ⟨idx, line⟩ := command
    have hkept := (handleCommand_effect int (s.taken idx) idx line).named (taken_named h idx)
    rw [serverStep_command hs hcmd]
    split_ifs
    · have hrest := (rests_named t).removeClient (handleCommand int (s.taken idx) idx line).1 idx
      exact ⟨(hrest hkept).name_eq, (hrest hkept).books⟩
    · exact hkept

theorem named_init : (initial t : Server n m).Named t := ⟨fun _ => rfl, fun _ => .nil⟩

theorem named_reachable (h : (hogwarts int t n timeoutSec).Reachable s) : s.Named t :=
  h.induct named_init fun _ _ _ hn hs => named_step hn hs

theorem Server.Attends.of_none (h : s.reading = none) : s.Attends := fun idx hidx => by
  rw [h] at hidx
  cases hidx

/-- Outside the loop over a client's lines, nothing but a read gets there. -/
theorem rests_reading {f : Server n m → Fin n → Server n m}
    (hf : ∀ s idx, (f s idx).reading = s.reading) :
    ∀ (l : List (Fin n)) (s : Server n m), (l.foldl f s).reading = s.reading
  | [], _ => rfl
  | idx :: l, s => (rests_reading hf l (f s idx)).trans (hf s idx)

theorem removeClient_reading (s : Server n m) (idx : Fin n) :
    (removeClient s idx).reading = s.reading := by
  unfold removeClient
  split_ifs
  · rfl
  · rfl

theorem checkIdle_reading (timeoutSec now : ℤ) (s : Server n m) (idx : Fin n) :
    (checkIdle timeoutSec now s idx).reading = s.reading := by
  unfold checkIdle
  split_ifs
  · rfl
  · exact removeClient_reading _ idx
  · rfl

theorem shutdownClient_reading (s : Server n m) (idx : Fin n) :
    (shutdownClient s idx).reading = s.reading := by
  unfold shutdownClient
  split_ifs
  · rfl
  · rfl

theorem acceptNewConnection_reading (s : Server n m) (cfd : ℕ) (now : ℤ) :
    (acceptNewConnection s cfd now).reading = s.reading := by
  unfold acceptNewConnection
  split
  · rfl
  · rfl

theorem readInput_attends {input : Input} {now : ℤ} (hr : s.reading = none)
    (hfd : 0 ≤ (s.clients idx).fd) (hs : readInput s idx input now = some s') : s'.Attends := by
  unfold readInput at hs
  dsimp only at hs
  split_ifs at hs
  · obtain rfl := Option.some.inj hs
    exact .of_none ((removeClient_reading _ idx).trans hr)
  · cases input with
    | error =>
      obtain rfl := Option.some.inj hs
      exact .of_none ((removeClient_reading _ idx).trans hr)
    | hangup =>
      obtain rfl := Option.some.inj hs
      exact .of_none ((removeClient_reading _ idx).trans hr)
    | data bytes =>
      dsimp only at hs
      split_ifs at hs
      obtain rfl := Option.some.inj hs
      rintro i ⟨⟩
      simpa using hfd

theorem handleLine_attends (hr : s.reading = some idx) (hfd : 0 ≤ (s.clients idx).fd) :
    (handleLine int s idx).Attends := by
  unfold handleLine
  dsimp only
  split_ifs
  · exact .of_none rfl
  · exact .of_none rfl
  · exact .of_none rfl
  · -- the line is a command, which keeps the descriptors and the place in the loop
    have heffect := handleCommand_effect int (s.taken idx) idx
      (lineString ((s.clients idx).lineBuf.takeWhile fun b => b != 10))
    intro i hi
    obtain rfl := Option.some.inj (hr.symm.trans (heffect.reading_eq.symm.trans hi))
    refine le_of_le_of_eq hfd (Eq.trans ?_ (heffect.fd_eq idx).symm)
    rw [taken_self]

theorem attends_step (h : s.Attends) (hs : serverStep int timeoutSec s act = some s') :
    s'.Attends := by
  unfold serverStep at hs
  split at hs
  · split at hs
    case h_1 idx hr =>
      obtain rfl := Option.some.inj hs
      exact handleLine_attends hr (h idx hr)
    case h_2 => cases hs
    case h_3 => cases hs
    case h_4 now hr =>
      obtain rfl := Option.some.inj hs
      exact .of_none ((rests_reading (checkIdle_reading timeoutSec now) _ s).trans hr)
    case h_5 fd now hr =>
      obtain rfl := Option.some.inj hs
      exact .of_none ((acceptNewConnection_reading s fd now).trans hr)
    case h_6 idx input now hr =>
      split at hs
      · rename_i hfd
        exact readInput_attends hr hfd hs
      · cases hs
    case h_7 hr =>
      obtain rfl := Option.some.inj hs
      exact .of_none ((rests_reading shutdownClient_reading _ s).trans hr)
  · cases hs

theorem attends_init : (initial t : Server n m).Attends := .of_none rfl

theorem attends_reachable (h : (hogwarts int t n timeoutSec).Reachable s) : s.Attends :=
  h.induct attends_init fun _ _ _ ha hs => attends_step ha hs

end Cse344.HW6
