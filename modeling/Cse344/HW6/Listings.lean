import Cse344.HW6.Replies
import Cse344.Lib.Separated

/-!
# What the lists of HW6 say

`cmd_spellbook` (`HW6/hogwarts.c` 306-322), `cmd_scroll` (343-361) and `cmd_roster` (363-380) list
into `buf[512]`, item by item, and break off when `snprintf` says that an item was cut.

* `listing` is what a line asks for: the head of the reply and the items, with the quantities of the
  moment and in the order of the table.
* The reply is what fits, and as much of the next item as `snprintf` left there (`listInto`).
* A reader takes it apart at the commas (`itemsIn`). A username may have a comma of its own; the
  items of the other two lists have none.

Results:
* `truthful_iff`: in the reply to one line.
* **`listings_truthful_iff`**: in every reachable state, the items in the reply are the first ones
  of the list, each with its whole text, exactly if the list fits in 511 bytes or some first items
  fill them exactly, and no name among them has a comma (`ListFits`); and an empty spellbook is
  answered with `OK SPELLBOOK EMPTY`.

Out of scope: what the client makes of the bytes (`Replies`).
-/

namespace Cse344.HW6

open Cse344.Lib

variable {int : ℤ → ℤ} {n m : ℕ} {t : Table m} {s s' : Server n m} {idx : Fin n}
  {line text head : CStr} {items : List CStr} {timeoutSec : ℤ}

/-- A comma. -/
def comma : UInt8 := 44

/-- The items of a spellbook. -/
def spellbookItems (book : List SpellEntry) : List CStr := book.map fun e => nameAndQty e.name e.qty

/-- The items of the table. -/
def scrollItems (s : Server n m) : List CStr :=
  (List.ofFn s.ingredients).map fun g => nameAndQty g.name g.qty

/-- What a line is answered with, if that is a list: how the reply starts, and the items. -/
def listing (s : Server n m) (idx : Fin n) (line : CStr) : Option (CStr × List CStr) :=
  let c := s.clients idx
  if c.enrolled = false then none
  else if (tokens line).1 = some (cstr "SPELLBOOK") then
    if c.type = cstr "WIZARD" ∧ c.spellbook ≠ [] then
      some (cstr "OK SPELLBOOK ", spellbookItems c.spellbook)
    else none
  else if (tokens line).1 = some (cstr "SCROLL") then
    if c.type = cstr "PROFESSOR" then some (cstr "OK SCROLL ", scrollItems s) else none
  else if (tokens line).1 = some (cstr "ROSTER") then
    if c.type = cstr "PROFESSOR" then some (cstr "OK ROSTER ", enrolledNames s) else none
  else none

/-- The reply has the items as its first ones, each with its whole text. -/
def Truthful (s s' : Server n m) (idx : Fin n) (head : CStr) (items : List CStr) : Prop :=
  ∃ body, s'.sent = s.sent ++ [((s.clients idx).fd, head ++ body)] ∧
    ∃ j, itemsIn comma body = items.take j

/-- The list fits, or some first items fill the buffer, and none of them has a comma. -/
def ListFits (head : CStr) (items : List CStr) : Prop :=
  ∃ j, (∀ item ∈ items.take j, comma ∉ item) ∧
    ([comma].intercalate (items.take j)).length =
      min (maxLineLen - 1 - head.length) ([comma].intercalate items).length

theorem flatten_commaBefore : ∀ items : List CStr,
    (commaBefore items).flatten = [comma].intercalate items
  | [] => rfl
  | [item] => by simp [commaBefore]
  | item :: item' :: items => by
    have hcomma : cstr "," = [comma] := rfl
    rw [List.intercalate_cons_cons, ← flatten_commaBefore (item' :: items)]
    simp [commaBefore, hcomma]

/-- What `buf` has of a list. -/
theorem listInto_commaBefore (hlen : head.length ≤ maxLineLen - 1) (items : List CStr) :
    listInto head (commaBefore items) =
      head ++ ([comma].intercalate items).take (maxLineLen - 1 - head.length) := by
  rw [listInto_eq _ _ hlen, flatten_commaBefore, List.take_append, List.take_of_length_le hlen]

/-- **A list** tells the truth exactly if it fits. -/
theorem truthful_iff (hlen : head.length ≤ maxLineLen - 1) (hne : ∀ item ∈ items, item ≠ []) :
    Truthful s (s.reply idx (listInto head (commaBefore items))) idx head items ↔
      ListFits head items := by
  have hsent : (s.reply idx (listInto head (commaBefore items))).sent =
      s.sent ++ [((s.clients idx).fd,
        head ++ ([comma].intercalate items).take (maxLineLen - 1 - head.length))] := by
    unfold Server.reply sendLine
    rw [listInto_commaBefore hlen]
  unfold ListFits
  rw [← itemsIn_take_iff hne]
  constructor
  · rintro ⟨body, hbody, htruth⟩
    obtain rfl := List.append_cancel_left (answer_unique hsent hbody)
    exact htruth
  · exact fun htruth => ⟨_, hsent, htruth⟩

theorem handleCommand_of_cmd {cmd : CStr} (h : (tokens line).1 = some cmd) :
    ∃ args, strtok blanks line = (some cmd, args) :=
  ⟨(strtok blanks line).2, Prod.ext h rfl⟩

/-- The reply to a line that is answered with a list. -/
theorem handleCommand_of_listing (h : listing s idx line = some (head, items)) :
    (handleCommand int s idx line).1 = s.reply idx (listInto head (commaBefore items)) := by
  unfold listing at h
  dsimp only at h
  split_ifs at h with hnew hspell hwizard hscroll hprof hroster hprof
  · obtain ⟨rfl, rfl⟩ := Prod.mk.inj (Option.some.inj h)
    obtain ⟨args, hline⟩ := handleCommand_of_cmd hspell
    unfold handleCommand authorized cmdSpellbook
    rw [hline]
    dsimp only
    rw [if_neg (by decide), if_neg (by decide), if_neg hnew, if_neg (by decide),
      if_neg (by decide), if_pos rfl, if_pos hwizard.1]
    split
    · rename_i hnil
      exact absurd hnil hwizard.2
    · rfl
  · obtain ⟨rfl, rfl⟩ := Prod.mk.inj (Option.some.inj h)
    obtain ⟨args, hline⟩ := handleCommand_of_cmd hscroll
    unfold handleCommand authorized
    rw [hline]
    dsimp only
    rw [if_neg (by decide), if_neg (by decide), if_neg hnew, if_neg (by decide),
      if_neg (by decide), if_neg (by decide), if_neg (by decide), if_pos rfl, if_pos hprof]
    rfl
  · obtain ⟨rfl, rfl⟩ := Prod.mk.inj (Option.some.inj h)
    obtain ⟨args, hline⟩ := handleCommand_of_cmd hroster
    unfold handleCommand authorized
    rw [hline]
    dsimp only
    rw [if_neg (by decide), if_neg (by decide), if_neg hnew, if_neg (by decide),
      if_neg (by decide), if_neg (by decide), if_neg (by decide), if_neg (by decide), if_pos rfl,
      if_pos hprof]
    rfl

/-- An empty spellbook is answered with a word of its own. -/
theorem handleCommand_emptyBook (hnew : (s.clients idx).enrolled = true)
    (htype : (s.clients idx).type = cstr "WIZARD") (hbook : (s.clients idx).spellbook = [])
    (hcmd : (tokens line).1 = some (cstr "SPELLBOOK")) :
    (handleCommand int s idx line).1 = s.reply idx (cstr "OK SPELLBOOK EMPTY") := by
  obtain ⟨args, hline⟩ := handleCommand_of_cmd hcmd
  unfold handleCommand authorized cmdSpellbook
  rw [hline]
  dsimp only
  rw [if_neg (by decide), if_neg (by decide), if_neg (by simp [hnew]), if_neg (by decide),
    if_neg (by decide), if_pos rfl, if_pos htype, hbook]

theorem nameAndQty_ne_nil (name : CStr) (qty : ℤ) : nameAndQty name qty ≠ [] := by
  intro h
  exact decimal_ne_nil qty (List.append_eq_nil_iff.mp h).2

/-- A list has a head that fits, and no empty item. -/
theorem listing_items (hslots : ∀ i, (s.clients i).enrolled = true → (s.clients i).username ≠ [])
    (h : listing s idx line = some (head, items)) :
    head.length ≤ maxLineLen - 1 ∧ ∀ item ∈ items, item ≠ [] := by
  unfold listing at h
  dsimp only at h
  split_ifs at h
  · obtain ⟨rfl, rfl⟩ := Prod.mk.inj (Option.some.inj h)
    refine ⟨by decide, fun item hitem => ?_⟩
    obtain ⟨e, -, rfl⟩ := List.mem_map.mp hitem
    exact nameAndQty_ne_nil _ _
  · obtain ⟨rfl, rfl⟩ := Prod.mk.inj (Option.some.inj h)
    refine ⟨by decide, fun item hitem => ?_⟩
    obtain ⟨g, -, rfl⟩ := List.mem_map.mp hitem
    exact nameAndQty_ne_nil _ _
  · obtain ⟨rfl, rfl⟩ := Prod.mk.inj (Option.some.inj h)
    refine ⟨by decide, fun item hitem => ?_⟩
    obtain ⟨c, hc, rfl⟩ := List.mem_map.mp hitem
    obtain ⟨hmem, henrolled⟩ := List.mem_filter.mp hc
    obtain ⟨i, rfl⟩ := List.mem_ofFn.mp hmem
    exact hslots i (Bool.and_eq_true_iff.mp henrolled).2

/-- **The lists tell the truth**, in every reachable state and whatever is left in the buffers,
exactly if they fit; and an empty spellbook is answered with `EMPTY`. -/
theorem listings_truthful_iff (int : ℤ → ℤ) (t : Table m) (n : ℕ) (timeoutSec : ℤ) (s : Server n m)
    (hs : (hogwarts int t n timeoutSec).Reachable s) (bufs : Fin n → List UInt8 × ℤ)
    (rd : Option (Fin n)) (idx : Fin n) (line : CStr) :
    (∀ head items, listing (s.withBufs bufs rd) idx line = some (head, items) →
      (Truthful (s.withBufs bufs rd) (handleCommand int (s.withBufs bufs rd) idx line).1 idx head
        items ↔ ListFits head items)) ∧
    ((s.clients idx).enrolled = true → (s.clients idx).type = cstr "WIZARD" →
      (s.clients idx).spellbook = [] → (tokens line).1 = some (cstr "SPELLBOOK") →
        (handleCommand int (s.withBufs bufs rd) idx line).1 =
          (s.withBufs bufs rd).reply idx (cstr "OK SPELLBOOK EMPTY")) := by
  refine ⟨fun head items h => ?_, fun hnew htype hbook hcmd =>
    handleCommand_emptyBook (s := s.withBufs bufs rd) hnew htype hbook hcmd⟩
  have hnames : ∀ i, ((s.withBufs bufs rd).clients i).enrolled = true →
      ((s.withBufs bufs rd).clients i).username ≠ [] := fun i hi =>
    ((sendable_reachable hs).names i hi).2
  obtain ⟨hlen, hne⟩ := listing_items hnames h
  rw [handleCommand_of_listing h]
  exact truthful_iff hlen hne

theorem listings_truthful_saltTable : ∃ s : Server 1 1,
    (hogwarts wrap32 saltTable 1 60).Reachable s ∧
      Truthful s (handleCommand wrap32 s 0 (cstr "SCROLL")).1 0 (cstr "OK SCROLL ")
        [cstr "SALT:5"] := by
  have h : ((hogwarts wrap32 saltTable 1 60).runs (initial saltTable) (professorRun 0)).map
      (fun s => listing s 0 (cstr "SCROLL")) =
        some (some (cstr "OK SCROLL ", [cstr "SALT:5"])) := by
    decide +kernel
  obtain ⟨s, hrun, hlist⟩ := Option.map_eq_some_iff.mp h
  have hreach : (hogwarts wrap32 saltTable 1 60).Reachable s := Machine.runs_reachable hrun
  refine ⟨s, hreach, ((listings_truthful_iff wrap32 saltTable 1 60 s hreach s.bufs s.reading 0
    (cstr "SCROLL")).1 _ _ hlist).mpr ⟨1, ?_, by decide⟩⟩
  exact fun item hitem => List.mem_singleton.mp hitem ▸ by decide

/-- Not every list tells the truth: that of `letterTable` is cut inside an item. -/
theorem not_listings_truthful : ¬ ∀ (m : ℕ) (t : Table m) (n : ℕ) (timeoutSec : ℤ) (s : Server n m),
    (hogwarts wrap32 t n timeoutSec).Reachable s → ∀ idx line head items,
      listing s idx line = some (head, items) →
        Truthful s (handleCommand wrap32 s idx line).1 idx head items := by
  intro hall
  have h : ((hogwarts wrap32 letterTable 1 60).runs (initial letterTable) (professorRun 0)).map
      (fun s => decide (listing s 0 (cstr "SCROLL") = some (cstr "OK SCROLL ", scrollItems s) ∧
        (scrollItems s).length = 26 ∧ ((List.range 27).all fun j =>
          ([comma].intercalate ((scrollItems s).take j)).length !=
            min (maxLineLen - 1 - (cstr "OK SCROLL ").length)
              ([comma].intercalate (scrollItems s)).length) = true)) = some true := by
    decide +kernel
  obtain ⟨s, hrun, hs⟩ := Option.map_eq_some_iff.mp h
  obtain ⟨hlist, hlength, hcut⟩ := of_decide_eq_true hs
  have hreach : (hogwarts wrap32 letterTable 1 60).Reachable s := Machine.runs_reachable hrun
  have htrue := hall 26 letterTable 1 60 s hreach 0 _ _ _ hlist
  rw [handleCommand_of_listing hlist, truthful_iff (by decide)
    (listing_items (fun i hi => ((sendable_reachable hreach).names i hi).2) hlist).2] at htrue
  obtain ⟨j, -, hj⟩ := htrue
  have hne := List.all_eq_true.mp hcut (min j (scrollItems s).length)
    (List.mem_range.mpr (by omega))
  rw [← List.take_eq_take_min] at hne
  exact bne_iff_ne.mp hne hj

end Cse344.HW6
