import Mathlib.Algebra.GroupWithZero.Nat
import Mathlib.Data.List.Basic
import Mathlib.Data.List.Infix
import Mathlib.Data.Nat.Notation

/-!
# Items in a text that may be cut

Items are written into a text with a separator between them, and only the first bytes of the text
are kept. `itemsIn` reads items back.

* An item that has the separator in it is read back as several.
* `itemStart` is where an item starts in the text.

Results:
* `itemsIn_intercalate`: a whole text gives its items, if none has the separator.
* **`itemsIn_take_iff`**: what is read back of a cut text is a first part of the items exactly if
  some first items, none of which contains the separator, are as long as what is kept. Otherwise an
  item is cut, or there is an empty one behind the last separator.
* **`mem_itemsIn_take_iff`**: the pieces of a cut text are, of each item that starts in what is
  kept, as much as there is.

Out of scope: separators of several elements.
-/

namespace Cse344.Lib

variable {α : Type*} [DecidableEq α] {x : α} {items : List (List α)}

/-- The items of a text: it has none if it is empty. -/
def itemsIn (x : α) (text : List α) : List (List α) :=
  if text = [] then [] else text.splitOn x

theorem intercalate_itemsIn (x : α) (text : List α) : [x].intercalate (itemsIn x text) = text := by
  unfold itemsIn
  split_ifs with h
  · rw [h]
    rfl
  · exact List.intercalate_splitOn x

theorem not_mem_of_mem_splitOn {item : List α} : ∀ {text : List α}, item ∈ text.splitOn x →
    x ∉ item
  | [], h => by
    rw [List.splitOn_nil, List.mem_singleton] at h
    rw [h]
    exact List.not_mem_nil
  | y :: text, h => by
    rw [List.splitOn_cons_eq_if_modifyHead] at h
    split_ifs at h with hy
    · rcases List.mem_cons.mp h with rfl | h
      · exact List.not_mem_nil
      · exact not_mem_of_mem_splitOn h
    · obtain ⟨first, rest, hsplit⟩ := List.exists_cons_of_ne_nil (List.splitOn_ne_nil x text)
      have hall : ∀ item ∈ first :: rest, x ∉ item := fun item hitem =>
        not_mem_of_mem_splitOn (hsplit ▸ hitem)
      rw [hsplit, List.modifyHead_cons] at h
      rcases List.mem_cons.mp h with rfl | h
      · rw [List.mem_cons, not_or]
        exact ⟨fun heq => hy (beq_iff_eq.mpr heq.symm), hall first List.mem_cons_self⟩
      · exact hall item (List.mem_cons_of_mem _ h)

theorem not_mem_of_mem_itemsIn {text item : List α} (h : item ∈ itemsIn x text) : x ∉ item := by
  unfold itemsIn at h
  split_ifs at h
  · cases h
  · exact not_mem_of_mem_splitOn h

omit [DecidableEq α] in
/-- What stands in the text stands in an item or in a separator. -/
theorem mem_intercalate {y : α} {sep : List α} : ∀ {items : List (List α)},
    y ∈ sep.intercalate items → y ∈ sep ∨ ∃ item ∈ items, y ∈ item
  | [], h => by cases h
  | [item], h => .inr ⟨item, List.mem_singleton_self item, by simpa [List.intercalate] using h⟩
  | item :: item' :: items, h => by
    have hsplit : sep.intercalate (item :: item' :: items) =
        item ++ sep ++ sep.intercalate (item' :: items) := by
      simp [List.intercalate]
    rw [hsplit, List.mem_append, List.mem_append] at h
    rcases h with (h | h) | h
    · exact .inr ⟨item, List.mem_cons_self, h⟩
    · exact .inl h
    · exact (mem_intercalate h).imp_right fun ⟨x, hx, hy⟩ => ⟨x, List.mem_cons_of_mem _ hx, hy⟩

/-- Items without a separator are read back. -/
theorem itemsIn_intercalate (hne : ∀ item ∈ items, item ≠ []) (h : ∀ item ∈ items, x ∉ item) :
    itemsIn x ([x].intercalate items) = items := by
  cases items with
  | nil => rfl
  | cons item items =>
    have htext : [x].intercalate (item :: items) ≠ [] := by
      intro hnil
      have hsplit := List.splitOn_intercalate x h (List.cons_ne_nil item items)
      rw [hnil, List.splitOn_nil] at hsplit
      exact hne item List.mem_cons_self (List.head_eq_of_cons_eq hsplit).symm
    rw [itemsIn, if_neg htext, List.splitOn_intercalate x h (List.cons_ne_nil item items)]

omit [DecidableEq α] in
/-- The text of the first items is a first part of the text. -/
theorem intercalate_isPrefix (x : α) (b : List (List α)) : ∀ a : List (List α),
    [x].intercalate a <+: [x].intercalate (a ++ b)
  | [] => List.nil_prefix
  | [item] => by
    cases b with
    | nil => exact List.prefix_refl _
    | cons c b =>
      rw [List.singleton_append, List.intercalate_cons_cons, List.intercalate_singleton,
        List.append_assoc]
      exact List.prefix_append _ _
  | item :: c :: a => by
    rw [List.cons_append, List.cons_append, List.intercalate_cons_cons, List.intercalate_cons_cons,
      ← List.cons_append]
    exact (List.prefix_append_right_inj _).mpr (intercalate_isPrefix x b (c :: a))

/-- **A cut text** tells the truth exactly if it is cut between two items, or not at all. -/
theorem itemsIn_take_iff (hne : ∀ item ∈ items, item ≠ []) (r : ℕ) :
    (∃ j, itemsIn x (([x].intercalate items).take r) = items.take j) ↔
      ∃ j, (∀ item ∈ items.take j, x ∉ item) ∧
        ([x].intercalate (items.take j)).length = min r ([x].intercalate items).length := by
  constructor
  · rintro ⟨j, hj⟩
    refine ⟨j, fun item hitem => not_mem_of_mem_itemsIn (hj ▸ hitem), ?_⟩
    rw [← hj, intercalate_itemsIn, List.length_take]
  · rintro ⟨j, hsep, hlen⟩
    refine ⟨j, ?_⟩
    have hfirst : ([x].intercalate items).take r = [x].intercalate (items.take j) := by
      have hprefix := intercalate_isPrefix x (items.drop j) (items.take j)
      rw [List.take_append_drop] at hprefix
      rw [List.prefix_iff_eq_take.mp hprefix, hlen]
      exact (List.take_eq_take_min).trans (by rw [Nat.min_comm])
    rw [hfirst]
    exact itemsIn_intercalate (fun item hitem => hne item (List.mem_of_mem_take hitem)) hsep

/-! ## The pieces of a cut text -/

/-- Where item `j` starts in the text. -/
def itemStart (items : List (List α)) (j : ℕ) : ℕ :=
  ((items.take j).map fun item => item.length + 1).sum

omit [DecidableEq α] in
/-- The pieces of the items, the first item and then the others. -/
theorem exists_piece_cons_iff {piece item : List α} {items : List (List α)} {r : ℕ} :
    (∃ j item', (item :: items)[j]? = some item' ∧ itemStart (item :: items) j ≤ r ∧
      piece = item'.take (r - itemStart (item :: items) j)) ↔
      piece = item.take r ∨ ∃ j item', items[j]? = some item' ∧
        item.length + 1 + itemStart items j ≤ r ∧
          piece = item'.take (r - (item.length + 1 + itemStart items j)) := by
  constructor
  · rintro ⟨j, item', hj, hstart, heq⟩
    cases j with
    | zero =>
      obtain rfl := Option.some.inj hj
      exact .inl heq
    | succ j => exact .inr ⟨j, item', hj, hstart, heq⟩
  · rintro (heq | ⟨j, item', hj, hstart, heq⟩)
    · exact ⟨0, item, rfl, Nat.zero_le r, heq⟩
    · exact ⟨j + 1, item', hj, hstart, heq⟩

theorem mem_splitOn_take_iff {piece : List α} : ∀ {items : List (List α)},
    (∀ item ∈ items, x ∉ item) → items ≠ [] → ∀ r,
      (piece ∈ (([x].intercalate items).take r).splitOn x ↔ ∃ j item, items[j]? = some item ∧
        itemStart items j ≤ r ∧ piece = item.take (r - itemStart items j))
  | [], _, hitems, _ => absurd rfl hitems
  | [item], h, _, r => by
    have hno : x ∉ item.take r := fun hx =>
      h item (List.mem_singleton_self item) (List.mem_of_mem_take hx)
    rw [List.intercalate_singleton, List.splitOn_eq_singleton hno, List.mem_singleton,
      exists_piece_cons_iff]
    refine (or_iff_left ?_).symm
    rintro ⟨j, item', hj, -⟩
    cases hj
  | item :: next :: items, h, _, r => by
    have hrest : ∀ item ∈ next :: items, x ∉ item := fun item hitem =>
      h item (List.mem_cons_of_mem _ hitem)
    have hno : x ∉ item := h item List.mem_cons_self
    rw [List.intercalate_cons_cons, List.append_assoc, List.singleton_append,
      exists_piece_cons_iff]
    rcases Nat.lt_or_ge item.length r with hlt | hle
    · -- the first item is whole, and the rest is cut where the text is
      obtain ⟨d, rfl⟩ := Nat.exists_eq_add_of_lt hlt
      have htake : (item ++ x :: [x].intercalate (next :: items)).take (item.length + d + 1) =
          item ++ x :: ([x].intercalate (next :: items)).take d := by
        rw [Nat.add_assoc, List.take_length_add_append, List.take_succ_cons]
      rw [htake, List.splitOn_append_cons_self_of_not_mem hno, List.mem_cons,
        mem_splitOn_take_iff hrest (List.cons_ne_nil _ _) d, List.take_of_length_le (by omega)]
      refine or_congr_right (exists₂_congr fun j item' => and_congr_right fun _ => ?_)
      have hsub : item.length + d + 1 - (item.length + 1 + itemStart (next :: items) j) =
          d - itemStart (next :: items) j := by omega
      rw [hsub]
      exact and_congr_left fun _ => by omega
    · -- the cut is in the first item
      rw [List.take_append_of_le_length hle,
        List.splitOn_eq_singleton fun hx => hno (List.mem_of_mem_take hx), List.mem_singleton]
      refine (or_iff_left ?_).symm
      rintro ⟨j, item', -, hstart, -⟩
      omega

/-- **The pieces of a cut text**: of each item that starts in what is kept, as much as there is. -/
theorem mem_itemsIn_take_iff {piece : List α} (hne : ∀ item ∈ items, item ≠ [])
    (h : ∀ item ∈ items, x ∉ item) {r : ℕ} (hr : 0 < r) :
    piece ∈ itemsIn x (([x].intercalate items).take r) ↔ ∃ j item, items[j]? = some item ∧
      itemStart items j ≤ r ∧ piece = item.take (r - itemStart items j) := by
  cases items with
  | nil => simp [itemsIn]
  | cons item items =>
    have htext : ([x].intercalate (item :: items)).take r ≠ [] := by
      intro hnil
      rcases List.take_eq_nil_iff.mp hnil with hzero | hnil
      · omega
      · have hread := itemsIn_intercalate hne h
        rw [hnil] at hread
        exact List.cons_ne_nil _ _ hread.symm
    rw [itemsIn, if_neg htext]
    exact mem_splitOn_take_iff h (List.cons_ne_nil _ _) r

end Cse344.Lib
