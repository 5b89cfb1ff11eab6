import Mathlib.Algebra.GroupWithZero.Nat
import Mathlib.Algebra.Order.BigOperators.Group.List
import Mathlib.Algebra.Order.Group.Nat
import Mathlib.Data.Finset.Card
import Mathlib.Data.Fintype.EquivFin
import Mathlib.Logic.Function.Basic

/-!
# The largest totals in a few slots

Items, each a key and a value, are merged one by one into a fixed family of slots: the value of an
item whose key has a slot is added to it; otherwise the item takes the place of a smallest slot,
when its value is greater (`Merges`). What the slot held is lost then, and so is an item that takes
none.

* `total` is what each key's values add up to. `IsTop` says that the slots hold the largest totals.
* A key `Returns` when one of its items is merged while it has no slot, though it was merged before.
* `SlotsInv` is the invariant: a slot has the total of its key, or less if the key has returned.

Results:
* **`SlotsInv.step`**, **`slotsInv`**: merging keeps the invariant.
* **`isTop_iff`**: the slots end with the largest totals exactly when every key that returns is
  outranked by as many keys that do not as there are slots.
* **`IsTop.values_eq`**: the largest totals are determined by the totals.

Out of scope: which of two keys of one total has a slot.
-/

namespace Cse344.Lib

/-- A key and its value: an item, or the contents of a slot. -/
structure Tally (α : Type*) where
  key : α
  value : ℕ
  deriving DecidableEq, Repr

namespace Tally

variable {α ι : Type*}

/-! ## Totals -/

section Totals

variable [DecidableEq α]

/-- What the items of key `a` add up to. -/
def total (xs : List (Tally α)) (a : α) : ℕ := ((xs.filter fun x => x.key = a).map value).sum

theorem total_append (xs ys : List (Tally α)) (a : α) :
    total (xs ++ ys) a = total xs a + total ys a := by
  simp [total]

theorem total_singleton (x : Tally α) (a : α) :
    total [x] a = if x.key = a then x.value else 0 := by
  by_cases h : x.key = a <;> simp [total, h]

theorem total_snoc_self (xs : List (Tally α)) (x : Tally α) :
    total (xs ++ [x]) x.key = total xs x.key + x.value := by
  rw [total_append, total_singleton, if_pos rfl]

theorem total_snoc_of_ne {xs : List (Tally α)} {x : Tally α} {a : α} (h : a ≠ x.key) :
    total (xs ++ [x]) a = total xs a := by
  rw [total_append, total_singleton, if_neg (Ne.symm h), Nat.add_zero]

theorem total_eq_zero {xs : List (Tally α)} {a : α} (h : ∀ x ∈ xs, x.key ≠ a) :
    total xs a = 0 := by
  rw [total, List.filter_eq_nil_iff.mpr fun x hx => by simpa using h x hx]
  rfl

theorem total_pos {xs : List (Tally α)} {x : Tally α} (hx : x ∈ xs) (hpos : 0 < x.value) :
    0 < total xs x.key := by
  have hmem : x.value ∈ (xs.filter fun y => y.key = x.key).map value :=
    List.mem_map_of_mem (List.mem_filter.mpr ⟨hx, by simp⟩)
  exact lt_of_lt_of_le hpos (List.le_sum_of_mem hmem)

end Totals

/-! ## Merging one by one -/

section Slots

variable (merge : (ι → Tally α) → Tally α → ι → Tally α) (free : α)

/-- The slots after merging `xs`; a free slot has the key `free`. -/
def slots (xs : List (Tally α)) : ι → Tally α := xs.foldl merge fun _ => ⟨free, 0⟩

theorem slots_snoc (xs : List (Tally α)) (x : Tally α) :
    slots merge free (xs ++ [x]) = merge (slots merge free xs) x := by
  rw [slots, List.foldl_append]
  rfl

/-- An item of key `a` was merged while `a` had no slot, though it had been merged before. -/
def Returns (xs : List (Tally α)) (a : α) : Prop :=
  ∃ pre x post, xs = pre ++ x :: post ∧ x.key = a ∧ (∃ y ∈ pre, y.key = a) ∧
    ∀ j, (slots merge free pre j).key ≠ a

variable {merge free}

theorem not_returns_nil (a : α) : ¬ Returns merge free [] a := by
  rintro ⟨pre, x, post, h, _⟩
  simp at h

theorem returns_snoc_iff {xs : List (Tally α)} {x : Tally α} {a : α} :
    Returns merge free (xs ++ [x]) a ↔ Returns merge free xs a ∨
      (x.key = a ∧ (∃ y ∈ xs, y.key = a) ∧ ∀ j, (slots merge free xs j).key ≠ a) := by
  constructor
  · rintro ⟨pre, y, post, h, hy, hpre, hout⟩
    rcases post.eq_nil_or_concat with rfl | ⟨post, z, rfl⟩
    · obtain ⟨rfl, hxy⟩ := List.append_inj' h rfl
      obtain rfl := List.singleton_inj.mp hxy
      exact .inr ⟨hy, hpre, hout⟩
    · rw [List.concat_eq_append, ← List.cons_append, ← List.append_assoc] at h
      exact .inl ⟨pre, y, post, (List.append_inj' h rfl).1, hy, hpre, hout⟩
  · rintro (⟨pre, y, post, rfl, hy, hpre, hout⟩ | ⟨hx, hpre, hout⟩)
    · exact ⟨pre, y, post ++ [x], by simp, hy, hpre, hout⟩
    · exact ⟨xs, x, [], rfl, hx, hpre, hout⟩

/-- An item matters to its own key only. -/
theorem returns_snoc_of_ne {xs : List (Tally α)} {x : Tally α} {a : α} (ha : a ≠ x.key) :
    Returns merge free (xs ++ [x]) a ↔ Returns merge free xs a := by
  rw [returns_snoc_iff, or_iff_left]
  exact fun hx => ha hx.1.symm

/-- A key that returns was merged. -/
theorem Returns.mem {xs : List (Tally α)} {a : α} (h : Returns merge free xs a) :
    ∃ x ∈ xs, x.key = a := by
  obtain ⟨pre, x, post, rfl, hx, _, _⟩ := h
  exact ⟨x, by simp, hx⟩

/-- Nothing returns among items of different keys. -/
theorem not_returns_of_nodup {xs : List (Tally α)} (h : (xs.map key).Nodup) (a : α) :
    ¬ Returns merge free xs a := by
  rintro ⟨pre, x, post, rfl, hx, ⟨y, hy, hya⟩, _⟩
  rw [List.map_append, List.map_cons, List.nodup_append] at h
  exact h.2.2 y.key (List.mem_map_of_mem hy) x.key List.mem_cons_self (hya.trans hx.symm)

end Slots

/-! ## The invariant -/

variable [DecidableEq ι]

/-- `merge` adds an item to its key's slot, or lets it replace a smaller smallest slot. -/
structure Merges (merge : (ι → Tally α) → Tally α → ι → Tally α) : Prop where
  found : ∀ top x, (∃ j, (top j).key = x.key) → ∃ j, (top j).key = x.key ∧
    merge top x = Function.update top j ⟨x.key, (top j).value + x.value⟩
  missing : ∀ top x, (∀ j, (top j).key ≠ x.key) → ∃ m, (∀ j, (top m).value ≤ (top j).value) ∧
    merge top x = if (top m).value < x.value then Function.update top m x else top

variable [DecidableEq α] {merge : (ι → Tally α) → Tally α → ι → Tally α} {free : α}

/-- The slots `top` after the items `xs`: a key that returned has less than its total, another has
its total, and one that has no slot is outranked by every slot. While a slot is free, no key has
returned. -/
structure SlotsInv (merge : (ι → Tally α) → Tally α → ι → Tally α) (free : α)
    (xs : List (Tally α)) (top : ι → Tally α) : Prop where
  inj : ∀ i j, (top i).key = (top j).key → (top i).key ≠ free → i = j
  value_eq : ∀ j, ¬ Returns merge free xs (top j).key → (top j).value = total xs (top j).key
  value_lt : ∀ j, Returns merge free xs (top j).key → (top j).value < total xs (top j).key
  outside : ∀ a, ¬ Returns merge free xs a → (∀ j, (top j).key ≠ a) →
    ∀ j, total xs a ≤ (top j).value
  room : ∀ j, (top j).value = 0 → ∀ a, ¬ Returns merge free xs a

omit [DecidableEq ι] in
theorem slotsInv_nil : SlotsInv merge free [] (slots merge free []) where
  inj := fun _ _ _ h => absurd rfl h
  value_eq := fun _ _ => rfl
  value_lt := fun _ h => absurd h (not_returns_nil _)
  outside := fun _ _ _ _ => Nat.zero_le _
  room := fun _ _ => not_returns_nil

section Step

variable {xs : List (Tally α)} {x : Tally α}

/-- A slot gets an item whose key no other slot has: the keys stay apart. -/
theorem SlotsInv.inj_update {top : ι → Tally α} (h : SlotsInv merge free xs top) {m : ι}
    {y : Tally α} (hout : ∀ i, i ≠ m → (top i).key ≠ y.key) (i j : ι)
    (hk : (Function.update top m y i).key = (Function.update top m y j).key)
    (hf : (Function.update top m y i).key ≠ free) : i = j := by
  by_cases him : i = m <;> by_cases hjm : j = m
  · rw [him, hjm]
  · simp only [him, Function.update_self, Function.update_of_ne hjm] at hk
    exact absurd hk.symm (hout j hjm)
  · simp only [hjm, Function.update_self, Function.update_of_ne him] at hk
    exact absurd hk (hout i him)
  · simp only [Function.update_of_ne him, Function.update_of_ne hjm] at hk hf
    exact h.inj i j hk hf

/-- An item whose key has a slot. -/
theorem SlotsInv.of_found (h : SlotsInv merge free xs (slots merge free xs)) (hkey : x.key ≠ free)
    (hpos : 0 < x.value) {j : ι} (hj : (slots merge free xs j).key = x.key) :
    SlotsInv merge free (xs ++ [x]) (Function.update (slots merge free xs) j
      ⟨x.key, (slots merge free xs j).value + x.value⟩) := by
  have hret : ∀ a, Returns merge free (xs ++ [x]) a ↔ Returns merge free xs a := fun a => by
    rw [returns_snoc_iff, or_iff_left]
    rintro ⟨rfl, -, hout⟩
    exact hout j hj
  have hne : ∀ i, i ≠ j → (slots merge free xs i).key ≠ x.key := fun i hi hk =>
    hi (h.inj i j (hk.trans hj.symm) (hk ▸ hkey))
  refine ⟨h.inj_update hne, fun i hi => ?_, fun i hi => ?_, fun a ha hout i => ?_,
    fun i hi a => ?_⟩
  · rw [hret] at hi
    by_cases hij : i = j
    · subst hij
      simp only [Function.update_self] at hi ⊢
      rw [total_snoc_self, h.value_eq i (hj ▸ hi), hj]
    · simp only [Function.update_of_ne hij] at hi ⊢
      rw [total_snoc_of_ne (hne i hij), h.value_eq i hi]
  · rw [hret] at hi
    by_cases hij : i = j
    · subst hij
      simp only [Function.update_self] at hi ⊢
      have hlt := h.value_lt i (hj ▸ hi)
      rw [hj] at hlt
      rw [total_snoc_self]
      omega
    · simp only [Function.update_of_ne hij] at hi ⊢
      rw [total_snoc_of_ne (hne i hij)]
      exact h.value_lt i hi
  · rw [hret] at ha
    have hax : a ≠ x.key := by
      rintro rfl
      exact hout j (by rw [Function.update_self])
    have hle := h.outside a ha (fun i' hi' => by
      have hij : i' ≠ j := by
        rintro rfl
        exact hax (hi'.symm.trans hj)
      exact hout i' (by rw [Function.update_of_ne hij, hi'])) i
    rw [total_snoc_of_ne hax]
    by_cases hij : i = j
    · subst hij
      rw [Function.update_self]
      exact hle.trans (Nat.le_add_right _ _)
    · rw [Function.update_of_ne hij]
      exact hle
  · rw [hret]
    by_cases hij : i = j
    · subst hij
      simp only [Function.update_self] at hi
      omega
    · rw [Function.update_of_ne hij] at hi
      exact h.room i hi a

/-- An item whose key has no slot, and which takes the place of slot `m`. -/
theorem SlotsInv.of_replaced (h : SlotsInv merge free xs (slots merge free xs))
    (hxs : ∀ y ∈ xs, 0 < y.value) {m : ι} (hout : ∀ j, (slots merge free xs j).key ≠ x.key)
    (hmin : ∀ j, (slots merge free xs m).value ≤ (slots merge free xs j).value)
    (hlt : (slots merge free xs m).value < x.value) :
    SlotsInv merge free (xs ++ [x]) (Function.update (slots merge free xs) m x) := by
  have hle : ∀ j,
      (slots merge free xs m).value ≤ (Function.update (slots merge free xs) m x j).value :=
    fun j => by
      by_cases hjm : j = m
      · rw [hjm, Function.update_self]
        exact hlt.le
      · rw [Function.update_of_ne hjm]
        exact hmin j
  refine ⟨h.inj_update fun i _ => hout i, fun i hi => ?_, fun i hi => ?_, fun a ha haout i => ?_,
    fun i hi a ha => ?_⟩
  · by_cases hij : i = m
    · simp only [hij, Function.update_self] at hi ⊢
      have hnew : ∀ y ∈ xs, y.key ≠ x.key := fun y hy hyx =>
        hi (returns_snoc_iff.mpr (.inr ⟨rfl, ⟨y, hy, hyx⟩, hout⟩))
      rw [total_snoc_self, total_eq_zero hnew, Nat.zero_add]
    · simp only [Function.update_of_ne hij] at hi ⊢
      rw [total_snoc_of_ne (hout i), h.value_eq i (mt (returns_snoc_of_ne (hout i)).mpr hi)]
  · by_cases hij : i = m
    · simp only [hij, Function.update_self] at hi ⊢
      obtain ⟨y, hy, hyx⟩ : ∃ y ∈ xs, y.key = x.key := by
        rcases returns_snoc_iff.mp hi with hr | hr
        · exact hr.mem
        · exact hr.2.1
      rw [total_snoc_self]
      exact Nat.lt_add_of_pos_left (hyx ▸ total_pos hy (hxs y hy))
    · simp only [Function.update_of_ne hij] at hi ⊢
      rw [total_snoc_of_ne (hout i)]
      exact h.value_lt i ((returns_snoc_of_ne (hout i)).mp hi)
  · have hax : a ≠ x.key := by
      rintro rfl
      exact haout m (by rw [Function.update_self])
    rw [returns_snoc_of_ne hax] at ha
    rw [total_snoc_of_ne hax]
    refine le_trans ?_ (hle i)
    by_cases hm : (slots merge free xs m).key = a
    · subst hm
      rw [h.value_eq m ha]
    · refine h.outside a ha (fun j hj => ?_) m
      have hjm : j ≠ m := by
        rintro rfl
        exact hm hj
      exact haout j (by rw [Function.update_of_ne hjm, hj])
  · have hm : (slots merge free xs m).value = 0 := Nat.le_zero.mp (hi ▸ hle i)
    rcases returns_snoc_iff.mp ha with hr | ⟨rfl, ⟨y, hy, hyx⟩, _⟩
    · exact h.room m hm a hr
    · have hzero := h.outside x.key (h.room m hm _) hout m
      have hpos : 0 < total xs x.key := hyx ▸ total_pos hy (hxs y hy)
      omega

omit [DecidableEq ι] in
/-- An item whose key has no slot, and which is too small to get one. -/
theorem SlotsInv.of_rejected (h : SlotsInv merge free xs (slots merge free xs))
    (hpos : 0 < x.value) {m : ι} (hout : ∀ j, (slots merge free xs j).key ≠ x.key)
    (hmin : ∀ j, (slots merge free xs m).value ≤ (slots merge free xs j).value)
    (hle : x.value ≤ (slots merge free xs m).value) :
    SlotsInv merge free (xs ++ [x]) (slots merge free xs) := by
  refine ⟨h.inj, fun i hi => ?_, fun i hi => ?_, fun a ha haout i => ?_, fun i hi a ha => ?_⟩
  · rw [total_snoc_of_ne (hout i), h.value_eq i (mt (returns_snoc_of_ne (hout i)).mpr hi)]
  · rw [total_snoc_of_ne (hout i)]
    exact h.value_lt i ((returns_snoc_of_ne (hout i)).mp hi)
  · by_cases hax : a = x.key
    · subst hax
      have hnew : ∀ y ∈ xs, y.key ≠ x.key := fun y hy hyx =>
        ha (returns_snoc_iff.mpr (.inr ⟨rfl, ⟨y, hy, hyx⟩, hout⟩))
      rw [total_snoc_self, total_eq_zero hnew, Nat.zero_add]
      exact hle.trans (hmin i)
    · rw [total_snoc_of_ne hax]
      exact h.outside a (mt (returns_snoc_of_ne hax).mpr ha) haout i
  · have := hmin i
    omega

/-- **Merging an item keeps the invariant.** -/
theorem SlotsInv.step (hmerge : Merges merge) (h : SlotsInv merge free xs (slots merge free xs))
    (hkey : x.key ≠ free) (hpos : 0 < x.value) (hxs : ∀ y ∈ xs, 0 < y.value) :
    SlotsInv merge free (xs ++ [x]) (slots merge free (xs ++ [x])) := by
  rw [slots_snoc]
  by_cases hin : ∃ j, (slots merge free xs j).key = x.key
  · obtain ⟨j, hj, hm⟩ := hmerge.found _ x hin
    rw [hm]
    exact h.of_found hkey hpos hj
  · have hout : ∀ j, (slots merge free xs j).key ≠ x.key := not_exists.mp hin
    obtain ⟨m, hmin, hm⟩ := hmerge.missing _ x hout
    rw [hm]
    split
    · rename_i hlt
      exact h.of_replaced hxs hout hmin hlt
    · rename_i hle
      exact h.of_rejected hpos hout hmin (not_lt.mp hle)

end Step

/-- The items have keys of their own and count for something. -/
def Proper (free : α) (xs : List (Tally α)) : Prop := ∀ x ∈ xs, x.key ≠ free ∧ 0 < x.value

/-- **The invariant holds after any items.** -/
theorem slotsInv (hmerge : Merges merge) {xs : List (Tally α)} (hxs : Proper free xs) :
    SlotsInv merge free xs (slots merge free xs) := by
  induction xs using List.reverseRecOn with
  | nil => exact slotsInv_nil
  | append_singleton xs x ih =>
    have hinit : Proper free xs := fun y hy => hxs y (List.mem_append_left _ hy)
    have hx := hxs x (by simp)
    exact (ih hinit).step hmerge hx.1 hx.2 fun y hy => (hinit y hy).2

/-! ## The largest totals -/

/-- The slots `top` hold the largest of the totals `tot`; a slot of value `0` is free. -/
structure IsTop (tot : α → ℕ) (top : ι → Tally α) : Prop where
  value_eq : ∀ j, (top j).value = tot (top j).key
  distinct : ∀ i j, (top i).key = (top j).key → i ≠ j → (top i).value = 0
  largest : ∀ a, (∀ j, (top j).key ≠ a) → ∀ j, tot a ≤ (top j).value

/-- Every key that returns has as many keys that do not, with totals as large, as there are
slots. -/
def Outranked (merge : (ι → Tally α) → Tally α → ι → Tally α) (free : α) (xs : List (Tally α)) :
    Prop :=
  ∀ a, Returns merge free xs a → ∃ t : ι → α, Function.Injective t ∧
    ∀ i, ¬ Returns merge free xs (t i) ∧ total xs a ≤ total xs (t i)

omit [DecidableEq ι] in
/-- Largest totals in the slots outrank what returned. -/
theorem SlotsInv.outranked {xs : List (Tally α)} (hxs : Proper free xs)
    (h : SlotsInv merge free xs (slots merge free xs))
    (ht : IsTop (total xs) (slots merge free xs)) : Outranked merge free xs := by
  have hnot : ∀ j, ¬ Returns merge free xs (slots merge free xs j).key := fun j hj =>
    absurd (ht.value_eq j) (h.value_lt j hj).ne
  intro a ha
  have hout : ∀ j, (slots merge free xs j).key ≠ a := fun j hj => hnot j (hj ▸ ha)
  refine ⟨fun j => (slots merge free xs j).key, fun i j hij => ?_, fun j => ⟨hnot j, ?_⟩⟩
  · refine h.inj i j hij fun hfree => ?_
    have hzero : total xs free = 0 := total_eq_zero fun x hx => (hxs x hx).1
    exact h.room i (by rw [ht.value_eq, hfree, hzero]) a ha
  · rw [← ht.value_eq]
    exact ht.largest a hout j

omit [DecidableEq ι] in
/-- Slots that outrank what returned hold the largest totals. -/
theorem SlotsInv.isTop [Finite ι] {xs : List (Tally α)} (hxs : Proper free xs)
    (h : SlotsInv merge free xs (slots merge free xs)) (ho : Outranked merge free xs) :
    IsTop (total xs) (slots merge free xs) := by
  -- a key that returned and a slot it does not have: some key that outranks it has none either
  have hmiss : ∀ (t : ι → α) (i : ι), Function.Injective t →
      (∀ k, (slots merge free xs i).key ≠ t k) → ∃ k, ∀ j, (slots merge free xs j).key ≠ t k := by
    intro t i ht hi
    by_contra hall
    simp only [not_exists, not_forall, not_not] at hall
    choose f hf using hall
    have hinj : Function.Injective f := fun k k' hk => ht (by rw [← hf k, ← hf k', hk])
    obtain ⟨k, rfl⟩ := Finite.injective_iff_surjective.mp hinj i
    exact hi k (hf k)
  have hnot : ∀ j, ¬ Returns merge free xs (slots merge free xs j).key := by
    intro j hj
    obtain ⟨t, ht, hrank⟩ := ho _ hj
    obtain ⟨k, hk⟩ := hmiss t j ht fun k heq => (hrank k).1 (heq ▸ hj)
    have hle := h.outside _ (hrank k).1 hk j
    exact absurd ((h.value_lt j hj).trans_le (hrank k).2) (not_lt.mpr hle)
  refine ⟨fun j => h.value_eq j (hnot j), fun i j hij hne => ?_, fun a hout j => ?_⟩
  · have hfree : (slots merge free xs i).key = free := by
      by_contra hf
      exact hne (h.inj i j hij hf)
    rw [h.value_eq i (hnot i), hfree]
    exact total_eq_zero fun x hx => (hxs x hx).1
  · by_cases ha : Returns merge free xs a
    · obtain ⟨t, ht, hrank⟩ := ho a ha
      by_cases hj : ∃ k, (slots merge free xs j).key = t k
      · obtain ⟨k, hk⟩ := hj
        rw [h.value_eq j (hnot j), hk]
        exact (hrank k).2
      · obtain ⟨k, hk⟩ := hmiss t j ht (not_exists.mp hj)
        exact (hrank k).2.trans (h.outside _ (hrank k).1 hk j)
    · exact h.outside a ha hout j

/-- **When the slots hold the largest totals.** -/
theorem isTop_iff [Finite ι] (hmerge : Merges merge) {xs : List (Tally α)} (hxs : Proper free xs) :
    IsTop (total xs) (slots merge free xs) ↔ Outranked merge free xs :=
  ⟨(slotsInv hmerge hxs).outranked hxs, (slotsInv hmerge hxs).isTop hxs⟩

omit [DecidableEq α] [DecidableEq ι] in
/-- As many slots reach a value in one family of largest totals as in another. -/
theorem IsTop.card_le [Fintype ι] {tot : α → ℕ} {top top' : ι → Tally α} (h : IsTop tot top)
    (h' : IsTop tot top') {c : ℕ} (hc : 0 < c) :
    (Finset.univ.filter fun j => c ≤ (top j).value).card ≤
      (Finset.univ.filter fun j => c ≤ (top' j).value).card := by
  classical
  by_cases hall : ∀ i, c ≤ (top' i).value
  · rw [Finset.filter_true_of_mem fun i _ => hall i]
    exact Finset.card_le_univ _
  -- a slot of `top'` is below `c`, so every key that reaches `c` has a slot in `top'`
  obtain ⟨i, hi⟩ := not_forall.mp hall
  have hslot : ∀ j, c ≤ (top j).value → ∃ k, (top' k).key = (top j).key := fun j hj => by
    by_contra hno
    have := h'.largest _ (not_exists.mp hno) i
    rw [← h.value_eq] at this
    exact hi (hj.trans this)
  choose! f hf using hslot
  refine Finset.card_le_card_of_injOn f (fun j hj => ?_) fun j hj j' hj' hjj => ?_
  · simp only [Finset.coe_filter, Finset.mem_univ, true_and, Set.mem_ofPred_eq] at hj ⊢
    rwa [h'.value_eq, hf j hj, ← h.value_eq]
  · simp only [Finset.coe_filter, Finset.mem_univ, true_and, Set.mem_ofPred_eq] at hj hj'
    by_contra hne
    have hzero := h.distinct j j' (by rw [← hf j hj, ← hf j' hj', hjj]) hne
    exact absurd (hj.trans_eq hzero) (not_le.mpr hc)

omit [DecidableEq α] [DecidableEq ι] in
/-- **The largest totals are determined**: two families of slots that hold them have the same
values. -/
theorem IsTop.values_eq [Fintype ι] {tot : α → ℕ} {top top' : ι → Tally α} (h : IsTop tot top)
    (h' : IsTop tot top') :
    Finset.univ.val.map (fun j => (top j).value) = Finset.univ.val.map fun j => (top' j).value := by
  classical
  have hcard : ∀ c, (Finset.univ.filter fun j => c ≤ (top j).value).card =
      (Finset.univ.filter fun j => c ≤ (top' j).value).card := fun c => by
    cases c with
    | zero => simp
    | succ c => exact le_antisymm (h.card_le h' c.succ_pos) (h'.card_le h c.succ_pos)
  have hsplit : ∀ (t : ι → Tally α) c, (Finset.univ.filter fun j => c ≤ (t j).value).card =
      (Finset.univ.filter fun j => c = (t j).value).card +
        (Finset.univ.filter fun j => c + 1 ≤ (t j).value).card := fun t c => by
    rw [← Finset.card_union_of_disjoint]
    · congr 1
      ext j
      simp only [Finset.mem_filter, Finset.mem_univ, true_and, Finset.mem_union]
      omega
    · refine Finset.disjoint_filter.mpr fun j _ hj hj' => ?_
      omega
  refine Multiset.ext.mpr fun c => ?_
  rw [Multiset.count_map, Multiset.count_map]
  have heq := hcard c
  rw [hsplit top, hsplit top', hcard (c + 1)] at heq
  exact Nat.add_right_cancel heq

end Tally

end Cse344.Lib
