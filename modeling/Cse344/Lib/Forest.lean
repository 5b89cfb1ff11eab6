import Mathlib.Data.List.Basic

/-!
# Forests

A tree is a value and a list of trees. `visitsIn` goes through a forest in pre-order; a visit knows
the values above the tree it is of.

* `RoseTree.has` says that a value of a tree has a property. A forest is pruned to the trees that
  have one with it (`prunedIn`).
* `IsParent` says of two visits that the one is of the parent of the other.
* What is said of a tree and of a forest is proved together, by mutual recursion on the two.

Results:
* `has_iff`: a tree has a property if a value that is visited does.
* `pruned_eq_nil`, `prunedIn_cons`: pruning, tree by tree.
* **`parent_before`**: a pruned forest still has the parent of a tree, and before the tree.

Out of scope: the order of the children, which is that of the list.
-/

namespace Cse344.Lib

variable {α : Type*}

inductive RoseTree (α : Type*)
  | node (value : α) (children : List (RoseTree α))

namespace RoseTree

def value : RoseTree α → α
  | .node value _ => value

def children : RoseTree α → List (RoseTree α)
  | .node _ children => children

end RoseTree

/-- A tree on the way through a forest, with the values it stands under, from the root down. -/
structure Visit (α : Type*) where
  above : List α
  tree : RoseTree α

def Visit.value (v : Visit α) : α := v.tree.value

mutual

def RoseTree.visits (above : List α) : RoseTree α → List (Visit α)
  | .node value children => ⟨above, .node value children⟩ :: visitsIn (above ++ [value]) children

/-- Pre-order, with the trees of the forest under `above`. -/
def visitsIn (above : List α) : List (RoseTree α) → List (Visit α)
  | [] => []
  | t :: ts => t.visits above ++ visitsIn above ts

end

mutual

/-- A value of the tree has the property. -/
def RoseTree.has (p : α → Bool) : RoseTree α → Bool
  | .node value children => p value || hasIn p children

def hasIn (p : α → Bool) : List (RoseTree α) → Bool
  | [] => false
  | t :: ts => t.has p || hasIn p ts

end

/-- The visits of the trees that have a value with the property. -/
def prunedIn (p : α → Bool) (above : List α) (ts : List (RoseTree α)) : List (Visit α) :=
  (visitsIn above ts).filter fun v => v.tree.has p

mutual

theorem has_iff (p : α → Bool) (above : List α) : ∀ t : RoseTree α,
    t.has p = true ↔ ∃ v ∈ t.visits above, p v.value = true
  | .node value children => by
    rw [RoseTree.has, RoseTree.visits, Bool.or_eq_true, hasIn_iff p (above ++ [value]) children,
      List.exists_mem_cons_iff]
    rfl

theorem hasIn_iff (p : α → Bool) (above : List α) : ∀ ts : List (RoseTree α),
    hasIn p ts = true ↔ ∃ v ∈ visitsIn above ts, p v.value = true
  | [] => by simp [hasIn, visitsIn]
  | t :: ts => by
    rw [hasIn, visitsIn, Bool.or_eq_true, has_iff p above t, hasIn_iff p above ts]
    simp only [List.mem_append, or_and_right, exists_or]

end

/-- The value has the property, or one below it. -/
theorem has_eq (p : α → Bool) (t : RoseTree α) :
    t.has p = (p t.value || (visitsIn [] t.children).any fun v => p v.value) := by
  obtain ⟨value, children⟩ := t
  rw [RoseTree.has]
  congr 1
  rw [Bool.eq_iff_iff, hasIn_iff p [] children, List.any_eq_true]
  rfl

mutual

theorem pruned_eq_nil {p : α → Bool} (above : List α) : ∀ {t : RoseTree α}, t.has p = false →
    ((t.visits above).filter fun v => v.tree.has p) = []
  | .node value children, h => by
    have hsplit := h
    rw [RoseTree.has, Bool.or_eq_false_iff] at hsplit
    rw [RoseTree.visits, List.filter_cons_of_neg (by simp [h])]
    exact prunedIn_eq_nil (above ++ [value]) hsplit.2

/-- Nothing is left of a forest that has no value with the property. -/
theorem prunedIn_eq_nil {p : α → Bool} (above : List α) : ∀ {ts : List (RoseTree α)},
    hasIn p ts = false → prunedIn p above ts = []
  | [], _ => rfl
  | t :: ts, h => by
    rw [hasIn, Bool.or_eq_false_iff] at h
    rw [prunedIn, visitsIn, List.filter_append, pruned_eq_nil above h.1, List.nil_append]
    exact prunedIn_eq_nil above h.2

end

/-- A tree is left with what is left of its children, or it is not left at all. -/
theorem prunedIn_cons (p : α → Bool) (above : List α) (value : α)
    (children ts : List (RoseTree α)) :
    prunedIn p above (.node value children :: ts) =
      (if p value || hasIn p children then
        ⟨above, .node value children⟩ :: prunedIn p (above ++ [value]) children else []) ++
      prunedIn p above ts := by
  rw [prunedIn, visitsIn, List.filter_append]
  congr 1
  split_ifs with h
  · rw [RoseTree.visits, List.filter_cons_of_pos (by simpa [RoseTree.has] using h)]
    rfl
  · exact pruned_eq_nil above (by simpa [RoseTree.has] using h)

theorem countP_eq_zero {p : α → Bool} {ts : List (RoseTree α)} (h : hasIn p ts = false)
    (above : List α) : ((visitsIn above ts).countP fun v => p v.value) = 0 := by
  refine List.countP_eq_zero.mpr fun v hv hp => ?_
  have hhas := (hasIn_iff p above ts).mpr ⟨v, hv, hp⟩
  rw [h] at hhas
  cases hhas

/-! ## Parents -/

/-- The tree of `v` is a child of the tree of `w`. -/
def IsParent (w v : Visit α) : Prop := v.above = w.above ++ [w.value] ∧ v.tree ∈ w.tree.children

mutual

theorem visits_parent_before (above : List α) : ∀ (t : RoseTree α) {before after : List (Visit α)}
    {v : Visit α}, t.visits above = before ++ v :: after →
    v = ⟨above, t⟩ ∨ ∃ w ∈ before, IsParent w v
  | .node value children, before, after, v, h => by
    rw [RoseTree.visits] at h
    rcases before with _ | ⟨w, before⟩
    · exact .inl (List.cons.inj h).1.symm
    · obtain ⟨rfl, htail⟩ := List.cons.inj h
      refine .inr ?_
      rcases visitsIn_parent_before (above ++ [value]) children htail with ⟨habove, hmem⟩ |
        ⟨w, hw, hp⟩
      · exact ⟨_, List.mem_cons_self, habove, hmem⟩
      · exact ⟨w, List.mem_cons_of_mem _ hw, hp⟩

theorem visitsIn_parent_before (above : List α) : ∀ (ts : List (RoseTree α))
    {before after : List (Visit α)} {v : Visit α}, visitsIn above ts = before ++ v :: after →
    (v.above = above ∧ v.tree ∈ ts) ∨ ∃ w ∈ before, IsParent w v
  | [], before, after, v, h => by simp [visitsIn] at h
  | t :: ts, before, after, v, h => by
    rw [visitsIn] at h
    rcases List.append_eq_append_iff.mp h with ⟨before', rfl, hts⟩ | ⟨rest, ht, hrest⟩
    · rcases visitsIn_parent_before above ts hts with ⟨habove, hmem⟩ | ⟨w, hw, hp⟩
      · exact .inl ⟨habove, List.mem_cons_of_mem _ hmem⟩
      · exact .inr ⟨w, List.mem_append_right _ hw, hp⟩
    · rcases rest with _ | ⟨v', rest⟩
      · have hnone : visitsIn above ts = [] ++ v :: after := hrest.symm
        rcases visitsIn_parent_before above ts hnone with ⟨habove, hmem⟩ | ⟨w, hw, -⟩
        · exact .inl ⟨habove, List.mem_cons_of_mem _ hmem⟩
        · cases hw
      · obtain ⟨rfl, -⟩ := List.cons.inj hrest
        rcases visits_parent_before above t ht with rfl | hp
        · exact .inl ⟨rfl, List.mem_cons_self⟩
        · exact .inr hp

end

theorem hasIn_of_mem {p : α → Bool} {t : RoseTree α} {ts : List (RoseTree α)} (ht : t ∈ ts)
    (h : t.has p = true) : hasIn p ts = true := by
  induction ts with
  | nil => cases ht
  | cons t' ts ih =>
    rw [hasIn, Bool.or_eq_true]
    rcases List.mem_cons.mp ht with rfl | ht
    · exact .inl h
    · exact .inr (ih ht)

theorem IsParent.has {p : α → Bool} {w v : Visit α} (h : IsParent w v)
    (hv : v.tree.has p = true) : w.tree.has p = true := by
  obtain ⟨above, value, children⟩ := w
  rw [RoseTree.has, Bool.or_eq_true]
  exact .inr (hasIn_of_mem h.2 hv)

/-- **A tree that is left stands at the top, or its parent is left too**, before it. -/
theorem parent_before {p : α → Bool} {above : List α} {ts : List (RoseTree α)}
    {before after : List (Visit α)} {v : Visit α} (h : prunedIn p above ts = before ++ v :: after) :
    (v.above = above ∧ v.tree ∈ ts) ∨ ∃ w ∈ before, IsParent w v := by
  obtain ⟨before', rest, hvisits, hbefore, hrest⟩ := List.filter_eq_append_iff.mp h
  obtain ⟨skipped, after', rfl, hskipped, hv, -⟩ := List.filter_eq_cons_iff.mp hrest
  rw [← List.append_assoc] at hvisits
  rcases visitsIn_parent_before above ts hvisits with htop | ⟨w, hw, hp⟩
  · exact .inl htop
  · have hkept := hp.has hv
    refine .inr ⟨w, ?_, hp⟩
    rcases List.mem_append.mp hw with hw | hw
    · rw [← hbefore]
      exact List.mem_filter.mpr ⟨hw, hkept⟩
    · exact absurd hkept (hskipped w hw)

end Cse344.Lib
