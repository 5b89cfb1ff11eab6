import Mathlib.Data.List.Basic

/-!
# Outlines

A tree is listed by its leaves. Each leaf has the branches it is on, from the root down, and the
listing writes a line for every branch that the leaf does not have in common with the leaf before
it, and then a line for the leaf. A line says how deep it stands, and its own name only.

* A reader keeps the branches it has seen on a stack: a branch at some depth closes those as deep as
  itself or deeper, and a leaf is on the branches of the smaller depths.
* Everything is over arbitrary names and arbitrary data of the leaves, in any order. Where a branch
  comes back after another one, it is written again.

Results:
* **`exists_leafLines`**: what is written for a leaf after another one.
* **`read_lines`**: the reader finds the leaves that were listed.

Out of scope: branches without a leaf; the listing has no line for them.
-/

namespace Cse344.Lib.Outline

variable {α β : Type*}

/-- A line of a listing. A leaf has data, a branch has none. -/
structure Line (α β : Type*) where
  depth : ℕ
  name : α
  leaf : Option β
  deriving DecidableEq, Repr

structure Leaf (α β : Type*) where
  branches : List α
  name : α
  data : β

/-- The branches of a leaf and its own name. -/
def Leaf.path (leaf : Leaf α β) : List α := leaf.branches ++ [leaf.name]

/-- The length of the longest common first part. -/
def commonLength [DecidableEq α] : List α → List α → ℕ
  | a :: l, b :: m => if a = b then commonLength l m + 1 else 0
  | _, _ => 0

/-- The lines of branches that stand one in the other, the first at `depth`. -/
def branchLines (depth : ℕ) : List α → List (Line α β)
  | [] => []
  | a :: l => ⟨depth, a, none⟩ :: branchLines (depth + 1) l

/-- The line of a leaf. -/
def Leaf.line (leaf : Leaf α β) : Line α β :=
  ⟨leaf.branches.length + 1, leaf.name, some leaf.data⟩

variable [DecidableEq α]

/-- What is written for a leaf that comes after one on the branches `previous`. -/
def leafLines (previous : List α) (leaf : Leaf α β) : List (Line α β) :=
  branchLines (commonLength previous leaf.branches + 1)
    (leaf.branches.drop (commonLength previous leaf.branches)) ++ [leaf.line]

def lines (previous : List α) : List (Leaf α β) → List (Line α β)
  | [] => []
  | leaf :: leaves => leafLines previous leaf ++ lines leaf.branches leaves

/-- The branches of the last of some leaves. -/
def lastBranches (previous : List α) (leaves : List (Leaf α β)) : List α :=
  (leaves.getLast?.map Leaf.branches).getD previous

omit [DecidableEq α] in
@[simp] theorem lastBranches_nil (previous : List α) :
    lastBranches previous ([] : List (Leaf α β)) = previous := rfl

omit [DecidableEq α] in
@[simp] theorem lastBranches_cons (previous : List α) (leaf : Leaf α β)
    (leaves : List (Leaf α β)) :
    lastBranches previous (leaf :: leaves) = lastBranches leaf.branches leaves := by
  cases leaves with
  | nil => rfl
  | cons leaf' leaves =>
    rw [lastBranches, lastBranches, List.getLast?_cons_cons, List.getLast?_cons]
    rfl

theorem lines_append (previous : List α) (leaves leaves' : List (Leaf α β)) :
    lines previous (leaves ++ leaves') =
      lines previous leaves ++ lines (lastBranches previous leaves) leaves' := by
  induction leaves generalizing previous with
  | nil => rfl
  | cons leaf leaves ih =>
    rw [List.cons_append, lines, lines, ih, lastBranches_cons, List.append_assoc]

/-! ## What two lists of branches share -/

/-- Two lists part where the common part ends. -/
theorem exists_common (l m : List α) : ∃ shared own other, l = shared ++ other ∧
    m = shared ++ own ∧ commonLength l m = shared.length ∧
    ∀ a ∈ own.head?, a ∉ other.head? := by
  induction l generalizing m with
  | nil => exact ⟨[], m, [], rfl, rfl, rfl, by simp⟩
  | cons a l ih =>
    cases m with
    | nil => exact ⟨[], [], a :: l, rfl, rfl, rfl, by simp⟩
    | cons b m =>
      rw [commonLength]
      by_cases hab : a = b
      · subst hab
        obtain ⟨shared, own, other, rfl, rfl, hlen, hpart⟩ := ih m
        exact ⟨a :: shared, own, other, rfl, rfl, by rw [if_pos rfl, hlen, List.length_cons],
          hpart⟩
      · refine ⟨[], b :: m, a :: l, rfl, rfl, if_neg hab, fun c hc hc' => hab ?_⟩
        rw [List.head?_cons, Option.mem_some] at hc hc'
        rw [hc, hc']

/-- **What is written for a leaf**: its branches from where they part from those of the leaf before
it, and the leaf. -/
theorem exists_leafLines (previous : List α) (leaf : Leaf α β) : ∃ shared own other,
    previous = shared ++ other ∧ leaf.branches = shared ++ own ∧
    (∀ a ∈ own.head?, a ∉ other.head?) ∧
    leafLines previous leaf = branchLines (shared.length + 1) own ++ [leaf.line] := by
  obtain ⟨shared, own, other, hprevious, hbranches, hlen, hpart⟩ :=
    exists_common previous leaf.branches
  refine ⟨shared, own, other, hprevious, hbranches, hpart, ?_⟩
  rw [leafLines, hlen, hbranches, List.drop_left]

/-! ## Reading a listing -/

omit [DecidableEq α]

/-- The reader, with the names on its stack. -/
def read (stack : List α) : List (Line α β) → List (Leaf α β)
  | [] => []
  | ⟨depth, name, none⟩ :: ls => read (stack.take (depth - 1) ++ [name]) ls
  | ⟨depth, name, some data⟩ :: ls => ⟨stack.take (depth - 1), name, data⟩ :: read stack ls

/-- Branches that are read are on the stack then, over what was there below them. -/
theorem read_branchLines {stack : List α} {depth : ℕ} (hdepth : depth ≤ stack.length)
    (branches : List α) (ls : List (Line α β)) : ∃ stack',
    stack.take depth ++ branches <+: stack' ∧
    read stack (branchLines (depth + 1) branches ++ ls) = read stack' ls := by
  induction branches generalizing stack depth with
  | nil =>
    refine ⟨stack, ?_, rfl⟩
    rw [List.append_nil]
    exact List.take_prefix _ _
  | cons a branches ih =>
    have hlen : (stack.take depth ++ [a]).length = depth + 1 := by
      rw [List.length_append, List.length_take_of_le hdepth, List.length_singleton]
    obtain ⟨stack', hstack', hread⟩ := ih (Nat.le_of_eq hlen.symm)
    refine ⟨stack', ?_, hread⟩
    rwa [← hlen, List.take_length, List.append_assoc, List.singleton_append] at hstack'

variable [DecidableEq α]

/-- **The reader finds the leaves.** What the listing takes for open is on the stack. -/
theorem read_lines {previous stack : List α} (h : previous <+: stack)
    (leaves : List (Leaf α β)) : read stack (lines previous leaves) = leaves := by
  induction leaves generalizing previous stack with
  | nil => rfl
  | cons leaf leaves ih =>
    obtain ⟨shared, own, other, rfl, hbranches, -, hlines⟩ := exists_leafLines previous leaf
    have hshared : shared <+: stack := (List.prefix_append shared other).trans h
    have htake : stack.take shared.length = shared := (List.prefix_iff_eq_take.mp hshared).symm
    obtain ⟨stack', hstack', hread⟩ := read_branchLines hshared.length_le own
      (leaf.line :: lines leaf.branches leaves)
    rw [htake, ← hbranches] at hstack'
    have hleaf : stack'.take leaf.branches.length = leaf.branches :=
      (List.prefix_iff_eq_take.mp hstack').symm
    rw [lines, hlines, List.append_assoc, List.singleton_append, hread, Leaf.line, read,
      Nat.add_sub_cancel, hleaf, ih hstack']

end Cse344.Lib.Outline
