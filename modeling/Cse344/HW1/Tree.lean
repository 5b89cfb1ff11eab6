import Cse344.HW1.Filters
import Cse344.Lib.Forest

/-!
# The printed tree

Model of `search_directory_internal` and `search_directory` (`HW1/src/search_directory.c` 7-74) and
of `print_tree` and `print_path` (`HW1/src/print_tree.c` 5-34).

* A directory is the list of its entries in the order `readdir` gives them; `.` and `..`, which the
  loop skips, are left out of it.
* `parents` is the chain of `t_path_info` records, the innermost first. A call gives the chain back
  as it leaves it, the lines it prints, and what it adds to `found_count`.
* A line is printed for a directory when something below it matches, unless it was printed before:
  `printPath` prints what is still missing of the chain, `opened` is the chain after that.

Results:
* `searchDirectoryInternal_eq`: what a call prints and gives back, by induction over the entries and
  what is below them, with any chain of parents.
* **`search_prints_pruned`**: the lines are the pre-order of the entries that match or have a
  matching entry below them.

Out of scope: directories that cannot be opened, a failing `lstat`, paths that do not fit
`full_path`, the colours and the signal.
-/

namespace Cse344.HW1

open Cse344.Lib

/-- A name that the loop does not skip. -/
structure Name where
  bytes : CStr
  not_dot : bytes ≠ cstr "." ∧ bytes ≠ cstr ".."

/-- An entry of a directory, with what `lstat` says of it. -/
inductive Entry
  | file (name : Name) (st : Stat) (h : st.type ≠ .directory)
  | dir (name : Name) (st : Stat) (h : st.type = .directory) (entries : List Entry)

/-- `t_path_info`, without the pointer to the parent. -/
structure PathInfo where
  name : CStr
  depth : ℕ
  printed : Bool

/-- `print_tree`: the bytes of a line. The colour is reset with its terminating NUL. -/
def printTree (name : CStr) (depth : ℕ) (isDir : Bool) : CStr :=
  [27] ++ cstr "[1;33m" ++ cstr "|" ++ List.replicate (2 + (depth - 1) * 4) 45 ++
    [27] ++ cstr "[0m" ++ [0] ++ [27] ++ (if isDir then cstr "[32m" else cstr "[37m") ++
    name ++ [27] ++ cstr "[0m\n"

/-- `print_path`: the lines it prints, and the chain. -/
def printPath : List PathInfo → List CStr × List PathInfo
  | [] => ([], [])
  | p :: parents =>
    if p.printed then ([], p :: parents)
    else
      let r := printPath parents
      (r.1 ++ [printTree p.name p.depth true], { p with printed := true } :: r.2)

/-- What a search prints, adds to `found_count`, and leaves of the chain. -/
structure Search where
  lines : List CStr
  found : ℕ
  parents : List PathInfo

mutual

/-- `search_directory_internal`. -/
def searchDirectoryInternal (criteria : Criteria) (depth : ℕ) (parents : List PathInfo) :
    List Entry → Search
  | [] => ⟨[], 0, parents⟩
  | e :: es =>
    let r := searchEntry criteria depth parents e
    let r' := searchDirectoryInternal criteria depth r.parents es
    ⟨r.lines ++ r'.lines, r.found + r'.found, r'.parents⟩

/-- The body of the loop. -/
def searchEntry (criteria : Criteria) (depth : ℕ) (parents : List PathInfo) : Entry → Search
  | .file name st _ =>
    if compare st criteria name.bytes then
      let p := printPath parents
      ⟨p.1 ++ [printTree name.bytes (depth + 1) false], 1, p.2⟩
    else ⟨[], 0, parents⟩
  | .dir name st _ entries =>
    if compare st criteria name.bytes then
      let p := printPath parents
      let r := searchDirectoryInternal criteria (depth + 1) (⟨name.bytes, depth + 1, true⟩ :: p.2)
        entries
      ⟨p.1 ++ [printTree name.bytes (depth + 1) true] ++ r.lines, 1 + r.found, r.parents.tail⟩
    else
      let r := searchDirectoryInternal criteria (depth + 1)
        (⟨name.bytes, depth + 1, false⟩ :: parents) entries
      ⟨r.lines, r.found, r.parents.tail⟩

end

def searchDirectory (criteria : Criteria) (entries : List Entry) : Search :=
  searchDirectoryInternal criteria 0 [] entries

/-! ## The pruned tree -/

/-- A name, and what `lstat` says. -/
structure Item where
  name : Name
  st : Stat

mutual

def Entry.tree : Entry → RoseTree Item
  | .file name st _ => .node ⟨name, st⟩ []
  | .dir name st _ entries => .node ⟨name, st⟩ (forest entries)

def forest : List Entry → List (RoseTree Item)
  | [] => []
  | e :: es => e.tree :: forest es

end

/-- The entry matches. -/
def matched (criteria : Criteria) (i : Item) : Bool := compare i.st criteria i.name.bytes

/-- The entries that match or have a matching entry below them, in pre-order. -/
def pruned (criteria : Criteria) (entries : List Entry) : List (Visit Item) :=
  (visitsIn [] (forest entries)).filter fun v =>
    matched criteria v.value || (visitsIn [] v.tree.children).any fun d => matched criteria d.value

/-- The line of an entry, as far in as it stands below the target directory. -/
def lineOf (v : Visit Item) : CStr :=
  printTree v.value.name.bytes (v.above.length + 1) (v.value.st.type == .directory)

/-! ## The chain -/

/-- The lines of the chain that were not printed yet. -/
def pending (parents : List PathInfo) : List CStr := (printPath parents).1

def opened (parents : List PathInfo) : List PathInfo := (printPath parents).2

theorem printPath_opened (parents : List PathInfo) :
    printPath (opened parents) = ([], opened parents) := by
  cases parents with
  | nil => rfl
  | cons p parents =>
    rw [opened, printPath]
    split_ifs with h
    · rw [printPath, if_pos h]
    · rw [printPath, if_pos rfl]

theorem printPath_unprinted {p : PathInfo} (h : p.printed = false) (parents : List PathInfo) :
    printPath (p :: parents) = (pending parents ++ [printTree p.name p.depth true],
      { p with printed := true } :: opened parents) := by
  rw [printPath, if_neg (by simp [h])]
  rfl

theorem pending_opened (parents : List PathInfo) : pending (opened parents) = [] := by
  rw [pending, printPath_opened]

theorem opened_opened (parents : List PathInfo) : opened (opened parents) = opened parents := by
  rw [opened, printPath_opened]

theorem pending_printed {p : PathInfo} (h : p.printed = true) (parents : List PathInfo) :
    pending (p :: parents) = [] := by
  rw [pending, printPath, if_pos h]

theorem opened_printed {p : PathInfo} (h : p.printed = true) (parents : List PathInfo) :
    opened (p :: parents) = p :: parents := by
  rw [opened, printPath, if_pos h]

/-! ## The search prints the pruned tree -/

/-- What a search of some trees comes to: it prints the chain first, unless none of them has a
match, and then the chain stays as it is. -/
def expected (criteria : Criteria) (above : List Item) (parents : List PathInfo)
    (ts : List (RoseTree Item)) : Search where
  lines := (if hasIn (matched criteria) ts then pending parents else []) ++
    (prunedIn (matched criteria) above ts).map lineOf
  found := (visitsIn above ts).countP fun v => matched criteria v.value
  parents := if hasIn (matched criteria) ts then opened parents else parents

theorem expected_cons (criteria : Criteria) (above : List Item) (parents : List PathInfo)
    (t : RoseTree Item) (ts : List (RoseTree Item)) :
    let r := expected criteria above parents [t]
    let r' := expected criteria above r.parents ts
    expected criteria above parents (t :: ts) =
      ⟨r.lines ++ r'.lines, r.found + r'.found, r'.parents⟩ := by
  have hhas : hasIn (matched criteria) (t :: ts) =
      (hasIn (matched criteria) [t] || hasIn (matched criteria) ts) := by
    simp only [hasIn, Bool.or_false]
  have hvisits : visitsIn above (t :: ts) = visitsIn above [t] ++ visitsIn above ts := by
    simp only [visitsIn, List.append_nil]
  have hpruned : prunedIn (matched criteria) above (t :: ts) =
      prunedIn (matched criteria) above [t] ++ prunedIn (matched criteria) above ts := by
    rw [prunedIn, hvisits, List.filter_append]
    rfl
  simp only [expected, hhas, hpruned, hvisits, List.map_append, List.countP_append]
  cases ht : hasIn (matched criteria) [t] with
  | true => simp [pending_opened, opened_opened]
  | false => simp [prunedIn_eq_nil above ht]

/-- What a search of one tree comes to. -/
theorem expected_node (criteria : Criteria) (above : List Item) (parents : List PathInfo) (i : Item)
    (children : List (RoseTree Item)) :
    expected criteria above parents [.node i children] =
      if matched criteria i || hasIn (matched criteria) children then
        ⟨pending parents ++ lineOf ⟨above, .node i children⟩ ::
            (prunedIn (matched criteria) (above ++ [i]) children).map lineOf,
          (if matched criteria i then 1 else 0) +
            (visitsIn (above ++ [i]) children).countP fun v => matched criteria v.value,
          opened parents⟩
      else ⟨[], 0, parents⟩ := by
  have hhas : hasIn (matched criteria) [.node i children] =
      (matched criteria i || hasIn (matched criteria) children) := by
    simp only [hasIn, RoseTree.has, Bool.or_false]
  have hcount : ((visitsIn above [.node i children]).countP fun v => matched criteria v.value) =
      (if matched criteria i then 1 else 0) +
        (visitsIn (above ++ [i]) children).countP fun v => matched criteria v.value := by
    rw [visitsIn, visitsIn, List.append_nil, RoseTree.visits, List.countP_cons, Nat.add_comm]
    rfl
  have hnil : prunedIn (matched criteria) above [] = [] := rfl
  rw [expected, hhas, hcount, prunedIn_cons, hnil, List.append_nil]
  cases h : matched criteria i || hasIn (matched criteria) children with
  | true => simp only [if_true, List.map_cons]
  | false =>
    obtain ⟨hi, hchildren⟩ := Bool.or_eq_false_iff.mp h
    rw [countP_eq_zero hchildren, hi]
    rfl

mutual

theorem searchDirectoryInternal_eq (criteria : Criteria) (above : List Item)
    (parents : List PathInfo) : ∀ entries : List Entry,
    searchDirectoryInternal criteria above.length parents entries =
      expected criteria above parents (forest entries)
  | [] => by simp [searchDirectoryInternal, expected, forest, hasIn, visitsIn, prunedIn]
  | e :: es => by
    rw [searchDirectoryInternal, forest, expected_cons, searchEntry_eq criteria above parents e,
      searchDirectoryInternal_eq criteria above _ es]

/-- One entry: a file, or a directory that matches, whose line is printed at once, or another one,
whose line waits in the chain. -/
theorem searchEntry_eq (criteria : Criteria) (above : List Item) (parents : List PathInfo) :
    ∀ e : Entry, searchEntry criteria above.length parents e =
      expected criteria above parents [e.tree]
  | .file name st h => by
    have hdir : (st.type == .directory) = false := beq_eq_false_iff_ne.mpr h
    rw [searchEntry, Entry.tree, expected_node, hasIn, Bool.or_false, matched]
    split_ifs
    · simp only [lineOf, Visit.value, RoseTree.value, hdir, prunedIn, visitsIn, List.filter_nil,
        List.map_nil, List.countP_nil]
      rfl
    · rfl
  | .dir name st h entries => by
    have hdir : (st.type == .directory) = true := beq_iff_eq.mpr h
    have hchildren : ∀ parents', searchDirectoryInternal criteria (above.length + 1) parents'
        entries = expected criteria (above ++ [⟨name, st⟩]) parents' (forest entries) := by
      intro parents'
      have hdepth : above.length + 1 = (above ++ [(⟨name, st⟩ : Item)]).length := by
        rw [List.length_append, List.length_singleton]
      rw [hdepth]
      exact searchDirectoryInternal_eq criteria _ parents' entries
    have hline : lineOf ⟨above, .node ⟨name, st⟩ (forest entries)⟩ =
        printTree name.bytes (above.length + 1) true := by
      simp only [lineOf, Visit.value, RoseTree.value, hdir]
    rw [searchEntry, Entry.tree, expected_node, hline, matched]
    cases hmatch : compare st criteria name.bytes with
    | true =>
      simp only [hchildren, expected, pending_printed, opened_printed, ite_self]
      simp [pending, opened]
    | false =>
      simp only [hchildren, expected]
      cases hbelow : hasIn (matched criteria) (forest entries) with
      | true => simp [pending, opened, printPath_unprinted]
      | false => simp [prunedIn_eq_nil _ hbelow, countP_eq_zero hbelow]

end

theorem pruned_eq (criteria : Criteria) (entries : List Entry) :
    pruned criteria entries = prunedIn (matched criteria) [] (forest entries) := by
  rw [pruned, prunedIn]
  refine List.filter_congr fun v _ => ?_
  rw [has_eq]
  rfl

/-- **The lines are the pruned tree.** They are the entries that match or have a matching entry
below them, each once and in pre-order, and as far in as they stand below the target directory; the
number found is that of the matching entries; an entry is at the top, or its parent has a line
before it. -/
theorem search_prints_pruned (criteria : Criteria) (entries : List Entry) :
    (searchDirectory criteria entries).lines = (pruned criteria entries).map lineOf ∧
    (searchDirectory criteria entries).found =
      ((visitsIn [] (forest entries)).countP fun v => matched criteria v.value) ∧
    ∀ before v after, pruned criteria entries = before ++ v :: after →
      v.above = [] ∨ ∃ w ∈ before, IsParent w v := by
  have heq : searchDirectory criteria entries = expected criteria [] [] (forest entries) :=
    searchDirectoryInternal_eq criteria [] [] entries
  refine ⟨?_, ?_, fun before v after h => ?_⟩
  · rw [heq, pruned_eq, expected]
    have hpending : pending [] = [] := rfl
    rw [hpending, ite_self, List.nil_append]
  · rw [heq, expected]
  · rw [pruned_eq] at h
    exact (parent_before h).imp_left And.left

/-- A directory that does not match has its line before the file in it that does. -/
theorem search_prints_pruned_nested :
    let mode : Access := ⟨true, true, false⟩
    let a : Item :=
      ⟨⟨cstr "a", by decide⟩, ⟨.directory, mode, mode, mode, 0, 2, by decide, by decide⟩⟩
    let b : Item :=
      ⟨⟨cstr "b", by decide⟩, ⟨.regular, mode, mode, mode, 7, 1, by decide, by decide⟩⟩
    ∃ w ∈ [(⟨[], .node a [.node b []]⟩ : Visit Item)], IsParent w ⟨[a], .node b []⟩ := by
  intro mode a b
  obtain ⟨-, -, hparent⟩ := search_prints_pruned { filename := some (cstr "b") }
    [.dir a.name a.st rfl [.file b.name b.st (by decide)]]
  exact (hparent [_] ⟨[a], .node b []⟩ [] rfl).resolve_left (List.cons_ne_nil _ _)

end Cse344.HW1
