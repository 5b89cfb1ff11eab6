import Cse344.HW2.Collect
import Cse344.Lib.Outline

/-!
# The printed tree

Model of `split_path` and `print_tree` (`HW2/src/tree.c` 12-71).

* A printed line has a depth, a name, and for a file the size and the worker that stand after the
  name. The root is the first line.
* The part of each path after the root is cut into components, at most 32 of at most 255 bytes.
* `print_tree` remembers the components of the match before, and starts where the directories part.

Results:
* `splitPath_eq`: what the components are, for paths within these bounds.
* `printTree_lines`: the lines are the listing of `Cse344.Lib.Outline`.
* **`printTree_read_back`**: who reads the lines with a stack finds the components of every match,
  and the lines of a match are those of its directories that it does not share with the match
  before.

Out of scope: the colours, and names that contain a `/`.
-/

namespace Cse344.HW2

open Cse344.Lib

/-- A line of the tree; for a file with its size and worker. -/
abbrev TreeLine := Outline.Line CStr (ℤ × ℤ)

/-- The loop of `split_path`, over the tokens that `strsep` gives. -/
def splitTokens (depth : ℕ) : List CStr → List CStr
  | [] => []
  | token :: tokens =>
    if depth < 32 then
      if token = [] then splitTokens depth tokens
      else token.take 255 :: splitTokens (depth + 1) tokens
    else []

def splitPath (rel : CStr) : List CStr := splitTokens 0 ((rel.take 4095).splitOn 47)

/-- `common`: the loop stops before the last component of either path. -/
def commonParts : List CStr → List CStr → ℕ
  | prev :: prev' :: prevParts, part :: part' :: parts =>
    if prev = part then commonParts (prev' :: prevParts) (part' :: parts) + 1 else 0
  | _, _ => 0

/-- The loop that prints the components from `d` on. -/
def printParts (m : Match) (d : ℕ) : List CStr → List TreeLine
  | [] => []
  | [part] => [⟨d + 1, part, some (m.size, m.workerPid)⟩]
  | part :: parts => ⟨d + 1, part, none⟩ :: printParts m (d + 1) parts

/-- The loop of `print_tree`; `prevParts` are the first `prev_depth` entries of `prev_parts`. -/
def printMatches (root : CStr) (prevParts : List CStr) : List Match → List TreeLine
  | [] => []
  | m :: ms =>
    let parts := splitPath (m.path.drop root.length)
    let common := commonParts prevParts parts
    printParts m common (parts.drop common) ++ printMatches root parts ms

/-- The first line, and the lines of the tree. -/
def printTree (root : CStr) (ms : List Match) : CStr × List TreeLine :=
  if ms.length = 0 then (cstr "No matching files found.", [])
  else (root, printMatches root [] ms)

/-! ## Components -/

/-- The components of a path. -/
def components (path : CStr) : List CStr := (path.splitOn 47).filter fun c => !c.isEmpty

/-- The components that a match has below the root, as far as the tree has room for them. -/
def parts (root : CStr) (m : Match) : List CStr :=
  ((components (m.path.drop root.length)).take 32).map (List.take 255)

/-- The directories among them. -/
def dirs (root : CStr) (m : Match) : List CStr := (parts root m).dropLast

/-- A match as `t_match` can hold it, with something below the root. -/
structure Below (root : CStr) (m : Match) : Prop where
  fits : m.path.length < 4096
  below : components (m.path.drop root.length) ≠ []

theorem splitTokens_eq (depth : ℕ) (tokens : List CStr) : splitTokens depth tokens =
    ((tokens.filter fun c => !c.isEmpty).take (32 - depth)).map (List.take 255) := by
  induction tokens generalizing depth with
  | nil => rw [splitTokens, List.filter_nil, List.take_nil, List.map_nil]
  | cons token tokens ih =>
    rw [splitTokens]
    split_ifs with hdepth hempty
    · rw [ih, List.filter_cons_of_neg (by simp [hempty])]
    · rw [ih, List.filter_cons_of_pos (by simpa using hempty),
        show 32 - depth = 32 - (depth + 1) + 1 by omega, List.take_succ_cons, List.map_cons]
    · rw [show 32 - depth = 0 by omega, List.take_zero, List.map_nil]

theorem splitPath_eq {root : CStr} {m : Match} (h : Below root m) :
    splitPath (m.path.drop root.length) = parts root m := by
  have hfits : (m.path.drop root.length).length ≤ 4095 := by
    have := h.fits
    rw [List.length_drop]
    omega
  rw [splitPath, splitTokens_eq, List.take_of_length_le hfits]
  rfl

theorem parts_ne_nil {root : CStr} {m : Match} (h : Below root m) : parts root m ≠ [] := by
  obtain ⟨c, cs, hc⟩ := List.exists_cons_of_ne_nil h.below
  rw [parts, hc, List.take_succ_cons, List.map_cons]
  exact List.cons_ne_nil _ _

/-! ## The tree is an outline -/

/-- A match as a leaf of the tree. -/
def leafOf (root : CStr) (m : Match) : Outline.Leaf CStr (ℤ × ℤ) where
  branches := dirs root m
  name := (parts root m).getLast?.getD []
  data := (m.size, m.workerPid)

theorem path_leafOf {root : CStr} {m : Match} (h : Below root m) :
    (leafOf root m).path = parts root m := by
  have hne := parts_ne_nil h
  rw [Outline.Leaf.path, leafOf, dirs, List.getLast?_eq_some_getLast hne, Option.getD_some,
    List.dropLast_append_getLast hne]

/-- The loop leaves out the last components, which are the files. -/
theorem commonParts_eq (prevParts parts : List CStr) :
    commonParts prevParts parts =
      Outline.commonLength prevParts.dropLast parts.dropLast := by
  induction prevParts generalizing parts with
  | nil => rfl
  | cons prev prevParts ih =>
    cases prevParts with
    | nil => rfl
    | cons prev' prevParts =>
      match parts with
      | [] => rfl
      | [part] => rfl
      | part :: part' :: parts =>
        rw [commonParts, ih, List.dropLast_cons_cons, List.dropLast_cons_cons (x := part),
          Outline.commonLength]

theorem printParts_append (m : Match) (d : ℕ) (dirs : List CStr) (name : CStr) :
    printParts m d (dirs ++ [name]) = Outline.branchLines (d + 1) dirs ++
      [⟨d + dirs.length + 1, name, some (m.size, m.workerPid)⟩] := by
  induction dirs generalizing d with
  | nil => rfl
  | cons dir dirs ih =>
    have hstep : printParts m d (dir :: (dirs ++ [name])) =
        ⟨d + 1, dir, none⟩ :: printParts m (d + 1) (dirs ++ [name]) := by
      cases dirs <;> rfl
    rw [List.cons_append, hstep, ih, Outline.branchLines, List.length_cons, List.cons_append,
      show d + 1 + dirs.length = d + (dirs.length + 1) by omega]

/-- One turn of the loop writes what the outline has for the match. -/
theorem printParts_eq {root : CStr} {m : Match} (h : Below root m) (prevParts : List CStr) :
    printParts m (commonParts prevParts (parts root m))
        ((parts root m).drop (commonParts prevParts (parts root m))) =
      Outline.leafLines prevParts.dropLast (leafOf root m) := by
  obtain ⟨shared, own, other, hprev, hdirs, hlen, -⟩ :=
    Outline.exists_common prevParts.dropLast (dirs root m)
  have hparts : parts root m = shared ++ (own ++ [(leafOf root m).name]) := by
    rw [← path_leafOf h, Outline.Leaf.path, ← List.append_assoc, ← hdirs]
    rfl
  have hcommon : commonParts prevParts (parts root m) = shared.length := by
    rw [commonParts_eq, ← hlen, dirs]
  have hline : (leafOf root m).line =
      ⟨shared.length + own.length + 1, (leafOf root m).name, some (m.size, m.workerPid)⟩ := by
    rw [Outline.Leaf.line, ← List.length_append, ← hdirs]
    rfl
  rw [hcommon, hparts, List.drop_left, printParts_append, Outline.leafLines, hline]
  change _ = Outline.branchLines (Outline.commonLength _ (dirs root m) + 1)
    ((dirs root m).drop (Outline.commonLength _ (dirs root m))) ++ _
  rw [hlen, hdirs, List.drop_left]

theorem printMatches_eq {root : CStr} {ms : List Match} (h : ∀ m ∈ ms, Below root m)
    (prevParts : List CStr) : printMatches root prevParts ms =
      Outline.lines prevParts.dropLast (ms.map (leafOf root)) := by
  induction ms generalizing prevParts with
  | nil => rfl
  | cons m ms ih =>
    obtain ⟨hm, hms⟩ := List.forall_mem_cons.mp h
    rw [printMatches, List.map_cons, Outline.lines, splitPath_eq hm, printParts_eq hm, ih hms]
    rfl

/-- The tree is the outline of the matches. -/
theorem printTree_lines {root : CStr} {ms : List Match} (h : ∀ m ∈ ms, Below root m) :
    (printTree root ms).2 = Outline.lines [] (ms.map (leafOf root)) := by
  rw [printTree]
  split_ifs with hnil
  · rw [List.length_eq_zero_iff.mp hnil]
    rfl
  · exact printMatches_eq h []

/-- The directories of the match that was printed last. -/
def previousDirs (root : CStr) (ms : List Match) : List CStr :=
  (ms.getLast?.map (dirs root)).getD []

/-- **The tree can be read back.** The reader finds the components of every match, in order, and for
each match the lines that come are those of its directories from where they part from the
directories of the match before, and then the one of the file. -/
theorem printTree_read_back {root : CStr} {ms : List Match} (h : ∀ m ∈ ms, Below root m) :
    ((Outline.read [] (printTree root ms).2).map fun leaf => (leaf.path, leaf.data)) =
      ms.map (fun m => (parts root m, m.size, m.workerPid)) ∧
    ∀ before m after, ms = before ++ m :: after →
      ∃ shared own other, previousDirs root before = shared ++ other ∧
        dirs root m = shared ++ own ∧ (∀ dir ∈ own.head?, dir ∉ other.head?) ∧
        (printTree root (before ++ [m])).2 = (printTree root before).2 ++
          Outline.branchLines (shared.length + 1) own ++ [(leafOf root m).line] ∧
        (printTree root (before ++ [m])).2 <+: (printTree root ms).2 := by
  refine ⟨?_, fun before m after hms => ?_⟩
  · rw [printTree_lines h, Outline.read_lines (List.prefix_refl []), List.map_map]
    refine List.map_congr_left fun m hm => ?_
    rw [Function.comp_apply, path_leafOf (h m hm)]
    rfl
  · subst hms
    have hbefore : ∀ m ∈ before, Below root m := fun m' hm' => h m' (List.mem_append_left _ hm')
    have hm : ∀ m' ∈ before ++ [m], Below root m' := fun m' hm' => by
      rcases List.mem_append.mp hm' with hm' | hm'
      · exact hbefore m' hm'
      · rw [List.mem_singleton.mp hm']
        exact h m (List.mem_append_right _ List.mem_cons_self)
    obtain ⟨shared, own, other, hprevious, hdirs, hpart, hlines⟩ :=
      Outline.exists_leafLines (previousDirs root before) (leafOf root m)
    have hlast : Outline.lastBranches [] (before.map (leafOf root)) =
        previousDirs root before := by
      rw [Outline.lastBranches, previousDirs, List.getLast?_map, Option.map_map]
      rfl
    refine ⟨shared, own, other, hprevious, hdirs, hpart, ?_, ?_⟩
    · rw [printTree_lines hm, printTree_lines hbefore, List.map_append, Outline.lines_append,
        hlast, List.map_cons, List.map_nil, Outline.lines, Outline.lines, hlines,
        List.append_nil, List.append_assoc]
    · have happ : (before ++ m :: after).map (leafOf root) =
          (before ++ [m]).map (leafOf root) ++ after.map (leafOf root) := by
        rw [← List.map_append, List.append_assoc, List.singleton_append]
      rw [printTree_lines hm, printTree_lines h, happ, Outline.lines_append]
      exact List.prefix_append _ _

/-- Two files of one directory, and one of a directory in it that has the same name. -/
theorem printTree_read_back_three :
    ((Outline.read [] (printTree (cstr "r") [⟨cstr "r/a/b", 7, 3⟩, ⟨cstr "r/a//c", 7, 8⟩,
      ⟨cstr "r/a/a/b", 9, 0⟩]).2).map fun leaf => (leaf.path, leaf.data)) =
      [([cstr "a", cstr "b"], 3, 7), ([cstr "a", cstr "c"], 8, 7),
        ([cstr "a", cstr "a", cstr "b"], 0, 9)] := by
  have hbelow : ∀ m ∈ [(⟨cstr "r/a/b", 7, 3⟩ : Match), ⟨cstr "r/a//c", 7, 8⟩,
      ⟨cstr "r/a/a/b", 9, 0⟩], Below (cstr "r") m := by
    simp only [List.forall_mem_cons, List.not_mem_nil, false_implies, implies_true, and_true]
    exact ⟨⟨by decide, by decide⟩, ⟨by decide, by decide⟩, ⟨by decide, by decide⟩⟩
  exact (printTree_read_back hbelow).1.trans (by decide)

end Cse344.HW2
