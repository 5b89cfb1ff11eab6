import Cse344.HW2.Collect
import Cse344.Lib.Stride

/-!
# Searching a directory tree

Model of `match` and `regex` (`HW2/src/regex.c`), `search_directory` and `search_directory_collect`
(`HW2/src/search_directory.c` 21-119), `root_subdirs` and `fill_subdirs` (`HW2/src/subdirs.c`) and
of `record_match_and_file` (`HW2/src/utils.c` 18-29).

* A directory is the list of its entries in the order `readdir` gives them, which does not change
  during the run; `.` and `..`, which every loop skips, are left out of it.
* `char` is signed, as on x86-64, and the locale is `C`.
* The searches return what they add to the counters their C versions update, and the records they
  write.
* A path is built in a buffer of 4096 bytes, and one that is cut off there is the path of no file:
  `PathsFit` says that none is.
* `allFiles` is the traversal the searches are compared with: every non-directory entry below a
  directory, with its full path.

Results:
* **`searchDirectory_spec`**, **`searchDirectoryCollect_spec`**: while the paths fit, the two
  searches find exactly its accepted entries.

Out of scope: directories that cannot be opened, a failing `lstat`, the printed lines.
-/

namespace Cse344.HW2

open Cse344.Lib

/-! ## The pattern -/

/-- The loop of the `+` branch: `next` is the match of the rest of the pattern. -/
def matchPlus (next : CStr → Bool) (c : ℤ) : CStr → Bool
  | [] => false
  | x :: xs => sameLetter x c && (next xs || matchPlus next c xs)

/-- `match`: the pattern matches a prefix of the file name. -/
def matchHere : CStr → CStr → Bool
  | [], _ => true
  | [p], filename =>
    match filename with
    | [] => false
    | x :: xs => sameLetter x (toChar (tolower p)) && matchHere [] xs
  | p :: q :: pattern, filename =>
    if q = 43 then matchPlus (matchHere pattern) (toChar (tolower p)) filename
    else
      match filename with
      | [] => false
      | x :: xs => sameLetter x (toChar (tolower p)) && matchHere (q :: pattern) xs

/-- `regex`: the pattern matches somewhere in the file name. -/
def regex (pattern : CStr) : CStr → Bool
  | [] => matchHere pattern []
  | x :: xs => matchHere pattern (x :: xs) || regex pattern xs

/-! ## Directories -/

/-- A name `readdir` can give, other than `.` and `..`. -/
structure Name where
  bytes : CStr
  nonempty : bytes ≠ []
  not_dot : bytes ≠ cstr "." ∧ bytes ≠ cstr ".."
  plain : 0 ∉ bytes ∧ 47 ∉ bytes

/-- An entry of a directory: a file of any other kind, with its `st_size`, or a directory. -/
inductive Entry
  | file (name : Name) (size : ℤ)
  | dir (name : Name) (entries : List Entry)

def Entry.name : Entry → Name
  | .file name _ => name
  | .dir name _ => name

/-- `t_args`, without the flags only `parse_arguments` reads. -/
structure Args where
  rootDir : CStr
  numWorkers : ℕ
  pattern : CStr
  minSize : ℤ
  sFlag : Bool

/-- The two tests a search makes of a file. -/
def accepts (args : Args) (name : Name) (size : ℤ) : Bool :=
  regex args.pattern name.bytes && (!args.sFlag || decide (args.minSize ≤ size))

/-- The path `"%s/%s"`. -/
def join (path : CStr) (name : Name) : CStr := path ++ cstr "/" ++ name.bytes

/-- What fits in `full_path`. -/
def fullPath (path : CStr) (name : Name) : CStr := (join path name).take 4095

def newMatch (pid : ℤ) (path : CStr) (size : ℤ) : Match where
  path := path.take 4095
  workerPid := pid
  size := size

/-- What a search returns, adds to `*files_scanned`, and writes to the match pipe. -/
structure Scan where
  total : ℕ := 0
  filesScanned : ℕ := 0
  written : List Match := []

def Scan.append (a b : Scan) : Scan where
  total := a.total + b.total
  filesScanned := a.filesScanned + b.filesScanned
  written := a.written ++ b.written

mutual

def searchDirectory (args : Args) (pid : ℤ) (path : CStr) : List Entry → Scan
  | [] => {}
  | e :: es =>
    (searchEntry args pid (fullPath path e.name) e).append (searchDirectory args pid path es)

/-- The body of the loop of `search_directory`. -/
def searchEntry (args : Args) (pid : ℤ) (path : CStr) : Entry → Scan
  | .dir _ entries => searchDirectory args pid path entries
  | .file name size =>
    if accepts args name size then
      { total := 1, filesScanned := 1, written := [newMatch pid path size] }
    else { filesScanned := 1 }

end

mutual

/-- The return value, and `all_matches` with its `total_match_count` entries. -/
def searchDirectoryCollect (args : Args) (pid : ℤ) (path : CStr) :
    List Entry → List Match → ℕ × List Match
  | [], all => (0, all)
  | e :: es, all =>
    let r := searchEntryCollect args pid (fullPath path e.name) e all
    let r' := searchDirectoryCollect args pid path es r.2
    (r.1 + r'.1, r'.2)

/-- The body of the loop of `search_directory_collect`. -/
def searchEntryCollect (args : Args) (pid : ℤ) (path : CStr) :
    Entry → List Match → ℕ × List Match
  | .dir _ entries, all => searchDirectoryCollect args pid path entries all
  | .file name size, all =>
    if accepts args name size then
      (1, if all.length < maxMatches then all ++ [newMatch pid path size] else all)
    else (0, all)

end

/-- The subdirectories of the root: the path stored of each, and the entries it leads to. -/
def subdirsOf (root : CStr) : List Entry → List (CStr × List Entry)
  | [] => []
  | .dir name entries :: es => (fullPath root name, entries) :: subdirsOf root es
  | .file _ _ :: es => subdirsOf root es

def rootSubdirs (root : CStr) (entries : List Entry) : ℕ := (subdirsOf root entries).length

def fillSubdirs (root : CStr) (entries : List Entry) (max : ℕ) : List (CStr × List Entry) :=
  (subdirsOf root entries).take max

/-- `check_num_subdirs`: the number of workers it leaves in `args`. -/
def checkNumSubdirs (numSubdirs numWorkers : ℕ) : ℕ :=
  if numSubdirs < numWorkers then numSubdirs else numWorkers

/-- The searches of worker `i`, in the order of its loop. -/
def workerScans (args : Args) (pid : ℤ) (numWorkers i : ℕ) (subdirs : List (CStr × List Entry)) :
    List Scan :=
  (stride numWorkers subdirs.length i).map fun j =>
    match subdirs[j]? with
    | some (path, entries) => searchDirectory args pid path entries
    | none => {}

def recordMatchAndFile (args : Args) (pid : ℤ) (numWorkers i : ℕ)
    (subdirs : List (CStr × List Entry)) : Job :=
  let r := (workerScans args pid numWorkers i subdirs).foldl Scan.append {}
  { written := r.written, matchCount := r.total, filesScanned := r.filesScanned }

/-! ## The sequential traversal -/

/-- A non-directory entry and its full path. -/
structure FileAt where
  path : CStr
  name : Name
  size : ℤ

def FileAt.accepted (args : Args) (f : FileAt) : Bool := accepts args f.name f.size

mutual

/-- Every non-directory entry below the entries of a directory. -/
def allFiles (path : CStr) : List Entry → List FileAt
  | [] => []
  | e :: es => filesOf (join path e.name) e ++ allFiles path es

def filesOf (path : CStr) : Entry → List FileAt
  | .dir _ entries => allFiles path entries
  | .file name size => [⟨path, name, size⟩]

end

mutual

/-- The path of every entry below. -/
def allPaths (path : CStr) : List Entry → List CStr
  | [] => []
  | e :: es => join path e.name :: pathsOf (join path e.name) e ++ allPaths path es

def pathsOf (path : CStr) : Entry → List CStr
  | .dir _ entries => allPaths path entries
  | .file _ _ => []

end

/-- No path below is cut off. -/
def PathsFit (path : CStr) (entries : List Entry) : Prop :=
  ∀ p ∈ allPaths path entries, p.length < 4096

instance (path : CStr) (entries : List Entry) : Decidable (PathsFit path entries) :=
  inferInstanceAs (Decidable (∀ p ∈ allPaths path entries, p.length < 4096))

/-- What a search reports of a file it accepts. -/
def FileAt.toMatch (pid : ℤ) (f : FileAt) : Match := ⟨f.path, pid, f.size⟩

theorem fullPath_eq {path : CStr} {name : Name} (h : (join path name).length < 4096) :
    fullPath path name = join path name := List.take_of_length_le (by omega)

/-- `Scan` of a list of files. -/
def scanOf (args : Args) (pid : ℤ) (files : List FileAt) : Scan where
  total := (files.filter (FileAt.accepted args)).length
  filesScanned := files.length
  written := (files.filter (FileAt.accepted args)).map (FileAt.toMatch pid)

@[simp] theorem scanOf_append (args : Args) (pid : ℤ) (l m : List FileAt) :
    scanOf args pid (l ++ m) = (scanOf args pid l).append (scanOf args pid m) := by
  simp [scanOf, Scan.append]

mutual

/-- **`search_directory` finds the accepted files of the sequential traversal.** -/
theorem searchDirectory_spec (args : Args) (pid : ℤ) (path : CStr) :
    ∀ entries : List Entry, PathsFit path entries →
      searchDirectory args pid path entries = scanOf args pid (allFiles path entries)
  | [], _ => rfl
  | e :: es, h => by
    have hp : (join path e.name).length < 4096 := h _ (by simp [allPaths])
    rw [searchDirectory, allFiles, scanOf_append, fullPath_eq hp,
      searchEntry_spec args pid _ e hp fun p hp' => h p (by simp [allPaths, hp']),
      searchDirectory_spec args pid path es fun p hp' => h p (by simp [allPaths, hp'])]

theorem searchEntry_spec (args : Args) (pid : ℤ) (path : CStr) :
    ∀ e : Entry, path.length < 4096 → (∀ p ∈ pathsOf path e, p.length < 4096) →
      searchEntry args pid path e = scanOf args pid (filesOf path e)
  | .dir _ entries, _, h => searchDirectory_spec args pid path entries h
  | .file name size, hp, _ => by
    rw [searchEntry, filesOf]
    by_cases ha : accepts args name size = true
    · simp [scanOf, FileAt.accepted, ha, FileAt.toMatch, newMatch,
        List.take_of_length_le (show path.length ≤ 4095 by omega)]
    · simp [scanOf, FileAt.accepted, ha]

end

mutual

/-- `search_directory_collect` finds them too, while `all_matches` has room. -/
theorem searchDirectoryCollect_spec (args : Args) (pid : ℤ) (path : CStr) :
    ∀ (entries : List Entry) (all : List Match), PathsFit path entries →
      all.length + (scanOf args pid (allFiles path entries)).total ≤ maxMatches →
      searchDirectoryCollect args pid path entries all =
        ((scanOf args pid (allFiles path entries)).total,
          all ++ (scanOf args pid (allFiles path entries)).written)
  | [], all, _, _ => by simp [searchDirectoryCollect, allFiles, scanOf]
  | e :: es, all, h, hroom => by
    have hp : (join path e.name).length < 4096 := h _ (by simp [allPaths])
    rw [allFiles, scanOf_append] at hroom ⊢
    simp only [Scan.append] at hroom ⊢
    have hlen : (scanOf args pid (filesOf (join path e.name) e)).written.length =
        (scanOf args pid (filesOf (join path e.name) e)).total := by simp [scanOf]
    rw [searchDirectoryCollect, fullPath_eq hp,
      searchEntryCollect_spec args pid _ e all hp (fun p hp' => h p (by simp [allPaths, hp']))
        (by omega),
      searchDirectoryCollect_spec args pid path es _ (fun p hp' => h p (by simp [allPaths, hp']))
        (by simp only [List.length_append, hlen]; omega)]
    simp only [List.append_assoc]

theorem searchEntryCollect_spec (args : Args) (pid : ℤ) (path : CStr) :
    ∀ (e : Entry) (all : List Match), path.length < 4096 →
      (∀ p ∈ pathsOf path e, p.length < 4096) →
      all.length + (scanOf args pid (filesOf path e)).total ≤ maxMatches →
      searchEntryCollect args pid path e all =
        ((scanOf args pid (filesOf path e)).total,
          all ++ (scanOf args pid (filesOf path e)).written)
  | .dir _ entries, all, _, h, hroom =>
    searchDirectoryCollect_spec args pid path entries all h hroom
  | .file name size, all, hp, _, hroom => by
    rw [searchEntryCollect]
    rw [filesOf] at hroom ⊢
    by_cases ha : accepts args name size = true
    · simp only [scanOf, FileAt.accepted, ha, List.filter_cons_of_pos, List.filter_nil,
        List.length_singleton] at hroom ⊢
      rw [if_pos (show all.length < maxMatches by omega)]
      simp [newMatch, FileAt.toMatch, List.take_of_length_le (show path.length ≤ 4095 by omega)]
    · simp [scanOf, FileAt.accepted, ha]

end

end Cse344.HW2
