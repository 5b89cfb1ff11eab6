import Cse344.HW6.Spellbook
import Mathlib.Data.List.FinRange

/-!
# The ingredient table

Model of `is_valid_ingredient_name` (`HW6/hogwarts.c` 122-131) and `load_ingredients` (133-162). A
`Table` is a table the server may start with.

* The file is given as the lines `fgets` returns: of at most 255 bytes, a longer line of the file in
  several.
* `%63s` cuts a word at 63 bytes, and `%d` keeps of a number what an `int` keeps; so 4294967301 is
  5.
* A line that is no name and number, has no valid name, has no positive quantity or repeats a name
  is skipped. At `MAX_INGREDIENTS` the rest of the file is not read.

Results:
* `loadIngredients_loaded`: what is loaded has valid names, all different, and positive `int`s.
* **`loadTable`**: whatever the file holds, `load_ingredients` makes a `Table` of it, and
  `loadTable_isInt`: a table of `int`s.

Out of scope: a file that cannot be opened (`main` ends then).
-/

namespace Cse344.HW6

open Cse344.Lib

/-- `MAX_INGREDIENTS`. -/
def maxIngredients : ℕ := 256

/-- `ingredient_t`. -/
structure Ingredient where
  name : CStr
  qty : ℤ
  deriving DecidableEq, Repr

def isValidIngredientName (s : CStr) : Bool :=
  if s.length = 0 ∨ 16 < s.length then false
  else s.all fun c => (65 ≤ c && c ≤ 90) || (48 ≤ c && c ≤ 57) || c == 95

theorem length_lt_of_valid {s : CStr} (h : isValidIngredientName s = true) :
    s.length < maxIngredientLen := by
  unfold isValidIngredientName at h
  split at h
  · cases h
  · rename_i hlen
    exact Nat.lt_succ_of_le (not_lt.mp (not_or.mp hlen).2)

/-- `sscanf(line, "%63s %d", name, &qty)`, where it returns 2. -/
def scanNameQty (line : CStr) : Option (CStr × ℤ) :=
  match scanString 63 line with
  | none => none
  | some (name, rest) => (scanInt rest).map fun r => (name, r.1)

/-- `%d` reads an `int`. -/
theorem scanNameQty_isInt {line name : CStr} {qty : ℤ} (h : scanNameQty line = some (name, qty)) :
    IsInt qty := by
  unfold scanNameQty at h
  split at h
  · cases h
  · obtain ⟨r, hr, hpair⟩ := Option.map_eq_some_iff.mp h
    obtain ⟨-, rfl⟩ := Prod.mk.inj hpair
    unfold scanInt at hr
    dsimp only at hr
    split_ifs at hr
    rw [← Option.some.inj hr]
    exact isInt_wrap32 _

/-- What `load_ingredients` does with a line. -/
def loadLine (table : List Ingredient) (line : CStr) : List Ingredient :=
  match scanNameQty line with
  | none => table
  | some (name, qty) =>
    if !isValidIngredientName name then table
    else if qty ≤ 0 then table
    else if table.any fun g => g.name = name then table
    else table ++ [⟨name.take (maxIngredientLen - 1), qty⟩]

def loadIngredients : List Ingredient → List CStr → List Ingredient
  | table, [] => table
  | table, line :: lines =>
    if maxIngredients ≤ table.length then table else loadIngredients (loadLine table line) lines

/-- A table of `m` ingredients: valid names, all different, and positive quantities. -/
structure Table (m : ℕ) where
  ingredients : Fin m → Ingredient
  le_max : m ≤ maxIngredients
  valid : ∀ k, isValidIngredientName (ingredients k).name = true
  pos : ∀ k, 0 < (ingredients k).qty
  name_injective : ∀ k k', (ingredients k).name = (ingredients k').name → k = k'

/-- `a` is the name of an ingredient. -/
def Table.Knows {m : ℕ} (t : Table m) (a : CStr) : Prop := ∃ k, (t.ingredients k).name = a

/-- What a list of ingredients must be to be a `Table`. -/
structure Loaded (table : List Ingredient) : Prop where
  le_max : table.length ≤ maxIngredients
  valid : ∀ g ∈ table, isValidIngredientName g.name = true
  pos : ∀ g ∈ table, 0 < g.qty
  isInt : ∀ g ∈ table, IsInt g.qty
  nodup : (table.map Ingredient.name).Nodup

theorem loadLine_loaded {table : List Ingredient} (h : Loaded table)
    (hlt : table.length < maxIngredients) (line : CStr) : Loaded (loadLine table line) := by
  unfold loadLine
  split
  · exact h
  · rename_i name qty hscan
    split_ifs with hvalid hqty hdup
    · exact h
    · exact h
    · exact h
    · have hvalid : isValidIngredientName name = true := by simpa using hvalid
      have hnew : ∀ g ∈ table, g.name ≠ name := by simpa using hdup
      have htake : name.take (maxIngredientLen - 1) = name :=
        List.take_of_length_le (Nat.le_pred_of_lt (length_lt_of_valid hvalid))
      rw [htake]
      refine ⟨?_, ?_, ?_, ?_, ?_⟩
      · rw [List.length_append, List.length_singleton]
        exact hlt
      · exact List.forall_mem_append.mpr ⟨h.valid, by simpa using hvalid⟩
      · exact List.forall_mem_append.mpr ⟨h.pos, by simpa using hqty⟩
      · exact List.forall_mem_append.mpr ⟨h.isInt, by simpa using scanNameQty_isInt hscan⟩
      · rw [List.map_append, List.nodup_append]
        refine ⟨h.nodup, List.nodup_singleton _, fun a ha b hb => ?_⟩
        obtain ⟨g, hg, rfl⟩ := List.mem_map.mp ha
        rw [List.map_singleton, List.mem_singleton] at hb
        exact hb ▸ hnew g hg

theorem loadIngredients_loaded : ∀ (lines : List CStr) (table : List Ingredient), Loaded table →
    Loaded (loadIngredients table lines)
  | [], _, h => h
  | line :: lines, table, h => by
    unfold loadIngredients
    split
    · exact h
    · rename_i hlt
      exact loadIngredients_loaded lines _ (loadLine_loaded h (not_le.mp hlt) line)

theorem loaded_file (lines : List CStr) : Loaded (loadIngredients [] lines) :=
  loadIngredients_loaded lines [] ⟨Nat.zero_le _, by simp, by simp, by simp, List.nodup_nil⟩

/-- **What `load_ingredients` makes of any file.** -/
def loadTable (lines : List CStr) : Table (loadIngredients [] lines).length where
  ingredients := (loadIngredients [] lines).get
  le_max := (loaded_file lines).le_max
  valid := fun k => (loaded_file lines).valid _ (List.get_mem _ k)
  pos := fun k => (loaded_file lines).pos _ (List.get_mem _ k)
  name_injective := fun k k' hk => by
    have hinj := List.nodup_iff_injective_get.mp (loaded_file lines).nodup
    have : (Fin.cast (by simp) k : Fin ((loadIngredients [] lines).map Ingredient.name).length) =
        Fin.cast (by simp) k' := hinj (by simpa using hk)
    simpa using this

/-- Its quantities are `int`s. -/
theorem loadTable_isInt (lines : List CStr) (k : Fin (loadIngredients [] lines).length) :
    IsInt ((loadTable lines).ingredients k).qty :=
  (loaded_file lines).isInt _ (List.get_mem _ k)

/-- A repeated name, a name that is too long, and a quantity that is no `int`: 2^32 + 5 is 5. -/
example : loadIngredients [] [cstr "SALT 5\n", cstr "SALT 7\n", cstr "ABCDEFGHIJKLMNOPQ 1\n",
    cstr "ROOT 4294967301\n", cstr "BARK -1\n"] =
    [⟨cstr "SALT", 5⟩, ⟨cstr "ROOT", 5⟩] := by decide +kernel

end Cse344.HW6
