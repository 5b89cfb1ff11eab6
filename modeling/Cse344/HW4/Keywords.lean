import Cse344.HW4.HighPriority

/-!
# The keywords of the command line

What `parse_keywords` (`HW4/src/parser/parser.c` 76-105) makes of the argument of `-k`, beside what
was written there: the pieces between the commas.

* `pieces` are what stands between the commas, the empty ones among them.
* `strtok` passes over the empty ones, so the check for an empty token never fires, and the limit
  counts the others only.

Results:
* `parseKeywords_eq`: the keywords are the pieces that are not empty, if there are some, and not too
  many.
* **`keywords_iff`**: the keywords are the pieces, or an error where one of them is empty or they
  are too many, exactly if no piece is empty, or all are, or the others are too many as well.
* `keywords_doubled_comma`: a doubled comma is no error.

Out of scope: a `strdup` that fails.
-/

namespace Cse344.HW4

open Cse344.Lib

/-- The argument, cut at every comma. -/
def pieces (raw : CStr) : List CStr := raw.splitOn 44

/-- The keywords that were asked for, or an error. -/
def wantedKeywords (raw : CStr) : Option (List CStr) :=
  if 1 ≤ (pieces raw).length ∧ (pieces raw).length ≤ maxKeywords ∧ [] ∉ pieces raw then
    some (pieces raw)
  else none

/-- The pieces that are not empty. -/
def filled (raw : CStr) : List CStr := (pieces raw).filter fun piece => !piece.isEmpty

theorem tokensOf_comma (raw : CStr) : tokensOf (cstr ",") raw = filled raw := by
  have hcomma : (fun c : UInt8 => (cstr ",").contains c) = fun c => c == 44 := by
    funext c
    have hone : cstr "," = [44] := rfl
    rw [hone, List.contains_cons, List.contains_nil, Bool.or_false]
  rw [tokensOf, hcomma, filled, pieces, List.splitOn_eq_splitOnP]

/-- The loop takes every token, if there is room for all of them. -/
theorem keywordsFrom_eq (room : ℕ) (copy : CStr) : keywordsFrom room copy =
    if (tokensOf (cstr ",") copy).length ≤ room then some (tokensOf (cstr ",") copy) else none := by
  induction room generalizing copy with
  | zero =>
    rw [keywordsFrom]
    rcases h : strtok (cstr ",") copy with ⟨_ | token, rest⟩
    · rw [tokensOf_of_none (by rw [h])]
      rfl
    · rw [tokensOf_of_some h]
      rfl
  | succ room ih =>
    rw [keywordsFrom]
    rcases h : strtok (cstr ",") copy with ⟨_ | token, rest⟩
    · rw [tokensOf_of_none (by rw [h])]
      rfl
    · have htoken : ¬token.isEmpty = true := by
        rw [List.isEmpty_iff]
        exact (strtok_spec h).1
      rw [tokensOf_of_some h, List.length_cons]
      dsimp only
      rw [if_neg htoken, ih]
      simp only [Nat.add_le_add_iff_right]
      split_ifs <;> rfl

/-- **The keywords are the pieces that are not empty**, if there are some, and not too many. -/
theorem parseKeywords_eq (raw : CStr) : parseKeywords raw =
    if filled raw ≠ [] ∧ (filled raw).length ≤ maxKeywords then some (filled raw) else none := by
  rw [parseKeywords, keywordsFrom_eq, tokensOf_comma]
  by_cases hlen : (filled raw).length ≤ maxKeywords
  · rw [if_pos hlen]
    dsimp only
    by_cases hnil : filled raw = []
    · rw [if_pos (List.isEmpty_iff.mpr hnil), if_neg fun h => h.1 hnil]
    · rw [if_neg fun h => hnil (List.isEmpty_iff.mp h), if_pos ⟨hnil, hlen⟩]
  · rw [if_neg hlen, if_neg fun h => hlen h.2]

theorem filled_eq_pieces {raw : CStr} (h : [] ∉ pieces raw) : filled raw = pieces raw := by
  refine List.filter_eq_self.mpr fun piece hpiece => ?_
  rw [Bool.not_eq_true', List.isEmpty_eq_false_iff]
  rintro rfl
  exact h hpiece

/-- **When the keywords are those that were asked for.** -/
theorem keywords_iff (raw : CStr) : parseKeywords raw = wantedKeywords raw ↔
    [] ∉ pieces raw ∨ filled raw = [] ∨ maxKeywords < (filled raw).length := by
  rw [parseKeywords_eq, wantedKeywords]
  by_cases hempty : [] ∈ pieces raw
  · -- an error is asked for
    have hnone : ¬(1 ≤ (pieces raw).length ∧ (pieces raw).length ≤ maxKeywords ∧
        [] ∉ pieces raw) := fun h => h.2.2 hempty
    rw [if_neg hnone, ite_eq_right_iff, or_iff_right (not_not.mpr hempty)]
    constructor
    · intro h
      by_contra hsome
      rw [not_or, not_lt] at hsome
      exact Option.some_ne_none _ (h hsome)
    · rintro (hnil | hlong) ⟨hne, hle⟩
      · exact absurd hnil hne
      · exact absurd hle (not_le.mpr hlong)
  · have hne : pieces raw ≠ [] := List.splitOn_ne_nil 44 raw
    have hlen : 1 ≤ (pieces raw).length := List.length_pos_iff.mpr hne
    rw [filled_eq_pieces hempty]
    refine iff_of_true ?_ (.inl hempty)
    by_cases hmax : (pieces raw).length ≤ maxKeywords
    · rw [if_pos ⟨hne, hmax⟩, if_pos ⟨hlen, hmax, hempty⟩]
    · rw [if_neg fun h => hmax h.2, if_neg fun h => hmax h.2.1]

/-- **A doubled comma is no error**: the empty keyword between the two is lost. -/
theorem keywords_doubled_comma :
    parseKeywords (cstr "a,,b") = some [cstr "a", cstr "b"] ∧
      wantedKeywords (cstr "a,,b") = none := by
  decide +kernel

end Cse344.HW4
