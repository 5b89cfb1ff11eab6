import Cse344.HW1.Regex
import Cse344.HW2.Search
import Mathlib.Data.List.Infix

/-!
# The two matchers

`regex_match` (`HW1/src/regex.c`) matches a whole file name, `regex` (`HW2/src/regex.c` 31-39) looks
for the pattern in it.

* Both are the matcher of the elements of the pattern, and differ in what they let stand after it:
  `matchHere_eq` beside `HW1.regexMatch_eq`.
* In both a byte of the pattern from 128 on is a negative `char`, and equal to no byte of the name.

Results:
* `matchHere_eq`: `match` as the matcher of `Cse344.Lib.Pattern`, with anything after it.
* **`regex_iff_substring`**: the second finds the pattern if and only if the first matches some part
  of the file name.
-/

namespace Cse344.HW2

open Cse344.Lib
open Cse344.HW1 (elements takesByte regexMatch)

theorem matchPlus_eq_many (next : CStr → Bool) (c : UInt8) (filename : CStr) :
    matchPlus next (toChar (tolower c)) filename = many (takesByte c) next filename := by
  induction filename with
  | nil => rfl
  | cons x xs ih => rw [matchPlus, many, ih, takesByte]

theorem matchHere_plus (p : UInt8) (pattern filename : CStr) :
    matchHere (p :: 43 :: pattern) filename =
      matchPlus (matchHere pattern) (toChar (tolower p)) filename := by
  cases filename <;> rfl

/-- The code is the matcher of the elements, with any rest. -/
theorem matchHere_eq (pattern filename : CStr) :
    matchHere pattern filename =
      matchElements takesByte (fun _ => true) (elements pattern) filename := by
  induction pattern using HW1.elements.induct generalizing filename with
  | case1 => rw [matchHere, elements, matchElements]
  | case2 p =>
    rw [elements, matchElements, if_neg Bool.false_ne_true]
    cases filename with
    | nil => rfl
    | cons x xs => rw [matchHere, one, takesByte, matchElements, matchHere]
  | case3 p pattern ih =>
    have hnext : matchHere pattern =
        matchElements takesByte (fun _ => true) (elements pattern) := funext ih
    rw [matchHere_plus, elements, if_pos rfl, matchElements, if_pos rfl, matchPlus_eq_many, hnext]
  | case4 p q pattern hq ih =>
    rw [elements, if_neg hq, matchElements, if_neg Bool.false_ne_true]
    cases filename with
    | nil =>
      rw [matchHere, if_neg hq]
      rfl
    | cons x xs => rw [matchHere, if_neg hq, one, takesByte, ← ih]

/-- `match` finds what `regex_match` matches at the start of the file name. -/
theorem matchHere_iff {pattern filename : CStr} : matchHere pattern filename = true ↔
    ∃ x, x <+: filename ∧ regexMatch pattern x = true := by
  rw [matchHere_eq, matchElements_iff]
  constructor
  · rintro ⟨x, rest, rfl, hx, -⟩
    exact ⟨x, List.prefix_append x rest, HW1.regexMatch_iff_accepts.mpr hx⟩
  · rintro ⟨x, ⟨rest, rfl⟩, hx⟩
    exact ⟨x, rest, rfl, HW1.regexMatch_iff_accepts.mp hx, rfl⟩

/-- **The search finds what the anchored matcher matches** in some part of the file name. -/
theorem regex_iff_substring (pattern filename : CStr) : regex pattern filename = true ↔
    ∃ x, x <:+: filename ∧ regexMatch pattern x = true := by
  induction filename with
  | nil =>
    rw [regex, matchHere_iff]
    simp only [List.prefix_nil, List.infix_nil]
  | cons y ys ih =>
    rw [regex, Bool.or_eq_true, matchHere_iff, ih]
    constructor
    · rintro (⟨x, hx, hmatch⟩ | ⟨x, hx, hmatch⟩)
      · exact ⟨x, hx.isInfix, hmatch⟩
      · exact ⟨x, List.infix_cons hx, hmatch⟩
    · rintro ⟨x, hx, hmatch⟩
      rcases List.infix_cons_iff.mp hx with hx | hx
      · exact .inl ⟨x, hx, hmatch⟩
      · exact .inr ⟨x, hx, hmatch⟩

end Cse344.HW2
