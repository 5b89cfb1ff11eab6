import Mathlib.Data.List.Basic

/-!
# Patterns of letters that may repeat

A pattern is a list of elements, each a letter that stands once, or once or more. `Accepts` cuts a
text into pieces, one for each element; `same` says which letters of the text an element takes.

* `matchElements` is the matcher that programs write: it tries every length of a piece, shortest
  first, and `stop` has the last word on what is left of the text. It is structural, `one` and
  `many` being the two kinds of elements.

Results:
* `accepts_cons_iff`: the cut, element by element.
* **`matchElements_iff`**: the matcher finds a cut if there is one.

Out of scope: alternatives, groups and the empty repetition.
-/

namespace Cse344.Lib

structure Element (ρ : Type*) where
  letter : ρ
  repeats : Bool

variable {ρ α : Type*} {same : ρ → α → Bool}

/-- The element takes this piece of a text. -/
structure Element.Takes (same : ρ → α → Bool) (e : Element ρ) (piece : List α) : Prop where
  ne_nil : piece ≠ []
  letters : ∀ x ∈ piece, same e.letter x = true
  once : e.repeats = false → piece.length = 1

/-- A text cut into pieces, one for each element. -/
inductive Accepts (same : ρ → α → Bool) : List (Element ρ) → List α → Prop
  | nil : Accepts same [] []
  | cons {e : Element ρ} {es : List (Element ρ)} {piece rest : List α} (h : e.Takes same piece)
      (hrest : Accepts same es rest) : Accepts same (e :: es) (piece ++ rest)

theorem accepts_nil_iff {l : List α} : Accepts same [] l ↔ l = [] := by
  constructor
  · intro h
    cases h
    rfl
  · rintro rfl
    exact .nil

theorem accepts_cons_iff {e : Element ρ} {es : List (Element ρ)} {l : List α} :
    Accepts same (e :: es) l ↔
      ∃ piece rest, l = piece ++ rest ∧ e.Takes same piece ∧ Accepts same es rest := by
  constructor
  · intro h
    cases h with
    | cons h hrest => exact ⟨_, _, rfl, h, hrest⟩
  · rintro ⟨piece, rest, rfl, h, hrest⟩
    exact .cons h hrest

/-- Only what `same` says of the letters of the pattern counts. -/
theorem Accepts.imp {same' : ρ → α → Bool} {es : List (Element ρ)} {l : List α}
    (h : Accepts same es l)
    (himp : ∀ e ∈ es, ∀ x, same e.letter x = true → same' e.letter x = true) :
    Accepts same' es l := by
  induction h with
  | nil => exact .nil
  | cons htakes hrest ih =>
    refine .cons ⟨htakes.ne_nil, fun x hx => ?_, htakes.once⟩
      (ih fun e he => himp e (List.mem_cons_of_mem _ he))
    exact himp _ List.mem_cons_self x (htakes.letters x hx)

/-- A pattern accepts its own letters, each once. -/
theorem accepts_letters {same : α → α → Bool} (hrefl : ∀ c, same c c = true)
    (es : List (Element α)) : Accepts same es (es.map Element.letter) := by
  induction es with
  | nil => exact .nil
  | cons e es ih =>
    have htakes : e.Takes same [e.letter] := by
      refine ⟨List.cons_ne_nil _ _, fun x hx => ?_, fun _ => rfl⟩
      rw [List.mem_singleton.mp hx]
      exact hrefl _
    exact .cons htakes ih

/-- Every element takes something. -/
theorem Accepts.exists_letter {es : List (Element ρ)} {l : List α} (h : Accepts same es l)
    {e : Element ρ} (he : e ∈ es) : ∃ x ∈ l, same e.letter x = true := by
  induction h with
  | nil => cases he
  | cons htakes hrest ih =>
    rcases List.mem_cons.mp he with rfl | he
    · obtain ⟨x, piece, rfl⟩ := List.exists_cons_of_ne_nil htakes.ne_nil
      exact ⟨x, List.mem_append_left _ List.mem_cons_self, htakes.letters x List.mem_cons_self⟩
    · obtain ⟨x, hx, hsame⟩ := ih he
      exact ⟨x, List.mem_append_right _ hx, hsame⟩

/-! ## Matching -/

/-- One letter, and then `next`. -/
def one (p : α → Bool) (next : List α → Bool) : List α → Bool
  | [] => false
  | x :: xs => p x && next xs

/-- One letter or more, and then `next`. -/
def many (p : α → Bool) (next : List α → Bool) : List α → Bool
  | [] => false
  | x :: xs => p x && (next xs || many p next xs)

def matchElements (same : ρ → α → Bool) (stop : List α → Bool) :
    List (Element ρ) → List α → Bool
  | [] => stop
  | e :: es =>
    if e.repeats then many (same e.letter) (matchElements same stop es)
    else one (same e.letter) (matchElements same stop es)

theorem one_iff {p : α → Bool} {next : List α → Bool} {l : List α} : one p next l = true ↔
    ∃ x xs, l = x :: xs ∧ p x = true ∧ next xs = true := by
  cases l with
  | nil => simp [one]
  | cons x xs => simp [one]

theorem many_iff {p : α → Bool} {next : List α → Bool} {l : List α} : many p next l = true ↔
    ∃ piece rest, l = piece ++ rest ∧ piece ≠ [] ∧ (∀ x ∈ piece, p x = true) ∧
      next rest = true := by
  induction l with
  | nil => simp [many]
  | cons x xs ih =>
    rw [many, Bool.and_eq_true, Bool.or_eq_true, ih]
    constructor
    · rintro ⟨hx, hnext | ⟨piece, rest, rfl, -, hpiece, hnext⟩⟩
      · exact ⟨[x], xs, rfl, List.cons_ne_nil _ _, by simpa using hx, hnext⟩
      · exact ⟨x :: piece, rest, rfl, List.cons_ne_nil _ _, by simpa using ⟨hx, hpiece⟩, hnext⟩
    · rintro ⟨piece, rest, heq, hne, hpiece, hnext⟩
      obtain ⟨y, ys, rfl⟩ := List.exists_cons_of_ne_nil hne
      obtain ⟨rfl, rfl⟩ := List.cons.inj heq
      obtain ⟨hx, hys⟩ := List.forall_mem_cons.mp hpiece
      refine ⟨hx, ?_⟩
      by_cases hnil : ys = []
      · subst hnil
        exact .inl hnext
      · exact .inr ⟨ys, rest, rfl, hnil, hys, hnext⟩

/-- **The matcher finds a cut** of a first part of the text. -/
theorem matchElements_iff {stop : List α → Bool} {es : List (Element ρ)} {l : List α} :
    matchElements same stop es l = true ↔
      ∃ x rest, l = x ++ rest ∧ Accepts same es x ∧ stop rest = true := by
  induction es generalizing l with
  | nil =>
    constructor
    · exact fun h => ⟨[], l, rfl, .nil, h⟩
    · rintro ⟨x, rest, rfl, hx, h⟩
      rw [accepts_nil_iff.mp hx]
      exact h
  | cons e es ih =>
    rw [matchElements]
    constructor
    · intro h
      split_ifs at h with hrep
      · obtain ⟨piece, l', rfl, hne, hpiece, hnext⟩ := many_iff.mp h
        obtain ⟨x, rest, rfl, hx, hstop⟩ := ih.mp hnext
        refine ⟨piece ++ x, rest, (List.append_assoc ..).symm, .cons ⟨hne, hpiece, ?_⟩ hx, hstop⟩
        intro honce
        rw [hrep] at honce
        cases honce
      · obtain ⟨y, l', rfl, hy, hnext⟩ := one_iff.mp h
        obtain ⟨x, rest, rfl, hx, hstop⟩ := ih.mp hnext
        exact ⟨[y] ++ x, rest, rfl,
          .cons ⟨List.cons_ne_nil _ _, by simpa using hy, fun _ => rfl⟩ hx, hstop⟩
    · rintro ⟨x, rest, rfl, hx, hstop⟩
      obtain ⟨piece, x', rfl, htakes, hx'⟩ := accepts_cons_iff.mp hx
      have hnext : matchElements same stop es (x' ++ rest) = true :=
        ih.mpr ⟨x', rest, rfl, hx', hstop⟩
      split_ifs with hrep
      · exact many_iff.mpr ⟨piece, x' ++ rest, List.append_assoc .., htakes.ne_nil,
          htakes.letters, hnext⟩
      · obtain ⟨y, rfl⟩ := List.length_eq_one_iff.mp (htakes.once (by simpa using hrep))
        exact one_iff.mpr ⟨y, x' ++ rest, rfl, htakes.letters y List.mem_cons_self, hnext⟩

end Cse344.Lib
