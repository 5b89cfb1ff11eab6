import Mathlib.Data.List.Basic

/-!
# Marked records in a stream

A `MarkCode` writes a record as a mark and a body that does not have the mark. A stream of such
records is taken from the front, so many elements at a time, and the pieces need not end where a
record does.

* `Holds` is what is left: the rest of a record, and whole records.

Results:
* `Holds.write`, `Holds.drop`: writing a record and taking a piece.
* **`Holds.take_cases`**: a piece starts in the middle of a record, or with a whole one.
* `Holds.mark_mem_iff`, `Holds.mark_mem_tail_iff`: whether the stream has the start of a record, and
  whether it has one behind its first element.

Out of scope: records that are written in parts.
-/

namespace Cse344.Lib

/-- Records that start with a mark they do not have elsewhere. -/
structure MarkCode (α β : Type*) where
  mark : α
  body : β → List α
  mark_not_mem : ∀ b, mark ∉ body b

namespace MarkCode

variable {α β : Type*} (C : MarkCode α β)

def record (b : β) : List α := C.mark :: C.body b

/-- Records, one after the other. -/
def text (recs : List β) : List α := recs.flatMap C.record

@[simp] theorem text_nil : C.text [] = [] := rfl

@[simp] theorem text_cons (b : β) (recs : List β) :
    C.text (b :: recs) = C.record b ++ C.text recs :=
  List.flatMap_cons

theorem text_concat (recs : List β) (b : β) : C.text (recs ++ [b]) = C.text recs ++ C.record b := by
  rw [text, List.flatMap_append, List.flatMap_singleton, text]

/-- `buf` is the rest `tail` of a record, and `recs`. -/
structure Holds (buf tail : List α) (recs : List β) : Prop where
  eq : buf = tail ++ C.text recs
  clean : C.mark ∉ tail

variable {C} {buf tail : List α} {recs : List β}

theorem holds_nil : C.Holds [] [] [] := ⟨rfl, List.not_mem_nil⟩

theorem Holds.write (h : C.Holds buf tail recs) (b : β) :
    C.Holds (buf ++ C.record b) tail (recs ++ [b]) := by
  refine ⟨?_, h.clean⟩
  rw [h.eq, text_concat, List.append_assoc]

theorem text_drop (n : ℕ) : ∀ recs : List β,
    ∃ gone recs' tail', recs = gone ++ recs' ∧ C.Holds ((C.text recs).drop n) tail' recs'
  | [] => ⟨[], [], [], rfl, by rw [text_nil, List.drop_nil]; exact holds_nil⟩
  | b :: recs => by
    cases n with
    | zero => exact ⟨[], b :: recs, [], rfl, rfl, List.not_mem_nil⟩
    | succ n =>
      rw [text_cons, record, List.cons_append, List.drop_succ_cons, List.drop_append]
      rcases Nat.lt_or_ge n (C.body b).length with hlt | hge
      · -- The piece ends within this record.
        refine ⟨[b], recs, (C.body b).drop n, rfl, ?_,
          fun hmem => C.mark_not_mem b (List.mem_of_mem_drop hmem)⟩
        rw [Nat.sub_eq_zero_of_le (Nat.le_of_lt hlt), List.drop_zero]
      · obtain ⟨gone, recs', tail', heq, hholds⟩ := text_drop (n - (C.body b).length) recs
        refine ⟨b :: gone, recs', tail', by rw [heq, List.cons_append], ?_⟩
        rw [List.drop_eq_nil_of_le hge, List.nil_append]
        exact hholds

/-- Taking a piece. -/
theorem Holds.drop (h : C.Holds buf tail recs) (n : ℕ) :
    ∃ gone recs' tail', recs = gone ++ recs' ∧ C.Holds (buf.drop n) tail' recs' := by
  rcases Nat.lt_or_ge n tail.length with hlt | hge
  · refine ⟨[], recs, tail.drop n, rfl, ?_, fun hmem => h.clean (List.mem_of_mem_drop hmem)⟩
    rw [h.eq, List.drop_append, Nat.sub_eq_zero_of_le (Nat.le_of_lt hlt), List.drop_zero]
  · obtain ⟨gone, recs', tail', heq, hholds⟩ := text_drop (C := C) (n - tail.length) recs
    refine ⟨gone, recs', tail', heq, ?_⟩
    rw [h.eq, List.drop_append, List.drop_eq_nil_of_le hge, List.nil_append]
    exact hholds

theorem Holds.mark_mem_iff (h : C.Holds buf tail recs) : C.mark ∈ buf ↔ recs ≠ [] := by
  rw [h.eq, List.mem_append]
  cases recs with
  | nil => simpa using h.clean
  | cons b recs => simp [record]

/-- The start of a record behind the first element. -/
theorem Holds.mark_mem_tail_iff (h : C.Holds buf tail recs) :
    C.mark ∈ buf.tail ↔ recs ≠ [] ∧ (tail = [] → 2 ≤ recs.length) := by
  rw [h.eq]
  cases tail with
  | cons a tail =>
    have hholds : C.Holds (tail ++ C.text recs) tail recs :=
      ⟨rfl, fun hmem => h.clean (List.mem_cons_of_mem _ hmem)⟩
    simpa using hholds.mark_mem_iff
  | nil =>
    cases recs with
    | nil => simp
    | cons b recs =>
      have hholds : C.Holds (C.body b ++ C.text recs) (C.body b) recs := ⟨rfl, C.mark_not_mem b⟩
      rw [text_cons, record, List.nil_append, List.cons_append, List.tail_cons,
        hholds.mark_mem_iff]
      cases recs <;> simp

/-- **What a piece starts with**, where every record fits into one: something that is no mark, or a
whole record. -/
theorem Holds.take_cases {n : ℕ} (h : C.Holds buf tail recs) (hne : buf ≠ []) (hn : 0 < n)
    (hlen : ∀ b ∈ recs, (C.record b).length ≤ n) :
    ∃ gone recs' tail', recs = gone ++ recs' ∧ C.Holds (buf.drop n) tail' recs' ∧
      ((tail ≠ [] ∧ ∃ a rest, buf.take n = a :: rest ∧ a ≠ C.mark) ∨
        tail = [] ∧ ∃ b more rest, gone = b :: more ∧ buf.take n = C.record b ++ rest) := by
  cases tail with
  | cons a tail =>
    obtain ⟨gone, recs', tail', heq, hholds⟩ := h.drop n
    refine ⟨gone, recs', tail', heq, hholds, .inl ⟨List.cons_ne_nil a tail, a,
      (tail ++ C.text recs).take (n - 1), ?_, fun ha => h.clean (ha ▸ List.mem_cons_self)⟩⟩
    rw [h.eq, List.cons_append, List.take_cons hn]
  | nil =>
    cases recs with
    | nil => exact absurd h.eq hne
    | cons b recs =>
      have hfit := hlen b List.mem_cons_self
      have hrest : C.Holds (C.text recs) [] recs := ⟨rfl, List.not_mem_nil⟩
      obtain ⟨gone, recs', tail', heq, hholds⟩ := hrest.drop (n - (C.record b).length)
      refine ⟨b :: gone, recs', tail', by rw [heq, List.cons_append], ?_, .inr ⟨rfl, b, gone,
        (C.text recs).take (n - (C.record b).length), rfl, ?_⟩⟩
      · rw [h.eq, List.nil_append, text_cons, List.drop_append, List.drop_eq_nil_of_le hfit,
          List.nil_append]
        exact hholds
      · rw [h.eq, List.nil_append, text_cons, List.take_append, List.take_of_length_le hfit]

end MarkCode

end Cse344.Lib
