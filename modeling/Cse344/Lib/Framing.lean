import Mathlib.Data.List.Basic
import Mathlib.Data.List.TakeWhile

/-!
# Framing a stream into lines

A `Framer` collects the elements of a stream into a line until one of them ends it, handles the
line, and goes on. It closes when a handler says so, or when `cap` elements are there and no end of
line.

* `feed` takes one element at a time, and `feedAll` a stream.
* `drain` is what programs do that read into a buffer: append a chunk to the part that is there, and
  handle the lines one by one.
* `linesOf` is the lines of a stream themselves.

Results:
* `feedAll_append`: it does not matter how a stream was cut.
* `feedAll_extend`: what comes after the close does not count.
* **`drain_eq_feedAll`**: draining a chunk that fits in the buffer is feeding it.

Out of scope: elements that are neither kept nor the end of a line, such as escapes.
-/

namespace Cse344.Lib

/-- What stands before the first `e` of a list, and what after it. -/
theorem takeWhile_cases {α : Type*} [BEq α] [LawfulBEq α] (e : α) (l : List α) :
    (∀ b ∈ l.takeWhile fun b => b != e, (b == e) = false) ∧
      ((l.takeWhile fun b => b != e).length = l.length ∧ (l.takeWhile fun b => b != e) = l ∨
        (l.takeWhile fun b => b != e).length ≠ l.length ∧
          l = (l.takeWhile fun b => b != e) ++
            e :: l.drop ((l.takeWhile fun b => b != e).length + 1)) := by
  induction l with
  | nil => simp
  | cons b l ih =>
    by_cases hb : b = e
    · subst hb
      simp
    · have hne : (b != e) = true := by simpa using hb
      obtain ⟨hno, hcase⟩ := ih
      have htake : (b :: l).takeWhile (fun b => b != e) = b :: l.takeWhile fun b => b != e := by
        rw [List.takeWhile_cons, if_pos hne]
      rw [htake]
      refine ⟨?_, ?_⟩
      · rintro c hc
        rcases List.mem_cons.mp hc with rfl | hc
        · simpa using hb
        · exact hno c hc
      · rcases hcase with ⟨hlen, heq⟩ | ⟨hlen, heq⟩
        · exact Or.inl ⟨by simp [hlen], by rw [heq]⟩
        · refine Or.inr ⟨by simpa using hlen, ?_⟩
          rw [List.length_cons, List.drop_succ_cons, List.cons_append]
          exact congrArg (b :: ·) heq

/-- The lines that have ended in a stream, and what is there of the next. -/
def linesOf {α : Type*} [DecidableEq α] (e : α) (stream : List α) : List (List α) × List α :=
  stream.foldl (fun x b => if b = e then (x.1 ++ [x.2], []) else (x.1, x.2 ++ [b])) ([], [])

section Lines

variable {α : Type*} [DecidableEq α] {e : α}

theorem linesOf_concat (e : α) (stream : List α) (b : α) : linesOf e (stream ++ [b]) =
    if b = e then ((linesOf e stream).1 ++ [(linesOf e stream).2], [])
    else ((linesOf e stream).1, (linesOf e stream).2 ++ [b]) := by
  unfold linesOf
  rw [List.foldl_append]
  rfl

/-- What ends no line is part of the next. -/
theorem linesOf_append_part (stream : List α) : ∀ {part : List α}, e ∉ part →
    linesOf e (stream ++ part) = ((linesOf e stream).1, (linesOf e stream).2 ++ part)
  | [], _ => by rw [List.append_nil, List.append_nil]
  | b :: part, h => by
    have hb : b ≠ e := fun heq => h (heq ▸ List.mem_cons_self)
    rw [List.append_cons,
      linesOf_append_part (stream ++ [b]) fun he => h (List.mem_cons_of_mem _ he),
      linesOf_concat, if_neg hb, List.append_assoc]
    rfl

theorem linesOf_append_line (stream : List α) {part : List α} (h : e ∉ part) :
    linesOf e (stream ++ part ++ [e]) =
      ((linesOf e stream).1 ++ [(linesOf e stream).2 ++ part], []) := by
  rw [linesOf_concat, if_pos rfl, linesOf_append_part stream h]

end Lines

/-- The handler of a line says whether it closes the stream. -/
structure Framer (α σ : Type*) where
  cap : ℕ
  isEnd : α → Bool
  line : σ → List α → σ × Bool
  full : σ → σ

/-- A stream that is read: part of a line is there, or it is closed. -/
inductive Frame (α σ : Type*)
  | filling (s : σ) (part : List α)
  | closed (s : σ)

namespace Framer

variable {α σ : Type*} (F : Framer α σ)

/-- The line `part` has ended. -/
def endLine (s : σ) (part : List α) : Frame α σ :=
  if (F.line s part).2 then .closed (F.line s part).1 else .filling (F.line s part).1 []

/-- The buffer holds `part`. -/
def hold (s : σ) (part : List α) : Frame α σ :=
  if part.length = F.cap then .closed (F.full s) else .filling s part

def feed : Frame α σ → α → Frame α σ
  | .closed s, _ => .closed s
  | .filling s part, b => if F.isEnd b then F.endLine s part else F.hold s (part ++ [b])

def feedAll (fr : Frame α σ) (bs : List α) : Frame α σ := bs.foldl F.feed fr

/-- Handle the lines of a buffer, of which `part` was looked at. -/
def drain (s : σ) (part : List α) : List α → Frame α σ
  | [] => F.hold s part
  | b :: bs =>
    if F.isEnd b then
      match F.endLine s part with
      | .closed s => .closed s
      | .filling s _ => drain s [] bs
    else drain s (part ++ [b]) bs

@[simp] theorem feedAll_nil (fr : Frame α σ) : F.feedAll fr [] = fr := rfl

theorem feedAll_append (fr : Frame α σ) (as bs : List α) :
    F.feedAll fr (as ++ bs) = F.feedAll (F.feedAll fr as) bs := List.foldl_append

@[simp] theorem feedAll_closed (s : σ) (bs : List α) : F.feedAll (.closed s) bs = .closed s := by
  induction bs with
  | nil => rfl
  | cons b bs ih => exact ih

/-- Nothing counts after the close. -/
theorem feedAll_extend {fr : Frame α σ} {as bs : List α} {s : σ} (h : as <+: bs)
    (hclosed : F.feedAll fr as = .closed s) : F.feedAll fr bs = .closed s := by
  obtain ⟨cs, rfl⟩ := h
  rw [feedAll_append, hclosed, feedAll_closed]

theorem hold_of_lt {s : σ} {part : List α} (h : part.length < F.cap) :
    F.hold s part = .filling s part := if_neg (Nat.ne_of_lt h)

/-- **Draining is feeding**, where the buffer has room for the chunk. -/
theorem drain_eq_feedAll (s : σ) (part bs : List α) (hpart : part.length < F.cap)
    (hroom : part.length + bs.length ≤ F.cap) :
    F.drain s part bs = F.feedAll (.filling s part) bs := by
  induction bs generalizing s part with
  | nil => exact F.hold_of_lt hpart
  | cons b bs ih =>
    rw [List.length_cons] at hroom
    show _ = F.feedAll (F.feed (.filling s part) b) bs
    rw [drain, feed]
    split_ifs with hend
    · unfold endLine
      split_ifs
      · exact (F.feedAll_closed _ _).symm
      · exact ih _ _ (Nat.zero_lt_of_lt hpart) (by rw [List.length_nil]; omega)
    · have hlen : (part ++ [b]).length = part.length + 1 := List.length_append
      by_cases hcap : part.length + 1 = F.cap
      · -- the buffer is full, so this was the last element of the chunk
        obtain rfl : bs = [] := List.length_eq_zero_iff.mp (by omega)
        rfl
      · have hlt : (part ++ [b]).length < F.cap := by omega
        rw [F.hold_of_lt hlt]
        exact ih _ _ hlt (by omega)

/-- Elements that end no line are part of one. -/
theorem drain_append (s : σ) (part p bs : List α) (hp : ∀ b ∈ p, F.isEnd b = false) :
    F.drain s part (p ++ bs) = F.drain s (part ++ p) bs := by
  induction p generalizing part with
  | nil => rw [List.nil_append, List.append_nil]
  | cons b p ih =>
    rw [List.cons_append, drain, if_neg (by rw [hp b List.mem_cons_self]; exact Bool.false_ne_true),
      ih _ fun b hb => hp b (List.mem_cons_of_mem _ hb), List.append_assoc]
    rfl

/-- A buffer without an end of line. -/
theorem drain_part (s : σ) {p : List α} (hp : ∀ b ∈ p, F.isEnd b = false) :
    F.drain s [] p = F.hold s p := by
  have := F.drain_append s [] p [] hp
  rwa [List.append_nil] at this

/-- A buffer with a line. -/
theorem drain_line (s : σ) {p : List α} {b : α} (bs : List α) (hp : ∀ b ∈ p, F.isEnd b = false)
    (hb : F.isEnd b = true) :
    F.drain s [] (p ++ b :: bs) =
      if (F.line s p).2 then .closed (F.line s p).1 else F.drain (F.line s p).1 [] bs := by
  rw [F.drain_append s [] p _ hp, List.nil_append, drain, if_pos hb, endLine]
  split_ifs <;> rfl

end Framer

end Cse344.Lib
