import Cse344.Lib.RingBuffer

/-!
# Queues under any sequence of calls

A `Fifo` has a push that may be refused and a pop that may find nothing; both leave the state as it
is then. `run` makes a sequence of calls and notes the answers.

* `bounded` is a list of at most `capacity` elements, `ring` the ring buffer.
* `Refines`: one queue is another, seen through `f`; `Refines.run` for any sequence of calls.

Results:
* `run_induct`: what a call keeps holds after any sequence of calls.
* **`Refines.run`**: a queue that refines another gives the same answers.
* **`Bounded.order`**: what was popped, with what is still there, is what was pushed, in order.
* **`ring_refines`**: a ring buffer is the list it stands for.

Out of scope: who makes the calls. A caller that waits where a call is refused makes it again.
-/

namespace Cse344.Lib

inductive Fifo.Call (α : Type*)
  | push (x : α)
  | pop
  deriving DecidableEq, Repr

inductive Fifo.Answer (α : Type*)
  | refused
  | pushed
  | popped (x : α)
  deriving DecidableEq, Repr

/-- A queue with states in `ρ`. -/
structure Fifo (ρ α : Type*) where
  push : ρ → α → Option ρ
  pop : ρ → Option (α × ρ)

namespace Fifo

variable {ρ τ α : Type*}

def call (q : Fifo ρ α) (r : ρ) : Call α → ρ × Answer α
  | .push x =>
    match q.push r x with
    | none => (r, .refused)
    | some r' => (r', .pushed)
  | .pop =>
    match q.pop r with
    | none => (r, .refused)
    | some (x, r') => (r', .popped x)

/-- The state after some calls, and the answers. -/
def run (q : Fifo ρ α) (r : ρ) : List (Call α) → ρ × List (Answer α)
  | [] => (r, [])
  | c :: cs => ((q.run (q.call r c).1 cs).1, (q.call r c).2 :: (q.run (q.call r c).1 cs).2)

/-- What was popped. -/
def popped : List (Answer α) → List α
  | [] => []
  | .popped x :: as => x :: popped as
  | _ :: as => popped as

/-- What was pushed, and not refused. -/
def pushed : List (Call α) → List (Answer α) → List α
  | .push x :: cs, .pushed :: as => x :: pushed cs as
  | _ :: cs, _ :: as => pushed cs as
  | _, _ => []

/-- What holds in every state, before and after each call. -/
theorem run_induct {q : Fifo ρ α} {I : ρ → Prop} (hcall : ∀ r c, I r → I (q.call r c).1) :
    ∀ (cs : List (Call α)) {r : ρ}, I r → I (q.run r cs).1
  | [], _, h => h
  | c :: cs, r, h => run_induct hcall cs (hcall r c h)

/-! ## One queue as another -/

/-- `q` is `q'`, seen through `f`. -/
structure Refines (q : Fifo ρ α) (q' : Fifo τ α) (f : ρ → τ) : Prop where
  push : ∀ r x, (q.push r x).map f = q'.push (f r) x
  pop : ∀ r, (q.pop r).map (fun y => (y.1, f y.2)) = q'.pop (f r)

namespace Refines

variable {q : Fifo ρ α} {q' : Fifo τ α} {f : ρ → τ}

theorem call (h : Refines q q' f) (r : ρ) (c : Call α) :
    q'.call (f r) c = (f (q.call r c).1, (q.call r c).2) := by
  cases c with
  | push x =>
    unfold Fifo.call
    dsimp only
    rw [← h.push]
    cases q.push r x <;> rfl
  | pop =>
    unfold Fifo.call
    dsimp only
    rw [← h.pop]
    cases q.pop r <;> rfl

/-- **The same answers**, and a state that is seen as the other's. -/
theorem run (h : Refines q q' f) : ∀ (cs : List (Call α)) (r : ρ),
    q'.run (f r) cs = (f (q.run r cs).1, (q.run r cs).2)
  | [], _ => rfl
  | c :: cs, r => by
    rw [Fifo.run, Fifo.run, h.call, h.run cs]

theorem trans {σ : Type*} {q'' : Fifo σ α} {g : τ → σ} (h : Refines q q' f)
    (h' : Refines q' q'' g) : Refines q q'' (g ∘ f) where
  push := fun r x => by
    rw [← Option.map_map, h.push, h'.push]
    rfl
  pop := fun r => by
    have hpop := h'.pop (f r)
    rw [← h.pop, Option.map_map] at hpop
    exact hpop

end Refines

/-! ## Lists -/

/-- A queue of at most `capacity` elements. -/
@[ext] structure Bounded (α : Type*) where
  contents : List α
  capacity : ℕ
  length_le : contents.length ≤ capacity

/-- The queue that a list is. -/
def bounded : Fifo (Bounded α) α where
  push q x :=
    if h : q.contents.length = q.capacity then none
    else some
      { q with
        contents := q.contents ++ [x]
        length_le := by
          have := q.length_le
          rw [List.length_append, List.length_singleton]
          omega }
  pop q :=
    match h : q.contents with
    | [] => none
    | x :: l => some (x,
        { q with
          contents := l
          length_le := by
            have := q.length_le
            rw [h, List.length_cons] at this
            omega })

theorem Bounded.push_full {q : Bounded α} (h : q.contents.length = q.capacity) (x : α) :
    bounded.push q x = none := dif_pos h

theorem Bounded.push_room {q : Bounded α} (h : ¬ q.contents.length = q.capacity) (x : α) :
    ∃ q', bounded.push q x = some q' ∧ q'.contents = q.contents ++ [x] ∧
      q'.capacity = q.capacity := ⟨_, dif_neg h, rfl, rfl⟩

theorem Bounded.pop_nil {q : Bounded α} (h : q.contents = []) : bounded.pop q = none := by
  obtain ⟨contents, capacity, hle⟩ := q
  obtain rfl : contents = [] := h
  rfl

theorem Bounded.pop_cons {q : Bounded α} {x : α} {l : List α} (h : q.contents = x :: l) :
    ∃ q', bounded.pop q = some (x, q') ∧ q'.contents = l ∧ q'.capacity = q.capacity := by
  obtain ⟨contents, capacity, hle⟩ := q
  obtain rfl : contents = x :: l := h
  exact ⟨_, rfl, rfl, rfl⟩

theorem Bounded.run_capacity (cs : List (Call α)) (q : Bounded α) :
    (bounded.run q cs).1.capacity = q.capacity := by
  refine run_induct (I := fun q' : Bounded α => q'.capacity = q.capacity) (fun q' c hq => ?_) cs rfl
  cases c with
  | push x =>
    by_cases hfull : q'.contents.length = q'.capacity
    · simp [Fifo.call, push_full hfull, hq]
    · obtain ⟨q'', hpush, -, hcapacity⟩ := push_room hfull x
      simp [Fifo.call, hpush, hcapacity, hq]
  | pop =>
    cases hcontents : q'.contents with
    | nil => simp [Fifo.call, pop_nil hcontents, hq]
    | cons x l =>
      obtain ⟨q'', hpop, -, hcapacity⟩ := pop_cons hcontents
      simp [Fifo.call, hpop, hcapacity, hq]

/-- **First in, first out**: what was popped, and then what is there, is what was pushed. -/
theorem Bounded.order : ∀ (cs : List (Call α)) (q : Bounded α),
    popped (bounded.run q cs).2 ++ (bounded.run q cs).1.contents =
      q.contents ++ pushed cs (bounded.run q cs).2
  | [], q => by simp [Fifo.run, popped, pushed]
  | .push x :: cs, q => by
    have ih := order cs (bounded.call q (.push x)).1
    rw [Fifo.run]
    by_cases hfull : q.contents.length = q.capacity
    · have hcall : bounded.call q (.push x) = (q, .refused) := by
        simp [Fifo.call, bounded, hfull]
      rw [hcall] at ih ⊢
      exact ih
    · obtain ⟨q', hpush, hcontents, -⟩ := push_room hfull x
      have hcall : bounded.call q (.push x) = (q', .pushed) := by simp [Fifo.call, hpush]
      rw [hcall] at ih ⊢
      refine ih.trans ?_
      dsimp only
      rw [hcontents, List.append_assoc]
      rfl
  | .pop :: cs, q => by
    have ih := order cs (bounded.call q .pop).1
    rw [Fifo.run]
    cases hcontents : q.contents with
    | nil =>
      have hcall : bounded.call q .pop = (q, .refused) := by
        simp [Fifo.call, Bounded.pop_nil hcontents]
      rw [hcall] at ih ⊢
      rw [hcontents] at ih
      exact ih
    | cons x l =>
      obtain ⟨q', hpop, hl, -⟩ := Bounded.pop_cons hcontents
      have hcall : bounded.call q .pop = (q', .popped x) := by simp [Fifo.call, hpop]
      rw [hcall] at ih ⊢
      rw [hl] at ih
      exact congrArg (x :: ·) ih

/-! ## Rings -/

/-- The queue that a ring buffer is. -/
def ring : Fifo (RingBuffer α) α where
  push := RingBuffer.push
  pop := RingBuffer.pop

/-- The list a ring buffer stands for. -/
def ofRing (r : RingBuffer α) : Bounded α where
  contents := r.toList
  capacity := r.capacity
  length_le := by
    rw [RingBuffer.length_toList]
    exact r.count_le

/-- **A ring buffer is a list** of at most as many elements as it has room for. -/
theorem ring_refines : Refines (ring (α := α)) bounded ofRing where
  push := fun r x => by
    show (r.push x).map ofRing = bounded.push (ofRing r) x
    have hlen : (ofRing r).contents.length = r.count := RingBuffer.length_toList r
    by_cases hfull : r.count = r.capacity
    · have hpush : r.push x = none := dif_pos hfull
      rw [hpush, Bounded.push_full (hlen.trans hfull)]
      rfl
    · obtain ⟨r', hpush, hcap⟩ : ∃ r', r.push x = some r' ∧ r'.capacity = r.capacity :=
        ⟨_, dif_neg hfull, rfl⟩
      obtain ⟨q', hq, hcontents, hcapacity⟩ := Bounded.push_room (q := ofRing r)
        (fun h => hfull (hlen.symm.trans h)) x
      rw [hpush, hq]
      refine congrArg some (Bounded.ext ?_ (hcap.trans hcapacity.symm))
      exact (RingBuffer.toList_push hpush).trans hcontents.symm
  pop := fun r => by
    show (r.pop).map (fun y => (y.1, ofRing y.2)) = bounded.pop (ofRing r)
    cases hpop : r.pop with
    | none => exact (Bounded.pop_nil (RingBuffer.pop_eq_none_iff.mp hpop)).symm
    | some y =>
      obtain ⟨x, r'⟩ := y
      obtain ⟨q', hq, hcontents, hcapacity⟩ := Bounded.pop_cons (q := ofRing r)
        (RingBuffer.toList_pop hpop)
      rw [hq]
      refine congrArg (fun q => some (x, q)) (Bounded.ext hcontents.symm ?_)
      rw [hcapacity]
      unfold RingBuffer.pop at hpop
      split at hpop
      · cases hpop
      · obtain ⟨rfl, rfl⟩ := Prod.mk.inj (Option.some.inj hpop)
        rfl

end Fifo

end Cse344.Lib
