import Cse344.HW4.Readers
import Cse344.Lib.Fifo

/-!
# The queues of HW4

Regions A, B and D (`HW4/src/shm/shm_queue.c` 6-58) and the internal buffer of a reader process
(`HW4/src/utils/internal_buffer.c` 43-85) each have a push and a pop of their own. Here each pair is
used by any sequence of calls, from the buffer as it is set up.

* All four are rings; `OnRing` says how a queue of its own type is one (`Cse344.Lib.RingBuffer`).
* `ibuf_push` waits where the buffer is full, and so does `ibuf_pop` where it is empty and `done` is
  not set; a call that waits has not happened yet, and is a refused one here.
* A bounded FIFO is that of `Cse344.Lib.Fifo`: a list of at most `capacity` entries.

Results:
* `OnRing.boundedFifo`: a queue on a ring is a bounded FIFO.
* **`bounded_fifos`**: each of the four is one, whatever is in the array at first.

Out of scope: the mutexes; a call is one step.
-/

namespace Cse344.HW4

open Cse344.Lib

def regionA : Fifo RegionA LogEntry := ⟨regionAPush, regionAPop⟩

def regionB : Fifo RegionB LogEntry := ⟨regionBPush, regionBPop⟩

def regionD : Fifo RegionD LogEntry := ⟨regionDPush, regionDPop⟩

def ibuf : Fifo InternalBuffer LogEntry := ⟨ibufPush, ibufPop⟩

variable {ρ : Type*} {q : Fifo ρ LogEntry} {f : ρ → RingBuffer LogEntry} {r₀ r : ρ} {capacity : ℕ}

/-- The queue `q`, whose ring is `f r` in state `r`, is a FIFO of `capacity` places from `r₀` on. -/
structure BoundedFifo (q : Fifo ρ LogEntry) (f : ρ → RingBuffer LogEntry) (capacity : ℕ) (r₀ : ρ) :
    Prop where
  bounds : ∀ cs, (f (q.run r₀ cs).1).head < capacity ∧ (f (q.run r₀ cs).1).tail < capacity ∧
    (f (q.run r₀ cs).1).count ≤ capacity ∧
      (f (q.run r₀ cs).1).tail =
        ((f (q.run r₀ cs).1).head + (f (q.run r₀ cs).1).count) % capacity
  /-- the answers are those of a list, and the list is what the ring holds -/
  answers : ∀ cs, Fifo.bounded.run ⟨[], capacity, Nat.zero_le _⟩ cs =
    (Fifo.ofRing (f (q.run r₀ cs).1), (q.run r₀ cs).2)
  order : ∀ cs, Fifo.popped (q.run r₀ cs).2 ++ (f (q.run r₀ cs).1).toList =
    Fifo.pushed cs (q.run r₀ cs).2
  full : ∀ cs e, (f (q.run r₀ cs).1).count = capacity →
    q.call (q.run r₀ cs).1 (.push e) = ((q.run r₀ cs).1, .refused)
  empty : ∀ cs, (f (q.run r₀ cs).1).count = 0 →
    q.call (q.run r₀ cs).1 .pop = ((q.run r₀ cs).1, .refused)

/-- Only pushes and pops change the ring. -/
structure OnRing (q : Fifo ρ LogEntry) (f : ρ → RingBuffer LogEntry) : Prop where
  push : ∀ r e, (q.push r e).map f = (f r).push e
  pop : ∀ r, (q.pop r).map (fun y => (y.1, f y.2)) = (f r).pop

theorem OnRing.refines (h : OnRing q f) : Fifo.Refines q Fifo.bounded (Fifo.ofRing ∘ f) :=
  have hring : Fifo.Refines q Fifo.ring f := ⟨h.push, h.pop⟩
  hring.trans Fifo.ring_refines

/-- **A queue on a ring is a bounded FIFO.** -/
theorem OnRing.boundedFifo (h : OnRing q f) {x : LogEntry} (hpos : 0 < capacity)
    (h0 : f r₀ = RingBuffer.empty x capacity hpos) : BoundedFifo q f capacity r₀ := by
  have hstart : Fifo.ofRing (f r₀) = ⟨[], capacity, Nat.zero_le _⟩ := by
    rw [h0]
    rfl
  have hrun : ∀ cs, Fifo.bounded.run ⟨[], capacity, Nat.zero_le _⟩ cs =
      (Fifo.ofRing (f (q.run r₀ cs).1), (q.run r₀ cs).2) := fun cs => by
    rw [← hstart]
    exact h.refines.run cs r₀
  have hcapacity : ∀ cs, (f (q.run r₀ cs).1).capacity = capacity := fun cs => by
    have hconst := Fifo.Bounded.run_capacity cs ⟨[], capacity, Nat.zero_le _⟩
    rw [hrun] at hconst
    exact hconst
  refine ⟨fun cs => ?_, hrun, fun cs => ?_, fun cs e hfull => ?_, fun cs hempty => ?_⟩
  · have hc := hcapacity cs
    generalize f (q.run r₀ cs).1 = r at hc ⊢
    refine ⟨hc ▸ r.head_lt, ?_, hc ▸ r.count_le, hc ▸ r.tail_eq⟩
    rw [r.tail_eq, hc]
    exact Nat.mod_lt _ hpos
  · have horder := Fifo.Bounded.order cs ⟨[], capacity, Nat.zero_le _⟩
    rw [hrun] at horder
    exact horder
  · have hpush : (f (q.run r₀ cs).1).push e = none := dif_pos (hfull.trans (hcapacity cs).symm)
    have hnone := (h.push _ e).trans hpush
    unfold Fifo.call
    dsimp only
    rw [Option.map_eq_none_iff.mp hnone]
  · have hpop : (f (q.run r₀ cs).1).pop = none := dif_pos hempty
    have hnone := (h.pop _).trans hpop
    unfold Fifo.call
    dsimp only
    rw [Option.map_eq_none_iff.mp hnone]

/-- A push and a pop of the ring, written back by `put`. -/
theorem onRing_of_put (f : ρ → RingBuffer LogEntry) (put : ρ → RingBuffer LogEntry → ρ)
    (h : ∀ r ring, f (put r ring) = ring) :
    OnRing ⟨fun r e => ((f r).push e).map (put r), fun r => (f r).pop.map fun y => (y.1, put r y.2)⟩
      f where
  push := fun r e => by
    have hback : f ∘ put r = id := funext (h r)
    show (((f r).push e).map (put r)).map f = (f r).push e
    rw [Option.map_map, hback, Option.map_id_fun, id]
  pop := fun r => by
    have hback : (fun y : LogEntry × ρ => (y.1, f y.2)) ∘ (fun y => (y.1, put r y.2)) = id :=
      funext fun y => Prod.ext rfl (h r y.2)
    show ((f r).pop.map fun y => (y.1, put r y.2)).map _ = (f r).pop
    rw [Option.map_map, hback, Option.map_id_fun, id]

theorem regionA_onRing : OnRing regionA RegionA.toRingBuffer :=
  onRing_of_put RegionA.toRingBuffer (fun a ring => { a with toRingBuffer := ring }) fun _ _ => rfl

theorem regionB_onRing : OnRing regionB RegionB.toRingBuffer :=
  onRing_of_put RegionB.toRingBuffer (fun b ring => { b with toRingBuffer := ring }) fun _ _ => rfl

theorem regionD_onRing : OnRing regionD RegionD.toRingBuffer :=
  onRing_of_put RegionD.toRingBuffer (fun d ring => { d with toRingBuffer := ring }) fun _ _ => rfl

theorem ibuf_onRing : OnRing ibuf InternalBuffer.toRingBuffer :=
  onRing_of_put InternalBuffer.toRingBuffer (fun b ring => { b with toRingBuffer := ring })
    fun _ _ => rfl

/-- **The four buffers** are FIFOs of `capacity` places, whatever is in the array at first. -/
theorem bounded_fifos (capacity : ℕ) (h : 0 < capacity) (x : LogEntry)
    (eofCountPerLevel : Level → ℕ) (eofPosted dispatcherDone done : Bool) (activeReaders : ℤ) :
    BoundedFifo regionA RegionA.toRingBuffer capacity
      { RingBuffer.empty x capacity h with eofCountPerLevel := eofCountPerLevel } ∧
    BoundedFifo regionB RegionB.toRingBuffer capacity
      { RingBuffer.empty x capacity h with eofPosted := eofPosted } ∧
    BoundedFifo regionD RegionD.toRingBuffer capacity
      { RingBuffer.empty x capacity h with dispatcherDone := dispatcherDone } ∧
    BoundedFifo ibuf InternalBuffer.toRingBuffer capacity
      { RingBuffer.empty x capacity h with done := done, activeReaders := activeReaders } :=
  ⟨regionA_onRing.boundedFifo h rfl, regionB_onRing.boundedFifo h rfl,
    regionD_onRing.boundedFifo h rfl, ibuf_onRing.boundedFifo h rfl⟩

/-- Buffers of one place: the second push is refused. -/
theorem bounded_fifos_one :
    let r₀ : RegionA :=
      { RingBuffer.empty (eofEntry .error) 1 Nat.one_pos with eofCountPerLevel := fun _ => 0 }
    (regionA.run r₀ [.push (eofEntry .warn), .push (eofEntry .info), .pop, .pop]).2 =
      [.pushed, .refused, .popped (eofEntry .warn), .refused] := by
  have hanswers := (bounded_fifos 1 Nat.one_pos (eofEntry .error) (fun _ => 0) false false false
    0).1.answers [.push (eofEntry .warn), .push (eofEntry .info), .pop, .pop]
  exact (congrArg Prod.snd hanswers).symm

end Cse344.HW4
