import Cse344.Lib.CString
import Cse344.Lib.RingBuffer
import Mathlib.Data.Fintype.OfMap

/-!
# Log entries and the shared regions of HW4

Model of `t_log_entry` (`HW4/inc/log_entry.h`) and of the regions A, B and D with their push and pop
(`HW4/inc/shm.h`, `HW4/src/shm/shm_queue.c` 6-58).

* The six push and pop functions are the operations of a ring (`Cse344.Lib.RingBuffer`), each on its
  own region's type.
* `parse_log_line` accepts no other level than the four, so `LV_INVALID` has no value here.
* The time stamp of an entry is read by nobody behind the parser, and left out.

Results:
* `regionAPush_spec`, `regionAPop_spec` and the like: what each operation does to the list of a
  region's entries.

Out of scope: the mutexes and condition variables; the machines that use the regions have the waits.
-/

namespace Cse344.HW4

open Cse344.Lib

/-- `t_level`. -/
inductive Level
  | error
  | warn
  | info
  | debug
  deriving DecidableEq, Repr

/-- The levels in the order of `for (int lv = 0; lv < 4; lv++)`. -/
def Level.all : List Level := [.error, .warn, .info, .debug]

theorem Level.mem_all (lv : Level) : lv ∈ Level.all := by cases lv <;> decide

instance : Fintype Level := Fintype.ofList Level.all Level.mem_all

theorem Level.nodup_all : Level.all.Nodup := by decide

/-- `MAX_SOURCE_LEN`. -/
def maxSourceLen : ℕ := 64

/-- A string in a buffer of `MAX_SOURCE_LEN` bytes. -/
structure Source where
  bytes : CStr
  length_lt : bytes.length < maxSourceLen
  deriving DecidableEq, Repr

/-- The buffer after `memset`. -/
def Source.empty : Source := ⟨[], by decide⟩

/-- `strncpy` of `MAX_SOURCE_LEN - 1` bytes, and a NUL. -/
def Source.strncpy (s : Source) : Source :=
  ⟨s.bytes.take (maxSourceLen - 1), (List.length_take_le _ _).trans_lt (by decide)⟩

@[simp] theorem Source.strncpy_eq (s : Source) : s.strncpy = s := by
  cases s with
  | mk bytes h =>
    have htake : bytes.take (maxSourceLen - 1) = bytes :=
      List.take_of_length_le (Nat.le_pred_of_lt h)
    simp only [strncpy, htake]

/-- `t_log_entry`. -/
structure LogEntry where
  level : Level
  source : Source
  message : CStr
  isEof : Bool
  deriving DecidableEq, Repr

/-- What `parse_log_line` makes: `handle_source` refuses an empty source. -/
structure LogEntry.Parsed (e : LogEntry) : Prop where
  data : e.isEof = false
  source_ne : e.source ≠ .empty

instance (e : LogEntry) : Decidable e.Parsed :=
  decidable_of_iff (e.isEof = false ∧ e.source ≠ .empty)
    ⟨fun h => ⟨h.1, h.2⟩, fun h => ⟨h.data, h.source_ne⟩⟩

/-- An entry zeroed by `memset`, with its level and `is_eof` set. -/
def eofEntry (lv : Level) : LogEntry where
  level := lv
  source := .empty
  message := []
  isEof := true

/-- `e` is a data entry of level `lv`. -/
def LogEntry.isDataOf (lv : Level) (e : LogEntry) : Bool := !e.isEof && decide (e.level = lv)

theorem isDataOf_iff {lv : Level} {e : LogEntry} :
    e.isDataOf lv = true ↔ e.isEof = false ∧ e.level = lv := by
  simp [LogEntry.isDataOf]

/-- The data entries of level `lv` of a list. -/
def dataOf (lv : Level) (l : List LogEntry) : List LogEntry := l.filter (LogEntry.isDataOf lv)

@[simp] theorem dataOf_append (lv : Level) (l m : List LogEntry) :
    dataOf lv (l ++ m) = dataOf lv l ++ dataOf lv m := List.filter_append l m

theorem dataOf_cons (lv : Level) (e : LogEntry) (l : List LogEntry) :
    dataOf lv (e :: l) = dataOf lv [e] ++ dataOf lv l := dataOf_append lv [e] l

/-- An end-of-file entry is no data. -/
theorem dataOf_eof {e : LogEntry} (lv : Level) (h : e.isEof = true) : dataOf lv [e] = [] := by
  simp [dataOf, LogEntry.isDataOf, h]

/-- A data entry is data of its own level. -/
theorem dataOf_self {e : LogEntry} (h : e.isEof = false) : dataOf e.level [e] = [e] := by
  simp [dataOf, LogEntry.isDataOf, h]

theorem dataOf_of_isDataOf {e : LogEntry} {lv : Level} (h : e.isDataOf lv = true) :
    dataOf lv [e] = [e] := by
  simp [dataOf, h]

/-- A data entry is not data of another level. -/
theorem dataOf_other {e : LogEntry} {lv : Level} (h : lv ≠ e.level) : dataOf lv [e] = [] := by
  simp [dataOf, LogEntry.isDataOf, Ne.symm h]

@[simp] theorem dataOf_eofEntry (lv lv' : Level) : dataOf lv [eofEntry lv'] = [] := rfl

/-! ## The regions -/

/-- `t_region_a`, without its `total_readers`. -/
structure RegionA extends RingBuffer LogEntry where
  eofCountPerLevel : Level → ℕ

/-- `t_region_b`. -/
structure RegionB extends RingBuffer LogEntry where
  eofPosted : Bool

/-- `t_region_d`. -/
structure RegionD extends RingBuffer LogEntry where
  dispatcherDone : Bool

def regionAPush (a : RegionA) (entry : LogEntry) : Option RegionA :=
  (a.push entry).map fun q => { a with toRingBuffer := q }

def regionAPop (a : RegionA) : Option (LogEntry × RegionA) :=
  a.pop.map fun r => (r.1, { a with toRingBuffer := r.2 })

def regionBPush (b : RegionB) (entry : LogEntry) : Option RegionB :=
  (b.push entry).map fun q => { b with toRingBuffer := q }

def regionBPop (b : RegionB) : Option (LogEntry × RegionB) :=
  b.pop.map fun r => (r.1, { b with toRingBuffer := r.2 })

def regionDPush (d : RegionD) (entry : LogEntry) : Option RegionD :=
  (d.push entry).map fun q => { d with toRingBuffer := q }

def regionDPop (d : RegionD) : Option (LogEntry × RegionD) :=
  d.pop.map fun r => (r.1, { d with toRingBuffer := r.2 })

theorem regionAPush_spec {a a' : RegionA} {e : LogEntry} (h : regionAPush a e = some a') :
    a'.toList = a.toList ++ [e] ∧ a'.eofCountPerLevel = a.eofCountPerLevel := by
  obtain ⟨q, hq, rfl⟩ := Option.map_eq_some_iff.mp h
  exact ⟨RingBuffer.toList_push hq, rfl⟩

theorem regionAPop_spec {a a' : RegionA} {e : LogEntry} (h : regionAPop a = some (e, a')) :
    a.toList = e :: a'.toList ∧ a'.eofCountPerLevel = a.eofCountPerLevel := by
  obtain ⟨⟨x, q⟩, hq, h'⟩ := Option.map_eq_some_iff.mp h
  obtain ⟨rfl, rfl⟩ := Prod.mk.inj h'
  exact ⟨RingBuffer.toList_pop hq, rfl⟩

theorem regionBPush_spec {b b' : RegionB} {e : LogEntry} (h : regionBPush b e = some b') :
    b'.toList = b.toList ++ [e] ∧ b'.eofPosted = b.eofPosted := by
  obtain ⟨q, hq, rfl⟩ := Option.map_eq_some_iff.mp h
  exact ⟨RingBuffer.toList_push hq, rfl⟩

theorem regionBPop_spec {b b' : RegionB} {e : LogEntry} (h : regionBPop b = some (e, b')) :
    b.toList = e :: b'.toList ∧ b'.eofPosted = b.eofPosted := by
  obtain ⟨⟨x, q⟩, hq, h'⟩ := Option.map_eq_some_iff.mp h
  obtain ⟨rfl, rfl⟩ := Prod.mk.inj h'
  exact ⟨RingBuffer.toList_pop hq, rfl⟩

theorem regionDPush_spec {d d' : RegionD} {e : LogEntry} (h : regionDPush d e = some d') :
    d'.toList = d.toList ++ [e] := by
  obtain ⟨q, hq, rfl⟩ := Option.map_eq_some_iff.mp h
  exact RingBuffer.toList_push hq

theorem regionDPop_spec {d d' : RegionD} {e : LogEntry} (h : regionDPop d = some (e, d')) :
    d.toList = e :: d'.toList := by
  obtain ⟨⟨x, q⟩, hq, h'⟩ := Option.map_eq_some_iff.mp h
  obtain ⟨rfl, rfl⟩ := Prod.mk.inj h'
  exact RingBuffer.toList_pop hq

theorem regionBPop_eq_none {b : RegionB} (h : regionBPop b = none) : b.toList = [] :=
  RingBuffer.pop_eq_none_iff.mp (Option.map_eq_none_iff.mp h)

end Cse344.HW4
