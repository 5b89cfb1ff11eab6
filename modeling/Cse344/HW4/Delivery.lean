import Cse344.HW4.Readers
import Cse344.Lib.Interleave

/-!
# What one reader process of HW4 delivers

One process of `run_reader` (`HW4/src/processes/reader.c` 41-144) with all its threads created and a
log file that is not empty: `T` threads of `reader_thread_func` fill the internal buffer and leave
with `ibuf_reader_done`, and `parser_thread_func` moves the entries on to Region A. The main thread
only joins them.

* The threads step as in `Cse344.HW4.Readers`; the other readers and the dispatcher do what they
  want to Region A between any two steps, and the buffers have any capacity.
* `Delivery.Ok` is the invariant: what the parser has pushed, what it holds, what is in the buffer
  and what the threads have not pushed yet are, of each thread, its entries in order.

Results:
* `delivery_ok`: it holds in every reachable state.
* **`reader_delivers`**: when the parser thread returns it has pushed the entries of all threads,
  each once and in the order of its thread, and then one EOF entry a level. `ibuf_pop` reports the
  end only when every thread has left and the buffer is empty.

Out of scope: a process that lacks its file or a thread; `Cse344.HW4.Readers` has these.
-/

namespace Cse344.HW4

open Cse344.Lib

variable {T : ℕ}

structure Delivery (T : ℕ) where
  a : RegionA
  proc : ReaderProc T
  /-- What the parser thread has pushed to Region A. -/
  pushed : List LogEntry

inductive DeliveryAct (T : ℕ)
  | parser
  | thread (i : Fin T)
  /-- Other processes leave Region A as `a`. -/
  | others (a : RegionA)

def deliveryStep (s : Delivery T) : DeliveryAct T → Option (Delivery T)
  | .parser => (parserThreadStep s.a s.proc).map fun x =>
    { a := x.1, proc := x.2, pushed := s.pushed ++ x.1.toList.drop s.a.toList.length }
  | .thread i => (readerThreadStep s.proc i).map fun p => { s with proc := p }
  | .others a => some { s with a := a }

/-- The process once its threads are created; thread `i` parses `parsed i` out of its range. -/
def delivery (parsed : Fin T → List LogEntry) (a : RegionA) (capB : ℕ) (h : 0 < capB) :
    Machine (Delivery T) (DeliveryAct T) where
  init :=
    { a := a
      proc :=
        { main := .joining 0 T
          ibuf := { RingBuffer.empty (eofEntry .error) capB h with
            done := false
            activeReaders := T }
          parser := .popping
          threads := fun i => .pushing (parsed i) }
      pushed := [] }
  step := deliveryStep

/-! ## The steps -/

variable {a a' : RegionA} {p p' : ReaderProc T}

/-- **What a step of the parser thread does.** -/
theorem parserThreadStep_cases (hs : parserThreadStep a p = some (a', p')) :
    (∃ e ibuf, p.parser = .popping ∧ ibufPop p.ibuf = some (e, ibuf) ∧ a' = a ∧
      p' = { p with ibuf := ibuf, parser := .holding e }) ∨
    (p.parser = .popping ∧ ibufPop p.ibuf = none ∧ p.ibuf.done = true ∧ a' = a ∧
      p' = { p with parser := .closing Level.all }) ∨
    (∃ e, p.parser = .holding e ∧ a'.toList = a.toList ++ [e] ∧
      p' = { p with parser := .popping }) ∨
    (p.parser = .closing [] ∧ a' = a ∧ p' = { p with parser := .exited }) ∨
    (∃ lv rest, p.parser = .closing (lv :: rest) ∧ a'.toList = a.toList ++ [eofEntry lv] ∧
      p' = { p with parser := .closing rest }) := by
  unfold parserThreadStep at hs
  split at hs
  case h_1 => cases hs
  case h_2 hpc =>
    split at hs
    case h_1 e ibuf hpop =>
      obtain ⟨rfl, rfl⟩ := Prod.mk.inj (Option.some.inj hs)
      exact .inl ⟨e, ibuf, hpc, hpop, rfl, rfl⟩
    case h_2 hpop =>
      split_ifs at hs with hdone
      obtain ⟨rfl, rfl⟩ := Prod.mk.inj (Option.some.inj hs)
      exact .inr (.inl ⟨hpc, hpop, hdone, rfl, rfl⟩)
  case h_3 e hpc =>
    split at hs
    · cases hs
    · rename_i a₁ ha
      obtain ⟨rfl, rfl⟩ := Prod.mk.inj (Option.some.inj hs)
      exact .inr (.inr (.inl ⟨e, hpc, (regionAPush_spec ha).1, rfl⟩))
  case h_4 hpc =>
    obtain ⟨rfl, rfl⟩ := Prod.mk.inj (Option.some.inj hs)
    exact .inr (.inr (.inr (.inl ⟨hpc, rfl, rfl⟩)))
  case h_5 lv rest hpc =>
    split at hs
    · cases hs
    · rename_i a₁ ha
      obtain ⟨rfl, rfl⟩ := Prod.mk.inj (Option.some.inj hs)
      exact .inr (.inr (.inr (.inr ⟨lv, rest, hpc, (regionAPush_spec ha).1, rfl⟩)))
  case h_6 => cases hs

/-- **What a step of a reader thread does.** -/
theorem readerThreadStep_cases {i : Fin T} (hs : readerThreadStep p i = some p') :
    (∃ e rest ibuf, p.threads i = .pushing (e :: rest) ∧ ibufPush p.ibuf e = some ibuf ∧
      p' = { p.setThread i (.pushing rest) with ibuf := ibuf }) ∨
    (p.threads i = .pushing [] ∧
      p' = { p.setThread i .exited with ibuf := ibufReaderDone p.ibuf }) := by
  unfold readerThreadStep at hs
  split at hs
  case h_1 => cases hs
  case h_2 e rest hpc =>
    split at hs
    · cases hs
    · rename_i ibuf hpush
      obtain rfl := Option.some.inj hs
      exact .inl ⟨e, rest, ibuf, hpc, hpush, rfl⟩
  case h_3 hpc =>
    obtain rfl := Option.some.inj hs
    exact .inr ⟨hpc, rfl⟩
  case h_4 => cases hs

theorem ibufPop_spec {b b' : InternalBuffer} {e : LogEntry} (h : ibufPop b = some (e, b')) :
    b.toList = e :: b'.toList ∧ b'.done = b.done ∧ b'.activeReaders = b.activeReaders := by
  obtain ⟨⟨x, q⟩, hq, heq⟩ := Option.map_eq_some_iff.mp h
  obtain ⟨rfl, rfl⟩ := Prod.mk.inj heq
  exact ⟨RingBuffer.toList_pop hq, rfl, rfl⟩

theorem ibufPop_eq_none_iff {b : InternalBuffer} : ibufPop b = none ↔ b.toList = [] :=
  Option.map_eq_none_iff.trans RingBuffer.pop_eq_none_iff

theorem ibufPush_spec {b b' : InternalBuffer} {e : LogEntry} (h : ibufPush b e = some b') :
    b'.toList = b.toList ++ [e] ∧ b'.done = b.done ∧ b'.activeReaders = b.activeReaders := by
  obtain ⟨q, hq, rfl⟩ := Option.map_eq_some_iff.mp h
  exact ⟨RingBuffer.toList_push hq, rfl, rfl⟩

/-! ## The entries on their way -/

/-- What a reader thread still has to push. -/
def ReaderThread.rest : ReaderThread → List LogEntry
  | .notCreated => []
  | .pushing rest => rest
  | .exited => []

/-- It has not called `ibuf_reader_done`. -/
def ReaderThread.active : ReaderThread → ℤ
  | .exited => 0
  | _ => 1

/-- The entry between the two buffers. -/
def ParserThread.held : ParserThread → List LogEntry
  | .holding entry => [entry]
  | _ => []

/-- The levels whose EOF entry is to come. -/
def ParserThread.unsigned : ParserThread → List Level
  | .closing rest => rest
  | .exited => []
  | _ => Level.all

/-- `ibuf_pop` has reported the end. -/
def ParserThread.ended : ParserThread → Bool
  | .closing _ => true
  | .exited => true
  | _ => false

/-- Where every entry is: `body` and the EOF entries of `signed` are pushed, and thread `i` has sent
`sent i`. -/
structure Delivery.Flow (parsed : Fin T → List LogEntry) (s : Delivery T) (body : List LogEntry)
    (signed : List Level) (sent : Fin T → List LogEntry) : Prop where
  pushed : s.pushed = body ++ signed.map eofEntry
  levels : signed ++ s.proc.parser.unsigned = Level.all
  order : Interleaves sent (body ++ s.proc.parser.held ++ s.proc.ibuf.toList)
  whole : ∀ i, sent i ++ (s.proc.threads i).rest = parsed i

/-- The books of the process, in every reachable state. -/
structure Delivery.Ok (parsed : Fin T → List LogEntry) (s : Delivery T) : Prop where
  flow : ∃ body signed sent, s.Flow parsed body signed sent
  active : s.proc.ibuf.activeReaders = ∑ i, (s.proc.threads i).active
  done : s.proc.ibuf.done = true → ∀ i, s.proc.threads i = .exited
  ended : s.proc.parser.ended = true → s.proc.ibuf.done = true ∧ s.proc.ibuf.toList = []

variable {parsed : Fin T → List LogEntry} {s s' : Delivery T}

/-- No EOF entry is pushed before the parser thread closes. -/
theorem Delivery.Flow.signed_eq_nil {body : List LogEntry} {signed : List Level}
    {sent : Fin T → List LogEntry} (h : s.Flow parsed body signed sent)
    (hu : s.proc.parser.unsigned = Level.all) : signed = [] := by
  have hlevels := h.levels
  rw [hu] at hlevels
  exact List.append_left_eq_self.mp hlevels

/-- The parser thread goes on, and pushes nothing to Region A. -/
theorem Delivery.Flow.setParser {s : Delivery T} {body : List LogEntry} {signed : List Level}
    {sent : Fin T → List LogEntry} (hf : s.Flow parsed body signed sent) {x : ParserThread}
    {ibuf : InternalBuffer} (hlevels : x.unsigned = s.proc.parser.unsigned)
    (horder : x.held ++ ibuf.toList = s.proc.parser.held ++ s.proc.ibuf.toList) :
    Delivery.Flow parsed
      { a := s.a
        proc := { s.proc with parser := x, ibuf := ibuf }
        pushed := s.pushed ++ s.a.toList.drop s.a.toList.length } body signed sent where
  pushed := by
    rw [List.drop_length, List.append_nil]
    exact hf.pushed
  levels := by
    rw [hlevels]
    exact hf.levels
  order := by
    rw [List.append_assoc, horder, ← List.append_assoc]
    exact hf.order
  whole := hf.whole

/-- The threads that are active are counted, so that none is left when the count is zero. -/
theorem ReaderThread.all_exited {threads : Fin T → ReaderThread}
    (h : ∑ i, (threads i).active = 0) (i : Fin T) : threads i = .exited := by
  have hnonneg : ∀ j ∈ Finset.univ, 0 ≤ (threads j).active := by
    intro j _
    unfold ReaderThread.active
    split <;> decide
  have hzero := (Finset.sum_eq_zero_iff_of_nonneg hnonneg).mp h i (Finset.mem_univ i)
  cases hi : threads i with
  | exited => rfl
  | notCreated => rw [hi] at hzero; cases hzero
  | pushing rest => rw [hi] at hzero; cases hzero

theorem Delivery.Ok.parser {s : Delivery T} (h : s.Ok parsed)
    (hs : parserThreadStep s.a s.proc = some (a', p')) :
    Delivery.Ok parsed
      { a := a', proc := p', pushed := s.pushed ++ a'.toList.drop s.a.toList.length } := by
  obtain ⟨body, signed, sent, hf⟩ := h.flow
  rcases parserThreadStep_cases hs with ⟨e, ibuf, hpc, hpop, rfl, rfl⟩ |
    ⟨hpc, hpop, hdone, rfl, rfl⟩ | ⟨e, hpc, ha, rfl⟩ | ⟨hpc, rfl, rfl⟩ | ⟨lv, rest, hpc, ha, rfl⟩
  · obtain ⟨hlist, hd, hact⟩ := ibufPop_spec hpop
    refine ⟨⟨body, signed, sent, hf.setParser ?_ ?_⟩, ?_, ?_, ?_⟩
    · rw [hpc]
      rfl
    · rw [hpc, hlist]
      rfl
    · exact hact.trans h.active
    · exact fun hyes => h.done (hd ▸ hyes)
    · rintro ⟨⟩
  · have hempty := ibufPop_eq_none_iff.mp hpop
    refine ⟨⟨body, signed, sent, hf.setParser ?_ ?_⟩, h.active, h.done, fun _ => ⟨hdone, hempty⟩⟩
    · rw [hpc]
      rfl
    · rw [hpc]
      rfl
  · have hnil := hf.signed_eq_nil (by rw [hpc]; rfl)
    refine ⟨⟨body ++ [e], [], sent, ?_, rfl, ?_, hf.whole⟩, h.active, h.done, ?_⟩
    · rw [ha, List.drop_left, hf.pushed, hnil, List.map_nil, List.append_nil, List.append_nil]
    · have horder := hf.order
      rw [hpc] at horder
      simpa [ParserThread.held] using horder
    · rintro ⟨⟩
  · refine ⟨⟨body, signed, sent, hf.setParser ?_ ?_⟩, h.active, h.done, fun _ => ?_⟩
    · rw [hpc]
      rfl
    · rw [hpc]
      rfl
    · exact h.ended (by rw [hpc]; rfl)
  · refine ⟨⟨body, signed ++ [lv], sent, ?_, ?_, ?_, hf.whole⟩, h.active, h.done, fun _ => ?_⟩
    · rw [ha, List.drop_left, hf.pushed, List.map_append, List.append_assoc]
      rfl
    · have hlevels := hf.levels
      rw [hpc] at hlevels
      rw [List.append_assoc]
      exact hlevels
    · have horder := hf.order
      rw [hpc] at horder
      exact horder
    · exact h.ended (by rw [hpc]; rfl)

/-- A reader thread goes on; `sent'` is what the threads have sent then. -/
theorem Delivery.Flow.setThread {s : Delivery T} {body : List LogEntry} {signed : List Level}
    {sent sent' : Fin T → List LogEntry} (hf : s.Flow parsed body signed sent) {i : Fin T}
    {x : ReaderThread} {ibuf : InternalBuffer}
    (horder : Interleaves sent' (body ++ s.proc.parser.held ++ ibuf.toList))
    (hother : ∀ j, j ≠ i → sent' j = sent j)
    (hi : sent' i ++ x.rest = sent i ++ (s.proc.threads i).rest) :
    Delivery.Flow parsed { s with proc := { s.proc.setThread i x with ibuf := ibuf } } body signed
      sent' where
  pushed := hf.pushed
  levels := hf.levels
  order := horder
  whole := fun j => by
    by_cases hij : j = i
    · subst hij
      simpa [ReaderProc.setThread, ← hf.whole j] using hi
    · simpa [ReaderProc.setThread, hij, hother j hij] using hf.whole j

/-- A reader thread that steps finds the buffer open. -/
theorem Delivery.Ok.open_of_step {s : Delivery T} (h : s.Ok parsed) {i : Fin T}
    (hx : s.proc.threads i ≠ .exited) :
    s.proc.ibuf.done = false ∧ s.proc.parser.ended = false := by
  have hopen : s.proc.ibuf.done = false :=
    Bool.eq_false_iff.mpr fun hdone => hx (h.done hdone i)
  refine ⟨hopen, Bool.eq_false_iff.mpr fun hended => ?_⟩
  rw [(h.ended hended).1] at hopen
  cases hopen

theorem Delivery.Ok.thread {s : Delivery T} (h : s.Ok parsed) {i : Fin T}
    (hs : readerThreadStep s.proc i = some p') : Delivery.Ok parsed { s with proc := p' } := by
  obtain ⟨body, signed, sent, hf⟩ := h.flow
  have hcount := sum_update_add ReaderThread.active s.proc.threads i
  rcases readerThreadStep_cases hs with ⟨e, rest, ibuf, hpc, hpush, rfl⟩ | ⟨hpc, rfl⟩
  · obtain ⟨hlist, hd, hact⟩ := ibufPush_spec hpush
    obtain ⟨hopen, hlive⟩ := h.open_of_step (i := i) (by simp [hpc])
    refine ⟨⟨body, signed, Function.update sent i (sent i ++ [e]), hf.setThread ?_ ?_ ?_⟩,
      ?_, fun hyes => ?_, fun hyes => ?_⟩
    · have horder := hf.order.push i e
      rw [List.append_assoc _ _ [e], ← hlist] at horder
      exact horder
    · exact fun j hj => Function.update_of_ne hj _ _
    · rw [hpc, Function.update_self, List.append_assoc]
      rfl
    · have hc := hcount (.pushing rest)
      rw [hpc] at hc
      exact (hact.trans h.active).trans (add_right_cancel hc).symm
    · rw [← hd, show ibuf.done = true from hyes] at hopen
      cases hopen
    · rw [show s.proc.parser.ended = true from hyes] at hlive
      cases hlive
  · obtain ⟨hopen, hlive⟩ := h.open_of_step (i := i) (by simp [hpc])
    have hactive : s.proc.ibuf.activeReaders - 1 =
        ∑ j, (Function.update s.proc.threads i .exited j).active := by
      have hc := hcount .exited
      rw [hpc, ← h.active] at hc
      simp only [ReaderThread.active] at hc ⊢
      omega
    refine ⟨⟨body, signed, sent, hf.setThread hf.order (fun _ _ => rfl) ?_⟩, hactive,
      fun hyes => ?_, fun hyes => ?_⟩
    · rw [hpc]
      rfl
    · -- `done` was not set before, so that this thread is the last one
      have hzero : s.proc.ibuf.activeReaders - 1 = 0 := by
        by_contra hne
        have hdone : (ibufReaderDone s.proc.ibuf).done = false := by
          rw [ibufReaderDone, if_neg hne]
          exact hopen
        rw [show (ibufReaderDone s.proc.ibuf).done = true from hyes] at hdone
        cases hdone
      exact ReaderThread.all_exited (hactive.symm.trans hzero)
    · rw [show s.proc.parser.ended = true from hyes] at hlive
      cases hlive

/-! ## Delivery -/

theorem Delivery.Ok.init (parsed : Fin T → List LogEntry) (a : RegionA) (capB : ℕ)
    (h : 0 < capB) : (delivery parsed a capB h).init.Ok parsed where
  flow := ⟨[], [], fun _ => [], rfl, rfl, Interleaves.nil, fun _ => rfl⟩
  active := by simp [delivery, ReaderThread.active]
  done := by rintro ⟨⟩
  ended := by rintro ⟨⟩

theorem Delivery.Ok.step {act : DeliveryAct T} (h : s.Ok parsed)
    (hs : deliveryStep s act = some s') : s'.Ok parsed := by
  cases act with
  | parser =>
    obtain ⟨⟨a, p⟩, hp, rfl⟩ := Option.map_eq_some_iff.mp hs
    exact h.parser hp
  | thread i =>
    obtain ⟨p, hp, rfl⟩ := Option.map_eq_some_iff.mp hs
    exact h.thread hp
  | others a =>
    obtain rfl := Option.some.inj hs
    obtain ⟨body, signed, sent, hf⟩ := h.flow
    exact ⟨⟨body, signed, sent, hf.pushed, hf.levels, hf.order, hf.whole⟩, h.active, h.done,
      h.ended⟩

theorem delivery_ok (parsed : Fin T → List LogEntry) (a : RegionA) (capB : ℕ) (hB : 0 < capB)
    {s : Delivery T} (h : (delivery parsed a capB hB).Reachable s) : s.Ok parsed :=
  h.induct (I := Delivery.Ok parsed) (Delivery.Ok.init parsed a capB hB)
    fun _ _ _ => Delivery.Ok.step

/-- What the parser thread has pushed when it returns. -/
theorem Delivery.Ok.pushed_of_exited (h : s.Ok parsed) (hx : s.proc.parser = .exited) :
    ∃ body, s.pushed = body ++ Level.all.map eofEntry ∧ Interleaves parsed body := by
  obtain ⟨body, signed, sent, hf⟩ := h.flow
  obtain ⟨hdone, hempty⟩ := h.ended (by rw [hx]; rfl)
  have hsigned : signed = Level.all := by
    have hlevels := hf.levels
    rw [hx] at hlevels
    exact (List.append_nil signed).symm.trans hlevels
  have hsent : sent = parsed := by
    funext i
    have hi := hf.whole i
    rw [h.done hdone i] at hi
    exact (List.append_nil (sent i)).symm.trans hi
  have horder := hf.order
  rw [hx, hempty, hsent] at horder
  exact ⟨body, hsigned ▸ hf.pushed, by simpa [ParserThread.held] using horder⟩

/-- **One reader process delivers everything before its EOF entries**, whatever the others do to
Region A. -/
theorem reader_delivers (parsed : Fin T → List LogEntry) (a : RegionA) (capB : ℕ) (hB : 0 < capB)
    {s : Delivery T} (h : (delivery parsed a capB hB).Reachable s) :
    (s.proc.parser = .exited → ∃ body, s.pushed = body ++ Level.all.map eofEntry ∧
      Interleaves parsed body ∧ (body : Multiset LogEntry) = ∑ i, (parsed i : Multiset LogEntry)) ∧
    (ibufPop s.proc.ibuf = none ∧ s.proc.ibuf.done = true →
      (∀ i, s.proc.threads i = .exited) ∧ s.proc.ibuf.toList = []) := by
  have hok := delivery_ok parsed a capB hB h
  constructor
  · intro hx
    obtain ⟨body, hpushed, hbody⟩ := hok.pushed_of_exited hx
    exact ⟨body, hpushed, hbody, hbody.coe_eq_sum⟩
  · rintro ⟨hpop, hdone⟩
    exact ⟨hok.done hdone, ibufPop_eq_none_iff.mp hpop⟩

/-- A Region A with room for one entry. -/
def oneSlotA : RegionA :=
  { RingBuffer.empty (eofEntry .error) 1 Nat.one_pos with eofCountPerLevel := fun _ => 0 }

/-- One entry a thread. -/
def diskEntry (i : Fin 2) : LogEntry where
  level := if i.val = 0 then .warn else .debug
  source := Source.strncpy ⟨cstr "disk", by decide⟩
  message := cstr "slow"
  isEof := false

/-- Two threads whose entries go through one slot each. -/
theorem reader_delivers_oneSlot :
    ∃ s, (delivery (fun i => [diskEntry i]) oneSlotA 1 Nat.one_pos).Reachable s ∧
      (∃ body, s.pushed = body ++ Level.all.map eofEntry ∧
        Interleaves (fun i => [diskEntry i]) body ∧
        (body : Multiset LogEntry) = ∑ i, ([diskEntry i] : Multiset LogEntry)) ∧
      ∀ i, s.proc.threads i = .exited := by
  have hrun : ((delivery (fun i => [diskEntry i]) oneSlotA 1 Nat.one_pos).runs
      (delivery (fun i => [diskEntry i]) oneSlotA 1 Nat.one_pos).init
      ([.thread 1, .parser, .thread 0, .thread 0, .parser, .others oneSlotA, .parser, .thread 1] ++
        [.parser, .others oneSlotA, .parser] ++
        (List.replicate 4 [.parser, .others oneSlotA]).flatten ++ [.parser])).map
      (fun s => (s.proc.parser, (ibufPop s.proc.ibuf).isNone, s.proc.ibuf.done)) =
        some (.exited, true, true) := by
    decide +kernel
  obtain ⟨s, hs, he⟩ := Option.map_eq_some_iff.mp hrun
  obtain ⟨hparser, hrest⟩ := Prod.mk.inj he
  obtain ⟨hpop, hdone⟩ := Prod.mk.inj hrest
  have hreach := Machine.runs_reachable hs
  have h := reader_delivers (fun i => [diskEntry i]) oneSlotA 1 Nat.one_pos hreach
  exact ⟨s, hreach, h.1 hparser, (h.2 ⟨Option.isNone_iff_eq_none.mp hpop, hdone⟩).1⟩

end Cse344.HW4
