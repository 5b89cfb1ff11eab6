import Cse344.Lib.Machine
import Mathlib.Data.List.OfFn
import Mathlib.Logic.Function.Basic
import Mathlib.Order.RelClasses

/-!
# Processes that share semaphores

`Code` is what a process does to semaphores: `sem_wait`, `sem_post` and `sem_trywait`, and around
them the control flow of the program. Data are left out. A test on data is a `choice` that may come
out either way each time, an index that data give is `any` index, and a loop may go on or end at its
head; so whatever the data are, and whatever others do to them meanwhile, is one of the runs. A
`return` or a `break` is a choice of `skip` for what it leaves out.

* The semaphores marked `mutex` start with 1 and are held, from `wait` to `post`. The others count
  something, and nobody holds them. A process can be killed at any point; what it holds it never
  gives back.
* `Ordered` is the discipline: a process waits for a mutex only if its rank is above those of all
  the mutexes it holds, it gives back only what it holds, and it waits for other semaphores only
  when it holds nothing.
* `Proc.Orderly` says it of a process and what is left of its code, and is the invariant.

Results, if all processes keep the discipline:
* **`orderly_step`**: a step keeps what holds of all processes.
* **`Ordered.not_waits_held`**: no process waits for what it holds.
* **`Ordered.no_deadlock`**: no set of processes all wait for mutexes that are held in the set.
* **`Ordered.exclusive`**: a mutex is 1 and free, or 0 and held by one process.

Out of scope: fairness; a process may wait for ever for a mutex that others take in turn.
-/

namespace Cse344.Lib.Locks

variable {L R ι : Type*}

inductive Code (L : Type*)
  | skip
  | wait (l : L)
  | post (l : L)
  /-- `sem_trywait`, and what follows if it succeeds -/
  | tryWait (l : L) (a : Code L)
  | seq (a b : Code L)
  | choice (a b : Code L)
  | any {n : ℕ} (a : Fin n → Code L)
  | loop (a : Code L)

namespace Code

def block : List (Code L) → Code L
  | [] => .skip
  | a :: as => .seq a (block as)

/-- `for (i = 0; i < n; i++)`. -/
def forEach {n : ℕ} (a : Fin n → Code L) : Code L := block (List.ofFn a)

end Code

/-- What a process still has to do, and the mutexes it holds. -/
structure Proc (L : Type*) where
  code : List (Code L)
  held : List L

structure State (ι L : Type*) where
  sem : L → ℕ
  proc : ι → Proc L

/-- A step of a process, with how its test comes out, or its end. -/
inductive Act (ι : Type*)
  | run (i : ι) (c : ℕ)
  | kill (i : ι)

section Steps

variable [DecidableEq L] [DecidableEq ι] (mutex : L → Bool)

def hold (l : L) (H : List L) : List L := if mutex l then l :: H else H

def release (l : L) (H : List L) : List L := if mutex l then H.erase l else H

/-- The semaphores and the process after a step of the process; `none` if it cannot go on. -/
def Proc.step (sem : L → ℕ) (p : Proc L) (c : ℕ) : Option ((L → ℕ) × Proc L) :=
  match p.code with
  | [] => none
  | .skip :: k => some (sem, { p with code := k })
  | .wait l :: k =>
    if 0 < sem l then
      some (Function.update sem l (sem l - 1), { code := k, held := hold mutex l p.held })
    else none
  | .post l :: k =>
    some (Function.update sem l (sem l + 1), { code := k, held := release mutex l p.held })
  | .tryWait l a :: k =>
    if 0 < sem l then
      some (Function.update sem l (sem l - 1), { code := a :: k, held := hold mutex l p.held })
    else some (sem, { p with code := k })
  | .seq a b :: k => some (sem, { p with code := a :: b :: k })
  | .choice a b :: k => some (sem, { p with code := (if c = 0 then a else b) :: k })
  | @Code.any _ n a :: k =>
    if h : c < n then some (sem, { p with code := a ⟨c, h⟩ :: k }) else none
  | .loop a :: k => some (sem, { p with code := if c = 0 then k else a :: .loop a :: k })

def step (s : State ι L) : Act ι → Option (State ι L)
  | .run i c => ((s.proc i).step mutex s.sem c).map fun r =>
    { sem := r.1, proc := Function.update s.proc i r.2 }
  | .kill i => some { s with proc := Function.update s.proc i { s.proc i with code := [] } }

/-- Processes that run `code`, on semaphores that start with `value`. -/
def system (value : L → ℕ) (code : ι → Code L) : Machine (State ι L) (Act ι) where
  init := { sem := value, proc := fun i => { code := [code i], held := [] } }
  step := step mutex

end Steps

/-- The next thing the process does is to wait for `l`. -/
def Proc.WaitsFor (p : Proc L) (l : L) : Prop := ∃ k, p.code = .wait l :: k

/-- Processes of which each waits for a mutex that one of them holds. -/
structure State.Deadlock (mutex : L → Bool) (s : State ι L) (S : Set ι) : Prop where
  nonempty : S.Nonempty
  waits : ∀ i ∈ S, ∃ l, mutex l = true ∧ (s.proc i).WaitsFor l ∧ ∃ j ∈ S, l ∈ (s.proc j).held

/-- A mutex is 1 and free, or 0 and held once, by one process. -/
def State.Exclusive [DecidableEq L] (s : State ι L) (l : L) : Prop :=
  (s.sem l = 1 ∧ ∀ i, (s.proc i).held.count l = 0) ∨
    (s.sem l = 0 ∧ ∃ i, (s.proc i).held.count l = 1 ∧ ∀ j, j ≠ i → (s.proc j).held.count l = 0)

theorem State.Exclusive.congr [DecidableEq L] {s s' : State ι L} {l : L} (h : s.Exclusive l)
    (hsem : s'.sem l = s.sem l)
    (hheld : ∀ i, (s'.proc i).held.count l = (s.proc i).held.count l) : s'.Exclusive l := by
  rcases h with ⟨hone, hfree⟩ | ⟨hzero, i, hi, hothers⟩
  · exact .inl ⟨hsem.trans hone, fun i => (hheld i).trans (hfree i)⟩
  · exact .inr ⟨hsem.trans hzero, i, (hheld i).trans hi, fun j hj => (hheld j).trans (hothers j hj)⟩

/-! ## The discipline -/

section Discipline

variable [DecidableEq L] [LT R] (mutex : L → Bool) (rank : L → R)

/-- Code that keeps the discipline, started with the mutexes `H` and ended with `H'`. -/
inductive Ordered : List L → Code L → List L → Prop
  | skip {H : List L} : Ordered H .skip H
  | wait {H : List L} {l : L} (hl : mutex l = true) (h : ∀ m ∈ H, rank m < rank l) :
    Ordered H (.wait l) (l :: H)
  | waitOther {l : L} (hl : mutex l = false) : Ordered [] (.wait l) []
  | post {H : List L} {l : L} (hl : mutex l = true) (h : l ∈ H) : Ordered H (.post l) (H.erase l)
  | postOther {H : List L} {l : L} (hl : mutex l = false) : Ordered H (.post l) H
  | tryWait {H : List L} {l : L} {a : Code L} (hl : mutex l = true) (ha : Ordered (l :: H) a H) :
    Ordered H (.tryWait l a) H
  | seq {H H₁ H₂ : List L} {a b : Code L} (ha : Ordered H a H₁) (hb : Ordered H₁ b H₂) :
    Ordered H (.seq a b) H₂
  | choice {H H' : List L} {a b : Code L} (ha : Ordered H a H') (hb : Ordered H b H') :
    Ordered H (.choice a b) H'
  | any {H H' : List L} {n : ℕ} {a : Fin n → Code L} (ha : ∀ i, Ordered H (a i) H') :
    Ordered H (.any a) H'
  | loop {H : List L} {a : Code L} (ha : Ordered H a H) : Ordered H (.loop a) H

/-- What is left of a process that keeps the discipline: in the end it holds nothing. -/
inductive OrderedStack : List L → List (Code L) → Prop
  | nil : OrderedStack [] []
  | cons {H H' : List L} {a : Code L} {k : List (Code L)} (ha : Ordered mutex rank H a H')
    (hk : OrderedStack H' k) : OrderedStack H (a :: k)

/-- A process keeps the discipline, or was killed. -/
def Proc.Orderly (p : Proc L) : Prop := p.code = [] ∨ OrderedStack mutex rank p.held p.code

variable {mutex rank}

namespace Ordered

theorem nil {H : List L} : Ordered mutex rank H (.block []) H := .skip

theorem cons {H H₁ H₂ : List L} {a : Code L} {as : List (Code L)} (ha : Ordered mutex rank H a H₁)
    (has : Ordered mutex rank H₁ (.block as) H₂) : Ordered mutex rank H (.block (a :: as)) H₂ :=
  .seq ha has

/-- A section that holds `l`. -/
theorem lock {H H' : List L} {l : L} {as : List (Code L)} (hl : mutex l = true)
    (h : ∀ m ∈ H, rank m < rank l) (has : Ordered mutex rank (l :: H) (.block as) H') :
    Ordered mutex rank H (.block (.wait l :: as)) H' :=
  cons (wait hl h) has

/-- Its end. -/
theorem unlock {H H' : List L} {l : L} {as : List (Code L)} (hl : mutex l = true)
    (has : Ordered mutex rank H (.block as) H') :
    Ordered mutex rank (l :: H) (.block (.post l :: as)) H' := by
  have hpost : Ordered mutex rank (l :: H) (.post l) ((l :: H).erase l) :=
    .post hl List.mem_cons_self
  rw [List.erase_cons_head] at hpost
  exact cons hpost has

theorem forEach {H : List L} {n : ℕ} {a : Fin n → Code L} (ha : ∀ i, Ordered mutex rank H (a i) H) :
    Ordered mutex rank H (.forEach a) H := by
  have hblock : ∀ as : List (Code L), (∀ b ∈ as, Ordered mutex rank H b H) →
      Ordered mutex rank H (.block as) H := by
    intro as
    induction as with
    | nil => exact fun _ => nil
    | cons b as ih =>
      intro has
      exact cons (has b List.mem_cons_self) (ih fun c hc => has c (List.mem_cons_of_mem _ hc))
  refine hblock _ fun b hb => ?_
  obtain ⟨i, rfl⟩ := List.mem_ofFn.mp hb
  exact ha i

end Ordered

/-! ## A step keeps the discipline -/

variable [DecidableEq ι]

theorem OrderedStack.step {sem sem' : L → ℕ} {p p' : Proc L} {c : ℕ}
    (h : OrderedStack mutex rank p.held p.code) (hs : p.step mutex sem c = some (sem', p')) :
    OrderedStack mutex rank p'.held p'.code := by
  obtain ⟨code, held⟩ := p
  cases h with
  | nil => cases hs
  | cons ha hk =>
    cases ha with
    | skip =>
      obtain ⟨-, rfl⟩ := Prod.mk.inj (Option.some.inj hs)
      exact hk
    | wait hl h =>
      simp only [Proc.step] at hs
      split_ifs at hs
      obtain ⟨-, rfl⟩ := Prod.mk.inj (Option.some.inj hs)
      simp only [hold, hl, if_true]
      exact hk
    | waitOther hl =>
      simp only [Proc.step] at hs
      split_ifs at hs
      obtain ⟨-, rfl⟩ := Prod.mk.inj (Option.some.inj hs)
      simp only [hold, hl, Bool.false_eq_true, if_false]
      exact hk
    | post hl h =>
      obtain ⟨-, rfl⟩ := Prod.mk.inj (Option.some.inj hs)
      simp only [release, hl, if_true]
      exact hk
    | postOther hl =>
      obtain ⟨-, rfl⟩ := Prod.mk.inj (Option.some.inj hs)
      simp only [release, hl, Bool.false_eq_true, if_false]
      exact hk
    | tryWait hl ha =>
      simp only [Proc.step] at hs
      split_ifs at hs
      · obtain ⟨-, rfl⟩ := Prod.mk.inj (Option.some.inj hs)
        simp only [hold, hl, if_true]
        exact .cons ha hk
      · obtain ⟨-, rfl⟩ := Prod.mk.inj (Option.some.inj hs)
        exact hk
    | seq ha hb =>
      obtain ⟨-, rfl⟩ := Prod.mk.inj (Option.some.inj hs)
      exact .cons ha (.cons hb hk)
    | choice ha hb =>
      obtain ⟨-, rfl⟩ := Prod.mk.inj (Option.some.inj hs)
      dsimp only
      split_ifs
      · exact .cons ha hk
      · exact .cons hb hk
    | any ha =>
      simp only [Proc.step] at hs
      split_ifs at hs with hc
      obtain ⟨-, rfl⟩ := Prod.mk.inj (Option.some.inj hs)
      exact .cons (ha ⟨c, hc⟩) hk
    | loop ha =>
      obtain ⟨-, rfl⟩ := Prod.mk.inj (Option.some.inj hs)
      dsimp only
      split_ifs
      · exact hk
      · exact .cons ha (.cons (.loop ha) hk)

/-- What a step does to the semaphores and to what its process holds. -/
inductive Move (mutex : L → Bool) (sem : L → ℕ) (H : List L) : (L → ℕ) → List L → Prop
  | keep : Move mutex sem H sem H
  | take (l : L) (h : 0 < sem l) :
    Move mutex sem H (Function.update sem l (sem l - 1)) (hold mutex l H)
  | give (l : L) (h : mutex l = true → l ∈ H) :
    Move mutex sem H (Function.update sem l (sem l + 1)) (release mutex l H)

theorem OrderedStack.move {sem sem' : L → ℕ} {p p' : Proc L} {c : ℕ}
    (h : OrderedStack mutex rank p.held p.code) (hs : p.step mutex sem c = some (sem', p')) :
    Move mutex sem p.held sem' p'.held := by
  obtain ⟨code, held⟩ := p
  cases h with
  | nil => cases hs
  | cons ha hk =>
    cases ha with
    | wait hl h =>
      simp only [Proc.step] at hs
      split_ifs at hs with hpos
      obtain ⟨rfl, rfl⟩ := Prod.mk.inj (Option.some.inj hs)
      exact .take _ hpos
    | waitOther hl =>
      simp only [Proc.step] at hs
      split_ifs at hs with hpos
      obtain ⟨rfl, rfl⟩ := Prod.mk.inj (Option.some.inj hs)
      exact .take _ hpos
    | post hl h =>
      obtain ⟨rfl, rfl⟩ := Prod.mk.inj (Option.some.inj hs)
      exact .give _ fun _ => h
    | postOther hl =>
      obtain ⟨rfl, rfl⟩ := Prod.mk.inj (Option.some.inj hs)
      exact .give _ fun hmutex => by
        rw [hl] at hmutex
        cases hmutex
    | tryWait hl ha =>
      simp only [Proc.step] at hs
      split_ifs at hs with hpos
      · obtain ⟨rfl, rfl⟩ := Prod.mk.inj (Option.some.inj hs)
        exact .take _ hpos
      · obtain ⟨rfl, rfl⟩ := Prod.mk.inj (Option.some.inj hs)
        exact .keep
    | any ha =>
      simp only [Proc.step] at hs
      split_ifs at hs with hc
      obtain ⟨rfl, rfl⟩ := Prod.mk.inj (Option.some.inj hs)
      exact .keep
    | _ =>
      obtain ⟨rfl, rfl⟩ := Prod.mk.inj (Option.some.inj hs)
      exact .keep

/-- **What holds of all processes** after a step. -/
theorem orderly_step {s s' : State ι L} {a : Act ι} (h : ∀ i, (s.proc i).Orderly mutex rank)
    (hs : step mutex s a = some s') (i : ι) : (s'.proc i).Orderly mutex rank := by
  cases a with
  | run j c =>
    obtain ⟨⟨sem', p'⟩, hstep, rfl⟩ := Option.map_eq_some_iff.mp hs
    by_cases hij : i = j
    · subst hij
      dsimp only
      rw [Function.update_self]
      rcases h i with hnil | hstack
      · rw [Proc.step, hnil] at hstep
        cases hstep
      · exact .inr (hstack.step hstep)
    · dsimp only
      rw [Function.update_of_ne hij]
      exact h i
  | kill j =>
    obtain rfl := Option.some.inj hs
    by_cases hij : i = j
    · subst hij
      exact .inl (by simp)
    · dsimp only
      rw [Function.update_of_ne hij]
      exact h i

variable {value : L → ℕ} {code : ι → Code L} {s : State ι L}

theorem orderly_reachable (hcode : ∀ i, Ordered mutex rank [] (code i) [])
    (h : (system mutex value code).Reachable s) : ∀ i, (s.proc i).Orderly mutex rank :=
  h.induct (fun i => .inr (.cons (hcode i) .nil)) fun _ _ _ => orderly_step

/-- **What a process waits for is above what it holds**; under a mutex it waits for mutexes only. -/
theorem Proc.Orderly.rank_lt {p : Proc L} (h : p.Orderly mutex rank) {l : L}
    (hwait : p.WaitsFor l) : ∀ m ∈ p.held, mutex l = true ∧ rank m < rank l := by
  obtain ⟨code, held⟩ := p
  obtain ⟨k, rfl⟩ := hwait
  rcases h with hnil | hstack
  · cases hnil
  · cases hstack with
    | cons ha _ =>
      cases ha with
      | wait hl h => exact fun m hm => ⟨hl, h m hm⟩
      | waitOther hl => exact fun m hm => absurd hm List.not_mem_nil

end Discipline

/-! ## What the discipline gives -/

section Freedom

variable [DecidableEq L] [DecidableEq ι] [Preorder R] {mutex : L → Bool} {rank : L → R}
  {value : L → ℕ} {code : ι → Code L} {s : State ι L}

/-- **No process waits for what it holds.** -/
theorem Ordered.not_waits_held (hcode : ∀ i, Ordered mutex rank [] (code i) [])
    (h : (system mutex value code).Reachable s) (i : ι) (l : L) (hwait : (s.proc i).WaitsFor l) :
    l ∉ (s.proc i).held := by
  intro hheld
  exact lt_irrefl _ ((orderly_reachable hcode h i).rank_lt hwait l hheld).2

/-- **No deadlock**: along the processes of a deadlock the ranks rise for ever. -/
theorem Ordered.no_deadlock [WellFoundedGT R] (hcode : ∀ i, Ordered mutex rank [] (code i) [])
    (h : (system mutex value code).Reachable s) (S : Set ι) : ¬ s.Deadlock mutex S := by
  intro hdead
  have hnone : ∀ r : R, ∀ l, rank l = r → ∀ i ∈ S, l ∉ (s.proc i).held := by
    intro r
    induction r using WellFoundedGT.induction with
    | ind r ih =>
      rintro l rfl i hi hheld
      obtain ⟨m, hm, hwait, j, hj, hmheld⟩ := hdead.waits i hi
      have hlt := ((orderly_reachable hcode h i).rank_lt hwait l hheld).2
      exact ih (rank m) hlt m rfl j hj hmheld
  obtain ⟨i, hi⟩ := hdead.nonempty
  obtain ⟨l, -, -, j, hj, hheld⟩ := hdead.waits i hi
  exact hnone (rank l) l rfl j hj hheld

/-- A move takes a mutex that is free, or gives back one that is held. -/
theorem State.Exclusive.of_move {l : L} {i : ι} {sem' : L → ℕ} {p' : Proc L} (hl : mutex l = true)
    (h : s.Exclusive l) (hmove : Move mutex s.sem (s.proc i).held sem' p'.held) :
    State.Exclusive { sem := sem', proc := Function.update s.proc i p' } l := by
  -- what the others hold is as before
  have hsame : p'.held.count l = (s.proc i).held.count l →
      ∀ j, ((Function.update s.proc i p') j).held.count l = (s.proc j).held.count l := by
    intro hcount j
    by_cases hj : j = i
    · subst hj
      rw [Function.update_self, hcount]
    · rw [Function.update_of_ne hj]
  generalize hheld : p'.held = H' at hmove hsame
  cases hmove with
  | keep => exact h.congr rfl (hsame rfl)
  | take m hpos =>
    by_cases hm : l = m
    · subst hm
      rcases h with ⟨hone, hfree⟩ | ⟨hzero, -⟩
      · refine .inr ⟨?_, i, ?_, fun j hj => ?_⟩
        · simp [hone]
        · simp [hheld, hold, hl, hfree i]
        · simp [Function.update_of_ne hj, hfree j]
      · rw [hzero] at hpos
        exact absurd hpos (lt_irrefl 0)
    · refine h.congr (Function.update_of_ne hm _ _) (hsame ?_)
      unfold hold
      split_ifs
      · exact List.count_cons_of_ne (Ne.symm hm)
      · rfl
  | give m hmem =>
    by_cases hm : l = m
    · subst hm
      have hpos := List.count_pos_iff.mpr (hmem hl)
      rcases h with ⟨-, hfree⟩ | ⟨hzero, j, hj, hothers⟩
      · rw [hfree i] at hpos
        exact absurd hpos (lt_irrefl 0)
      · obtain rfl : i = j := by
          by_contra hij
          rw [hothers i hij] at hpos
          exact absurd hpos (lt_irrefl 0)
        refine .inl ⟨?_, fun k => ?_⟩
        · simp [hzero]
        · by_cases hk : k = i
          · subst hk
            simp [hheld, release, hl, hj]
          · simp [Function.update_of_ne hk, hothers k hk]
    · refine h.congr (Function.update_of_ne hm _ _) (hsame ?_)
      unfold release
      split_ifs
      · exact List.count_erase_of_ne hm
      · rfl

/-- **A mutex is free, or held by one process.** -/
theorem Ordered.exclusive (hcode : ∀ i, Ordered mutex rank [] (code i) [])
    (h : (system mutex value code).Reachable s) {l : L} (hl : mutex l = true) (hone : value l = 1) :
    s.Exclusive l := by
  refine h.induct_reachable (I := fun s => s.Exclusive l) (.inl ⟨hone, fun _ => rfl⟩)
    fun s a s' hreach hexcl hs => ?_
  cases a with
  | run i c =>
    obtain ⟨⟨sem', p'⟩, hstep, rfl⟩ := Option.map_eq_some_iff.mp hs
    rcases orderly_reachable hcode hreach i with hnil | hstack
    · rw [Proc.step, hnil] at hstep
      cases hstep
    · exact hexcl.of_move hl (hstack.move hstep)
  | kill i =>
    obtain rfl := Option.some.inj hs
    refine hexcl.congr rfl fun j => ?_
    by_cases hj : j = i
    · subst hj
      simp
    · simp [Function.update_of_ne hj]

end Freedom

end Cse344.Lib.Locks
