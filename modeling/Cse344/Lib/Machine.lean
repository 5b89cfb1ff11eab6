import Mathlib.Data.List.Basic
import Mathlib.Data.List.Induction
import Mathlib.Logic.Basic
import Mathlib.Logic.Relation
import Mathlib.Data.Nat.Notation

/-!
# Machines: interleavings of atomic steps

A `Machine` is an initial state and a partial step function: `step s a` is the state after the
atomic action `a`, and `none` when `a` cannot happen in `s` (its process is blocked, or is at
another point of its program). An interleaving of processes is a list of actions, and a run is one
the machine accepts.

* `Reachable`: some run ends in the state; `ReachableIf ok`: some run does whose every step is taken
  in a state and with an action that satisfy `ok`.
* `AllSteps` and `AllStates` say of a run what holds of all its steps, and of all its states;
  `trace` is what an observer sees of it.
* `withGhost`: a machine with a variable that only the proofs look at.

Results:
* **`Reachable.induct`**, `Reachable.induct_reachable`, `ReachableIf.induct`: what holds initially
  and survives every step holds of every state reached.
* `runs_induct`: the rule for what relates a run to the state reached; `runs_trace_induct`: that for
  what an observer saw on the way.
* **`AllSteps.allStates`**: what the steps of a run keep holds of all its states.
* **`AllSteps.runs_of_agree`**: up to the first bad step, two machines do the same.
* **`allStates_iff`**: when a step keeps `P` exactly if it satisfies `ok`, a run stays in `P`
  exactly if all its steps satisfy `ok`; **`last_iff_allSteps`**: the same for where the run ends,
  when no step leads back to `P`.
* **`allSteps_iff`**: when a step satisfies `ok` exactly if it satisfies `good`, so do all steps of
  a run; `AllSteps.imp`, `ReachableIf.mono`: when a step that satisfies `ok` satisfies `good`.
* **`count_le_one`**: what turns a flag on that stays on happens at most once; `count_add_le`: what
  raises a measure that never falls happens at most as often as the measure allows;
  `count_add_le_of_lowers`: so does what lowers one that never rises.
* **`runs_reachable`**: a list of actions the machine accepts, computed, is a reachable state.
* **`exists_stuck`**: when every step lowers a measure, some run cannot be continued.
* **`exists_within`**: when every step lowers a measure until something is done, it is done in time;
  **`exists_done`**: when some step does, some run gets it done.
* `Reachable.map`, **`ReachableIf.map`**: what a machine does inside a larger one, which takes steps
  of its own besides.

Out of scope: infinite runs, and with them fairness; that something happens is said by a measure.
-/

namespace Cse344.Lib

/-- A system of processes that take atomic steps. -/
structure Machine (S A : Type*) where
  init : S
  step : S → A → Option S

namespace Machine

variable {S A : Type*} (M : Machine S A)

/-- One step, by an action that satisfies `ok` in the state it is taken in. -/
def StepIf (ok : S → A → Prop) (s s' : S) : Prop := ∃ a, ok s a ∧ M.step s a = some s'

/-- One step. -/
def Step (s s' : S) : Prop := ∃ a, M.step s a = some s'

/-- Zero or more steps. -/
def Steps : S → S → Prop := Relation.ReflTransGen M.Step

/-- Some run ends in `s`. -/
def Reachable (s : S) : Prop := M.Steps M.init s

/-- Some run whose every step satisfies `ok` ends in `s`. -/
def ReachableIf (ok : S → A → Prop) (s : S) : Prop :=
  Relation.ReflTransGen (M.StepIf ok) M.init s

/-- No action can happen. -/
def Stuck (s : S) : Prop := ∀ a, M.step s a = none

/-- The state after the actions `as`, `none` when one of them cannot happen. -/
def runs : S → List A → Option S
  | s, [] => some s
  | s, a :: as => (M.step s a).bind fun s' => runs s' as

/-- Runs have bounded length. -/
def Terminates : Prop := ∃ N, ∀ as s, M.runs M.init as = some s → as.length ≤ N

/-- The number of steps of the run `as` from `s` that turn `p` on. -/
def rises (p : S → Bool) : S → List A → ℕ
  | _, [] => 0
  | s, a :: as =>
    match M.step s a with
    | none => 0
    | some s' => (if !p s && p s' then 1 else 0) + rises p s' as

/-- Every step of the run `as` from `s` satisfies `ok`. -/
def AllSteps (ok : S → A → Prop) : S → List A → Prop
  | _, [] => True
  | s, a :: as => ok s a ∧ ∀ s', M.step s a = some s' → AllSteps ok s' as

/-- Every state of the run `as` from `s` satisfies `P`. -/
def AllStates (P : S → Prop) : S → List A → Prop
  | s, [] => P s
  | s, a :: as => P s ∧ ∀ s', M.step s a = some s' → AllStates P s' as

/-- The number of steps of the run `as` from `s` that satisfy `p`. -/
def count (p : S → A → Bool) : S → List A → ℕ
  | _, [] => 0
  | s, a :: as =>
    match M.step s a with
    | none => 0
    | some s' => (if p s a then 1 else 0) + count p s' as

/-- What the steps of the run `as` from `s` show to an observer. -/
def trace {β : Type*} (obs : S → A → List β) : S → List A → List β
  | _, [] => []
  | s, a :: as =>
    match M.step s a with
    | none => []
    | some s' => obs s a ++ trace obs s' as

variable {M}

/-- The invariant rule, where what is known of every reachable state may be used in a step. -/
theorem Reachable.induct_reachable {I : S → Prop} {s : S} (h : M.Reachable s) (h0 : I M.init)
    (hs : ∀ s a s', M.Reachable s → I s → M.step s a = some s' → I s') : I s := by
  induction h with
  | refl => exact h0
  | tail hreach hst ih =>
    obtain ⟨a, ha⟩ := hst
    exact hs _ a _ hreach ih ha

/-- **The invariant rule.** -/
theorem Reachable.induct {I : S → Prop} {s : S} (h : M.Reachable s) (h0 : I M.init)
    (hs : ∀ s a s', I s → M.step s a = some s' → I s') : I s :=
  h.induct_reachable h0 fun s a s' _ => hs s a s'

/-- The invariant rule for runs whose steps satisfy `ok`, where what is known of the states such
runs reach may be used in a step. -/
theorem ReachableIf.induct_reachable {ok : S → A → Prop} {I : S → Prop} {s : S}
    (h : M.ReachableIf ok s) (h0 : I M.init)
    (hs : ∀ s a s', M.ReachableIf ok s → I s → ok s a → M.step s a = some s' → I s') : I s := by
  induction h with
  | refl => exact h0
  | tail hreach hst ih =>
    obtain ⟨a, hok, ha⟩ := hst
    exact hs _ a _ hreach ih hok ha

/-- The invariant rule for runs whose steps satisfy `ok`. -/
theorem ReachableIf.induct {ok : S → A → Prop} {I : S → Prop} {s : S} (h : M.ReachableIf ok s)
    (h0 : I M.init) (hs : ∀ s a s', I s → ok s a → M.step s a = some s' → I s') : I s := by
  induction h with
  | refl => exact h0
  | tail _ hst ih =>
    obtain ⟨a, hok, ha⟩ := hst
    exact hs _ a _ ih hok ha

theorem Reachable.init : M.Reachable M.init := Relation.ReflTransGen.refl

/-- What no step turns off is turned on at most once. -/
theorem rises_le_one {p : S → Bool}
    (hp : ∀ s a s', M.step s a = some s' → p s = true → p s' = true) :
    ∀ (as : List A) (s : S), M.rises p s as ≤ if p s = true then 0 else 1
  | [], _ => Nat.zero_le _
  | a :: as, s => by
    rw [rises]
    cases hs : M.step s a with
    | none => exact Nat.zero_le _
    | some s' =>
      have ih := rises_le_one hp as s'
      cases h : p s with
      | true =>
        have h' : p s' = true := hp s a s' hs h
        simpa [h, h'] using ih
      | false =>
        cases h' : p s' with
        | true =>
          have hrest : M.rises p s' as = 0 := by simpa [h'] using ih
          simp [h', hrest]
        | false => simpa [h'] using ih

/-- **Once**: steps that turn `q` on, where no step turns `q` off, happen at most once. `J` is an
invariant of the run. -/
theorem count_le_one {J : S → Prop} {p : S → A → Bool} {q : S → Bool}
    (hJ : ∀ s a s', J s → M.step s a = some s' → J s')
    (hq : ∀ s a s', J s → M.step s a = some s' → q s = true → q s' = true)
    (hp : ∀ s a s', J s → M.step s a = some s' → p s a = true → q s = false ∧ q s' = true) :
    ∀ (as : List A) (s : S), J s → M.count p s as ≤ if q s = true then 0 else 1
  | [], _, _ => Nat.zero_le _
  | a :: as, s, hJs => by
    rw [count]
    cases hs : M.step s a with
    | none => exact Nat.zero_le _
    | some s' =>
      have ih := count_le_one hJ hq hp as s' (hJ s a s' hJs hs)
      cases h : p s a with
      | true =>
        obtain ⟨hoff, hon⟩ := hp s a s' hJs hs h
        have hrest : M.count p s' as = 0 := by simpa [hon] using ih
        simp [hoff, hrest]
      | false =>
        cases hon : q s with
        | true =>
          have hon' : q s' = true := hq s a s' hJs hs hon
          simpa [hon'] using ih
        | false =>
          have hle : M.count p s' as ≤ 1 := Nat.le_trans ih (by split <;> omega)
          simpa using hle

/-- Where every counted step raises `μ` and no step lowers it, `μ` bounds the count. -/
theorem count_add_le {J : S → Prop} {p : S → A → Bool} (μ : S → ℕ)
    (hJ : ∀ s a s', J s → M.step s a = some s' → J s')
    (hstep : ∀ s a s', J s → M.step s a = some s' → (if p s a then 1 else 0) + μ s ≤ μ s') :
    ∀ {as : List A} {s t : S}, M.runs s as = some t → J s → M.count p s as + μ s ≤ μ t
  | [], s, t, h, _ => by
    obtain rfl := Option.some.inj h
    exact Nat.le_of_eq (Nat.zero_add _)
  | a :: as, s, t, h, hs => by
    rw [runs] at h
    rw [count]
    cases ha : M.step s a with
    | none => rw [ha] at h; cases h
    | some s' =>
      rw [ha] at h
      have hrest := count_add_le μ hJ hstep h (hJ s a s' hs ha)
      have hone := hstep s a s' hs ha
      dsimp only
      omega

/-- Where every counted step lowers `μ` and no step raises it, what `μ` loses bounds the count. -/
theorem count_add_le_of_lowers {J : S → Prop} {p : S → A → Bool} (μ : S → ℕ)
    (hJ : ∀ s a s', J s → M.step s a = some s' → J s')
    (hstep : ∀ s a s', J s → M.step s a = some s' → (if p s a then 1 else 0) + μ s' ≤ μ s) :
    ∀ {as : List A} {s t : S}, M.runs s as = some t → J s → M.count p s as + μ t ≤ μ s
  | [], s, t, h, _ => by
    obtain rfl := Option.some.inj h
    exact Nat.le_of_eq (Nat.zero_add _)
  | a :: as, s, t, h, hs => by
    rw [runs] at h
    rw [count]
    cases ha : M.step s a with
    | none => rw [ha] at h; cases h
    | some s' =>
      rw [ha] at h
      have hrest := count_add_le_of_lowers μ hJ hstep h (hJ s a s' hs ha)
      have hone := hstep s a s' hs ha
      dsimp only
      omega

theorem AllStates.head {P : S → Prop} {s : S} : ∀ {as : List A}, M.AllStates P s as → P s
  | [], h => h
  | _ :: _, h => h.1

theorem AllStates.last {P : S → Prop} : ∀ {as : List A} {s t : S}, M.AllStates P s as →
    M.runs s as = some t → P t
  | [], _, _, h, ht => by
    obtain rfl := Option.some.inj ht
    exact h
  | a :: as, _, _, h, ht => by
    obtain ⟨s', hs, ht⟩ := Option.bind_eq_some_iff.mp ht
    exact (h.2 s' hs).last ht

/-- **The invariant of a run**: what steps that satisfy `ok` keep holds of all states of a run whose
steps all do. -/
theorem AllSteps.allStates {ok : S → A → Prop} {I P : S → Prop}
    (hs : ∀ s a s', I s → ok s a → M.step s a = some s' → I s') (hP : ∀ s, I s → P s) :
    ∀ {as : List A} {s : S}, I s → M.AllSteps ok s as → M.AllStates P s as
  | [], s, hI, _ => hP s hI
  | a :: _, s, hI, hall =>
    ⟨hP s hI, fun s' h => AllSteps.allStates hs hP (hs s a s' hI hall.1 h) (hall.2 s' h)⟩

/-- What the steps of a run that satisfy `ok` satisfy besides, with an invariant of such runs. -/
theorem AllSteps.imp {ok good : S → A → Prop} {I : S → Prop}
    (hs : ∀ s a s', I s → ok s a → M.step s a = some s' → I s')
    (hg : ∀ s a, I s → ok s a → good s a) :
    ∀ {as : List A} {s : S}, I s → M.AllSteps ok s as → M.AllSteps good s as
  | [], _, _, _ => trivial
  | a :: _, s, hI, hall =>
    ⟨hg s a hI hall.1, fun s' h => AllSteps.imp hs hg (hs s a s' hI hall.1 h) (hall.2 s' h)⟩

/-- **Up to the first bad step**, two machines do the same: a run all of whose steps satisfy `ok` is
a run of a machine that takes these steps too, and keeps what they keep. -/
theorem AllSteps.runs_of_agree {N : Machine S A} {ok : S → A → Prop} {I : S → Prop}
    (h : ∀ s a s', I s → ok s a → M.step s a = some s' → N.step s a = some s' ∧ I s') :
    ∀ {as : List A} {s t : S}, I s → M.AllSteps ok s as → M.runs s as = some t →
      N.runs s as = some t ∧ I t
  | [], _, _, hI, _, ht => ⟨ht, Option.some.inj ht ▸ hI⟩
  | a :: as, s, t, hI, hall, ht => by
    obtain ⟨s', hs, ht⟩ := Option.bind_eq_some_iff.mp ht
    obtain ⟨hs', hI'⟩ := h s a s' hI hall.1 hs
    obtain ⟨ht', hIt⟩ := AllSteps.runs_of_agree h hI' (hall.2 s' hs) ht
    exact ⟨Option.bind_eq_some_iff.mpr ⟨s', hs', ht'⟩, hIt⟩

/-- Actions that satisfy `p`, in whatever states they are taken. -/
theorem AllSteps.of_forall {p : A → Prop} : ∀ {as : List A} {s : S}, (∀ a ∈ as, p a) →
    M.AllSteps (fun _ a => p a) s as
  | [], _, _ => trivial
  | _ :: _, _, h => ⟨h _ List.mem_cons_self,
      fun _ _ => AllSteps.of_forall fun a ha => h a (List.mem_cons_of_mem _ ha)⟩

/-- **The exact step condition**: when, inside `P` and an invariant `J`, a step stays in `P` exactly
if it satisfies `ok`, a run stays in `P` exactly if all its steps satisfy `ok`. -/
theorem allStates_iff {ok : S → A → Prop} {P J : S → Prop}
    (hJ : ∀ s a s', J s → M.step s a = some s' → J s')
    (hP : ∀ s a s', J s → P s → M.step s a = some s' → (P s' ↔ ok s a)) :
    ∀ {as : List A} {s t : S}, J s → P s → M.runs s as = some t →
      (M.AllStates P s as ↔ M.AllSteps ok s as)
  | [], _, _, _, hPs, _ => ⟨fun _ => trivial, fun _ => hPs⟩
  | a :: as, s, t, hJs, hPs, ht => by
    obtain ⟨s', hs, ht⟩ := Option.bind_eq_some_iff.mp ht
    have hstep := hP s a s' hJs hPs hs
    constructor
    · intro hall
      have hall' : M.AllStates P s' as := hall.2 s' hs
      refine ⟨hstep.mp hall'.head, fun s'' hs'' => ?_⟩
      obtain rfl := Option.some.inj (hs.symm.trans hs'')
      exact (allStates_iff hJ hP (hJ s a _ hJs hs) hall'.head ht).mp hall'
    · intro hall
      refine ⟨hPs, fun s'' hs'' => ?_⟩
      obtain rfl := Option.some.inj (hs.symm.trans hs'')
      exact (allStates_iff hJ hP (hJ s a _ hJs hs) (hstep.mpr hall.1) ht).mpr (hall.2 _ hs)

/-- **The exact run condition**: when, inside an invariant `J`, a step leads to `P` exactly from `P`
and if it satisfies `ok`, a run leads to `P` exactly from `P` and if all its steps satisfy `ok`. -/
theorem last_iff_allSteps {ok : S → A → Prop} {P J : S → Prop}
    (hJ : ∀ s a s', J s → M.step s a = some s' → J s')
    (hP : ∀ s a s', J s → M.step s a = some s' → (P s' ↔ P s ∧ ok s a)) :
    ∀ {as : List A} {s t : S}, J s → M.runs s as = some t → (P t ↔ P s ∧ M.AllSteps ok s as)
  | [], s, t, _, ht => by
    obtain rfl := Option.some.inj ht
    exact ⟨fun h => ⟨h, trivial⟩, fun h => h.1⟩
  | a :: as, s, t, hJs, ht => by
    obtain ⟨s', hs, ht⟩ := Option.bind_eq_some_iff.mp ht
    have hrest := last_iff_allSteps hJ hP (hJ s a s' hJs hs) ht
    have hstep := hP s a s' hJs hs
    constructor
    · intro h
      obtain ⟨hPs', hall⟩ := hrest.mp h
      obtain ⟨hPs, hok⟩ := hstep.mp hPs'
      refine ⟨hPs, hok, fun s'' hs'' => ?_⟩
      obtain rfl := Option.some.inj (hs.symm.trans hs'')
      exact hall
    · rintro ⟨hPs, hok, hall⟩
      exact hrest.mpr ⟨hstep.mpr ⟨hPs, hok⟩, hall s' hs⟩

/-- **The exact condition of every step**: when each step satisfies `ok` exactly if it satisfies
`good`, and those that do keep the invariant `J`, the steps of a run all satisfy `ok` exactly if
they all satisfy `good`. -/
theorem allSteps_iff {ok good : S → A → Prop} {J : S → Prop}
    (hJ : ∀ s a s', J s → good s a → M.step s a = some s' → J s')
    (h : ∀ s a s', J s → M.step s a = some s' → (ok s a ↔ good s a)) :
    ∀ {as : List A} {s t : S}, J s → M.runs s as = some t →
      (M.AllSteps ok s as ↔ M.AllSteps good s as)
  | [], _, _, _, _ => Iff.rfl
  | a :: as, s, t, hJs, ht => by
    obtain ⟨s', hs, ht⟩ := Option.bind_eq_some_iff.mp ht
    have hstep := h s a s' hJs hs
    constructor
    · rintro ⟨hok, hall⟩
      have hgood := hstep.mp hok
      refine ⟨hgood, fun s'' hs'' => ?_⟩
      obtain rfl := Option.some.inj (hs.symm.trans hs'')
      exact (allSteps_iff hJ h (hJ s a _ hJs hgood hs) ht).mp (hall _ hs)
    · rintro ⟨hgood, hall⟩
      refine ⟨hstep.mpr hgood, fun s'' hs'' => ?_⟩
      obtain rfl := Option.some.inj (hs.symm.trans hs'')
      exact (allSteps_iff hJ h (hJ s a _ hJs hgood hs) ht).mpr (hall _ hs)

theorem runs_append : ∀ (as bs : List A) (s : S),
    M.runs s (as ++ bs) = (M.runs s as).bind fun t => M.runs t bs
  | [], _, _ => rfl
  | a :: as, bs, s => by
    rw [List.cons_append, runs, runs, Option.bind_assoc]
    exact congrArg _ (funext fun s' => runs_append as bs s')

/-- The rule for what relates a run to the state it ends in. -/
theorem runs_induct {I : List A → S → Prop} (h0 : I [] M.init)
    (hs : ∀ as s a s', M.runs M.init as = some s → I as s → M.step s a = some s' →
      I (as ++ [a]) s') {as : List A} {s : S} (h : M.runs M.init as = some s) : I as s := by
  induction as using List.reverseRecOn generalizing s with
  | nil =>
    obtain rfl := Option.some.inj h
    exact h0
  | append_singleton as a ih =>
    rw [runs_append] at h
    obtain ⟨t, ht, hst⟩ := Option.bind_eq_some_iff.mp h
    obtain ⟨s', hs', heq⟩ := Option.bind_eq_some_iff.mp hst
    obtain rfl := Option.some.inj heq
    exact hs as t a s' ht (ih ht) hs'

/-- One more step. -/
theorem AllStates.concat {P : S → Prop} {a : A} {t' : S} : ∀ {as : List A} {s t : S},
    M.AllStates P s as → M.runs s as = some t → M.step t a = some t' → P t' →
      M.AllStates P s (as ++ [a])
  | [], s, t, h, ht, hstep, hP => by
    obtain rfl := Option.some.inj ht
    refine ⟨h, fun s' hs => ?_⟩
    obtain rfl := Option.some.inj (hstep.symm.trans hs)
    exact hP
  | b :: as, s, t, h, ht, hstep, hP => by
    obtain ⟨s', hs, ht⟩ := Option.bind_eq_some_iff.mp ht
    refine ⟨h.1, fun s'' hs' => ?_⟩
    obtain rfl := Option.some.inj (hs.symm.trans hs')
    exact (h.2 _ hs).concat ht hstep hP

theorem ReachableIf.reachable {ok : S → A → Prop} {s : S} (h : M.ReachableIf ok s) :
    M.Reachable s :=
  Relation.ReflTransGen.mono (fun _ _ ⟨a, _, ha⟩ => ⟨a, ha⟩) _ _ h

/-- A run whose steps satisfy a stronger condition. -/
theorem ReachableIf.mono {ok good : S → A → Prop} {s : S} (h : M.ReachableIf ok s)
    (hg : ∀ s a, ok s a → good s a) : M.ReachableIf good s :=
  Relation.ReflTransGen.mono (fun t _ ⟨a, hok, ha⟩ => ⟨a, hg t a hok, ha⟩) _ _ h

theorem steps_of_runs : ∀ {as : List A} {s t : S}, M.runs s as = some t → M.Steps s t
  | [], _, _, h => by
    obtain rfl := Option.some.inj h
    exact Relation.ReflTransGen.refl
  | a :: as, s, t, h => by
    obtain ⟨s', hs, ht⟩ := Option.bind_eq_some_iff.mp h
    exact Relation.ReflTransGen.head ⟨a, hs⟩ (steps_of_runs ht)

/-- **A computed run ends in a reachable state.** -/
theorem runs_reachable {as : List A} {s : S} (h : M.runs M.init as = some s) : M.Reachable s :=
  steps_of_runs h

theorem Reachable.step {s s' : S} {a : A} (h : M.Reachable s) (hs : M.step s a = some s') :
    M.Reachable s' :=
  Relation.ReflTransGen.tail h ⟨a, hs⟩

/-- The rule for what relates the state reached and what an observer saw of the run to it. -/
theorem runs_trace_induct {β : Type*} {obs : S → A → List β} {I : List β → S → Prop}
    (hs : ∀ l s a s', M.Reachable s → I l s → M.step s a = some s' → I (l ++ obs s a) s') :
    ∀ {as : List A} {l : List β} {s t : S}, M.Reachable s → I l s → M.runs s as = some t →
      I (l ++ M.trace obs s as) t
  | [], l, s, t, _, hI, ht => by
    obtain rfl := Option.some.inj ht
    rw [trace, List.append_nil]
    exact hI
  | a :: as, l, s, t, hr, hI, ht => by
    obtain ⟨s', hs', ht⟩ := Option.bind_eq_some_iff.mp ht
    have hrest := runs_trace_induct hs (hr.step hs') (hs l s a s' hr hI hs') ht
    rw [trace, hs']
    simpa only [List.append_assoc] using hrest

/-- The run `as` from `s`, read as a chain of steps that satisfy `ok`. -/
theorem stepsIf_of_runs {ok : S → A → Prop} : ∀ {as : List A} {s t : S}, M.runs s as = some t →
    M.AllSteps ok s as → Relation.ReflTransGen (M.StepIf ok) s t
  | [], _, _, h, _ => by
    obtain rfl := Option.some.inj h
    exact Relation.ReflTransGen.refl
  | a :: as, s, t, h, hok => by
    obtain ⟨s', hs, ht⟩ := Option.bind_eq_some_iff.mp h
    exact Relation.ReflTransGen.head ⟨a, hok.1, hs⟩ (stepsIf_of_runs ht (hok.2 s' hs))

/-- A run whose every step satisfies `ok` and whose every step satisfies `good`. -/
theorem AllSteps.and {ok good : S → A → Prop} : ∀ {as : List A} {s : S}, M.AllSteps ok s as →
    M.AllSteps good s as → M.AllSteps (fun s a => ok s a ∧ good s a) s as
  | [], _, _, _ => trivial
  | _ :: _, _, h, h' => ⟨⟨h.1, h'.1⟩, fun s' hs => AllSteps.and (h.2 s' hs) (h'.2 s' hs)⟩

/-- **One bad step**: when a step that is not `good` leads to `I`, and the steps that follow keep
`I`, a run with such a step ends in `I`. `J` is an invariant of the run. -/
theorem of_not_allSteps {ok good : S → A → Prop} {I J : S → Prop}
    (hJ : ∀ s a s', J s → ok s a → M.step s a = some s' → J s')
    (hbad : ∀ s a s', J s → ok s a → ¬ good s a → M.step s a = some s' → I s')
    (hI : ∀ s a s', J s → I s → ok s a → M.step s a = some s' → I s') :
    ∀ {as : List A} {s t : S}, J s → I s ∨ ¬ M.AllSteps good s as → M.runs s as = some t →
      M.AllSteps ok s as → I t
  | [], _, _, _, h, ht, _ => by
    obtain rfl := Option.some.inj ht
    exact h.resolve_right fun hno => hno trivial
  | a :: as, s, t, hJs, h, ht, hok => by
    obtain ⟨s', hs, ht⟩ := Option.bind_eq_some_iff.mp ht
    refine of_not_allSteps hJ hbad hI (hJ s a s' hJs hok.1 hs) ?_ ht (hok.2 s' hs)
    by_cases hgood : good s a
    · rcases h with hIs | hno
      · exact .inl (hI s a s' hJs hIs hok.1 hs)
      · refine .inr fun hall => hno ⟨hgood, fun s'' hs' => ?_⟩
        obtain rfl := Option.some.inj (hs.symm.trans hs')
        exact hall
    · exact .inl (hbad s a s' hJs hok.1 hgood hs)

instance decidableAllSteps (ok : S → A → Prop) [∀ s a, Decidable (ok s a)] :
    ∀ as s, Decidable (M.AllSteps ok s as)
  | [], _ => isTrue trivial
  | a :: as, s =>
    match hs : M.step s a with
    | none => decidable_of_iff (ok s a)
        ⟨fun h => ⟨h, fun s' hs' => by rw [hs] at hs'; cases hs'⟩, fun h => h.1⟩
    | some s' =>
      have : Decidable (M.AllSteps ok s' as) := decidableAllSteps ok as s'
      decidable_of_iff (ok s a ∧ M.AllSteps ok s' as)
        ⟨fun h => ⟨h.1, fun t ht => Option.some.inj (hs.symm.trans ht) ▸ h.2⟩,
          fun h => ⟨h.1, h.2 s' hs⟩⟩

/-- A run is no longer than the measure its steps lower. -/
theorem length_le_of_runs {I : S → Prop} (μ : S → Nat)
    (hs : ∀ s a s', I s → M.step s a = some s' → I s' ∧ μ s' < μ s) :
    ∀ {as : List A} {s t : S}, I s → M.runs s as = some t → as.length ≤ μ s
  | [], _, _, _, _ => Nat.zero_le _
  | a :: as, s, t, hI, h => by
    obtain ⟨s', hs', ht⟩ := Option.bind_eq_some_iff.mp h
    obtain ⟨hI', hlt⟩ := hs s a s' hI hs'
    have := length_le_of_runs μ hs hI' ht
    rw [List.length_cons]
    omega

theorem terminates_of_measure {I : S → Prop} (μ : S → Nat) (h0 : I M.init)
    (hs : ∀ s a s', I s → M.step s a = some s' → I s' ∧ μ s' < μ s) : M.Terminates :=
  ⟨μ M.init, fun _ _ h => length_le_of_runs μ hs h0 h⟩

/-- **Bounded runs end**: when every step from a state of `I` lowers `μ` and stays in `I`, some
run from any such state reaches one where no action can happen. -/
theorem exists_stuck {I : S → Prop} (μ : S → Nat)
    (hs : ∀ s a s', I s → M.step s a = some s' → I s' ∧ μ s' < μ s) {s : S} (h : I s) :
    ∃ t, M.Steps s t ∧ M.Stuck t := by
  induction hn : μ s using Nat.strongRecOn generalizing s with
  | ind n ih =>
    by_cases hstuck : M.Stuck s
    · exact ⟨s, Relation.ReflTransGen.refl, hstuck⟩
    · obtain ⟨a, ha⟩ := not_forall.mp (show ¬ ∀ a, M.step s a = none from hstuck)
      obtain ⟨s', hs'⟩ := Option.ne_none_iff_exists'.mp ha
      obtain ⟨hI, hlt⟩ := hs s a s' h hs'
      obtain ⟨t, hst, ht⟩ := ih (μ s') (hn ▸ hlt) hI rfl
      exact ⟨t, Relation.ReflTransGen.head ⟨a, hs'⟩ hst, ht⟩

/-- **A run to the end**: where something is not done yet, some step that satisfies `ok` happens and
lowers `μ`; so some run of such steps gets it done. -/
theorem exists_done {ok : S → A → Prop} {I done : S → Prop} (μ : S → ℕ)
    (hs : ∀ s, I s → done s ∨ ∃ a s', ok s a ∧ M.step s a = some s' ∧ I s' ∧ μ s' < μ s) {s : S}
    (h : I s) : ∃ t, Relation.ReflTransGen (M.StepIf ok) s t ∧ done t := by
  induction hn : μ s using Nat.strongRecOn generalizing s with
  | ind n ih =>
    rcases hs s h with hdone | ⟨a, s', hok, hs', hI, hlt⟩
    · exact ⟨s, Relation.ReflTransGen.refl, hdone⟩
    · obtain ⟨t, hst, ht⟩ := ih (μ s') (hn ▸ hlt) hI rfl
      exact ⟨t, Relation.ReflTransGen.head ⟨a, hok, hs'⟩ hst, ht⟩

/-- **Bounded response.** As long as what `P` waits for is not done, a measure falls. -/
theorem exists_within {s : ℕ → S} {P : S → Prop} {isDone : ℕ → Prop} (μ : S → ℕ)
    (hstep : ∀ k, P (s k) → isDone k ∨ P (s (k + 1)) ∧ μ (s (k + 1)) < μ (s k)) :
    ∀ {k : ℕ}, P (s k) → ∃ j ≤ μ (s k), isDone (k + j) := by
  intro k
  induction hn : μ (s k) using Nat.strongRecOn generalizing k with
  | ind n ih =>
    intro hk
    rcases hstep k hk with hdone | ⟨hP, hlt⟩
    · exact ⟨0, Nat.zero_le _, hdone⟩
    · obtain ⟨j, hj, hdone⟩ := ih _ (hn ▸ hlt) rfl hP
      refine ⟨j + 1, by omega, ?_⟩
      rwa [Nat.add_right_comm] at hdone

/-! ### A machine inside another -/

section Inside

variable {T B : Type*} {N : Machine T B} {f : S → T} {s : S}

/-- **Stuttering**: where every step of `M` is one of `N`, or leaves what `N` sees as it is, `N`
reaches what `M` reaches. -/
theorem ReachableIf.map {ok : S → A → Prop} {good : T → B → Prop} (h : M.ReachableIf ok s)
    (h0 : f M.init = N.init)
    (hs : ∀ s a s', ok s a → M.step s a = some s' →
      f s' = f s ∨ ∃ b, good (f s) b ∧ N.step (f s) b = some (f s')) :
    N.ReachableIf good (f s) := by
  refine h.induct (I := fun s => N.ReachableIf good (f s)) ?_ fun s a s' ih hok hst => ?_
  · rw [h0]
    exact Relation.ReflTransGen.refl
  · rcases hs s a s' hok hst with heq | ⟨b, hgood, hb⟩
    · rw [heq]
      exact ih
    · exact Relation.ReflTransGen.tail ih ⟨b, hgood, hb⟩

theorem Reachable.map (h : M.Reachable s) (h0 : f M.init = N.init)
    (hs : ∀ s a s', M.step s a = some s' → f s' = f s ∨ ∃ b, N.step (f s) b = some (f s')) :
    N.Reachable (f s) := by
  refine h.induct (I := fun s => N.Reachable (f s)) ?_ fun s a s' ih hst => ?_
  · rw [h0]
    exact Reachable.init
  · rcases hs s a s' hst with heq | ⟨b, hb⟩
    · rw [heq]
      exact ih
    · exact ih.step hb

end Inside

/-! ### Ghosts -/

section Ghost

variable {G : Type*} (g₀ : G) (upd : S → A → S → G → G)

/-- `M` with a ghost, which looks at every step and changes none. -/
def withGhost (M : Machine S A) : Machine (S × G) A where
  init := (M.init, g₀)
  step x a := (M.step x.1 a).map fun s' => (s', upd x.1 a s' x.2)

variable {g₀ upd}

theorem withGhost_step {x x' : S × G} {a : A} :
    (M.withGhost g₀ upd).step x a = some x' ↔
      ∃ s', M.step x.1 a = some s' ∧ x' = (s', upd x.1 a s' x.2) := by
  unfold withGhost
  rw [Option.map_eq_some_iff]
  exact exists_congr fun s' => and_congr_right fun _ => eq_comm

/-- **A run of the machine** is one of the machine with the ghost. -/
theorem runs_withGhost : ∀ {as : List A} {s t : S} (g : G), M.runs s as = some t →
    ∃ g', (M.withGhost g₀ upd).runs (s, g) as = some (t, g')
  | [], s, t, g, h => by
    obtain rfl := Option.some.inj h
    exact ⟨g, rfl⟩
  | a :: as, s, t, g, h => by
    obtain ⟨s', hs, ht⟩ := Option.bind_eq_some_iff.mp h
    obtain ⟨g', hg'⟩ := runs_withGhost (upd s a s' g) ht
    refine ⟨g', ?_⟩
    rw [runs, withGhost_step.mpr ⟨s', hs, rfl⟩]
    exact hg'

/-- What does not look at the ghost. -/
theorem allSteps_withGhost {ok : S → A → Prop} : ∀ {as : List A} {s : S} {g : G},
    (M.withGhost g₀ upd).AllSteps (fun x a => ok x.1 a) (s, g) as ↔ M.AllSteps ok s as
  | [], _, _ => Iff.rfl
  | a :: as, s, g => by
    refine and_congr_right fun _ => ⟨fun h s' hs => ?_, fun h x hx => ?_⟩
    · exact allSteps_withGhost.mp (h _ (withGhost_step.mpr ⟨s', hs, rfl⟩))
    · obtain ⟨s', hs, rfl⟩ := withGhost_step.mp hx
      exact allSteps_withGhost.mpr (h s' hs)

end Ghost

end Machine

end Cse344.Lib
