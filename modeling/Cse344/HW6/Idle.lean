import Cse344.HW6.Hogwarts

/-!
# How long the server sleeps

`check_idle_timeouts` (`HW6/hogwarts.c` 537-562) gives out how many seconds `select` may sleep.
`checkIdleTimeouts` leaves that number out, and `checkIdleRemain` is the same loop with it.

* Times are any integers, so a client may have been active after `now`, and `elapsed` is 0 then. The
  cast `(int)elapsed` is made after `elapsed` was found less than the timeout, which is an `int`.
* A client is `idle` for the time since it was active, at least 0, and `Overdue` if that is the
  timeout or more. `Checked` is what the loop has done after some of the slots.

Results:
* `checkIdleRemain_fst`: the two loops remove the same clients.
* **`check_idle_remain`**: exactly the overdue clients are removed, and the server sleeps no longer
  than until the first of the others is overdue.

Out of scope: that `select` sleeps no longer than it is told, and how long a round of the loop
takes.
-/

namespace Cse344.HW6

open Cse344.Lib

variable {n m : ℕ} {timeoutSec now : ℤ} {s : Server n m} {r : Server n m × ℤ} {idx : Fin n}

/-- The body of the loop, with `min_r`. -/
def checkIdleMin (timeoutSec now : ℤ) (r : Server n m × ℤ) (idx : Fin n) : Server n m × ℤ :=
  let c := r.1.clients idx
  if c.fd < 0 then r
  else
    let elapsed := if now - c.lastActive < 0 then 0 else now - c.lastActive
    if timeoutSec ≤ elapsed then
      (removeClient (r.1.reply idx (cstr "TIMEOUT DISCONNECT")) idx, r.2)
    else
      let remain := timeoutSec - elapsed
      (r.1, if remain < r.2 then remain else r.2)

/-- `check_idle_timeouts`, with the `min_remain` it gives out. -/
def checkIdleRemain (timeoutSec now : ℤ) (s : Server n m) : Server n m × ℤ :=
  let r := (List.finRange n).foldl (checkIdleMin timeoutSec now) (s, timeoutSec)
  (r.1, if r.2 < 1 then 1 else r.2)

/-- How long the client has been idle. -/
def Client.idle (now : ℤ) (c : Client) : ℤ := max 0 (now - c.lastActive)

/-- The client is connected. -/
def Client.Connected (c : Client) : Prop := 0 ≤ c.fd

/-- The client is connected, and has been idle for the timeout. -/
def Client.Overdue (timeoutSec now : ℤ) (c : Client) : Prop :=
  c.Connected ∧ timeoutSec ≤ c.idle now

instance (c : Client) : Decidable c.Connected := inferInstanceAs (Decidable (0 ≤ c.fd))

instance (timeoutSec now : ℤ) (c : Client) : Decidable (c.Overdue timeoutSec now) :=
  inferInstanceAs (Decidable (c.Connected ∧ timeoutSec ≤ c.idle now))

theorem not_connected_reset : ¬Client.reset.Connected := by
  decide

/-! ## One client -/

theorem elapsed_eq (now t : ℤ) : (if now - t < 0 then 0 else now - t) = max 0 (now - t) := by
  omega

/-- The server goes through the loop as without `min_r`. -/
theorem checkIdleMin_fst (r : Server n m × ℤ) (idx : Fin n) :
    (checkIdleMin timeoutSec now r idx).1 = checkIdle timeoutSec now r.1 idx := by
  unfold checkIdleMin checkIdle
  dsimp only
  rw [elapsed_eq]
  split_ifs <;> rfl

theorem checkIdle_clients (s : Server n m) (idx i : Fin n) :
    (checkIdle timeoutSec now s idx).clients i =
      if i = idx ∧ (s.clients idx).Overdue timeoutSec now then .reset else s.clients i := by
  by_cases hover : (s.clients idx).Overdue timeoutSec now
  · have hfd : ¬(s.clients idx).fd < 0 := not_lt.mpr hover.1
    have hidle : timeoutSec ≤ max 0 (now - (s.clients idx).lastActive) := hover.2
    rw [checkIdle, if_neg hfd, if_pos hidle, removeClient, reply_clients, if_neg hfd,
      setClient_clients, reply_clients]
    by_cases hi : i = idx
    · rw [hi, Function.update_self, if_pos ⟨rfl, hover⟩]
    · rw [Function.update_of_ne hi, if_neg fun h => hi h.1]
  · rw [if_neg fun h => hover h.2, checkIdle]
    split_ifs with hfd hidle
    · rfl
    · exact absurd ⟨not_lt.mp hfd, hidle⟩ hover
    · rfl

/-- `min_r` takes what is left of the timeout of a client that stays. -/
theorem checkIdleMin_snd (timeoutSec now : ℤ) (r : Server n m × ℤ) (idx : Fin n) :
    (checkIdleMin timeoutSec now r idx).2 =
      if (r.1.clients idx).Connected ∧ ¬(r.1.clients idx).Overdue timeoutSec now then
        min r.2 (timeoutSec - (r.1.clients idx).idle now)
      else r.2 := by
  have hmin : ∀ remain : ℤ, (if remain < r.2 then remain else r.2) = min r.2 remain := by
    intro remain
    omega
  unfold checkIdleMin
  dsimp only
  rw [elapsed_eq, hmin]
  by_cases hconn : (r.1.clients idx).Connected
  · rw [if_neg (not_lt.mpr hconn)]
    by_cases hidle : timeoutSec ≤ (r.1.clients idx).idle now
    · exact (congrArg Prod.snd (if_pos hidle)).trans (if_neg fun h => h.2 ⟨hconn, hidle⟩).symm
    · exact (congrArg Prod.snd (if_neg hidle)).trans (if_pos ⟨hconn, fun h => hidle h.2⟩).symm
  · rw [if_pos (not_le.mp hconn), if_neg fun h => hconn h.1]

/-! ## The loop -/

/-- What holds when the clients `seen` are through: the overdue ones of them are removed, and
`min_r` is no more than what is left of the timeout of the others. -/
structure Checked (timeoutSec now : ℤ) (s : Server n m) (seen : List (Fin n))
    (r : Server n m × ℤ) : Prop where
  clients : ∀ i, r.1.clients i =
    if i ∈ seen ∧ (s.clients i).Overdue timeoutSec now then .reset else s.clients i
  pos : 1 ≤ r.2
  le : r.2 ≤ timeoutSec
  deadline : ∀ i ∈ seen, (s.clients i).Connected → ¬(s.clients i).Overdue timeoutSec now →
    r.2 ≤ timeoutSec - (s.clients i).idle now

theorem Checked.step {seen : List (Fin n)} (h : Checked timeoutSec now s seen r)
    (hnew : idx ∉ seen) : Checked timeoutSec now s (seen ++ [idx])
      (checkIdleMin timeoutSec now r idx) := by
  have hidx : r.1.clients idx = s.clients idx := by
    rw [h.clients, if_neg fun hmem => hnew hmem.1]
  have hsnd := checkIdleMin_snd timeoutSec now r idx
  rw [hidx] at hsnd
  refine ⟨fun i => ?_, ?_, ?_, fun i hi hconn hnot => ?_⟩
  · rw [checkIdleMin_fst, checkIdle_clients, hidx, h.clients]
    by_cases hi : i = idx
    · subst hi
      simp [hnew]
    · simp [hi]
  · rw [hsnd]
    split_ifs with hstay
    · have hidle : (s.clients idx).idle now < timeoutSec :=
        not_le.mp fun hle => hstay.2 ⟨hstay.1, hle⟩
      exact le_min h.pos (by omega)
    · exact h.pos
  · rw [hsnd]
    split_ifs
    · exact (min_le_left _ _).trans h.le
    · exact h.le
  · rw [hsnd]
    rcases List.mem_append.mp hi with hi | hi
    · have hold := h.deadline i hi hconn hnot
      split_ifs
      · exact (min_le_left _ _).trans hold
      · exact hold
    · rw [List.mem_singleton.mp hi] at hconn hnot ⊢
      rw [if_pos ⟨hconn, hnot⟩]
      exact min_le_right _ _

/-- The whole loop, by induction on the clients that are left. -/
theorem Checked.foldl {seen left : List (Fin n)} (h : Checked timeoutSec now s seen r)
    (hnodup : (seen ++ left).Nodup) :
    Checked timeoutSec now s (seen ++ left)
      (left.foldl (checkIdleMin timeoutSec now) r) := by
  induction left generalizing seen r with
  | nil => rwa [List.append_nil]
  | cons idx left ih =>
    have hnew : idx ∉ seen := fun hmem =>
      (List.nodup_append.mp hnodup).2.2 idx hmem idx List.mem_cons_self rfl
    rw [List.append_cons] at hnodup ⊢
    exact ih (h.step hnew) hnodup

theorem checkIdleMin_foldl_fst (l : List (Fin n)) (r : Server n m × ℤ) :
    (l.foldl (checkIdleMin timeoutSec now) r).1 = l.foldl (checkIdle timeoutSec now) r.1 := by
  induction l generalizing r with
  | nil => rfl
  | cons idx l ih => rw [List.foldl_cons, List.foldl_cons, ih, checkIdleMin_fst]

/-- The server after `check_idle_timeouts` is that of the model without `min_remain`. -/
theorem checkIdleRemain_fst (timeoutSec now : ℤ) (s : Server n m) :
    (checkIdleRemain timeoutSec now s).1 = checkIdleTimeouts timeoutSec now s :=
  checkIdleMin_foldl_fst _ _

/-- **The server never sleeps past a deadline.** Exactly the overdue clients are removed, the others
stay as they are, and the sleep is at least a second, at most the timeout, and ends before any
client that is left is overdue. -/
theorem check_idle_remain (timeoutSec now : ℤ) (s : Server n m) (h : 1 ≤ timeoutSec) :
    let s' := checkIdleTimeouts timeoutSec now s
    let remain := (checkIdleRemain timeoutSec now s).2
    (∀ i, ((s.clients i).Overdue timeoutSec now → s'.clients i = .reset) ∧
      (¬(s.clients i).Overdue timeoutSec now → s'.clients i = s.clients i)) ∧
    1 ≤ remain ∧ remain ≤ timeoutSec ∧
    ∀ i, (s'.clients i).Connected → (s'.clients i).idle now < timeoutSec ∧
      remain ≤ timeoutSec - (s'.clients i).idle now ∧
      now + remain ≤ (s'.clients i).lastActive + timeoutSec := by
  have hchecked : Checked timeoutSec now s (List.finRange n)
      ((List.finRange n).foldl (checkIdleMin timeoutSec now) (s, timeoutSec)) := by
    have hstart : Checked timeoutSec now s [] (s, timeoutSec) :=
      ⟨fun i => by rw [if_neg fun hmem => List.not_mem_nil hmem.1], h, le_refl _,
        fun i hi => absurd hi List.not_mem_nil⟩
    exact hstart.foldl (List.nodup_finRange n)
  have hremain : (checkIdleRemain timeoutSec now s).2 =
      ((List.finRange n).foldl (checkIdleMin timeoutSec now) (s, timeoutSec)).2 :=
    if_neg (not_lt.mpr hchecked.pos)
  have hclients : ∀ i, (checkIdleTimeouts timeoutSec now s).clients i =
      if (s.clients i).Overdue timeoutSec now then .reset else s.clients i := by
    intro i
    rw [← checkIdleRemain_fst]
    exact (hchecked.clients i).trans (by simp [List.mem_finRange])
  intro s' remain
  refine ⟨fun i => ⟨fun hover => ?_, fun hnot => ?_⟩, ?_, ?_, fun i hconn => ?_⟩
  · exact (hclients i).trans (if_pos hover)
  · exact (hclients i).trans (if_neg hnot)
  · exact hchecked.pos.trans_eq hremain.symm
  · exact hremain.trans_le hchecked.le
  · have hnot : ¬(s.clients i).Overdue timeoutSec now := by
      intro hover
      rw [(hclients i).trans (if_pos hover)] at hconn
      exact not_connected_reset hconn
    have hsame : s'.clients i = s.clients i := (hclients i).trans (if_neg hnot)
    rw [hsame] at hconn ⊢
    have hidle : (s.clients i).idle now < timeoutSec := not_le.mp fun hle => hnot ⟨hconn, hle⟩
    have hdeadline := hchecked.deadline i (List.mem_finRange i) hconn hnot
    rw [← hremain] at hdeadline
    refine ⟨hidle, hdeadline, ?_⟩
    have hsince : now - (s.clients i).lastActive ≤ (s.clients i).idle now := le_max_right _ _
    omega

/-- Two clients, active at 0 and at 50. -/
def twoClients : Server 2 0 where
  ingredients := Fin.elim0
  clients := fun i =>
    if i.val = 0 then { Client.reset with fd := 4 }
    else { Client.reset with fd := 5, lastActive := 50 }
  reading := none
  running := true
  sent := []

/-- At 60, with a timeout of a minute, the first is removed, and the second has 50 seconds left. -/
theorem check_idle_remain_two :
    (checkIdleTimeouts 60 60 twoClients).clients 0 = .reset ∧
      (checkIdleRemain 60 60 twoClients).2 ≤ 50 := by
  obtain ⟨hremoved, -, -, hleft⟩ := check_idle_remain 60 60 twoClients (by decide)
  have hstays : (checkIdleTimeouts 60 60 twoClients).clients 1 = twoClients.clients 1 :=
    (hremoved 1).2 (by decide)
  have hremain := (hleft 1 (by rw [hstays]; decide)).2.1
  rw [hstays] at hremain
  exact ⟨(hremoved 0).1 (by decide), hremain⟩

end Cse344.HW6
