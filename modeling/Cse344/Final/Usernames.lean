import Cse344.Final.Market

/-!
# Usernames of the final

`JOIN` (`Final/ServerTrd.c` 187-207) looks whether a joined client has the name (`username_taken`,
136-144). A step makes nobody join, or lets one client join under a name no joined client has.

* `Keeps` says of a client that, if it is joined after a step, it was joined before it under the
  same name and type. `Joins` is an accepted `JOIN`: it is so of the others, and the name was free.
* `disconnect_client` clears a slot, and `alloc_client` gives it to the next client as new.

Results:
* `serverStep_joins`: what a step does to who is joined.
* `unique_step`, `typed_step`, `name_step`: what it keeps.
* **`usernames_unique`**: in every reachable state the names of the joined clients are different,
  and their types are `TRADER` or `ANALYST`; a client that stays joined keeps both.

Out of scope: that a name may have any bytes but white space and NUL.
-/

namespace Cse344.Final

open Cse344.Lib

variable {m : ℕ} {t : Table m} {s s' s₁ : Server m} {idx i : Fin maxClients} {line : CStr}
  {o : Outcome} {act : Act} {c : Client}

/-- Who is joined was so before, under the same name. -/
def Client.Keeps (c c' : Client) : Prop :=
  c'.joined = true → c.joined = true ∧ c'.username = c.username ∧ c'.type = c.type ∧
    (0 ≤ c'.fd → 0 ≤ c.fd)

/-- Nobody joins. -/
def Server.Keeps (s s' : Server m) : Prop := ∀ i, (s.clients i).Keeps (s'.clients i)

/-- Two clients that are joined have two names. -/
def UniqueNames (s : Server m) : Prop :=
  ∀ i j, 0 ≤ (s.clients i).fd → (s.clients i).joined = true → 0 ≤ (s.clients j).fd →
    (s.clients j).joined = true → (s.clients i).username = (s.clients j).username → i = j

/-- Joined clients have a type. -/
def Typed (s : Server m) : Prop :=
  ∀ i, (s.clients i).joined = true →
    (s.clients i).type = cstr "TRADER" ∨ (s.clients i).type = cstr "ANALYST"

theorem Client.Keeps.refl (c : Client) : c.Keeps c := fun h => ⟨h, rfl, rfl, id⟩

theorem Client.Keeps.of_not_joined {c c' : Client} (h : c'.joined = false) : c.Keeps c' :=
  fun hjoined => absurd (hjoined.symm.trans h) (by decide)

theorem Server.Keeps.refl (s : Server m) : s.Keeps s := fun i => .refl (s.clients i)

theorem Server.Keeps.trans (h : s.Keeps s₁) (h' : s₁.Keeps s') : s.Keeps s' := by
  intro i hjoined
  obtain ⟨hj, hu, ht, hfd⟩ := h' i hjoined
  obtain ⟨hj', hu', ht', hfd'⟩ := h i hj
  exact ⟨hj', hu.trans hu', ht.trans ht', fun h => hfd' (hfd h)⟩

/-- Only one client changes. -/
theorem Server.Keeps.update (hclients : s'.clients = Function.update s.clients idx c)
    (h : (s.clients idx).Keeps c) : s.Keeps s' := by
  unfold Server.Keeps
  rw [hclients]
  exact (Function.forall_update_iff s.clients fun i c => (s.clients i).Keeps c).mpr
    ⟨h, fun i _ => .refl (s.clients i)⟩

theorem Server.Keeps.of_clients_eq (h : s'.clients = s.clients) : s.Keeps s' := fun i => by
  rw [h]
  exact .refl (s.clients i)

/-! ## Steps -/

theorem consume_keeps (s : Server m) (idx : Fin maxClients) (n : ℕ) : s.Keeps (consume s idx n) :=
  .update rfl fun h => ⟨h, rfl, rfl, id⟩

theorem disconnectClient_keeps (s : Server m) (idx : Fin maxClients) :
    s.Keeps (disconnectClient s idx) := by
  unfold disconnectClient
  split_ifs
  · exact .refl s
  · exact .update rfl (.of_not_joined rfl)

theorem readInput_keeps {input : Input} (h : readInput s idx input = some s') : s.Keeps s' := by
  unfold readInput at h
  dsimp only at h
  split_ifs at h
  · obtain rfl := Option.some.inj h
    exact .update rfl fun h => ⟨h, rfl, rfl, id⟩
  · cases input with
    | error =>
      obtain rfl := Option.some.inj h
      exact disconnectClient_keeps s idx
    | hangup =>
      obtain rfl := Option.some.inj h
      exact disconnectClient_keeps s idx
    | data bytes =>
      dsimp only at h
      split_ifs at h
      obtain rfl := Option.some.inj h
      exact .update rfl fun h => ⟨h, rfl, rfl, id⟩

theorem shutdownClient_keeps (s : Server m) (idx : Fin maxClients) :
    s.Keeps (shutdownClient s idx) := by
  unfold shutdownClient
  split_ifs
  · exact .update rfl fun h => ⟨h, rfl, rfl, fun _ => ‹_›⟩
  · exact .refl s

theorem shutdown_keeps : ∀ (l : List (Fin maxClients)) (s : Server m),
    s.Keeps (l.foldl shutdownClient s)
  | [], s => .refl s
  | idx :: l, s => (shutdownClient_keeps s idx).trans (shutdown_keeps l _)

theorem sendPriceBroadcast_keeps (h : sendPriceBroadcast s = some s') : s.Keeps s' := by
  obtain ⟨broadcasts, rfl⟩ := sendPriceBroadcast_eq h
  exact .refl s

theorem acceptClient_keeps (s : Server m) (fd : ℕ) : s.Keeps (acceptClient s fd) := by
  unfold acceptClient
  split
  · exact .refl s
  · exact .update rfl (.of_not_joined rfl)

/-- An accepted `JOIN`: a name that is not taken, and a type. -/
structure Server.Joins (s s' : Server m) (idx : Fin maxClients) (username type : CStr) : Prop where
  clients_eq : s'.clients = Function.update s.clients idx
    { s.clients idx with username := username, type := type, joined := true }
  joined : (s.clients idx).joined = false
  free : usernameTaken s username = false
  type_eq : type = cstr "TRADER" ∨ type = cstr "ANALYST"

/-- Nobody joins, or one client does. -/
def Server.JoinsOrKeeps (s s' : Server m) : Prop :=
  s.Keeps s' ∨ ∃ s₁ idx username type, s.Joins s₁ idx username type ∧ s₁.Keeps s'

theorem Server.JoinsOrKeeps.keeps (h : s.JoinsOrKeeps s₁) (h' : s₁.Keeps s') :
    s.JoinsOrKeeps s' := by
  rcases h with h | ⟨s₂, idx, username, type, hjoins, h⟩
  · exact .inl (h.trans h')
  · exact .inr ⟨s₂, idx, username, type, hjoins, h.trans h'⟩

theorem cmdJoin_joins (s : Server m) (idx : Fin maxClients) (args : CStr) :
    s.JoinsOrKeeps (cmdJoin s idx args) := by
  have hreply : ∀ text, s.JoinsOrKeeps (s.safeSend idx text) :=
    fun text => .inl (.of_clients_eq rfl)
  unfold cmdJoin
  dsimp only
  split_ifs with hjoined
  · exact hreply _
  · split
    · exact hreply _
    · rename_i type rest _
      split
      · exact hreply _
      · rename_i username _ _
        split_ifs with htype htaken
        · exact hreply _
        · exact hreply _
        · refine .inr ⟨_, idx, username, type, ⟨rfl, ?_, ?_, ?_⟩, .of_clients_eq rfl⟩
          · simpa using hjoined
          · simpa using htaken
          · rwa [not_and_or, not_not, not_not] at htype

theorem Server.TradeOf.keeps {k : Fin m} {sym : CStr} (h : s.TradeOf s' idx k sym) :
    s.Keeps s' := by
  intro i
  by_cases hi : i = idx
  · subst hi
    obtain ⟨portfolio, trades, hsender⟩ := h.sender
    rw [hsender]
    exact fun h => ⟨h, rfl, rfl, id⟩
  · rw [h.others i hi]
    exact .refl (s.clients i)

theorem Tries.keeps {args : CStr} {r : Server m × Outcome} (h : Tries s idx args r) :
    s.Keeps r.1 := by
  rcases h with ⟨text, -, rfl⟩ | ⟨sym, qty, k, text, -, -, htrade, -⟩
  · exact .of_clients_eq rfl
  · exact htrade.keeps

theorem processLine_joins (h : processLine s idx line = some (s', o)) : s.JoinsOrKeeps s' := by
  rcases processLine_cases h with ⟨-, rfl, -⟩ | ⟨-, ⟨-, heq⟩ | ⟨-, heq⟩⟩ | ⟨-, -, text, rfl⟩
  · exact cmdJoin_joins s idx _
  · have hkeeps := (cmdBuy_tries s idx (line.drop 4)).keeps
    rw [← heq] at hkeeps
    exact .inl hkeeps
  · have hkeeps := (cmdSell_tries s idx (line.drop 5)).keeps
    rw [← heq] at hkeeps
    exact .inl hkeeps
  · exact .inl (.of_clients_eq rfl)

theorem handleLine_joins (h : handleLine s idx = some s') : s.JoinsOrKeeps s' := by
  unfold handleLine at h
  dsimp only at h
  split_ifs at h
  · obtain rfl := Option.some.inj h
    exact .inl (.of_clients_eq rfl)
  · obtain rfl := Option.some.inj h
    exact .inl (consume_keeps (s.safeSend idx (cstr "ERR TOOLONG\n")) idx _)
  · split at h
    · cases h
    · rename_i s₁ hprocess
      obtain rfl := Option.some.inj h
      exact (processLine_joins hprocess).keeps (disconnectClient_keeps s₁ idx)
    · rename_i s₁ hprocess
      obtain rfl := Option.some.inj h
      exact (processLine_joins hprocess).keeps (consume_keeps s₁ idx _)
    · rename_i s₁ hprocess
      obtain ⟨s₂, hbroadcast, rfl⟩ := Option.map_eq_some_iff.mp h
      exact (processLine_joins hprocess).keeps
        ((sendPriceBroadcast_keeps hbroadcast).trans (consume_keeps s₂ idx _))

/-- **What a step does to who is joined.** -/
theorem serverStep_joins (h : serverStep s act = some s') : s.JoinsOrKeeps s' := by
  unfold serverStep at h
  split_ifs at h
  split at h
  · exact handleLine_joins h
  · cases h
  · cases h
  · exact .inl (sendPriceBroadcast_keeps h)
  · obtain rfl := Option.some.inj h
    exact .inl (acceptClient_keeps s _)
  · split_ifs at h
    exact .inl (readInput_keeps h)
  · obtain rfl := Option.some.inj h
    exact .inl (shutdown_keeps (List.finRange maxClients) s)

/-! ## Names -/

theorem UniqueNames.keeps (hu : UniqueNames s) (h : s.Keeps s') : UniqueNames s' := by
  intro i j hfd hjoined hfd' hjoined' heq
  obtain ⟨hj, hname, -, hc⟩ := h i hjoined
  obtain ⟨hj', hname', -, hc'⟩ := h j hjoined'
  exact hu i j (hc hfd) hj (hc' hfd') hj' (hname.symm.trans (heq.trans hname'))

theorem Typed.keeps (ht : Typed s) (h : s.Keeps s') : Typed s' := by
  intro i hjoined
  obtain ⟨hj, -, htype, -⟩ := h i hjoined
  rw [htype]
  exact ht i hj

theorem ne_of_free {username : CStr} (hfree : usernameTaken s username = false)
    (hfd : 0 ≤ (s.clients i).fd) (hjoined : (s.clients i).joined = true) :
    (s.clients i).username ≠ username := by
  intro heq
  have hno := List.any_eq_false.mp hfree i (List.mem_finRange i)
  simp [hfd, hjoined, heq] at hno

theorem Server.Joins.unique {username type : CStr} (hu : UniqueNames s)
    (h : s.Joins s' idx username type) : UniqueNames s' := by
  have hother : ∀ i, i ≠ idx → s'.clients i = s.clients i := fun i hi => by
    rw [h.clients_eq, Function.update_of_ne hi]
  have hsender : (s'.clients idx).username = username := by
    rw [h.clients_eq, Function.update_self]
  intro i j hfd hjoined hfd' hjoined' heq
  by_cases hi : i = idx
  · by_cases hj : j = idx
    · rw [hi, hj]
    · rw [hother j hj] at hfd' hjoined' heq
      exact absurd (heq.symm.trans (hi ▸ hsender)) (ne_of_free h.free hfd' hjoined')
  · rw [hother i hi] at hfd hjoined heq
    by_cases hj : j = idx
    · exact absurd (heq.trans (hj ▸ hsender)) (ne_of_free h.free hfd hjoined)
    · rw [hother j hj] at hfd' hjoined' heq
      exact hu i j hfd hjoined hfd' hjoined' heq

theorem Server.Joins.typed {username type : CStr} (ht : Typed s)
    (h : s.Joins s' idx username type) : Typed s' := by
  unfold Typed
  rw [h.clients_eq]
  exact (Function.forall_update_iff s.clients fun _ c => c.joined = true →
    c.type = cstr "TRADER" ∨ c.type = cstr "ANALYST").mpr ⟨fun _ => h.type_eq, fun i _ => ht i⟩

theorem unique_step (hu : UniqueNames s) (hs : serverStep s act = some s') : UniqueNames s' := by
  rcases serverStep_joins hs with hkeeps | ⟨s₁, idx, username, type, hjoins, hkeeps⟩
  · exact hu.keeps hkeeps
  · exact (hjoins.unique hu).keeps hkeeps

theorem typed_step (ht : Typed s) (hs : serverStep s act = some s') : Typed s' := by
  rcases serverStep_joins hs with hkeeps | ⟨s₁, idx, username, type, hjoins, hkeeps⟩
  · exact ht.keeps hkeeps
  · exact (hjoins.typed ht).keeps hkeeps

/-- A client that stays joined keeps its name and its type. -/
theorem name_step (hs : serverStep s act = some s') (hjoined : (s.clients i).joined = true)
    (hjoined' : (s'.clients i).joined = true) :
    (s'.clients i).username = (s.clients i).username ∧
      (s'.clients i).type = (s.clients i).type := by
  rcases serverStep_joins hs with hkeeps | ⟨s₁, idx, username, type, hjoins, hkeeps⟩
  · obtain ⟨-, hname, htype, -⟩ := hkeeps i hjoined'
    exact ⟨hname, htype⟩
  · obtain ⟨-, hname, htype, -⟩ := hkeeps i hjoined'
    have hi : i ≠ idx := by
      rintro rfl
      exact absurd (hjoined.symm.trans hjoins.joined) (by decide)
    rw [hjoins.clients_eq, Function.update_of_ne hi] at hname htype
    exact ⟨hname, htype⟩

/-- **In every reachable state the joined clients have different names and a type each, and no step
changes the name or the type of a client that stays joined.** -/
theorem usernames_unique (t : Table m) (s : Server m) (hs : (serverTrd t).Reachable s) :
    UniqueNames s ∧ Typed s ∧ ∀ act s', serverStep s act = some s' → ∀ i,
      (s.clients i).joined = true → (s'.clients i).joined = true →
        (s'.clients i).username = (s.clients i).username ∧
          (s'.clients i).type = (s.clients i).type := by
  have hnone : ∀ i, (((serverTrd t).init).clients i).joined = false := fun _ => rfl
  refine ⟨?_, ?_, fun act s' hstep i hjoined hjoined' => name_step hstep hjoined hjoined'⟩
  · exact hs.induct (fun i _ _ hjoined => absurd (hjoined.symm.trans (hnone i)) (by decide))
      fun _ _ _ hu hstep => unique_step hu hstep
  · exact hs.induct (fun i hjoined => absurd (hjoined.symm.trans (hnone i)) (by decide))
      fun _ _ _ ht hstep => typed_step ht hstep

/-- The slot of the second client. -/
def secondSlot : Fin maxClients := ⟨1, Nat.succ_lt_succ (Nat.zero_lt_succ 8)⟩

/-- Two clients ask for one name. -/
def annTwice : List Act :=
  [.accept 4, .accept 5, .input firstSlot (.data (cstr "JOIN TRADER ann\n")), .line, .line,
    .input secondSlot (.data (cstr "JOIN ANALYST ann\n")), .line, .line]

theorem usernames_unique_annTwice :
    ∃ s, (serverTrd oneStock).runs (initial oneStock) annTwice = some s ∧
      (s.clients secondSlot).joined = false ∧ UniqueNames s ∧ Typed s := by
  have h : ((serverTrd oneStock).runs (initial oneStock) annTwice).map (fun s =>
      (s.clients secondSlot).joined) = some false := by
    decide +kernel
  obtain ⟨s, hrun, hjoined⟩ := Option.map_eq_some_iff.mp h
  have hunique := usernames_unique oneStock s (Machine.runs_reachable hrun)
  exact ⟨s, hrun, hjoined, hunique.1, hunique.2.1⟩

end Cse344.Final
