import Cse344.HW4.Safety
import Cse344.HW4.Totals
import Cse344.Lib.Interleave

/-!
# The high-priority score of HW4

Model of `calc_high_priority_score` (`HW4/src/processes/aggregator.c` 13-62), which scores what it
pops from Region D with a weight table and a counting loop of its own, and of `parse_keywords`
(`HW4/src/parser/parser.c` 76-105), which makes the keywords both scores are about.

* The counting loop has no test for an empty keyword; `parse_keywords` makes none
  (`parseKeywords_ne_nil`).
* The dispatcher pushes an entry of a priority source to Region D and then to its Region B. Where no
  push gives up, the data of Region D is the priority data of the Regions B (`Fed`).
* `Consumed` says that nothing is left on the way: the dispatcher has left its loop, Region D is
  empty and the Regions B hold EOF markers only.

Results:
* `hpScoreLoop_eq`: the second loop counts what `count_keyword` counts.
* **`high_priority_score`**: where nothing was dropped and everything was consumed, the score is
  what the workers added to `total_score` for the entries of the priority sources. So it is at most
  the sum of the levels' totals.

Out of scope: whether the aggregator sees that score in time; see `Cse344.HW4.EndToEnd`.
-/

namespace Cse344.HW4

open Cse344.Lib

variable {R W : ℕ} {u : Setup R W} {s s' : Pipeline R W} {act : Act R W} {args : Args}

/-! ## The keywords -/

/-- The loop of `parse_keywords`, with `room` places left. -/
def keywordsFrom : ℕ → CStr → Option (List CStr)
  | 0, copy => if (strtok (cstr ",") copy).1.isSome then none else some []
  | room + 1, copy =>
    match strtok (cstr ",") copy with
    | (none, _) => some []
    | (some token, rest) =>
      if token.isEmpty then none else (keywordsFrom room rest).map fun words => token :: words

/-- `parse_keywords`; its `strdup` calls are taken to succeed. -/
def parseKeywords (raw : CStr) : Option (List CStr) :=
  match keywordsFrom maxKeywords raw with
  | none => none
  | some words => if words.isEmpty then none else some words

theorem keywordsFrom_ne_nil : ∀ {room : ℕ} {copy : CStr} {words : List CStr},
    keywordsFrom room copy = some words → ∀ word ∈ words, word ≠ []
  | 0, copy, words, h => by
    unfold keywordsFrom at h
    split_ifs at h
    obtain rfl := Option.some.inj h
    simp
  | room + 1, copy, words, h => by
    unfold keywordsFrom at h
    split at h
    · obtain rfl := Option.some.inj h
      simp
    · rename_i token rest _
      split_ifs at h with he
      obtain ⟨rest, hrest, rfl⟩ := Option.map_eq_some_iff.mp h
      rw [List.forall_mem_cons]
      exact ⟨fun hnil => he (by rw [hnil]; rfl), keywordsFrom_ne_nil hrest⟩

/-- A keyword is not empty. -/
theorem parseKeywords_ne_nil {raw : CStr} {words : List CStr} (h : parseKeywords raw = some words) :
    ∀ word ∈ words, word ≠ [] := by
  unfold parseKeywords at h
  split at h
  · cases h
  · rename_i words' hw
    split_ifs at h
    obtain rfl := Option.some.inj h
    exact keywordsFrom_ne_nil hw

/-! ## The score -/

/-- The `weight` of `calc_high_priority_score`. -/
def hpWeight (level : Level) : ℕ :=
  if level = .error then 4
  else if level = .warn then 3
  else if level = .info then 2
  else if level = .debug then 1
  else 0

/-- The loop of `calc_high_priority_score` over the keywords. -/
def hpScoreWords (weight : ℕ) (message : CStr) : List CStr → ℕ → ℕ
  | [], score => score
  | word :: words, score =>
    hpScoreWords weight message words (score + countFrom word message * weight)

/-- Its loop over the entries it pops from Region D. -/
def hpScoreLoop (args : Args) : List LogEntry → ℕ → ℕ
  | [], score => score
  | entry :: rest, score =>
    hpScoreLoop args rest
      (if entry.isEof then score
      else hpScoreWords (hpWeight entry.level) entry.message args.keywords score)

/-- `calc_high_priority_score`, by what it pops. -/
def calcHighPriorityScore (args : Args) (popped : List LogEntry) : ℕ := hpScoreLoop args popped 0

/-- What a worker adds to `total_score` for those entries it pops that satisfy `p`. -/
def scoreAdded (args : Args) (weight : ℕ) (p : LogEntry → Bool) : TlsData → List LogEntry → ℕ
  | _, [] => 0
  | tls, entry :: rest =>
    if entry.isEof then 0
    else
      (if p entry then (processEntry args weight tls entry).totalScore - tls.totalScore else 0) +
        scoreAdded args weight p (processEntry args weight tls entry) rest

theorem hpWeight_eq (level : Level) : hpWeight level = getLevelWeight level := by
  cases level <;> rfl

/-- The score of a data entry, of a level of weight `weight`. -/
def entryScore (args : Args) (weight : ℕ) (entry : LogEntry) : ℕ := hitsOf args entry * weight

/-- Where no keyword is empty, the two counting loops agree. -/
theorem hpScoreWords_eq (weight : ℕ) (message : CStr) : ∀ (words : List CStr) (score : ℕ),
    (∀ word ∈ words, word ≠ []) → hpScoreWords weight message words score =
      score + (words.map (countKeyword message)).sum * weight
  | [], score, _ => by simp [hpScoreWords]
  | word :: words, score, hne => by
    rw [List.forall_mem_cons] at hne
    have hcount : countKeyword message word = countFrom word message := by
      rw [countKeyword, if_neg fun hlen => hne.1 (List.length_eq_zero_iff.mp hlen)]
    rw [hpScoreWords, hpScoreWords_eq weight message words _ hne.2, List.map_cons, List.sum_cons,
      hcount]
    ring

theorem hpScoreLoop_eq (hne : ∀ word ∈ args.keywords, word ≠ []) :
    ∀ (popped : List LogEntry) (score : ℕ), hpScoreLoop args popped score =
      score + ((popped.filter fun e => !e.isEof).map
        fun e => entryScore args (getLevelWeight e.level) e).sum
  | [], score => by simp [hpScoreLoop]
  | entry :: rest, score => by
    rw [hpScoreLoop, hpScoreLoop_eq hne rest]
    cases he : entry.isEof with
    | true => simp [he]
    | false =>
      rw [if_neg Bool.false_ne_true, hpScoreWords_eq _ _ _ _ hne, hpWeight_eq,
        List.filter_cons_of_pos (by simp [he]), List.map_cons, List.sum_cons, entryScore, hitsOf]
      ring

/-- What a worker adds for an entry does not depend on what it has added before. -/
theorem scoreAdded_eq (args : Args) (weight : ℕ) (p : LogEntry → Bool) :
    ∀ (popped : List LogEntry) (tls : TlsData), scoreAdded args weight p tls popped =
      ((popped.takeWhile fun e => !e.isEof).map
        fun e => if p e then entryScore args weight e else 0).sum
  | [], _ => rfl
  | entry :: rest, tls => by
    cases he : entry.isEof with
    | true => simp [scoreAdded, he]
    | false =>
      have hs := (processEntry_spec args weight tls entry).1
      simp only [scoreAdded, he, Bool.false_eq_true, if_false, Bool.not_false,
        List.takeWhile_cons_of_pos, List.map_cons, List.sum_cons, hs, Nat.add_sub_cancel_left,
        scoreAdded_eq args weight p rest, entryScore]

/-! ## What Region D and the Regions B were fed -/

/-- No push of the dispatcher gives up. -/
def NoPushGivesUp (_ : Pipeline R W) (act : Act R W) : Prop := act ≠ .dTimeout ∧ act ≠ .bTimeout

instance (s : Pipeline R W) (act : Act R W) : Decidable (NoPushGivesUp s act) :=
  inferInstanceAs (Decidable (_ ∧ _))

/-- The entry that has been to Region D, where it belongs there, and is due to its Region B. -/
def DispatcherPc.dueB : DispatcherPc → List LogEntry
  | .pushingB entry _ => [entry]
  | _ => []

/-- Region D was fed the priority data that the Regions B were fed, or are due. -/
structure Fed (u : Setup R W) (s : Pipeline R W) : Prop where
  pushing : ∀ entry waited, s.dispatcher = .pushingD entry waited → isPriorityData u entry = true
  data : ∀ e ∈ s.poppedD ++ s.d.toList, e.isEof = false
  fed : ∀ lv, dataOf lv (s.poppedD ++ s.d.toList) =
    priorityOf u (dataOf lv (s.pushedB lv) ++ dataOf lv s.dispatcher.dueB)

theorem dataOf_priority {e : LogEntry} (h : isPriorityData u e = true) (lv : Level) :
    priorityOf u (dataOf lv [e]) = dataOf lv [e] := by
  by_cases hlv : e.isDataOf lv
  · rw [dataOf_of_isDataOf hlv]
    simp [priorityOf, h]
  · simp [dataOf, hlv]

/-- An entry that the dispatcher sends to its Region B alone is of no priority source. -/
theorem priorityOf_routeB {entry : LogEntry} (h : s.dispatcher = .popped entry)
    (he : entry.isEof = false)
    (hs : pipelineStep u s .dispatcher = some { s with dispatcher := .pushingB entry false })
    (lv : Level) : priorityOf u (dataOf lv [entry]) = [] := by
  have hp : isPrioritySource u entry.source = false := by
    by_contra hp
    have hD : pipelineStep u s .dispatcher =
        some { s with dispatcher := .pushingD entry false } := by
      simp only [pipelineStep, dispatcherStep, h, he, Bool.false_eq_true, if_false,
        Bool.eq_true_of_not_eq_false hp, if_true]
    have := congrArg Pipeline.dispatcher (Option.some.inj (hD.symm.trans hs))
    cases this
  refine List.filter_eq_nil_iff.mpr fun e hmem => ?_
  rw [List.mem_singleton.mp (List.mem_of_mem_filter hmem), isPriorityData, hp, Bool.and_false]
  exact Bool.false_ne_true

/-- The dispatcher goes on, with the same due to a Region B. -/
theorem Fed.go (h : Fed u s) {pc : DispatcherPc} (hdue : s.dispatcher.dueB = pc.dueB)
    (hpc : ∀ entry waited, pc ≠ .pushingD entry waited) : Fed u { s with dispatcher := pc } where
  pushing := fun entry waited heq => absurd heq (hpc entry waited)
  data := h.data
  fed := fun lv => by
    have hfed := h.fed lv
    rw [hdue] at hfed
    exact hfed

theorem fed_goes {pc : DispatcherPc} (hok : NoPushGivesUp s act) (h : Fed u s)
    (hs : pipelineStep u s act = some { s with dispatcher := pc }) (hg : Goes u s act pc) :
    Fed u { s with dispatcher := pc } := by
  cases hg with
  | routeD entry hpc he hp =>
    refine ⟨?_, h.data, fun lv => ?_⟩
    · rintro _ _ ⟨⟩
      rw [isPriorityData, he, hp]
      rfl
    · have hfed := h.fed lv
      rw [hpc] at hfed
      exact hfed
  | routeB entry hpc he =>
    refine ⟨?_, h.data, fun lv => ?_⟩
    · rintro _ _ ⟨⟩
    · show _ = priorityOf u (_ ++ dataOf lv [entry])
      rw [priorityOf_append, priorityOf_routeB hpc he hs lv, List.append_nil]
      have hfed := h.fed lv
      rw [hpc] at hfed
      simpa [DispatcherPc.dueB, dataOf] using hfed
  | waitD entry hpc =>
    refine ⟨?_, h.data, fun lv => ?_⟩
    · rintro _ _ ⟨⟩
      exact h.pushing _ _ hpc
    · have hfed := h.fed lv
      rw [hpc] at hfed
      exact hfed
  | dropD => exact absurd rfl hok.1
  | waitB entry hpc => exact h.go (by rw [hpc]; rfl) (by simp)
  | loop hpc => exact h.go (by rw [hpc]; rfl) (by simp)
  | leave hpc => exact h.go (by rw [hpc]; rfl) (by simp)
  | expire hpc => exact h.go (by rw [hpc]; rfl) (by simp)
  | close _ hpc => exact h.go (by rw [hpc]; rfl) (by simp)
  | skip _ hpc => exact h.go (by rw [hpc]; rfl) (by simp)
  | closed _ _ hpc => exact h.go (by rw [hpc]; rfl) (by simp)
  | force _ _ hpc => exact h.go (by rw [hpc]; rfl) (by simp)
  | forced hpc => exact h.go (by rw [hpc]; rfl) (by simp)

/-- The dispatcher pushes an EOF marker to a Region B. -/
theorem Fed.mark (h : Fed u s) {pc : DispatcherPc} (hdue : s.dispatcher.dueB = pc.dueB)
    (hpc : ∀ entry waited, pc ≠ .pushingD entry waited) (lv : Level) (b : RegionB) :
    Fed u { s.pushB lv b (eofEntry .error) with dispatcher := pc } where
  pushing := fun entry waited heq => absurd heq (hpc entry waited)
  data := h.data
  fed := fun lv' => by
    have hsame : dataOf lv' (Function.update s.pushedB lv (s.pushedB lv ++ [eofEntry .error]) lv') =
        dataOf lv' (s.pushedB lv') := by
      by_cases hlv : lv' = lv
      · rw [hlv, Function.update_self, dataOf_append, dataOf_eofEntry, List.append_nil]
      · rw [Function.update_of_ne hlv]
    have hfed := h.fed lv'
    rw [hdue, ← hsame] at hfed
    exact hfed

theorem fed_step (hok : NoPushGivesUp s act) (h : Fed u s) (hs : pipelineStep u s act = some s') :
    Fed u s' := by
  cases pipelineStep_move hs with
  | go act pc hg => exact fed_goes hok h hs hg
  | popA entry a hpc =>
    have hgo : Fed u { s with dispatcher := .popped entry } := h.go (by rw [hpc]; rfl) (by simp)
    exact ⟨hgo.pushing, hgo.data, hgo.fed⟩
  | sendEof lv b hpc =>
    have hmark : Fed u { s.pushB lv b (eofEntry .error) with dispatcher := .looping } :=
      h.mark (by rw [hpc]; rfl) (by simp) lv b
    exact ⟨hmark.pushing, hmark.data, hmark.fed⟩
  | forcedEof lv rest b hpc => exact h.mark (by rw [hpc]; rfl) (by simp) lv b
  | pushD entry waited d hpc hd =>
    have hp := h.pushing entry waited hpc
    have he : entry.isEof = false := by
      rw [isPriorityData, Bool.and_eq_true, Bool.not_eq_true'] at hp
      exact hp.1
    refine ⟨?_, fun e hmem => ?_, fun lv => ?_⟩
    · rintro _ _ ⟨⟩
    · rw [hd, ← List.append_assoc, List.mem_append, List.mem_singleton] at hmem
      rcases hmem with hmem | rfl
      · exact h.data e hmem
      · exact he
    · have hfed := h.fed lv
      rw [hpc] at hfed
      show dataOf lv (s.poppedD ++ d.toList) = priorityOf u (_ ++ dataOf lv [entry])
      rw [hd, ← List.append_assoc, dataOf_append, hfed, priorityOf_append, priorityOf_append,
        dataOf_priority hp]
      simp [DispatcherPc.dueB, dataOf]
  | pushB entry waited b hpc =>
    refine ⟨?_, h.data, fun lv => ?_⟩
    · rintro _ _ ⟨⟩
    · have hfed := h.fed lv
      rw [hpc] at hfed
      refine hfed.trans (congrArg (priorityOf u) ?_)
      show _ = dataOf lv (Function.update s.pushedB entry.level _ lv) ++ []
      by_cases hlv : lv = entry.level
      · subst hlv
        simp [DispatcherPc.dueB, dataOf]
      · rw [Function.update_of_ne hlv, DispatcherPc.dueB, dataOf_other hlv]
  | giveUp => exact absurd rfl hok.2
  | finish hpc =>
    have hgo : Fed u { s with dispatcher := .returned } := h.go (by rw [hpc]; rfl) (by simp)
    exact ⟨hgo.pushing, hgo.data, hgo.fed⟩
  | popD entry d hd =>
    have hsame : s.poppedD ++ [entry] ++ d.toList = s.poppedD ++ s.d.toList := by
      rw [hd, List.append_assoc]
      rfl
    refine ⟨h.pushing, fun e hmem => h.data e (hsame ▸ hmem), fun lv => ?_⟩
    have hfed := h.fed lv
    rw [← hsame] at hfed
    exact hfed
  | _ => exact ⟨h.pushing, h.data, h.fed⟩

theorem fed_init : Fed u (initial u) where
  pushing := by simp [initial]
  data := by
    intro e hmem
    cases hmem
  fed := fun _ => rfl

/-! ## What a worker has popped -/

/-- What worker `w` of level `lv` has popped. -/
def Pipeline.poppedBy (s : Pipeline R W) (lv : Level) (w : Fin W) : List LogEntry :=
  ((s.poppedB lv).filter fun x => x.1 = w).map Prod.snd

/-- A worker in its loop has popped data alone, and one that has left it no data after its EOF
marker. -/
structure Looping (s : Pipeline R W) : Prop where
  data : ∀ lv w, s.workers lv w = .popping → ∀ e ∈ s.poppedBy lv w, e.isEof = false
  whole : ∀ lv w, (s.poppedBy lv w).takeWhile (fun e => !e.isEof) =
    (s.poppedBy lv w).filter fun e => !e.isEof

/-- A worker leaves its loop; it has popped what it had. -/
theorem Looping.leave (h : Looping s) {lv : Level} {w : Fin W} {pc : WorkerPc}
    (hpc : pc ≠ .popping) : Looping (s.setWorker lv w pc) where
  data := fun lv' w' hw => by
    refine h.data lv' w' ?_
    by_cases hlv : lv' = lv
    · subst hlv
      by_cases hww : w' = w
      · subst hww
        simp only [setWorker_workers, Function.update_self] at hw
        exact absurd hw hpc
      · simpa [hww] using hw
    · simpa [hlv] using hw
  whole := h.whole

theorem looping_step (h : Looping s) (hm : Move u s act s') : Looping s' := by
  cases hm with
  | popB lv w entry b hpc hb hp =>
    have hpop : ∀ lv' w', Pipeline.poppedBy
        { s.setWorker lv w (if entry.isEof then .barrier else .popping) with
          b := Function.update s.b lv b
          poppedB := Function.update s.poppedB lv (s.poppedB lv ++ [(w, entry)]) } lv' w' =
        s.poppedBy lv' w' ++ if lv' = lv ∧ w' = w then [entry] else [] := by
      intro lv' w'
      by_cases hlv : lv' = lv
      · subst hlv
        by_cases hw : w' = w
        · subst hw
          simp [Pipeline.poppedBy]
        · simp [Pipeline.poppedBy, hw, Ne.symm hw]
      · simp [Pipeline.poppedBy, hlv]
    refine ⟨fun lv' w' hw => ?_, fun lv' w' => ?_⟩
    · rw [hpop]
      by_cases hself : lv' = lv ∧ w' = w
      · obtain ⟨rfl, rfl⟩ := hself
        have he : entry.isEof = false := by
          by_contra he
          simp [Bool.eq_true_of_not_eq_false he] at hw
        rw [if_pos ⟨rfl, rfl⟩]
        intro e hmem
        rcases List.mem_append.mp hmem with hmem | hmem
        · exact h.data lv' w' hpc e hmem
        · rw [List.mem_singleton.mp hmem]
          exact he
      · rw [if_neg hself, List.append_nil]
        refine h.data lv' w' ?_
        by_cases hlv : lv' = lv
        · subst hlv
          simpa [show w' ≠ w from fun hw' => hself ⟨rfl, hw'⟩] using hw
        · simpa [hlv] using hw
    · rw [hpop]
      by_cases hself : lv' = lv ∧ w' = w
      · obtain ⟨rfl, rfl⟩ := hself
        have hdata : ∀ e ∈ s.poppedBy lv' w', (!e.isEof) = true := fun e hmem => by
          rw [h.data lv' w' hpc e hmem]
          rfl
        rw [if_pos ⟨rfl, rfl⟩, List.takeWhile_append_of_pos hdata, List.filter_append,
          List.filter_eq_self.mpr hdata]
        cases he : entry.isEof <;> simp [he]
      · rw [if_neg hself, List.append_nil]
        exact h.whole lv' w'
  | drained lv w hpc => exact h.leave (by simp)
  | passed lv w hpc => exact h.leave (by simp)
  | _ => exact ⟨h.data, h.whole⟩

theorem looping_init : Looping (initial u) where
  data := fun _ _ _ e hmem => by cases hmem
  whole := fun _ _ => rfl

/-! ## The two scores -/

/-- The dispatcher has left its loop, and all it pushed was consumed. -/
structure Consumed (s : Pipeline R W) : Prop where
  left : s.dispatcher.left = true
  regionD : s.d.toList = []
  regionB : ∀ lv, ∀ e ∈ (s.b lv).toList, e.isEof = true

/-- `c` is the crew of level `lv`: the workers of the run, in the order of their destructors. -/
def Pipeline.CrewOf (s : Pipeline R W) (lv : Level) (c : Crew) : Prop :=
  (c.workers.map fun w => (w.workerId, w.popped)).Perm
    ((List.finRange W).map fun w => (w.val, s.poppedBy lv w))

/-- Data is what it adds up to level by level. -/
theorem sum_by_level {l : List LogEntry} (hl : ∀ e ∈ l, e.isEof = false) (f : LogEntry → ℕ) :
    (l.map f).sum = ∑ lv, ((dataOf lv l).map f).sum := by
  have hsnd : ∀ m : List LogEntry, (m.map fun e => (e.level, e)).map Prod.snd = m := fun m => by
    rw [List.map_map]
    exact List.map_id m
  have htag := Interleaves.sum_map_filter_tag (l.map fun e => (e.level, e)) f
  rw [hsnd] at htag
  rw [← htag]
  refine Finset.sum_congr rfl fun lv _ => congrArg (fun m => (List.map f m).sum) ?_
  rw [List.filter_map, hsnd]
  refine List.filter_congr fun e hmem => ?_
  simp [LogEntry.isDataOf, hl e hmem]

/-- What the workers of a level add for the priority sources. -/
theorem sum_scoreAdded (h : Looping s) (lv : Level) :
    ∑ w : Fin W, scoreAdded args (getLevelWeight lv) (fun e => isPrioritySource u e.source)
        (newTls w) (s.poppedBy lv w) =
      ((priorityOf u ((s.poppedB lv).map Prod.snd)).map
        (entryScore args (getLevelWeight lv))).sum := by
  have hworker : ∀ w : Fin W, scoreAdded args (getLevelWeight lv)
      (fun e => isPrioritySource u e.source) (newTls w) (s.poppedBy lv w) =
      ((s.poppedBy lv w).map
        fun e => if isPriorityData u e then entryScore args (getLevelWeight lv) e else 0).sum := by
    intro w
    rw [scoreAdded_eq, h.whole lv w]
    induction s.poppedBy lv w with
    | nil => rfl
    | cons e l ih =>
      cases he : e.isEof with
      | true => simp [he, isPriorityData, ih]
      | false => simp [he, isPriorityData, ih]
  rw [Finset.sum_congr rfl fun w _ => hworker w]
  refine (Interleaves.sum_map_filter_tag (s.poppedB lv) _).trans ?_
  rw [List.sum_map_ite]
  simp [priorityOf]

/-- Where all was consumed, Region D has handed on the priority data that the workers popped. -/
theorem Consumed.popped (h : Consumed s) (hfed : Fed u s) (hflow : Flow s) (lv : Level) :
    dataOf lv s.poppedD = priorityOf u ((s.poppedB lv).map Prod.snd) := by
  have hdue : s.dispatcher.dueB = [] := by
    have hl := h.left
    cases hpc : s.dispatcher <;> rw [hpc] at hl <;> first | rfl | cases hl
  have hD := hfed.fed lv
  rw [h.regionD, List.append_nil, hdue] at hD
  have hown : dataOf lv (s.pushedB lv) = (s.pushedB lv).filter fun e => !e.isEof := by
    refine List.filter_congr fun e hmem => ?_
    cases he : e.isEof with
    | true => simp [LogEntry.isDataOf, he]
    | false => simp [LogEntry.isDataOf, he, hflow.own lv e hmem he]
  have hB : ((s.b lv).toList.filter fun e => !e.isEof) = [] :=
    List.filter_eq_nil_iff.mpr fun e hmem => by simp [h.regionB lv e hmem]
  rw [hD, show dataOf lv ([] : List LogEntry) = [] from rfl, List.append_nil, hown,
    hflow.popped lv, List.filter_append, hB, List.append_nil]
  rw [priorityOf, priorityOf, List.filter_filter]
  refine List.filter_congr fun e _ => ?_
  cases he : e.isEof <;> simp [isPriorityData, he]

/-- The total of a level is what its workers add for all entries. -/
theorem total_eq_scoreAdded {lv : Level} {c : Crew} (h : s.CrewOf lv c) :
    (levelResult args lv c).totalWeightedScore =
      ∑ w : Fin W, scoreAdded args (getLevelWeight lv) (fun _ => true) (newTls w)
        (s.poppedBy lv w) := by
  have hworker : ∀ w : Fin W, scoreAdded args (getLevelWeight lv) (fun _ => true) (newTls w)
      (s.poppedBy lv w) =
      (((s.poppedBy lv w).takeWhile fun e => !e.isEof).map (hitsOf args)).sum *
        getLevelWeight lv := by
    intro w
    rw [scoreAdded_eq, ← List.sum_map_mul_right]
    rfl
  have hperm := (h.map fun x : ℕ × List LogEntry =>
    ((x.2.takeWhile fun e => !e.isEof).map (hitsOf args)).sum).sum_eq
  rw [List.map_map, List.map_map] at hperm
  have hworkers : workersSum c.workers (hitsOf args) =
      ∑ w : Fin W, (((s.poppedBy lv w).takeWhile fun e => !e.isEof).map (hitsOf args)).sum := by
    rw [Fin.sum_univ_def]
    exact hperm
  have htotal : (levelResult args lv c).totalWeightedScore =
      workersSum c.workers (hitsOf args) * getLevelWeight lv :=
    ((merges_spec args lv c.workers noResult).2.1).trans (Nat.zero_add _)
  rw [htotal, hworkers, Finset.sum_mul]
  exact Finset.sum_congr rfl fun w _ => (hworker w).symm

/-- A worker adds no less for all entries than for some. -/
theorem scoreAdded_le (weight : ℕ) (p : LogEntry → Bool) (tls : TlsData) (popped : List LogEntry) :
    scoreAdded args weight p tls popped ≤ scoreAdded args weight (fun _ => true) tls popped := by
  rw [scoreAdded_eq, scoreAdded_eq]
  refine List.sum_le_sum fun e _ => ?_
  cases p e with
  | true => exact le_refl _
  | false => exact Nat.zero_le _

/-- **The high-priority score agrees with the workers.** In a run in which no push of the dispatcher
gives up, and all that was routed has been consumed, it is what they added for the entries of the
priority sources. -/
theorem high_priority_score (u : Setup R W) (args : Args) {raw : CStr}
    (hraw : parseKeywords raw = some args.keywords) {s : Pipeline R W}
    (h : (pipeline u).ReachableIf NoPushGivesUp s) (hc : Consumed s) :
    calcHighPriorityScore args s.poppedD =
      ∑ lv, ∑ w : Fin W, scoreAdded args (getLevelWeight lv)
        (fun e => isPrioritySource u e.source) (newTls w) (s.poppedBy lv w) ∧
    ∀ crew : Level → Crew, (∀ lv, s.CrewOf lv (crew lv)) →
      calcHighPriorityScore args s.poppedD ≤
        ∑ lv, (levelResult args lv (crew lv)).totalWeightedScore := by
  obtain ⟨hbooks, hflow, hfed, hloop⟩ : Books s ∧ Flow s ∧ Fed u s ∧ Looping s := by
    refine h.induct (I := fun s => Books s ∧ Flow s ∧ Fed u s ∧ Looping s)
      ⟨books_init, flow_init, fed_init, looping_init⟩
      fun s a s' ⟨hb, hfl, hfe, hl⟩ hok hs => ?_
    have hm : Move u s a s' := pipelineStep_move hs
    exact ⟨books_step hb hm, flow_step hb hok.2 hm hfl, fed_step hok hfe hs, looping_step hl hm⟩
  have hdata : ∀ e ∈ s.poppedD, e.isEof = false :=
    fun e hmem => hfed.data e (List.mem_append_left _ hmem)
  have hscore : calcHighPriorityScore args s.poppedD =
      ∑ lv, ∑ w : Fin W, scoreAdded args (getLevelWeight lv)
        (fun e => isPrioritySource u e.source) (newTls w) (s.poppedBy lv w) := by
    have hall : (s.poppedD.filter fun e => !e.isEof) = s.poppedD :=
      List.filter_eq_self.mpr fun e hmem => by simp [hdata e hmem]
    rw [calcHighPriorityScore, hpScoreLoop_eq (parseKeywords_ne_nil hraw), Nat.zero_add, hall,
      sum_by_level hdata]
    refine Finset.sum_congr rfl fun lv _ => ?_
    rw [sum_scoreAdded hloop, ← hc.popped hfed hflow]
    refine congrArg List.sum (List.map_congr_left fun e hmem => ?_)
    rw [(isDataOf_iff.mp (List.of_mem_filter hmem)).2]
  refine ⟨hscore, fun crew hcrew => ?_⟩
  rw [hscore]
  refine Finset.sum_le_sum fun lv _ => ?_
  rw [total_eq_scoreAdded (hcrew lv)]
  exact Finset.sum_le_sum fun w _ => scoreAdded_le _ _ _ _

/-- The keywords of `-k disk,u`. -/
def diskArgs : Args where
  keywords := [cstr "disk", cstr "u"]
  length_le := by decide

/-- What the worker of each level pops of the one file. -/
def oneFilePopped (lv : Level) : List LogEntry :=
  (if lv = .error then [oneError] else []) ++ [eofEntry .error]

theorem maxWorkers_pos : 0 < maxWorkers := by decide

def oneFileCrew (lv : Level) : Crew where
  workers :=
    [{ workerId := 0
       popped := oneFilePopped lv
       workerId_lt := maxWorkers_pos
       parsed := by cases lv <;> decide }]
  nodup := List.nodup_singleton 0

theorem high_priority_score_oneFile :
    ∃ s, (pipeline oneFile).ReachableIf NoPushGivesUp s ∧
      calcHighPriorityScore diskArgs s.poppedD =
        ∑ lv, ∑ w : Fin 1, scoreAdded diskArgs (getLevelWeight lv)
          (fun e => isPrioritySource oneFile e.source) (newTls w) (s.poppedBy lv w) ∧
      calcHighPriorityScore diskArgs s.poppedD ≤
        ∑ lv, (levelResult diskArgs lv (oneFileCrew lv)).totalWeightedScore := by
  have h : ((pipeline oneFile).runs (initial oneFile) (oneFileRun 0 0 ++ [.aggregator])).map
      (fun s => (s.dispatcher.left, s.d.toList,
        decide (∀ lv, (s.b lv).toList.all LogEntry.isEof = true),
        decide (∀ lv w, s.poppedBy lv w = oneFilePopped lv))) = some (true, [], true, true) := by
    decide +kernel
  obtain ⟨s, hrun, hs⟩ := Option.map_eq_some_iff.mp h
  simp only [Prod.mk.injEq, decide_eq_true_eq] at hs
  obtain ⟨hleft, hD, hB, hpopped⟩ := hs
  have hreach : (pipeline oneFile).ReachableIf NoPushGivesUp s :=
    Machine.stepsIf_of_runs hrun (by decide +kernel)
  have hkeywords : parseKeywords (cstr "disk,u") = some diskArgs.keywords := by decide +kernel
  have hscore := high_priority_score oneFile diskArgs hkeywords hreach
    ⟨hleft, hD, fun lv => List.all_eq_true.mp (hB lv)⟩
  refine ⟨s, hreach, hscore.1, hscore.2 oneFileCrew fun lv => ?_⟩
  unfold Pipeline.CrewOf
  simp only [hpopped]
  exact List.Perm.refl _

end Cse344.HW4
