import Cse344.HW4.Analyzer
import Mathlib.Algebra.BigOperators.Group.Finset.Piecewise
import Mathlib.Algebra.BigOperators.Group.Multiset.Basic
import Mathlib.Algebra.BigOperators.Ring.Finset
import Mathlib.Algebra.Group.Action.Defs
import Mathlib.Tactic.Ring

/-!
# The totals of a level

What a worker's data says of the entries it has processed, what the merges make of the workers'
data, and the totals of the level in terms of its entries alone (`HW4/src/processes/analyzer.c`
52-189).

* A level has three accounts of its score: `total_weighted_score`, the keyword scores and the
  weights of the hits. All of them are sums over entries, whatever worker an entry went to.

Results:
* `workerLoop_spec`: what a worker's data says of its entries.
* `merges_spec`: what the merges make of the workers' data.
* **`level_totals`**: whatever worker an entry went to, and in whatever order the workers merged,
  the totals are those of one scan of the entries, and the three accounts of the score agree.

Out of scope: the sources, which depend on the order (`Cse344.HW4.TopSources`), and scores above
`2 ^ 53`.
-/

namespace Cse344.HW4

open Cse344.Lib

variable {args : Args}

/-- The hits of keyword `i` in an entry's message. -/
def hitsAt (args : Args) (i : ℕ) (entry : LogEntry) : ℕ :=
  ((args.keywords.map (countKeyword entry.message))[i]?).getD 0

/-- The places of a list, one by one, add up to its sum. -/
theorem sum_range_getD (l : List ℕ) : ∑ i ∈ Finset.range l.length, (l[i]?).getD 0 = l.sum := by
  induction l with
  | nil => rfl
  | cons a l ih =>
    rw [List.length_cons, Finset.sum_range_succ', List.sum_cons, ← ih]
    simp [add_comm]

/-- All keywords' hits are each keyword's. -/
theorem sum_hitsAt (entry : LogEntry) :
    ∑ i ∈ Finset.range args.keywords.length, hitsAt args i entry = hitsOf args entry := by
  have h := sum_range_getD (args.keywords.map (countKeyword entry.message))
  rwa [List.length_map] at h

theorem hitsAt_eq {i : ℕ} (h : i < args.keywords.length) (entry : LogEntry) :
    hitsAt args i entry = countKeyword entry.message args.keywords[i] := by
  simp [hitsAt, h]

/-! ## A worker -/

/-- The loop over the keywords. -/
theorem scoreKeywords_spec (weight : ℕ) (message : CStr) : ∀ (words : List CStr) (i : ℕ)
    (tls : TlsData) (totalHits : ℕ),
    let counts := words.map (countKeyword message)
    let r := scoreKeywords weight message words i tls totalHits
    r.1.totalScore = tls.totalScore + counts.sum * weight ∧
      (∀ k, r.1.keywordScores k =
        tls.keywordScores k + if i ≤ k then (counts[k - i]?).getD 0 * weight else 0) ∧
      r.1.entryCount = tls.entryCount ∧ r.1.sources = tls.sources ∧
      r.1.threadSlot = tls.threadSlot ∧ r.2 = totalHits + counts.sum
  | [], i, tls, totalHits => by simp [scoreKeywords]
  | word :: words, i, tls, totalHits => by
    obtain ⟨hs, hk, hc, hsrc, hslot, hh⟩ := scoreKeywords_spec weight message words (i + 1)
      { tls with
        keywordScores := Function.update tls.keywordScores i
          (tls.keywordScores i + countKeyword message word * weight)
        totalScore := tls.totalScore + countKeyword message word * weight }
      (totalHits + countKeyword message word)
    refine ⟨?_, fun k => ?_, hc, hsrc, hslot, ?_⟩
    · rw [scoreKeywords, hs, List.map_cons, List.sum_cons]
      ring
    · rw [scoreKeywords, hk]
      dsimp only
      rcases lt_trichotomy k i with hlt | rfl | hgt
      · rw [Function.update_of_ne hlt.ne, if_neg (by omega), if_neg (by omega)]
      · rw [Function.update_self, if_neg (by omega), if_pos (le_refl k)]
        simp
      · obtain ⟨d, rfl⟩ : ∃ d, k = i + 1 + d := ⟨k - (i + 1), by omega⟩
        rw [Function.update_of_ne (by omega), if_pos (by omega), if_pos (by omega)]
        simp [show i + 1 + d - i = d + 1 by omega]
    · rw [scoreKeywords, hh, List.map_cons, List.sum_cons]
      ring

/-- One entry. -/
theorem processEntry_spec (args : Args) (weight : ℕ) (tls : TlsData) (entry : LogEntry) :
    let r := processEntry args weight tls entry
    r.totalScore = tls.totalScore + hitsOf args entry * weight ∧
      (∀ k, r.keywordScores k = tls.keywordScores k + hitsAt args k entry * weight) ∧
      r.entryCount = tls.entryCount + 1 ∧ r.threadSlot = tls.threadSlot ∧
      r.sources = if 0 < hitsOf args entry then
        addSourceHit tls.sources entry.source (hitsOf args entry * weight) else tls.sources := by
  obtain ⟨hs, hk, hc, hsrc, hslot, hh⟩ :=
    scoreKeywords_spec weight entry.message args.keywords 0 tls 0
  rw [Nat.zero_add] at hh
  simp only [Nat.zero_le, if_true, Nat.sub_zero] at hk
  simp only [processEntry, hh]
  split <;> simp_all [hitsOf, hitsAt]

/-- **What a worker's data says of its entries.** -/
theorem workerLoop_spec (args : Args) (weight : ℕ) : ∀ (popped : List LogEntry) (tls : TlsData),
    let entries := popped.takeWhile fun e => !e.isEof
    let r := workerLoop args weight tls popped
    r.totalScore = tls.totalScore + (entries.map (hitsOf args)).sum * weight ∧
      (∀ k, r.keywordScores k =
        tls.keywordScores k + (entries.map (hitsAt args k)).sum * weight) ∧
      r.entryCount = tls.entryCount + entries.length ∧ r.threadSlot = tls.threadSlot
  | [], tls => by simp [workerLoop]
  | entry :: popped, tls => by
    cases he : entry.isEof with
    | true => simp [workerLoop, he]
    | false =>
      obtain ⟨hs, hk, hc, hslot, _⟩ := processEntry_spec args weight tls entry
      obtain ⟨hs', hk', hc', hslot'⟩ :=
        workerLoop_spec args weight popped (processEntry args weight tls entry)
      simp only [workerLoop, he, Bool.false_eq_true, if_false, Bool.not_false,
        List.takeWhile_cons_of_pos, List.map_cons, List.sum_cons, List.length_cons]
      refine ⟨?_, fun k => ?_, ?_, hslot'.trans hslot⟩
      · rw [hs', hs]
        ring
      · rw [hk', hk]
        ring
      · rw [hc', hc]
        ring

theorem Worker.tls_spec (args : Args) (lv : Level) (w : Worker) :
    (w.tls args lv).totalScore = (w.entries.map (hitsOf args)).sum * getLevelWeight lv ∧
      (∀ k, (w.tls args lv).keywordScores k =
        (w.entries.map (hitsAt args k)).sum * getLevelWeight lv) ∧
      (w.tls args lv).entryCount = w.entries.length ∧ (w.tls args lv).threadSlot = w.workerId := by
  obtain ⟨hs, hk, hc, hslot⟩ :=
    workerLoop_spec args (getLevelWeight lv) w.popped (newTls w.workerId)
  exact ⟨hs.trans (Nat.zero_add _), fun k => (hk k).trans (Nat.zero_add _),
    hc.trans (Nat.zero_add _), hslot⟩

/-! ## The merges -/

/-- Setting a place that was `0` adds to the sum. -/
theorem sum_update_zero {f : ℕ → ℕ} {n i v : ℕ} (hi : i < n) (hf : f i = 0) :
    ∑ k ∈ Finset.range n, Function.update f i v k = ∑ k ∈ Finset.range n, f k + v := by
  have hi : i ∈ Finset.range n := Finset.mem_range.mpr hi
  rw [Finset.sum_update_of_mem hi, ← Finset.add_sum_erase _ f hi, hf, Nat.zero_add, Nat.add_comm,
    Finset.sdiff_singleton_eq_erase]

/-- The workers of `ws` run their destructors. -/
def mergeAll (args : Args) (lv : Level) (r : LevelResult) (ws : List Worker) : LevelResult :=
  ws.foldl (fun r w => tlsDestructor args r (w.tls args lv)) r

/-- What a function of the entries adds up to over the workers of `ws`. -/
def workersSum (ws : List Worker) (f : LogEntry → ℕ) : ℕ :=
  (ws.map fun w => (w.entries.map f).sum).sum

@[simp] theorem workersSum_cons (w : Worker) (ws : List Worker) (f : LogEntry → ℕ) :
    workersSum (w :: ws) f = (w.entries.map f).sum + workersSum ws f := rfl

/-- **What the merges make of the workers' data.** -/
theorem merges_spec (args : Args) (lv : Level) : ∀ (ws : List Worker) (r : LevelResult),
    (mergeAll args lv r ws).totalEntries = r.totalEntries + workersSum ws (fun _ => 1) ∧
      (mergeAll args lv r ws).totalWeightedScore =
        r.totalWeightedScore + workersSum ws (hitsOf args) * getLevelWeight lv ∧
      ∀ i < args.keywords.length, (mergeAll args lv r ws).perKeywordScore i =
        r.perKeywordScore i + workersSum ws (hitsAt args i) * getLevelWeight lv
  | [], r => by simp [mergeAll, workersSum]
  | w :: ws, r => by
    obtain ⟨hs, hk, hc, _⟩ := w.tls_spec args lv
    obtain ⟨hc', hs', hk'⟩ := merges_spec args lv ws (tlsDestructor args r (w.tls args lv))
    refine ⟨hc'.trans ?_, hs'.trans ?_, fun i hi => (hk' i hi).trans ?_⟩
    · simp only [tlsDestructor, hc, workersSum_cons, List.map_const', List.sum_replicate,
        smul_eq_mul, mul_one, Nat.add_assoc]
    · simp only [tlsDestructor, hs, workersSum_cons]
      ring
    · simp only [tlsDestructor, hi, if_true, hk, workersSum_cons]
      ring

/-- The slots of `per_thread_score` add up, the workers' ids being different. -/
theorem perThread_spec (args : Args) (lv : Level) : ∀ (ws : List Worker) (r : LevelResult),
    (ws.map Worker.workerId).Nodup → (∀ w ∈ ws, r.perThreadScore w.workerId = 0) →
    ∑ slot ∈ Finset.range maxWorkers, (mergeAll args lv r ws).perThreadScore slot =
      ∑ slot ∈ Finset.range maxWorkers, r.perThreadScore slot +
        workersSum ws (hitsOf args) * getLevelWeight lv
  | [], r, _, _ => by simp [mergeAll, workersSum]
  | w :: ws, r, hnodup, hzero => by
    obtain ⟨hs, _, _, hslot⟩ := w.tls_spec args lv
    rw [List.map_cons, List.nodup_cons] at hnodup
    have hr : (tlsDestructor args r (w.tls args lv)).perThreadScore =
        Function.update r.perThreadScore w.workerId
          ((w.entries.map (hitsOf args)).sum * getLevelWeight lv) := by
      simp only [tlsDestructor, hslot, w.workerId_lt, if_true, hs]
    refine (perThread_spec args lv ws _ hnodup.2 fun v hv => ?_).trans ?_
    · have hne : v.workerId ≠ w.workerId := fun heq =>
        hnodup.1 (heq ▸ List.mem_map_of_mem hv)
      rw [hr, Function.update_of_ne hne]
      exact hzero v (List.mem_cons_of_mem w hv)
    · rw [hr, sum_update_zero w.workerId_lt (hzero w List.mem_cons_self), workersSum_cons]
      ring

/-! ## The level -/

/-- Adding up over the entries and over the keywords, in either order. -/
theorem sum_sum_map (s : Multiset LogEntry) (n : ℕ) (f : ℕ → LogEntry → ℕ) :
    ∑ i ∈ Finset.range n, (s.map (f i)).sum = (s.map fun e => ∑ i ∈ Finset.range n, f i e).sum := by
  induction s using Multiset.induction with
  | empty => simp
  | cons e s ih => simp [Finset.sum_add_distrib, ih]

/-- The entries of the level, worker by worker. -/
theorem Crew.sum_entries (c : Crew) (f : LogEntry → ℕ) :
    (c.entries.map f).sum = workersSum c.workers f := by
  rw [Crew.entries]
  induction c.workers with
  | nil => rfl
  | cons w ws ih =>
    rw [List.map_cons, List.sum_cons, Multiset.map_add, Multiset.sum_add, ih, workersSum_cons,
      Multiset.map_coe, Multiset.sum_coe]

/-- The totals of a level are those of its entries, whatever worker took which of them, and in
whatever order the workers merged; the total score is that of the keywords and that of the
threads. -/
theorem level_totals (args : Args) (lv : Level) (c : Crew) :
    (levelResult args lv c).totalEntries = c.entries.card ∧
      (levelResult args lv c).totalWeightedScore = getLevelWeight lv *
        (c.entries.map fun e => (args.keywords.map (countKeyword e.message)).sum).sum ∧
      (∀ (i : ℕ) (hi : i < args.keywords.length), (levelResult args lv c).perKeywordScore i =
        getLevelWeight lv * (c.entries.map fun e => countKeyword e.message args.keywords[i]).sum) ∧
      (levelResult args lv c).totalWeightedScore =
        ∑ i ∈ Finset.range args.keywords.length, (levelResult args lv c).perKeywordScore i ∧
      (levelResult args lv c).totalWeightedScore =
        ∑ slot ∈ Finset.range maxWorkers, (levelResult args lv c).perThreadScore slot := by
  obtain ⟨hc, hs, hk⟩ := merges_spec args lv c.workers noResult
  have ht := perThread_spec args lv c.workers noResult c.nodup fun _ _ => rfl
  have hs : (levelResult args lv c).totalWeightedScore =
      workersSum c.workers (hitsOf args) * getLevelWeight lv := hs.trans (Nat.zero_add _)
  refine ⟨?_, ?_, fun i hi => ?_, ?_, ?_⟩
  · refine hc.trans ?_
    rw [← Crew.sum_entries, Multiset.map_const', Multiset.sum_replicate, smul_eq_mul, mul_one]
    exact Nat.zero_add _
  · rw [hs, Nat.mul_comm, ← Crew.sum_entries]
    rfl
  · refine (hk i hi).trans ?_
    rw [← Crew.sum_entries, Nat.mul_comm, Multiset.map_congr rfl fun e _ => hitsAt_eq hi e]
    exact Nat.zero_add _
  · have hk' : ∀ i ∈ Finset.range args.keywords.length,
        (levelResult args lv c).perKeywordScore i =
          (c.entries.map (hitsAt args i)).sum * getLevelWeight lv := fun i hi => by
      rw [Crew.sum_entries]
      exact (hk i (Finset.mem_range.mp hi)).trans (Nat.zero_add _)
    rw [hs, Finset.sum_congr rfl hk', ← Finset.sum_mul, sum_sum_map, ← Crew.sum_entries,
      Multiset.map_congr rfl fun e _ => sum_hitsAt e]
  · rw [hs]
    refine (ht.trans ?_).symm
    simp [noResult]

end Cse344.HW4
