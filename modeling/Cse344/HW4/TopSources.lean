import Cse344.HW4.Totals
import Mathlib.Data.List.TakeWhile

/-!
# The top three sources of a level

The part of `tls_destructor` (`HW4/src/processes/analyzer.c` 77-107) that merges a worker's sources
into the three slots of the level. A source that takes no slot, or loses it to another one, loses
the hits it has brought.

* `mergeSource` is a merge into three slots of `Cse344.Lib.TopSlots` (`mergeSource_merges`), of
  items that are the workers' source lists one after the other (`Crew.items`).
* A worker that meets no more than `MAX_TRACKED_SOURCES` sources has every hit in its list
  (`Worker.sources_spec`), so the items of a source add up to its hits in the level
  (`sourceTotal_perm`).
* `IsTop` says that the slots hold sources of the largest totals, each once and with all its hits,
  and `Outranked` that every source that was merged again while it had no slot is outranked by three
  that were not.
* `topHits` are the hits of the slots, with no regard to which sources of equal hits they are of.

Results:
* `workerLoop_sources`: what a worker's source list says of its entries.
* `isTop_levelResult_iff`: for one order of the merges, `IsTop` exactly if `Outranked`.
* **`top_three_iff`**: the slots hold the three largest sources in every order of the merges, always
  with the same hits, exactly if `Outranked` holds of every order.

Out of scope: workers that meet more sources than they track.
-/

namespace Cse344.HW4

open Cse344.Lib Tally

variable {args : Args} {lv : Level}

/-! ## The merge -/

theorem findSlot_eq_some {top : Fin 3 → SourceEntry} {s : Source} {j : Fin 3}
    (h : findSlot top s = some j) : (top j).key = s := by
  unfold findSlot at h
  split_ifs at h with h0 h1 h2 <;> obtain rfl := Option.some.inj h <;> assumption

theorem findSlot_eq_none {top : Fin 3 → SourceEntry} {s : Source} (h : findSlot top s = none)
    (j : Fin 3) : (top j).key ≠ s := by
  unfold findSlot at h
  split_ifs at h with h0 h1 h2
  match j with
  | 0 => exact h0
  | 1 => exact h1
  | 2 => exact h2

theorem minIdx_le (top : Fin 3 → SourceEntry) (j : Fin 3) :
    (top (minIdx top)).value ≤ (top j).value := by
  unfold minIdx
  dsimp only
  match j with
  | 0 => split_ifs <;> omega
  | 1 => split_ifs <;> omega
  | 2 => split_ifs <;> omega

theorem mergeSource_merges : Merges mergeSource where
  found := fun top s ⟨i, hi⟩ => by
    unfold mergeSource
    split
    · rename_i j hj
      exact ⟨j, findSlot_eq_some hj, by rw [findSlot_eq_some hj]⟩
    · rename_i hnone
      exact absurd hi (findSlot_eq_none hnone i)
  missing := fun top s hs => by
    unfold mergeSource
    split
    · rename_i j hj
      exact absurd (findSlot_eq_some hj) (hs j)
    · exact ⟨minIdx top, minIdx_le top, by rw [Source.strncpy_eq]⟩

/-! ## A worker's sources -/

theorem bumpSource_spec {s : Source} {n : ℕ} : ∀ {l l' : List SourceEntry},
    bumpSource s n l = some l' → l'.map key = l.map key ∧
      (∀ a, total l' a = total l a + if s = a then n else 0) ∧
      ((∀ x ∈ l, 0 < x.value) → ∀ x ∈ l', 0 < x.value)
  | [], _, h => by cases h
  | e :: rest, l', h => by
    unfold bumpSource at h
    split at h
    · rename_i hes
      obtain rfl := Option.some.inj h
      refine ⟨rfl, fun a => ?_, fun hpos => ?_⟩
      · subst hes
        by_cases hea : e.key = a
        · simp only [total, List.filter_cons, hea, decide_true, if_true, List.map_cons,
            List.sum_cons]
          omega
        · simp [total, hea]
      · rw [List.forall_mem_cons] at hpos ⊢
        exact ⟨Nat.add_pos_left hpos.1 n, hpos.2⟩
    · obtain ⟨rest', hrest, rfl⟩ := Option.map_eq_some_iff.mp h
      obtain ⟨hkeys, htot, hpos⟩ := bumpSource_spec hrest
      refine ⟨by rw [List.map_cons, List.map_cons, hkeys], fun a => ?_, fun hall => ?_⟩
      · rw [← List.singleton_append, total_append, htot, ← List.singleton_append (l := rest),
          total_append, Nat.add_assoc]
      · rw [List.forall_mem_cons] at hall ⊢
        exact ⟨hall.1, hpos hall.2⟩

theorem bumpSource_eq_none {s : Source} {n : ℕ} : ∀ {l : List SourceEntry},
    bumpSource s n l = none → ∀ x ∈ l, x.key ≠ s
  | [], _ => by simp
  | e :: rest, h => by
    unfold bumpSource at h
    split at h
    · cases h
    · rename_i hes
      exact List.forall_mem_cons.mpr ⟨hes, bumpSource_eq_none (Option.map_eq_none_iff.mp h)⟩

/-- A list of different sources of `S`, each with hits. -/
structure Tracked (S : Finset Source) (l : List SourceEntry) : Prop where
  nodup : (l.map key).Nodup
  mem : ∀ x ∈ l, x.key ∈ S
  pos : ∀ x ∈ l, 0 < x.value

/-- No hit is dropped while there are no more sources than places. -/
theorem addSourceHit_spec {S : Finset Source} (hcard : S.card ≤ maxTrackedSources)
    {l : List SourceEntry} (h : Tracked S l) {s : Source} (hs : s ∈ S) {n : ℕ} (hn : 0 < n) :
    Tracked S (addSourceHit l s n) ∧
      ∀ a, total (addSourceHit l s n) a = total l a + if s = a then n else 0 := by
  unfold addSourceHit
  split
  · rename_i l' hl'
    obtain ⟨hkeys, htot, hpos⟩ := bumpSource_spec hl'
    refine ⟨⟨hkeys ▸ h.nodup, fun x hx => ?_, hpos h.pos⟩, htot⟩
    obtain ⟨y, hy, hyx⟩ := List.mem_map.mp (hkeys ▸ List.mem_map_of_mem (f := key) hx)
    exact hyx ▸ h.mem y hy
  · rename_i hnone
    have hnew : ∀ x ∈ l, x.key ≠ s := bumpSource_eq_none hnone
    have hroom : l.length < maxTrackedSources := by
      have hsub : (l.map key).toFinset ⊆ S.erase s := fun a ha => by
        obtain ⟨x, hx, rfl⟩ := List.mem_map.mp (List.mem_toFinset.mp ha)
        exact Finset.mem_erase.mpr ⟨hnew x hx, h.mem x hx⟩
      have hle := Finset.card_le_card hsub
      rw [List.toFinset_card_of_nodup h.nodup, List.length_map] at hle
      exact hle.trans_lt ((Finset.card_erase_lt_of_mem hs).trans_le hcard)
    rw [if_neg (not_le.mpr hroom), Source.strncpy_eq]
    refine ⟨⟨?_, fun x hx => ?_, fun x hx => ?_⟩, fun a => ?_⟩
    · rw [List.map_append, List.nodup_append]
      refine ⟨h.nodup, List.nodup_singleton _, fun a ha b hb => ?_⟩
      obtain ⟨x, hx, rfl⟩ := List.mem_map.mp ha
      rw [List.map_singleton, List.mem_singleton] at hb
      exact hb ▸ hnew x hx
    · rcases List.mem_append.mp hx with hx | hx
      · exact h.mem x hx
      · exact List.mem_singleton.mp hx ▸ hs
    · rcases List.mem_append.mp hx with hx | hx
      · exact h.pos x hx
      · exact List.mem_singleton.mp hx ▸ hn
    · rw [total_append, total_singleton]

/-- The weighted hits of an entry, counted for source `s`. -/
def hitsFor (args : Args) (lv : Level) (s : Source) (e : LogEntry) : ℕ :=
  if e.source = s then hitsOf args e * getLevelWeight lv else 0

/-- **What a worker's source list says of its entries.** -/
theorem workerLoop_sources (args : Args) (lv : Level) {S : Finset Source}
    (hcard : S.card ≤ maxTrackedSources) :
    ∀ (popped : List LogEntry) (tls : TlsData),
      (∀ e ∈ popped.takeWhile (fun e => !e.isEof), e.source ∈ S) → Tracked S tls.sources →
      let r := workerLoop args (getLevelWeight lv) tls popped
      Tracked S r.sources ∧ ∀ a, total r.sources a = total tls.sources a +
        ((popped.takeWhile fun e => !e.isEof).map (hitsFor args lv a)).sum
  | [], tls, _, h => by simpa [workerLoop] using h
  | entry :: popped, tls, hmem, h => by
    cases he : entry.isEof with
    | true => simpa [workerLoop, he] using h
    | false =>
      simp only [he, Bool.not_false, List.takeWhile_cons_of_pos, List.forall_mem_cons] at hmem
      obtain ⟨_, _, _, _, hsrc⟩ :=
        processEntry_spec args (getLevelWeight lv) tls entry
      have hstep : Tracked S (processEntry args (getLevelWeight lv) tls entry).sources ∧
          ∀ a, total (processEntry args (getLevelWeight lv) tls entry).sources a =
            total tls.sources a + hitsFor args lv a entry := by
        rw [hsrc]
        split
        · rename_i hpos
          exact addSourceHit_spec hcard h hmem.1 (Nat.mul_pos hpos (getLevelWeight_pos lv))
        · rename_i hzero
          refine ⟨h, fun a => ?_⟩
          simp [hitsFor, Nat.eq_zero_of_not_pos hzero]
      obtain ⟨hr, htot⟩ := workerLoop_sources args lv hcard popped _ hmem.2 hstep.1
      simp only [workerLoop, he, Bool.false_eq_true, if_false, Bool.not_false,
        List.takeWhile_cons_of_pos, List.map_cons, List.sum_cons]
      refine ⟨hr, fun a => ?_⟩
      rw [htot, hstep.2, Nat.add_assoc]

/-- The sources a worker meets. -/
def Worker.metSources (w : Worker) : Finset Source := (w.entries.map LogEntry.source).toFinset

theorem Worker.sources_spec (args : Args) (lv : Level) (w : Worker)
    (h : w.metSources.card ≤ maxTrackedSources) :
    Tracked w.metSources (w.tls args lv).sources ∧
      ∀ a, total (w.tls args lv).sources a = (w.entries.map (hitsFor args lv a)).sum := by
  obtain ⟨ht, htot⟩ := workerLoop_sources args lv h w.popped (newTls w.workerId)
    (fun e he => List.mem_toFinset.mpr (List.mem_map_of_mem he))
    ⟨List.nodup_nil, by simp [newTls], by simp [newTls]⟩
  exact ⟨ht, fun a => (htot a).trans (Nat.zero_add _)⟩

/-! ## The level -/

/-- The workers' source lists, in the order they are merged. -/
def Crew.items (args : Args) (lv : Level) (c : Crew) : List SourceEntry :=
  c.workers.flatMap fun w => (w.tls args lv).sources

/-- The weighted hits of source `s`: of all its entries, over all workers. -/
def sourceTotal (args : Args) (lv : Level) (c : Crew) (s : Source) : ℕ :=
  (c.entries.map (hitsFor args lv s)).sum

theorem levelResult_top (args : Args) (lv : Level) (c : Crew) :
    (levelResult args lv c).top = slots mergeSource .empty (c.items args lv) := by
  have h : ∀ (ws : List Worker) (r : LevelResult), (mergeAll args lv r ws).top =
      (ws.flatMap fun w => (w.tls args lv).sources).foldl mergeSource r.top := by
    intro ws
    induction ws with
    | nil => exact fun _ => rfl
    | cons w ws ih =>
      intro r
      rw [List.flatMap_cons, List.foldl_append]
      exact ih _
  exact h c.workers noResult

theorem total_items {c : Crew} (hmax : ∀ w ∈ c.workers, w.metSources.card ≤ maxTrackedSources) :
    total (c.items args lv) = sourceTotal args lv c := by
  funext s
  rw [sourceTotal, Crew.sum_entries, Crew.items]
  generalize c.workers = ws at hmax
  induction ws with
  | nil => rfl
  | cons w ws ih =>
    rw [List.forall_mem_cons] at hmax
    rw [List.flatMap_cons, total_append, (w.sources_spec args lv hmax.1).2, ih hmax.2,
      workersSum_cons]

/-- A parsed entry has a source, so no item takes a free slot for its own. -/
theorem items_proper {c : Crew} (hmax : ∀ w ∈ c.workers, w.metSources.card ≤ maxTrackedSources) :
    Proper .empty (c.items args lv) := by
  intro x hx
  obtain ⟨w, hw, hx⟩ := List.mem_flatMap.mp hx
  obtain ⟨ht, _⟩ := w.sources_spec args lv (hmax w hw)
  refine ⟨?_, ht.pos x hx⟩
  obtain ⟨e, he, hex⟩ := List.mem_map.mp (List.mem_toFinset.mp (ht.mem x hx))
  rw [← hex]
  have hdata : e.isEof = false := by simpa using List.mem_takeWhile_imp he
  exact (w.parsed e (List.takeWhile_prefix _ |>.subset he) hdata).source_ne

/-- The hits of the slots, in no order. -/
def topHits (args : Args) (lv : Level) (c : Crew) : Multiset ℕ :=
  Finset.univ.val.map fun j => ((levelResult args lv c).top j).value

theorem sourceTotal_perm {c c' : Crew} (hperm : c'.workers.Perm c.workers) :
    sourceTotal args lv c' = sourceTotal args lv c := by
  have hentries : c'.entries = c.entries := (hperm.map _).sum_eq
  funext s
  rw [sourceTotal, sourceTotal, hentries]

/-- One order of the merges finds the three largest sources exactly when every source that was
merged again without a slot is outranked by three that never were. -/
theorem isTop_levelResult_iff {c : Crew}
    (hmax : ∀ w ∈ c.workers, w.metSources.card ≤ maxTrackedSources) :
    IsTop (sourceTotal args lv c) (levelResult args lv c).top ↔
      Outranked mergeSource .empty (c.items args lv) := by
  rw [levelResult_top, ← total_items hmax]
  exact isTop_iff mergeSource_merges (items_proper hmax)

/-- Orders of the merges that find the three largest find the same hits. -/
theorem topHits_eq {c c' : Crew} (hperm : c'.workers.Perm c.workers)
    (h : IsTop (sourceTotal args lv c) (levelResult args lv c).top)
    (h' : IsTop (sourceTotal args lv c') (levelResult args lv c').top) :
    topHits args lv c' = topHits args lv c :=
  (sourceTotal_perm hperm ▸ h').values_eq h

/-- **The three largest sources**: the slots hold them in every order of the merges, always with the
same hits, exactly when in every order each source that was merged again without a slot is outranked
by three that never were. -/
theorem top_three_iff (args : Args) (lv : Level) (c : Crew)
    (hmax : ∀ w ∈ c.workers, w.metSources.card ≤ maxTrackedSources) :
    (∀ c' : Crew, c'.workers.Perm c.workers →
      IsTop (sourceTotal args lv c) (levelResult args lv c').top ∧
        topHits args lv c' = topHits args lv c) ↔
      ∀ c' : Crew, c'.workers.Perm c.workers →
        Outranked mergeSource .empty (c'.items args lv) := by
  have hiff : ∀ c' : Crew, c'.workers.Perm c.workers →
      (IsTop (sourceTotal args lv c) (levelResult args lv c').top ↔
        Outranked mergeSource .empty (c'.items args lv)) := fun c' hperm => by
    rw [← sourceTotal_perm hperm]
    exact isTop_levelResult_iff fun w hw => hmax w (hperm.mem_iff.mp hw)
  constructor
  · exact fun h c' hperm => (hiff c' hperm).mp (h c' hperm).1
  · intro h c' hperm
    have htop := (hiff c' hperm).mpr (h c' hperm)
    have hself := (hiff c (.refl _)).mpr (h c (.refl _))
    exact ⟨htop, topHits_eq hperm hself ((sourceTotal_perm hperm).symm ▸ htop)⟩

/-- No two workers meet the same source. -/
def Crew.Apart (c : Crew) : Prop :=
  c.workers.Pairwise fun w w' => Disjoint w.metSources w'.metSources

/-- Nothing returns in the lists of workers that share no source. -/
theorem outranked_of_apart {c : Crew}
    (hmax : ∀ w ∈ c.workers, w.metSources.card ≤ maxTrackedSources) (hapart : c.Apart) :
    Outranked mergeSource .empty (c.items args lv) := by
  have hnodup : ((c.items args lv).map key).Nodup := by
    rw [Crew.items, List.map_flatMap, List.nodup_flatMap]
    refine ⟨fun w hw => (w.sources_spec args lv (hmax w hw)).1.nodup, ?_⟩
    refine hapart.imp_of_mem fun {w w'} hw hw' hdisj a ha ha' => ?_
    obtain ⟨x, hx, rfl⟩ := List.mem_map.mp ha
    obtain ⟨x', hx', hxx⟩ := List.mem_map.mp ha'
    have hmem := (w.sources_spec args lv (hmax w hw)).1.mem x hx
    have hmem' := (w'.sources_spec args lv (hmax w' hw')).1.mem x' hx'
    exact Finset.disjoint_left.mp hdisj hmem (hxx ▸ hmem')
  exact fun a ha => absurd ha (not_returns_of_nodup hnodup a)

/-- Workers that share no source find the three largest, in every order of the merges. -/
theorem isTop_of_apart {c c' : Crew} (hperm : c'.workers.Perm c.workers)
    (hmax : ∀ w ∈ c.workers, w.metSources.card ≤ maxTrackedSources) (hapart : c.Apart) :
    IsTop (sourceTotal args lv c) (levelResult args lv c').top := by
  have hmax' : ∀ w ∈ c'.workers, w.metSources.card ≤ maxTrackedSources := fun w hw =>
    hmax w (hperm.mem_iff.mp hw)
  have hapart' : c'.Apart := (hperm.pairwise_iff fun h => h.symm).mpr hapart
  rw [← sourceTotal_perm hperm, isTop_levelResult_iff hmax']
  exact outranked_of_apart hmax' hapart'

/-! ## A source that returns -/

def oneKeyword : Args := ⟨[cstr "x"], by decide⟩

/-- A source of one letter. -/
def letter (c : UInt8) : Source := ⟨[c], by simp [maxSourceLen]⟩

/-- An entry of `n` hits from the source `c`. -/
def hitsEntry (c : UInt8) (n : ℕ) : LogEntry := ⟨.debug, letter c, List.replicate n 120, false⟩

def firstWorker : Worker where
  workerId := 0
  popped := [hitsEntry 97 1, hitsEntry 98 2, hitsEntry 99 2, hitsEntry 100 2, eofEntry .error]
  workerId_lt := by decide
  parsed := by decide

/-- One worker, four sources. -/
def oneWorker : Crew := ⟨[firstWorker], by decide⟩

/-- One worker has no other order to merge in. -/
theorem top_three_oneWorker :
    (∀ w ∈ oneWorker.workers, w.metSources.card ≤ maxTrackedSources) ∧
      ∀ c' : Crew, c'.workers.Perm oneWorker.workers →
        IsTop (sourceTotal oneKeyword .debug oneWorker) (levelResult oneKeyword .debug c').top ∧
          topHits oneKeyword .debug c' = topHits oneKeyword .debug oneWorker := by
  have hmax : ∀ w ∈ oneWorker.workers, w.metSources.card ≤ maxTrackedSources := by decide
  refine ⟨hmax, (top_three_iff oneKeyword .debug oneWorker hmax).mpr fun c' hperm a ha => ?_⟩
  have hworkers : c'.workers = [firstWorker] := List.perm_singleton.mp hperm
  have hitems : c'.items oneKeyword .debug = oneWorker.items oneKeyword .debug := by
    unfold Crew.items
    rw [hworkers]
    rfl
  rw [hitems] at ha
  exact absurd ha (not_returns_of_nodup (by decide +kernel) a)

def secondWorker : Worker where
  workerId := 1
  popped := [hitsEntry 97 2]
  workerId_lt := by decide
  parsed := by decide

/-- The second worker has more hits of the source the first worker's fourth source evicts. -/
def twoWorkers : Crew := ⟨[firstWorker, secondWorker], by decide⟩

/-- The evicted source returns with two hits, and is refused; it has three. -/
theorem not_top_three_twoWorkers :
    ¬ ∀ (args : Args) (lv : Level) (c : Crew),
      (∀ w ∈ c.workers, w.metSources.card ≤ maxTrackedSources) →
      IsTop (sourceTotal args lv c) (levelResult args lv c).top := by
  intro hclaim
  have htop := hclaim oneKeyword .debug twoWorkers (by decide)
  have hslots : ∀ j, ((levelResult oneKeyword .debug twoWorkers).top j).key ≠ letter 97 := by
    decide +kernel
  have hle := htop.largest (letter 97) hslots 0
  have htotal : sourceTotal oneKeyword .debug twoWorkers (letter 97) = 3 := by decide +kernel
  have hslot : ((levelResult oneKeyword .debug twoWorkers).top 0).value = 2 := by decide +kernel
  omega

end Cse344.HW4
