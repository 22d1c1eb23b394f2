import Mathlib.Algebra.BigOperators.Group.List.Basic
import SystemsPlayground.Prefetch.Burst

/-!
# `Prefetch.HitLaw` — which accesses of a bursty trace hit

The end results about the two read-ahead hooks over a FIFO pool. With the adaptive hook an access at
offset `j` of its burst hits exactly when `j` is at least 2 and its batch fits into the pool
(`adaptive_hit_law`). The fixed window is the case of equal batches, so the law becomes a cliff: up to the
capacity each burst costs its first two accesses, beyond it nothing ever hits (`fixed_miss_count`).
-/

namespace SystemsPlayground
namespace Prefetch

open Word

/-! ## The adaptive window -/

/-- When every batch fits, a burst misses twice at most. -/
theorem count_misses {hit : Nat → Bool} (hhit : ∀ j, hit j = true ↔ 2 ≤ j) (L : Nat) :
    ((List.range L).map hit).count false = min L 2 := by
  have hval : ∀ j, hit j = decide (2 ≤ j) := fun j => by rw [Bool.eq_iff_iff, hhit, decide_eq_true_iff]
  induction L with
  | zero => rfl
  | succ L ih =>
      rw [List.range_succ, List.map_append, List.count_append, ih, List.map_singleton, hval]
      by_cases hL : 2 ≤ L
      · rw [decide_eq_true hL, List.count_singleton]
        simp
        omega
      · rw [decide_eq_false hL, List.count_singleton]
        simp
        omega

/-- **The hit law of the adaptive read-ahead.** Over a trace of bursts that lie apart, the access at offset
    `j` of any burst hits exactly when `j` is at least 2 and the batch of `j` fits into the pool. So if the
    largest window fits, a burst of length `L` misses exactly `min L 2` times, and if it does not, all
    batches up to that of a hit are still small enough. -/
theorem adaptive_hit_law {malloc : Nat → Option (Nat → Nat)} {pread : Nat → Bool}
    {c blockSize mn mx : Nat} {pool : BufferPool} {bursts : List Burst} (hc : 1 ≤ c) (hlt : c < 2 ^ 64)
    (hmin : 1 ≤ mn) (hmax : mn ≤ mx) (hinit : bufferPoolInit malloc c blockSize = some pool)
    (hread : ∀ b, pread b = true) (hbursts : Apart mx bursts) :
    ∃ hit st',
      adaptiveSimulator.run pread (traceOf bursts) (adaptiveReadaheadInit mn mx, pool) =
        some (bursts.flatMap fun burst => (List.range burst.len).map hit, st') ∧
      (∀ j, hit j = true ↔ 2 ≤ j ∧ ∃ k, InBatch mn mx k j ∧ batchWindow mn mx k ≤ c) ∧
      (mx ≤ c → ∀ L, ((List.range L).map hit).count false = min L 2) ∧
      (c < mx → ∀ j k, hit j = true → InBatch mn mx k j → ∀ k' ≤ k, batchWindow mn mx k' ≤ c) := by
  classical
  let hit : Nat → Bool := fun j =>
    decide (2 ≤ j ∧ ∃ k, InBatch mn mx k j ∧ batchWindow mn mx k ≤ c)
  have hhit : ∀ j, hit j = true ↔ 2 ≤ j ∧ ∃ k, InBatch mn mx k j ∧ batchWindow mn mx k ≤ c :=
    fun j => decide_eq_true_iff
  obtain ⟨st', hrun⟩ := trace_run hmin hmax hread hhit hbursts (adaptiveReadaheadInit mn mx, pool) rfl
    rfl (Holds.init hc hlt hinit) (by simp) (by simp [adaptiveReadaheadInit])
  refine ⟨hit, st', hrun, hhit, fun hfit => count_misses fun j => ?_, ?_⟩
  · rw [hhit]
    refine ⟨fun hj => hj.1, fun hj => ⟨hj, ?_⟩⟩
    obtain ⟨k, hk⟩ := exists_inBatch hmin hmax hj
    exact ⟨k, hk, (batchWindow_le hmax k).trans hfit⟩
  · intro _ j k hj hk k' hk'
    obtain ⟨-, k₀, hk₀, hfit⟩ := (hhit j).mp hj
    rw [hk₀.unique hk] at hfit
    exact (batchWindow_mono hmin hmax hk').trans hfit

/-- Two bursts that lie apart. -/
theorem apart_two : Apart 4 [⟨0, 8⟩, ⟨100, 3⟩] := by
  refine ⟨by simp, by simp, ?_⟩
  simp only [List.pairwise_cons, List.mem_singleton, forall_eq, Burst.Extends]
  refine ⟨fun b => by omega, by simp⟩

/-- A pool of two blocks and windows 1, 2, 4: the third batch is the first that does not fit. -/
theorem adaptive_hit_law_two :
    ∃ pool hit st', bufferPoolInit (fun _ => some (fun _ => 0)) 2 4096 = some pool ∧
      adaptiveSimulator.run (fun _ => true) (traceOf [⟨0, 8⟩, ⟨100, 3⟩])
        (adaptiveReadaheadInit 1 4, pool) =
        some ((List.range 8).map hit ++ (List.range 3).map hit, st') ∧
      hit 4 = true ∧ hit 5 = false := by
  obtain ⟨hit, st', hrun, hhit, -⟩ := adaptive_hit_law (c := 2) (by decide) (by decide)
    (Nat.le_refl 1) (by decide) (show bufferPoolInit (fun _ => some (fun _ => 0)) 2 4096 = some _ from rfl)
    (fun b => rfl : ∀ b, (fun _ : Nat => true) b = true) apart_two
  refine ⟨_, hit, st', rfl, hrun, (hhit 4).mpr ⟨by decide, 1, by unfold InBatch; decide, by decide⟩, ?_⟩
  rw [Bool.eq_false_iff, Ne, hhit]
  rintro ⟨-, k, hk, hfit⟩
  have hk' : InBatch 1 4 2 5 := by unfold InBatch; decide
  rw [hk.unique hk'] at hfit
  exact absurd hfit (by decide)

/-! ## The counters -/

/-- A hook leaves the pool alone or makes one call of `buffer_pool_prefetch_range`. -/
theorem readahead_pool {π : Type} {pf : π → Nat → Nat → π} (ra : Readahead) (pool : π) (b : Nat) :
    (readaheadOnAccess pf ra pool b).2 = pool ∨
      ∃ s n, (readaheadOnAccess pf ra pool b).2 = pf pool s n := by
  simp only [readaheadOnAccess]
  split_ifs
  · exact Or.inr ⟨_, _, rfl⟩
  · exact Or.inr ⟨_, _, rfl⟩
  · exact Or.inl rfl
  · exact Or.inl rfl

/-- The hook does not touch the counters. -/
theorem fixed_hook_counters (ra : Readahead) (pool : BufferPool) (b : Nat) :
    (fixedSimulator.onAccess ra pool b).2.hits = pool.hits ∧
    (fixedSimulator.onAccess ra pool b).2.misses = pool.misses := by
  have hhook : fixedSimulator.onAccess ra pool b = readaheadOnAccess bufferPoolPrefetchRange ra pool b :=
    rfl
  rw [hhook]
  rcases readahead_pool ra pool b with heq | ⟨s, n, heq⟩
  · rw [heq]; exact ⟨rfl, rfl⟩
  · rw [heq]; exact prefetchRange_counters pool s n

/-- One access counts its lookup. -/
theorem fixed_access_counters {pread : Nat → Bool} {st st' : Readahead × BufferPool} {b : Nat} {hit : Bool}
    (h : fixedSimulator.access pread st b = some (hit, st')) :
    st'.2.hits = (if hit then u64 (st.2.hits + 1) else st.2.hits) ∧
    st'.2.misses = (if hit then st.2.misses else u64 (st.2.misses + 1)) := by
  have hstate : (bufferPoolLookup st.2 b).2 = _ := lookup_state
  rcases Simulator.access_cases h with ⟨pool₁, rfl, hfound, rfl⟩ | ⟨pool₁, rfl, hfound, -, rfl⟩
  · have hlookup : bufferPoolLookup st.2 b = (true, pool₁) := hfound
    obtain ⟨hh, hm⟩ := fixed_hook_counters st.1 pool₁ b
    rw [hlookup] at hstate
    rw [hh, hm, show pool₁ = _ from hstate]
    exact ⟨rfl, rfl⟩
  · have hlookup : bufferPoolLookup st.2 b = (false, pool₁) := hfound
    obtain ⟨hh, hm⟩ := fixed_hook_counters st.1 (bufferPoolInsert pool₁ b) b
    obtain ⟨hh', hm'⟩ := insert_counters pool₁ b
    rw [hlookup] at hstate
    rw [show fixedSimulator.insert pool₁ b = bufferPoolInsert pool₁ b from rfl, hh, hm, hh', hm',
      show pool₁ = _ from hstate]
    exact ⟨rfl, rfl⟩

/-- Along a run the counters show the lookup results. -/
theorem fixed_run_counters {pread : Nat → Bool} {trace : List Nat} {st st' : Readahead × BufferPool}
    {hits : List Bool} (hh : st.2.hits < 2 ^ 64) (hm : st.2.misses < 2 ^ 64)
    (h : fixedSimulator.run pread trace st = some (hits, st')) :
    st'.2.hits = u64 (st.2.hits + hits.count true) ∧
    st'.2.misses = u64 (st.2.misses + hits.count false) := by
  induction trace generalizing st hits with
  | nil =>
      obtain ⟨rfl, rfl⟩ : [] = hits ∧ st = st' := by simpa [Simulator.run] using h
      exact ⟨by simp [u64_of_lt hh], by simp [u64_of_lt hm]⟩
  | cons b trace ih =>
      obtain ⟨hit, hits₁, st₁, rfl, haccess, hrun⟩ := Simulator.of_run_cons h
      obtain ⟨hh₁, hm₁⟩ := fixed_access_counters haccess
      -- the reductions of the two additions are one reduction of their sum
      cases hit with
      | true =>
          simp only [if_true] at hh₁ hm₁
          obtain ⟨h₁, h₂⟩ := ih (hh₁ ▸ u64_lt _) (hm₁ ▸ hm) hrun
          rw [hh₁] at h₁
          rw [hm₁] at h₂
          refine ⟨?_, ?_⟩
          · rw [h₁, List.count_cons_self]; simp only [u64]; omega
          · rw [h₂, List.count_cons_of_ne (by decide)]
      | false =>
          simp only [Bool.false_eq_true, if_false] at hh₁ hm₁
          obtain ⟨h₁, h₂⟩ := ih (hh₁ ▸ hh) (hm₁ ▸ u64_lt _) hrun
          rw [hh₁] at h₁
          rw [hm₁] at h₂
          refine ⟨?_, ?_⟩
          · rw [h₁, List.count_cons_of_ne (by decide)]
          · rw [h₂, List.count_cons_self]; simp only [u64]; omega

/-! ## The fixed window -/

theorem batchWindow_self (w k : Nat) : batchWindow w w k = w := by
  induction k with
  | zero => rfl
  | succ k ih => rw [batchWindow, ih]; omega

/-- The blocks of a trace are distinct, and there are not 2^64 of them if the window is positive. -/
theorem Apart.nodup_trace {w : Nat} {bursts : List Burst} (h : Apart w bursts) :
    (traceOf bursts).Nodup := by
  rw [traceOf, List.nodup_flatMap]
  refine ⟨fun burst _ => List.nodup_range', h.disjoint.imp fun hxy => ?_⟩
  intro b hb hb'
  rw [List.mem_range'_1] at hb hb'
  exact hxy b ⟨⟨hb.1, by omega⟩, ⟨hb'.1, by omega⟩⟩

theorem Apart.trace_le {w b : Nat} {bursts : List Burst} (h : Apart w bursts) (hb : b ∈ traceOf bursts) :
    b + 1 + w ≤ 2 ^ 64 := by
  obtain ⟨burst, hburst, hb⟩ := List.mem_flatMap.mp hb
  have := h.le burst hburst
  rw [List.mem_range'_1] at hb
  omega

theorem Apart.length_trace {w : Nat} {bursts : List Burst} (h : Apart w bursts) (hw : 1 ≤ w) :
    (traceOf bursts).length < 2 ^ 64 := by
  -- distinct numbers below `2 ^ 64 - 1` are fewer than `2 ^ 64`
  have hsub : traceOf bursts ⊆ List.range (2 ^ 64 - 1) := by
    intro b hb
    have := h.trace_le hb
    rw [List.mem_range]
    omega
  have hle := (List.subperm_of_subset h.nodup_trace hsub).length_le
  rw [List.length_range] at hle
  omega

theorem length_hitsOf (hit : Nat → Bool) (bursts : List Burst) :
    (hitsOf hit bursts).length = (traceOf bursts).length := by
  simp [hitsOf, traceOf, List.length_flatMap]

/-- Without a window the hook never fetches anything: a trace without repetitions misses throughout. -/
theorem window_zero_run {pread : Nat → Bool} {c : Nat} (hread : ∀ b, pread b = true) {trace : List Nat}
    (htrace : trace.Nodup) {st : Readahead × BufferPool} {H : List Nat} (hw : st.1.window = 0)
    (hholds : Holds c st.2 H) (hH : ∀ b ∈ trace, b ∉ H) :
    ∃ st', fixedSimulator.run pread trace st = some (List.replicate trace.length false, st') := by
  induction trace generalizing st H with
  | nil => exact ⟨st, rfl⟩
  | cons b trace ih =>
      obtain ⟨hb, htrace⟩ := List.nodup_cons.mp htrace
      obtain ⟨pool', hholds', haccess⟩ := access_miss fixedSimulator pread st.1 rfl rfl (hread b) hholds
        (fun hm => hH b List.mem_cons_self (Fifo.mem_of_mem_rtake hm))
      have hhook : fixedSimulator.onAccess st.1 pool' b =
          ({ st.1 with haveEdge := false, lastBlock := b, haveLast := true }, pool') := by
        show readaheadOnAccess bufferPoolPrefetchRange st.1 pool' b = _
        simp [readaheadOnAccess, hw]
      rw [hhook] at haccess
      have hH' : ∀ x ∈ trace, x ∉ H ++ [b] := by
        intro x hx hm
        rcases List.mem_append.mp hm with hm | hm
        · exact hH x (List.mem_cons_of_mem b hx) hm
        · exact hb (List.mem_singleton.mp hm ▸ hx)
      obtain ⟨st', hrun⟩ := ih htrace
        (show ({ st.1 with haveEdge := false, lastBlock := b, haveLast := true }, pool').1.window = 0
          from hw) hholds' hH'
      exact ⟨st', Simulator.run_cons haccess hrun⟩

/-- With a window the fixed hook follows the hit law of equal batches. -/
theorem window_pos_run {pread : Nat → Bool} {c w : Nat} (hw : 1 ≤ w) (hread : ∀ b, pread b = true)
    {bursts : List Burst} (hbursts : Apart w bursts) {pool : BufferPool} (hholds : Holds c pool []) :
    ∃ st', fixedSimulator.run pread (traceOf bursts) (readaheadInit w, pool) =
      some (hitsOf (fun j => decide (2 ≤ j ∧ w ≤ c)) bursts, st') := by
  have hhit : ∀ j, decide (2 ≤ j ∧ w ≤ c) = true ↔
      2 ≤ j ∧ ∃ k, InBatch w w k j ∧ batchWindow w w k ≤ c := by
    intro j
    simp only [decide_eq_true_iff, batchWindow_self]
    constructor
    · rintro ⟨hj, hfit⟩
      obtain ⟨k, hk⟩ := exists_inBatch hw (Nat.le_refl w) hj
      exact ⟨hj, k, hk, hfit⟩
    · rintro ⟨hj, -, -, hfit⟩
      exact ⟨hj, hfit⟩
  obtain ⟨stB, hrun⟩ := trace_run hw (Nat.le_refl w) hread hhit hbursts (adaptiveReadaheadInit w w, pool)
    rfl rfl hholds (by simp) (by simp [adaptiveReadaheadInit])
  -- the two loops run in lock step
  obtain ⟨ra', hrun', -⟩ := fixed_run_of_adaptive (sameWindow_init w) (fun b hb => hbursts.trace_le hb) hrun
  exact ⟨_, hrun'⟩

/-- **The capacity cliff of the fixed read-ahead.** Over a trace of bursts that lie apart, a window that
    fits into the pool leaves exactly the first two accesses of each burst as misses; without a window, or
    with one that does not fit, every access misses. -/
theorem fixed_miss_count {malloc : Nat → Option (Nat → Nat)} {pread : Nat → Bool}
    {c blockSize w : Nat} {pool : BufferPool} {bursts : List Burst} (hc : 1 ≤ c) (hlt : c < 2 ^ 64)
    (hinit : bufferPoolInit malloc c blockSize = some pool) (hread : ∀ b, pread b = true)
    (hbursts : Apart w bursts) :
    ∃ hits st',
      fixedSimulator.run pread (traceOf bursts) (readaheadInit w, pool) = some (hits, st') ∧
      (1 ≤ w → w ≤ c →
        hits = (bursts.flatMap fun burst => (List.range burst.len).map fun j => decide (2 ≤ j)) ∧
        hits.count false = (bursts.map fun burst => min burst.len 2).sum ∧
        st'.2.misses = (bursts.map fun burst => min burst.len 2).sum) ∧
      (w = 0 ∨ c < w → hits = List.replicate (traceOf bursts).length false ∧ st'.2.hits = 0) := by
  have hholds := Holds.init hc hlt hinit
  obtain ⟨-, -, -, hhits₀, hmisses₀⟩ := init_spec hc hlt hinit
  have hcounters : ∀ {hits st'},
      fixedSimulator.run pread (traceOf bursts) (readaheadInit w, pool) = some (hits, st') →
      st'.2.hits = u64 (hits.count true) ∧ st'.2.misses = u64 (hits.count false) := by
    intro hits st' hrun
    obtain ⟨h₁, h₂⟩ := fixed_run_counters (by rw [hhits₀]; decide) (by rw [hmisses₀]; decide) hrun
    rw [hhits₀, Nat.zero_add] at h₁
    rw [hmisses₀, Nat.zero_add] at h₂
    exact ⟨h₁, h₂⟩
  have hnone : ∀ n, u64 ((List.replicate n false).count true) = 0 := by
    intro n
    rw [List.count_replicate]
    rfl
  by_cases hw : 1 ≤ w
  · obtain ⟨st', hrun⟩ := window_pos_run hw hread hbursts hholds
    obtain ⟨hhits, hmisses⟩ := hcounters hrun
    refine ⟨_, st', hrun, fun _ hfit => ?_, fun hbad => ?_⟩
    · have hhit : (fun j => decide (2 ≤ j ∧ w ≤ c)) = fun j => decide (2 ≤ j) := by
        simp [hfit]
      rw [hhit] at hmisses ⊢
      have hcount : (hitsOf (fun j => decide (2 ≤ j)) bursts).count false =
          (bursts.map fun burst => min burst.len 2).sum := by
        rw [hitsOf, List.count_flatMap]
        congr 1
        apply List.map_congr_left
        intro burst _
        exact count_misses (fun j => decide_eq_true_iff) burst.len
      refine ⟨rfl, hcount, ?_⟩
      -- the trace is too short for the counter to wrap
      have hlen := List.count_le_length (a := false) (l := hitsOf (fun j => decide (2 ≤ j)) bursts)
      rw [length_hitsOf] at hlen
      rw [hmisses, u64_of_lt (Nat.lt_of_le_of_lt hlen (hbursts.length_trace hw)), hcount]
    · -- no batch fits, so the law gives no hit at all
      have hall : hitsOf (fun j => decide (2 ≤ j ∧ w ≤ c)) bursts =
          List.replicate (traceOf bursts).length false := by
        rw [List.eq_replicate_iff]
        refine ⟨length_hitsOf _ _, ?_⟩
        intro x hx
        obtain ⟨burst, -, hx⟩ := List.mem_flatMap.mp hx
        obtain ⟨j, -, rfl⟩ := List.mem_map.mp hx
        exact decide_eq_false fun h => by omega
      rw [hall] at hhits ⊢
      exact ⟨rfl, hhits.trans (hnone _)⟩
  · obtain ⟨st', hrun⟩ := window_zero_run hread hbursts.nodup_trace
      (show (readaheadInit w, pool).1.window = 0 by show w = 0; omega) hholds (by simp)
    obtain ⟨hhits, -⟩ := hcounters hrun
    exact ⟨_, st', hrun, fun h => absurd h hw, fun _ => ⟨rfl, hhits.trans (hnone _)⟩⟩

/-- A window of four blocks over two bursts: four misses in a pool of four blocks, no hit in one of
    three. -/
theorem fixed_miss_count_two :
    ∃ pool₄ pool₃ hits₄ hits₃ st₄ st₃,
      bufferPoolInit (fun _ => some (fun _ => 0)) 4 4096 = some pool₄ ∧
      bufferPoolInit (fun _ => some (fun _ => 0)) 3 4096 = some pool₃ ∧
      fixedSimulator.run (fun _ => true) (traceOf [⟨0, 8⟩, ⟨100, 3⟩]) (readaheadInit 4, pool₄) =
        some (hits₄, st₄) ∧ st₄.2.misses = 4 ∧
      fixedSimulator.run (fun _ => true) (traceOf [⟨0, 8⟩, ⟨100, 3⟩]) (readaheadInit 4, pool₃) =
        some (hits₃, st₃) ∧ st₃.2.hits = 0 := by
  obtain ⟨hits₄, st₄, hrun₄, hfit, -⟩ := fixed_miss_count (c := 4) (by decide) (by decide)
    (show bufferPoolInit (fun _ => some (fun _ => 0)) 4 4096 = some _ from rfl)
    (fun b => rfl : ∀ b, (fun _ : Nat => true) b = true) apart_two
  obtain ⟨hits₃, st₃, hrun₃, -, hcliff⟩ := fixed_miss_count (c := 3) (by decide) (by decide)
    (show bufferPoolInit (fun _ => some (fun _ => 0)) 3 4096 = some _ from rfl)
    (fun b => rfl : ∀ b, (fun _ : Nat => true) b = true) apart_two
  exact ⟨_, _, hits₄, hits₃, st₄, st₃, rfl, rfl, hrun₄, (hfit (by decide) (by decide)).2.2, hrun₃,
    (hcliff (Or.inr (by decide))).2⟩

end Prefetch
end SystemsPlayground
