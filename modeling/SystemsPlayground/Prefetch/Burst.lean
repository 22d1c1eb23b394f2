import Mathlib.Data.List.Range
import SystemsPlayground.Prefetch.Readahead

/-!
# `Prefetch.Burst` — the adaptive read-ahead over a trace of bursts

A trace is a concatenation of bursts, runs of consecutive blocks that lie far enough apart for no block
fetched ahead of one burst to belong to another. The adaptive hook fetches the blocks of a burst from
offset 2 on in batches, whose sizes double up to the maximum. An access inside a burst hits exactly when
its batch fits into the pool (`Running.step`), and a burst leaves behind only blocks of its own extended
range (`burst_run`), so the bursts of a trace do not disturb each other (`trace_run`).

The pool enters through its *history* (`Lib.Fifo`): the insertions that took effect, of which it holds the
latest `c`. During a burst the history ends in the current batch, followed by those of its blocks that
were demanded and inserted again because the batch does not fit (`Running`).
-/

namespace SystemsPlayground
namespace Prefetch

open Word

/-! ## Pools by their history -/

/-- A pool of capacity `c` in which exactly the insertions `H`, oldest first, have taken effect. -/
structure Holds (c : Nat) (pool : BufferPool) (H : List Nat) : Prop where
  inv : PoolInv pool
  capacity : pool.capacity = c
  queue : pool.queue = H.rtake c

namespace Holds

variable {c b : Nat} {pool : BufferPool} {H : List Nat}

theorem init {malloc : Nat → Option (Nat → Nat)} {blockSize : Nat} (hc : 1 ≤ c) (hlt : c < 2 ^ 64)
    (hinit : bufferPoolInit malloc c blockSize = some pool) : Holds c pool [] := by
  obtain ⟨hinv, hcap, hqueue, -, -⟩ := init_spec hc hlt hinit
  exact ⟨hinv, hcap, hqueue.trans (List.rtake_nil ..).symm⟩

theorem lookup (h : Holds c pool H) : Holds c (bufferPoolLookup pool b).2 H :=
  ⟨lookup_inv h.inv, lookup_capacity.trans h.capacity, lookup_queue.trans h.queue⟩

theorem insertAll (h : Holds c pool H) (bs : List Nat) :
    Holds c (bs.foldl bufferPoolInsert pool) (bs.foldl (Fifo.record c) H) := by
  have hpos : 1 ≤ c := h.capacity ▸ h.inv.cap_pos
  obtain ⟨hinv, hcap, hqueue⟩ := insertAll_spec h.inv bs
  refine ⟨hinv, hcap.trans h.capacity, ?_⟩
  rw [hqueue, h.capacity, h.queue]
  clear hinv hcap hqueue h
  induction bs generalizing H with
  | nil => rfl
  | cons b bs ih => rw [List.foldl_cons, Fifo.push_rtake hpos, ih, List.foldl_cons]

theorem insert_absent (h : Holds c pool H) (hb : b ∉ H.rtake c) :
    Holds c (bufferPoolInsert pool b) (H ++ [b]) := by
  have hins := h.insertAll [b]
  rw [List.foldl_cons, List.foldl_nil, List.foldl_cons, List.foldl_nil, Fifo.record, if_neg hb] at hins
  exact hins

/-- A range that never was in the pool is appended to the history. -/
theorem prefetchRange {s n : Nat} (h : Holds c pool H) (hle : s + n ≤ 2 ^ 64)
    (hfresh : ∀ x ∈ H, ¬ (s ≤ x ∧ x < s + n)) :
    Holds c (bufferPoolPrefetchRange pool s n) (H ++ List.range' s n) := by
  have hins := h.insertAll (rangeBlocks s n)
  rw [← prefetchRange_eq, rangeBlocks_eq hle, Fifo.record_fresh List.nodup_range'] at hins
  · exact hins
  · intro x hx hxH
    exact hfresh x hxH (List.mem_range'_1.mp hx)

end Holds

section Access

variable {σ : Type} (sim : Simulator σ BufferPool) (pread : Nat → Bool) (ra : σ) {c b : Nat}
  {pool : BufferPool} {H : List Nat}

/-- An access to a cached block. -/
theorem access_hit (hlookup : sim.lookup = bufferPoolLookup) (h : Holds c pool H) (hb : b ∈ H.rtake c) :
    ∃ pool', Holds c pool' H ∧ sim.access pread (ra, pool) b = some (true, sim.onAccess ra pool' b) := by
  have hhit : (bufferPoolLookup pool b).1 = true := lookup_hit_iff.mpr (h.queue ▸ hb)
  refine ⟨(bufferPoolLookup pool b).2, h.lookup, ?_⟩
  apply Simulator.access_of_hit
  rw [hlookup, ← hhit]

/-- An access to a block that is not cached, when the read succeeds. -/
theorem access_miss (hlookup : sim.lookup = bufferPoolLookup) (hinsert : sim.insert = bufferPoolInsert)
    (hread : pread b = true) (h : Holds c pool H) (hb : b ∉ H.rtake c) :
    ∃ pool', Holds c pool' (H ++ [b]) ∧
      sim.access pread (ra, pool) b = some (false, sim.onAccess ra pool' b) := by
  have hmiss : (bufferPoolLookup pool b).1 = false := by
    rw [Bool.eq_false_iff]
    exact mt lookup_hit_iff.mp (h.queue ▸ hb)
  refine ⟨bufferPoolInsert (bufferPoolLookup pool b).2 b, h.lookup.insert_absent hb, ?_⟩
  have heq : sim.lookup pool b = (false, (bufferPoolLookup pool b).2) := by
    rw [hlookup, ← hmiss]
  rw [Simulator.access_of_miss heq hread, hinsert]

end Access

/-! ## Batches -/

/-- The size of the `k`-th batch of a burst. -/
def batchWindow (minWindow maxWindow : Nat) : Nat → Nat
  | 0     => minWindow
  | k + 1 => min (2 * batchWindow minWindow maxWindow k) maxWindow

/-- The offset of the first block of the `k`-th batch. -/
def batchStart (minWindow maxWindow : Nat) : Nat → Nat
  | 0     => 2
  | k + 1 => batchStart minWindow maxWindow k + batchWindow minWindow maxWindow k

/-- Offset `j` of a burst belongs to its `k`-th batch. -/
def InBatch (minWindow maxWindow k j : Nat) : Prop :=
  batchStart minWindow maxWindow k ≤ j ∧ j < batchStart minWindow maxWindow (k + 1)

section Batches

variable {mn mx : Nat} (hmin : 1 ≤ mn) (hmax : mn ≤ mx)

include hmin hmax in
theorem batchWindow_pos (k : Nat) : 1 ≤ batchWindow mn mx k := by
  induction k with
  | zero => exact hmin
  | succ k ih => simp only [batchWindow]; omega

include hmax in
theorem batchWindow_le (k : Nat) : batchWindow mn mx k ≤ mx := by
  cases k with
  | zero => exact hmax
  | succ k => exact Nat.min_le_right _ _

include hmin hmax in
theorem batchWindow_mono {k k' : Nat} (h : k ≤ k') : batchWindow mn mx k ≤ batchWindow mn mx k' := by
  induction h with
  | refl => exact Nat.le_refl _
  | step _ ih =>
      have := batchWindow_pos hmin hmax k
      have := batchWindow_le hmax k
      simp only [batchWindow]
      omega

theorem batchStart_ge (mn mx k : Nat) : 2 ≤ batchStart mn mx k := by
  induction k with
  | zero => exact Nat.le_refl _
  | succ k ih => exact Nat.le_add_right_of_le ih

theorem batchStart_mono (mn mx : Nat) {k k' : Nat} (h : k ≤ k') :
    batchStart mn mx k ≤ batchStart mn mx k' := by
  induction h with
  | refl => exact Nat.le_refl _
  | step _ ih => exact Nat.le_add_right_of_le ih

/-- An offset lies in at most one batch. -/
theorem InBatch.unique {k k' j : Nat} (h : InBatch mn mx k j) (h' : InBatch mn mx k' j) : k = k' := by
  obtain ⟨h₁, h₂⟩ := h
  obtain ⟨h₁', h₂'⟩ := h'
  rcases Nat.lt_trichotomy k k' with hlt | heq | hgt
  · have := batchStart_mono mn mx (show k + 1 ≤ k' from hlt)
    omega
  · exact heq
  · have := batchStart_mono mn mx (show k' + 1 ≤ k from hgt)
    omega

include hmin hmax in
/-- Every offset from 2 on lies in a batch. -/
theorem exists_inBatch {j : Nat} (hj : 2 ≤ j) : ∃ k, InBatch mn mx k j := by
  induction j, hj using Nat.le_induction with
  | base => exact ⟨0, Nat.le_refl _, by have := batchWindow_pos hmin hmax 0; simp only [batchStart]; omega⟩
  | succ j _ ih =>
      obtain ⟨k, h₁, h₂⟩ := ih
      -- the next offset is still in batch `k`, or it is the first of the next one
      by_cases hlast : j + 1 < batchStart mn mx (k + 1)
      · exact ⟨k, by omega, hlast⟩
      · refine ⟨k + 1, by omega, ?_⟩
        have := batchWindow_pos hmin hmax (k + 1)
        rw [batchStart]
        omega

end Batches

/-! ## One burst -/

section Burst

variable {mn mx c s : Nat} {H₀ : List Nat}

/-- The history from the start of batch `k` on, before the access at offset `j`: the batch, and what was
    inserted again of it because it does not fit. -/
def batchHistory (mn mx c s k j : Nat) : List Nat :=
  let first := s + batchStart mn mx k
  let size := batchWindow mn mx k
  List.range' first size ++ if size ≤ c then [] else List.range' first (j - batchStart mn mx k)

/-- The state before the access at offset `j ≥ 2` of a burst from `s`, in batch `k`. Before the burst the
    history was `H₀`, before the batch it was `H`. -/
structure Running (mn mx c s : Nat) (H₀ : List Nat) (j k : Nat) (H : List Nat)
    (st : AdaptiveReadahead × BufferPool) : Prop where
  minWindow : st.1.minWindow = mn
  maxWindow : st.1.maxWindow = mx
  haveLast : st.1.haveLast = true
  lastBlock : st.1.lastBlock + 1 = s + j
  haveEdge : st.1.haveEdge = true
  inBatch : InBatch mn mx k j
  readaheadEdge : st.1.readaheadEdge = u64 (s + batchStart mn mx (k + 1))
  window : st.1.window = batchWindow mn mx k
  holds : Holds c st.2 (H ++ batchHistory mn mx c s k j)
  mem : ∀ x ∈ H, x ∈ H₀ ∨ s ≤ x ∧ x < s + batchStart mn mx k

/-- The blocks of a batch lie in its range. -/
theorem mem_batchHistory {k j x : Nat} (hj : j ≤ batchStart mn mx (k + 1))
    (hx : x ∈ batchHistory mn mx c s k j) :
    s + batchStart mn mx k ≤ x ∧ x < s + batchStart mn mx (k + 1) := by
  rw [batchStart] at hj ⊢
  simp only [batchHistory, List.mem_append, List.mem_range'_1] at hx
  rcases hx with hx | hx
  · omega
  · split_ifs at hx
    · simp at hx
    · rw [List.mem_range'_1] at hx
      omega

/-- The access at offset `j` finds its block exactly when the batch fits. -/
theorem mem_batch_iff {k j : Nat} {H : List Nat} (hj : InBatch mn mx k j) :
    s + j ∈ (H ++ batchHistory mn mx c s k j).rtake c ↔ batchWindow mn mx k ≤ c := by
  obtain ⟨h₁, h₂⟩ := hj
  rw [batchStart] at h₂
  have hd : j - batchStart mn mx k <
      (List.range' (s + batchStart mn mx k) (batchWindow mn mx k)).length := by
    rw [List.length_range']; omega
  have hget : (List.range' (s + batchStart mn mx k) (batchWindow mn mx k))[j - batchStart mn mx k] =
      s + j := by
    rw [List.getElem_range']; omega
  have hscan := Fifo.mem_scan_iff (c := c) (H := H) List.nodup_range' hd
  rw [hget, List.length_range', List.take_range'_of_length_ge (by omega)] at hscan
  exact hscan

/-- Demanding the block at offset `j`, before the hook: the lookup result, and the history. -/
theorem Running.demand {pread : Nat → Bool} {j k : Nat} {H : List Nat}
    {st : AdaptiveReadahead × BufferPool} (h : Running mn mx c s H₀ j k H st)
    (hread : ∀ b, pread b = true) :
    ∃ pool', Holds c pool' (H ++ batchHistory mn mx c s k (j + 1)) ∧
      adaptiveSimulator.access pread st (s + j) =
        some (decide (batchWindow mn mx k ≤ c), adaptiveSimulator.onAccess st.1 pool' (s + j)) := by
  have hmem := mem_batch_iff (c := c) (s := s) (H := H) h.inBatch
  by_cases hfit : batchWindow mn mx k ≤ c
  · -- a hit inserts nothing
    obtain ⟨pool', hholds, haccess⟩ := access_hit adaptiveSimulator pread st.1
      rfl h.holds (hmem.mpr hfit)
    refine ⟨pool', ?_, by rw [haccess, decide_eq_true hfit]⟩
    simp only [batchHistory, if_pos hfit] at hholds ⊢
    exact hholds
  · -- its own batch has pushed the block out, and it is inserted again behind the batch
    obtain ⟨pool', hholds, haccess⟩ := access_miss adaptiveSimulator pread st.1
      rfl rfl (hread _) h.holds (mt hmem.mp hfit)
    refine ⟨pool', ?_, by rw [haccess, decide_eq_false hfit]⟩
    obtain ⟨h₁, -⟩ := h.inBatch
    simp only [batchHistory, if_neg hfit] at hholds ⊢
    rw [Nat.sub_add_comm h₁, List.range'_concat]
    have hj : s + batchStart mn mx k + 1 * (j - batchStart mn mx k) = s + j := by omega
    rw [hj]
    simpa [List.append_assoc] using hholds

/-- Everything in the history is old, or below the end of the batch. -/
theorem Running.mem_history {j k : Nat} {H : List Nat} {st : AdaptiveReadahead × BufferPool}
    (h : Running mn mx c s H₀ j k H st) (j' : Nat) (hj' : j' ≤ batchStart mn mx (k + 1)) :
    ∀ x ∈ H ++ batchHistory mn mx c s k j', x ∈ H₀ ∨ s ≤ x ∧ x < s + batchStart mn mx (k + 1) := by
  have hstart : batchStart mn mx (k + 1) = batchStart mn mx k + batchWindow mn mx k := rfl
  intro x hx
  rcases List.mem_append.mp hx with hx | hx
  · rcases h.mem x hx with hx | hx
    · exact Or.inl hx
    · exact Or.inr (by omega)
  · have := mem_batchHistory hj' hx
    exact Or.inr (by omega)

/-- At the edge the window becomes that of the next batch; doubling it does not wrap. -/
theorem grow_eq {k : Nat} {ra : AdaptiveReadahead} (hwindow : ra.window = batchWindow mn mx k)
    (hmaxWindow : ra.maxWindow = mx) (hlt : 2 * batchWindow mn mx k < 2 ^ 64) :
    ra.grow = batchWindow mn mx (k + 1) := by
  have h2 : u64 (ra.window * 2) = 2 * batchWindow mn mx k := by
    rw [hwindow, Nat.mul_comm, u64_of_lt hlt]
  rw [AdaptiveReadahead.grow, h2, hmaxWindow, batchWindow]
  split_ifs <;> omega

/-- **One access inside a burst** of length `L`: it hits if its batch fits, and the burst goes on. -/
theorem Running.step {pread : Nat → Bool} {L j k : Nat} {H : List Nat}
    {st : AdaptiveReadahead × BufferPool} (hmin : 1 ≤ mn) (hmax : mn ≤ mx)
    (hfresh : ∀ x ∈ H₀, ¬ (s ≤ x ∧ x < s + L + mx)) (hle : s + L + mx ≤ 2 ^ 64)
    (hread : ∀ b, pread b = true) (h : Running mn mx c s H₀ j k H st) (hjL : j < L) :
    ∃ st', adaptiveSimulator.access pread st (s + j) = some (decide (batchWindow mn mx k ≤ c), st') ∧
      ∃ k' H', Running mn mx c s H₀ (j + 1) k' H' st' := by
  obtain ⟨pool', hholds, haccess⟩ := h.demand hread
  obtain ⟨hj₁, hj₂⟩ := h.inBatch
  have hk := batchStart_ge mn mx k
  have hwk := batchWindow_le hmax k
  have hwk' := batchWindow_le hmax (k + 1)
  have hpos := batchWindow_pos hmin hmax (k + 1)
  have hstart : batchStart mn mx (k + 1) = batchStart mn mx k + batchWindow mn mx k := rfl
  have hstart' : batchStart mn mx (k + 1 + 1) = batchStart mn mx (k + 1) + batchWindow mn mx (k + 1) :=
    rfl
  have hnext : s + j = u64 (st.1.lastBlock + 1) := by rw [h.lastBlock, u64_of_lt (by omega)]
  have hmaxpos : 0 < st.1.maxWindow := by rw [h.maxWindow]; omega
  have hj1 : u64 (s + j + 1) = s + j + 1 := u64_of_lt (by omega)
  refine ⟨_, haccess, ?_⟩
  by_cases hat : u64 (s + j + 1) = st.1.readaheadEdge
  · -- the batch is consumed, and the next one is fetched behind it
    have hedge : s + j + 1 = s + batchStart mn mx (k + 1) := by
      have hedge := hat.trans h.readaheadEdge
      rw [hj1] at hedge
      unfold u64 at hedge
      omega
    have hgrow : st.1.grow = batchWindow mn mx (k + 1) :=
      grow_eq h.window h.maxWindow (by omega)
    have hhook : adaptiveSimulator.onAccess st.1 pool' (s + j) = _ :=
      adaptive_edge h.haveLast hnext hmaxpos h.haveEdge hat
    rw [hhook, hgrow]
    have hinBatch : InBatch mn mx (k + 1) (j + 1) := ⟨by omega, by omega⟩
    refine ⟨k + 1, H ++ batchHistory mn mx c s k (j + 1), h.minWindow, h.maxWindow, rfl, rfl,
      h.haveEdge, hinBatch, ?_, rfl, ?_, ?_⟩
    · show u64 (st.1.readaheadEdge + batchWindow mn mx (k + 1)) = _
      rw [← hat, hj1, hedge, Nat.add_assoc]
      rfl
    · have hmem := h.mem_history (j + 1) (by omega)
      show Holds c (bufferPoolPrefetchRange pool' st.1.readaheadEdge (batchWindow mn mx (k + 1))) _
      have hhist : batchHistory mn mx c s (k + 1) (j + 1) =
          List.range' (s + batchStart mn mx (k + 1)) (batchWindow mn mx (k + 1)) := by
        simp [batchHistory, show j + 1 - batchStart mn mx (k + 1) = 0 by omega]
      rw [← hat, hj1, hedge, hhist]
      -- nothing of the new batch has been inserted before
      refine hholds.prefetchRange (by omega) ?_
      intro x hx hrange
      rcases hmem x hx with hx | hx
      · exact hfresh x hx (by omega)
      · omega
    · exact h.mem_history (j + 1) (by omega)
  · -- short of the edge the hook only moves the cursor
    have hhook : adaptiveSimulator.onAccess st.1 pool' (s + j) = _ :=
      adaptive_inside h.haveLast hnext hmaxpos h.haveEdge hat
    rw [hhook]
    have hlt : j + 1 < batchStart mn mx (k + 1) := by
      by_contra hge
      have hedge : s + j + 1 = s + batchStart mn mx (k + 1) := by omega
      exact hat (by rw [h.readaheadEdge, hedge])
    exact ⟨k, H, h.minWindow, h.maxWindow, rfl, rfl, h.haveEdge, ⟨by omega, hlt⟩, h.readaheadEdge,
      h.window, hholds, h.mem⟩

/-- The state before the access at offset `j` of a burst from `s`: the burst begins with a jump, its second
    access starts the read-ahead. -/
def BurstState (mn mx c s : Nat) (H₀ : List Nat) : Nat → AdaptiveReadahead × BufferPool → Prop
  | 0, st => st.1.minWindow = mn ∧ st.1.maxWindow = mx ∧
      ¬ (st.1.haveLast = true ∧ s = u64 (st.1.lastBlock + 1)) ∧ Holds c st.2 H₀
  | 1, st => st.1.minWindow = mn ∧ st.1.maxWindow = mx ∧ st.1.window = mn ∧ st.1.haveEdge = false ∧
      st.1.haveLast = true ∧ st.1.lastBlock = s ∧ Holds c st.2 (H₀ ++ [s])
  | j + 2, st => ∃ k H, Running mn mx c s H₀ (j + 2) k H st

section Steps

variable {pread : Nat → Bool} {hit : Nat → Bool} {L : Nat} {st : AdaptiveReadahead × BufferPool}
  (hmin : 1 ≤ mn) (hmax : mn ≤ mx) (hfresh : ∀ x ∈ H₀, ¬ (s ≤ x ∧ x < s + L + mx))
  (hle : s + L + mx ≤ 2 ^ 64) (hread : ∀ b, pread b = true)
  (hhit : ∀ j, hit j = true ↔ 2 ≤ j ∧ ∃ k, InBatch mn mx k j ∧ batchWindow mn mx k ≤ c)

include hfresh hread in
/-- The first access of a burst misses. -/
theorem burst_first (hL : 0 < L) (h : BurstState mn mx c s H₀ 0 st) :
    ∃ st', adaptiveSimulator.access pread st s = some (false, st') ∧
      BurstState mn mx c s H₀ 1 st' := by
  obtain ⟨hmn, hmx, hjump, hholds⟩ := h
  have hs : s ∉ H₀.rtake c := fun hm => hfresh s (Fifo.mem_of_mem_rtake hm) (by omega)
  obtain ⟨pool', hholds', haccess⟩ :=
    access_miss adaptiveSimulator pread st.1 rfl rfl (hread s) hholds hs
  refine ⟨_, haccess, ?_⟩
  have hhook : adaptiveSimulator.onAccess st.1 pool' s = _ :=
    adaptive_jump fun hseq => hjump ⟨hseq.1, hseq.2.1⟩
  rw [hhook]
  exact ⟨hmn, hmx, hmn, rfl, rfl, rfl, hholds'⟩

include hmin hmax hfresh hle hread in
/-- The second access misses too, and the first batch is fetched. -/
theorem burst_second (hL : 1 < L) (h : BurstState mn mx c s H₀ 1 st) :
    ∃ st', adaptiveSimulator.access pread st (s + 1) = some (false, st') ∧
      BurstState mn mx c s H₀ 2 st' := by
  obtain ⟨hmn, hmx, hwindow, hedge, hhave, hlast, hholds⟩ := h
  have hs : s + 1 ∉ (H₀ ++ [s]).rtake c := by
    intro hm
    rcases List.mem_append.mp (Fifo.mem_of_mem_rtake hm) with hm | hm
    · exact hfresh (s + 1) hm (by omega)
    · simp at hm
  obtain ⟨pool', hholds', haccess⟩ :=
    access_miss adaptiveSimulator pread st.1 rfl rfl (hread (s + 1)) hholds hs
  refine ⟨_, haccess, ?_⟩
  have hnext : s + 1 = u64 (st.1.lastBlock + 1) := by rw [hlast, u64_of_lt (by omega)]
  have hhook : adaptiveSimulator.onAccess st.1 pool' (s + 1) = _ :=
    adaptive_start hhave hnext (by omega) hedge
  rw [hhook, hwindow, u64_of_lt (show s + 1 + 1 < 2 ^ 64 by omega)]
  have hold : ∀ x ∈ H₀ ++ [s] ++ [s + 1], x ∈ H₀ ∨ s ≤ x ∧ x < s + 2 := by
    intro x hx
    simp only [List.append_assoc, List.mem_append, List.mem_singleton] at hx
    rcases hx with hx | hx | hx
    · exact Or.inl hx
    · exact Or.inr (by omega)
    · exact Or.inr (by omega)
  refine ⟨0, H₀ ++ [s] ++ [s + 1], hmn, hmx, rfl, rfl, rfl, ⟨Nat.le_refl _, ?_⟩, ?_, rfl, ?_, hold⟩
  · show 2 < 2 + mn
    omega
  · show u64 (s + 1 + 1 + mn) = u64 (s + (2 + mn))
    congr 1
    omega
  · have hhist : batchHistory mn mx c s 0 2 = List.range' (s + 1 + 1) mn := by
      simp [batchHistory, batchStart, batchWindow]
    rw [hhist]
    refine hholds'.prefetchRange (by omega) ?_
    intro x hx hrange
    rcases hold x hx with hx | hx
    · exact hfresh x hx (by omega)
    · omega

include hmin hmax hfresh hle hread hhit in
/-- **One access of a burst**, with the lookup result that the hit law gives it. -/
theorem burst_step {j : Nat} (hj : j < L) (h : BurstState mn mx c s H₀ j st) :
    ∃ st', adaptiveSimulator.access pread st (s + j) = some (hit j, st') ∧
      BurstState mn mx c s H₀ (j + 1) st' := by
  have hearly : ∀ i < 2, hit i = false := by
    intro i hi
    rw [Bool.eq_false_iff]
    exact fun hi' => absurd ((hhit i).mp hi').1 (by omega)
  match j with
  | 0 =>
      rw [hearly 0 (by omega)]
      exact burst_first hfresh hread hj h
  | 1 =>
      rw [hearly 1 (by omega)]
      exact burst_second hmin hmax hfresh hle hread hj h
  | j + 2 =>
      obtain ⟨k, H, hrun⟩ := h
      obtain ⟨st', haccess, hnext⟩ := hrun.step hmin hmax hfresh hle hread hj
      have hlaw : hit (j + 2) = decide (batchWindow mn mx k ≤ c) := by
        rw [Bool.eq_iff_iff, hhit, decide_eq_true_iff]
        constructor
        · rintro ⟨-, k', hk', hfit⟩
          exact hk'.unique hrun.inBatch ▸ hfit
        · exact fun hfit => ⟨by omega, k, hrun.inBatch, hfit⟩
      exact ⟨st', hlaw ▸ haccess, hnext⟩

include hmin hmax hfresh hle hread hhit in
/-- A whole burst: its lookup results, and what it leaves behind. -/
theorem burst_run (hL : 1 ≤ L) (h : BurstState mn mx c s H₀ 0 st) :
    ∃ st' H', adaptiveSimulator.run pread (List.range' s L) st = some ((List.range L).map hit, st') ∧
      st'.1.minWindow = mn ∧ st'.1.maxWindow = mx ∧ st'.1.lastBlock + 1 = s + L ∧ Holds c st'.2 H' ∧
      ∀ x ∈ H', x ∈ H₀ ∨ s ≤ x ∧ x < s + L + mx := by
  obtain ⟨st', hrun, hend⟩ := Simulator.run_range h fun j st hj hst =>
    burst_step hmin hmax hfresh hle hread hhit hj hst
  match L with
  | 1 =>
      -- the burst ends before the read-ahead has started
      obtain ⟨hmn, hmx, -, -, -, hlast, hholds⟩ := hend
      refine ⟨st', _, hrun, hmn, hmx, by rw [hlast], hholds, ?_⟩
      intro x hx
      rcases List.mem_append.mp hx with hx | hx
      · exact Or.inl hx
      · have := List.mem_singleton.mp hx
        exact Or.inr (by omega)
  | L + 2 =>
      obtain ⟨k, H, hk⟩ := hend
      obtain ⟨hk₁, hk₂⟩ := hk.inBatch
      have hstart : batchStart mn mx (k + 1) = batchStart mn mx k + batchWindow mn mx k := rfl
      have := batchWindow_le hmax k
      refine ⟨st', _, hrun, hk.minWindow, hk.maxWindow, hk.lastBlock, hk.holds, ?_⟩
      intro x hx
      rcases hk.mem_history (L + 2) (by omega) x hx with hx | hx
      · exact Or.inl hx
      · exact Or.inr (by omega)

end Steps

end Burst

/-! ## Traces of bursts -/

/-- The run of the `len` blocks from `start` on. -/
structure Burst where
  start : Nat
  len : Nat

/-- Block `b` lies in the burst or among the `w` blocks behind it. -/
def Burst.Extends (w : Nat) (burst : Burst) (b : Nat) : Prop :=
  burst.start ≤ b ∧ b < burst.start + burst.len + w

/-- The blocks of the bursts, one burst after the other. -/
def traceOf (bursts : List Burst) : List Nat :=
  bursts.flatMap fun burst => List.range' burst.start burst.len

/-- The traces of the hit laws: non-empty bursts whose extensions by `w` blocks do not leave the range of
    block numbers and do not meet. -/
structure Apart (w : Nat) (bursts : List Burst) : Prop where
  pos : ∀ burst ∈ bursts, 1 ≤ burst.len
  le : ∀ burst ∈ bursts, burst.start + burst.len + w ≤ 2 ^ 64
  disjoint : bursts.Pairwise fun x y => ∀ b, ¬ (x.Extends w b ∧ y.Extends w b)

theorem Apart.tail {w : Nat} {burst : Burst} {bursts : List Burst} (h : Apart w (burst :: bursts)) :
    Apart w bursts :=
  ⟨fun x hx => h.pos x (List.mem_cons_of_mem _ hx), fun x hx => h.le x (List.mem_cons_of_mem _ hx),
    (List.pairwise_cons.mp h.disjoint).2⟩

section Trace

variable {mn mx c : Nat} {pread : Nat → Bool} {hit : Nat → Bool}
  (hmin : 1 ≤ mn) (hmax : mn ≤ mx) (hread : ∀ b, pread b = true)
  (hhit : ∀ j, hit j = true ↔ 2 ≤ j ∧ ∃ k, InBatch mn mx k j ∧ batchWindow mn mx k ≤ c)

/-- The lookup results of a trace: in each burst the offsets decide. -/
def hitsOf (hit : Nat → Bool) (bursts : List Burst) : List Bool :=
  bursts.flatMap fun burst => (List.range burst.len).map hit

include hmin hmax hread hhit in
/-- The adaptive loop over a trace, from any state whose history and cursor are outside the bursts. -/
theorem trace_run {bursts : List Burst} (hbursts : Apart mx bursts) {H : List Nat}
    (st : AdaptiveReadahead × BufferPool) (hmn : st.1.minWindow = mn) (hmx : st.1.maxWindow = mx)
    (hholds : Holds c st.2 H) (hH : ∀ burst ∈ bursts, ∀ x ∈ H, ¬ burst.Extends mx x)
    (hlast : ∀ burst ∈ bursts, st.1.haveLast = true → burst.start ≠ u64 (st.1.lastBlock + 1)) :
    ∃ st', adaptiveSimulator.run pread (traceOf bursts) st = some (hitsOf hit bursts, st') := by
  induction bursts generalizing H st with
  | nil => exact ⟨st, rfl⟩
  | cons burst bursts ih =>
      have hpos := hbursts.pos burst List.mem_cons_self
      have hle := hbursts.le burst List.mem_cons_self
      have hfirst : BurstState mn mx c burst.start H 0 st :=
        ⟨hmn, hmx, fun hseq => hlast burst List.mem_cons_self hseq.1 hseq.2, hholds⟩
      obtain ⟨st₁, H₁, hrun₁, hmn₁, hmx₁, hlast₁, hholds₁, hH₁⟩ :=
        burst_run hmin hmax (hH burst List.mem_cons_self) hle hread hhit hpos hfirst
      have hdisj := (List.pairwise_cons.mp hbursts.disjoint).1
      obtain ⟨st₂, hrun₂⟩ := ih hbursts.tail st₁ hmn₁ hmx₁ hholds₁
        (by
          -- what the burst and its read-ahead inserted lies in its extension
          intro burst' hmem x hx hext
          rcases hH₁ x hx with hx | hx
          · exact hH burst' (List.mem_cons_of_mem _ hmem) x hx hext
          · exact hdisj burst' hmem x ⟨hx, hext⟩)
        (by
          -- the block after the burst belongs to its extension, so no other burst starts there
          intro burst' hmem _ heq
          have hpos' := hbursts.pos burst' (List.mem_cons_of_mem _ hmem)
          have hext : burst.Extends mx (burst.start + burst.len) := ⟨by omega, by omega⟩
          rw [hlast₁, u64_of_lt (by omega)] at heq
          exact hdisj burst' hmem _ ⟨hext, by unfold Burst.Extends; omega⟩)
      refine ⟨st₂, ?_⟩
      show adaptiveSimulator.run pread (List.range' burst.start burst.len ++ traceOf bursts) st = _
      rw [Simulator.run_append, hrun₁, Option.bind_some, hrun₂]
      rfl

end Trace

end Prefetch
end SystemsPlayground
