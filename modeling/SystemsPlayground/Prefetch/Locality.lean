import Mathlib.Data.List.Chain
import SystemsPlayground.Prefetch.ReadAround

/-!
# `Prefetch.Locality` — read-around over whole traces

One access of the Stage 3 loop touches its block once, by the lookup that hits or by the insertion after a
miss, and then every block of its window. Which touches are made is therefore decided by the trace alone and
not by the pool, and the pool of capacity `c` holds the `c` blocks touched most recently
(`Inserts.run`).

Two things follow. Pools of different capacities hold prefixes of one and the same order of use, so more
capacity never hurts (`lru_inclusion`). And the window of an access is what was touched last, so a pool that
can hold a window serves every access that stays within a radius of the one before
(`local_walk_saturates`), for as long as the clock of the pool does not wrap (`local_walk_clock_wraps`).
-/

namespace SystemsPlayground
namespace Prefetch

open Word

/-- The touches of one access, in order, when `around` are the blocks that the hook inserts. -/
def accessTouches (around : Nat → List Nat) (blockNum : Nat) : List Nat := blockNum :: around blockNum

/-- The touches of the accesses of a trace, in order. -/
def touches (around : Nat → List Nat) (trace : List Nat) : List Nat := trace.flatMap (accessTouches around)

/-- The lookup results of a trace in a pool of capacity `c`, after the touches of `log`, latest first. -/
def lruHits (c : Nat) (around : Nat → List Nat) : List Nat → List Nat → List Bool
  | _, [] => []
  | log, b :: trace =>
      decide (b ∈ (Recency.recent log).take c) ::
        lruHits c around ((accessTouches around b).reverse ++ log) trace

section Run

variable {around : Nat → List Nat} {c b : Nat}

theorem length_le_touches (around : Nat → List Nat) (trace : List Nat) :
    trace.length ≤ (touches around trace).length := by
  induction trace with
  | nil => exact Nat.le_refl _
  | cons b trace ih =>
      simp only [touches, List.flatMap_cons, List.length_append, accessTouches, List.length_cons] at ih ⊢
      omega

theorem log_insertAll (bs : List Nat) (s : Lru) :
    (bs.foldl (Lru.insert c) s).log = bs.reverse ++ s.log := by
  induction bs generalizing s with
  | nil => rfl
  | cons b bs ih =>
      rw [List.foldl_cons, ih, List.reverse_cons, List.append_assoc]
      rfl

variable {σ : Type} {sim : Simulator σ LruBufferPool} {ra : σ} {pread : Nat → Bool} {pool : LruBufferPool}
  {s : Lru}

/-- A loop over the LRU pool whose hook inserts the blocks `around` the one accessed. -/
structure Inserts (sim : Simulator σ LruBufferPool) (ra : σ) (around : Nat → List Nat) : Prop where
  lookup : sim.lookup = lruBufferPoolLookup
  insert : sim.insert = lruBufferPoolInsert
  onAccess : ∀ pool b, sim.onAccess ra pool b = (ra, (around b).foldl lruBufferPoolInsert pool)

theorem readAround_inserts (ra : ReadAround) : Inserts readAroundSimulator ra (readAroundBlocks ra) :=
  ⟨rfl, rfl, fun pool b => congrArg (Prod.mk ra) (readAround_eq ra pool b)⟩

/-- An access to a cached block. -/
theorem Inserts.access_found {i : Nat} (hsim : Inserts sim ra around)
    (h : findSlot pool.slots pool.count b = some i) :
    sim.access pread (ra, pool) b = some (true, ra,
      (around b).foldl lruBufferPoolInsert ({ pool with hits := u64 (pool.hits + 1) }.stamp i)) := by
  have hres : sim.lookup pool b = (true, { pool with hits := u64 (pool.hits + 1) }.stamp i) := by
    simp only [hsim.lookup, lruBufferPoolLookup, h]
  rw [Simulator.access_of_hit hres]
  exact congrArg (fun st => some (true, st)) (hsim.onAccess _ b)

/-- An access to a block that is not cached, when the read succeeds. -/
theorem Inserts.access_absent (hsim : Inserts sim ra around)
    (h : findSlot pool.slots pool.count b = none) (hread : pread b = true) :
    sim.access pread (ra, pool) b = some (false, ra,
      (accessTouches around b).foldl lruBufferPoolInsert
        { pool with misses := u64 (pool.misses + 1) }) := by
  have hres : sim.lookup pool b = (false, { pool with misses := u64 (pool.misses + 1) }) := by
    simp only [hsim.lookup, lruBufferPoolLookup, h]
  rw [Simulator.access_of_miss hres hread, hsim.insert]
  exact congrArg (fun st => some (false, st)) (hsim.onAccess _ b)

/-- **One access touches its block and its window**, whether it hits or not. -/
theorem Inserts.access (hsim : Inserts sim ra around) (h : Simulates c pool s) (hread : pread b = true)
    (hlog : s.log.length + (accessTouches around b).length < 2 ^ 64) :
    ∃ pool', sim.access pread (ra, pool) b = some (decide (b ∈ s.list), ra, pool') ∧
      Simulates c pool' ((accessTouches around b).foldl (Lru.insert c) s) ∧
      pool'.hits = (if b ∈ s.list then u64 (pool.hits + 1) else pool.hits) ∧
      pool'.misses = if b ∈ s.list then pool.misses else u64 (pool.misses + 1) := by
  by_cases hb : b ∈ s.list
  · obtain ⟨i, hi⟩ := Option.isSome_iff_exists.mp (findSlot_isSome.mpr (h.mem_list_iff.mp hb))
    obtain ⟨hlt, hslot⟩ := findSlot_some hi
    obtain ⟨hhits, hmisses⟩ :=
      lruInsertAll_counters (around b) ({ pool with hits := u64 (pool.hits + 1) }.stamp i)
    rw [accessTouches, List.length_cons] at hlog
    -- the lookup touches the block, the hook its window
    have hfirst : Simulates c ({ pool with hits := u64 (pool.hits + 1) }.stamp i) (s.insert c b) :=
      (h.counters _ _).stamp hlt hslot (by omega)
    have hrest := hfirst.insertAll (around b) (by
      show s.log.length + 1 + (around b).length < 2 ^ 64
      omega)
    rw [if_pos hb, if_pos hb, decide_eq_true hb]
    exact ⟨_, hsim.access_found hi, hrest, hhits, hmisses⟩
  · have hfind : findSlot pool.slots pool.count b = none :=
      findSlot_none.mpr (mt h.mem_list_iff.mpr hb)
    obtain ⟨hhits, hmisses⟩ :=
      lruInsertAll_counters (accessTouches around b) { pool with misses := u64 (pool.misses + 1) }
    rw [if_neg hb, if_neg hb, decide_eq_false hb]
    exact ⟨_, hsim.access_absent hfind hread, (h.counters _ _).insertAll _ hlog, hhits, hmisses⟩

/-- **A run of the loop.** Its touches are those of the trace, whatever the capacity. -/
theorem Inserts.run (hsim : Inserts sim ra around) (h : Simulates c pool s) (hread : ∀ b, pread b = true)
    (trace : List Nat) (hlog : s.log.length + (touches around trace).length < 2 ^ 64)
    (hhits : pool.hits + trace.length < 2 ^ 64) (hmisses : pool.misses + trace.length < 2 ^ 64) :
    ∃ pool' s', sim.run pread trace (ra, pool) = some (lruHits c around s.log trace, ra, pool') ∧
      Simulates c pool' s' ∧ s'.log = (touches around trace).reverse ++ s.log ∧
      pool'.hits = pool.hits + (lruHits c around s.log trace).count true ∧
      pool'.misses = pool.misses + (lruHits c around s.log trace).count false := by
  induction trace generalizing pool s with
  | nil => exact ⟨pool, s, rfl, h, rfl, rfl, rfl⟩
  | cons b trace ih =>
      rw [touches, List.flatMap_cons, List.length_append, ← touches] at hlog
      rw [List.length_cons] at hhits hmisses
      obtain ⟨pool₁, haccess, h₁, hhits₁, hmisses₁⟩ := hsim.access h (hread b) (by omega)
      have hlog₁ := log_insertAll (c := c) (accessTouches around b) s
      rw [u64_of_lt (by omega)] at hhits₁ hmisses₁
      obtain ⟨pool', s', hrun, h', hlog', hhits', hmisses'⟩ := ih h₁
        (by rw [hlog₁, List.length_append, List.length_reverse]; omega)
        (by rw [hhits₁]; split_ifs <;> omega) (by rw [hmisses₁]; split_ifs <;> omega)
      rw [hlog₁] at hrun hlog' hhits' hmisses'
      have hlist : decide (b ∈ s.list) = decide (b ∈ (Recency.recent s.log).take c) := by rw [h.list_eq]
      refine ⟨pool', s', ?_, h', ?_, ?_, ?_⟩
      · rw [lruHits, ← hlist]
        exact Simulator.run_cons haccess hrun
      · rw [hlog', touches, touches, List.flatMap_cons, List.reverse_append, List.append_assoc]
      · rw [hhits', hhits₁, lruHits, List.count_cons, ← hlist]
        by_cases hb : b ∈ s.list
        · simp [hb]
          omega
        · simp [hb]
      · rw [hmisses', hmisses₁, lruHits, List.count_cons, ← hlist]
        by_cases hb : b ∈ s.list
        · simp [hb]
        · simp [hb]
          omega

end Run

/-! ## More capacity never hurts -/

section Inclusion

variable {around : Nat → List Nat} {c₁ c₂ : Nat}

/-- What hits in the smaller pool hits in the larger one. -/
theorem lruHits_mono (hle : c₁ ≤ c₂) (log trace : List Nat) :
    List.Forall₂ (fun h₁ h₂ => h₁ = true → h₂ = true) (lruHits c₁ around log trace)
      (lruHits c₂ around log trace) := by
  induction trace generalizing log with
  | nil => exact List.Forall₂.nil
  | cons b trace ih =>
      refine List.Forall₂.cons ?_ (ih _)
      simp only [decide_eq_true_eq]
      intro hb
      exact (List.take_prefix_take_left hle).subset hb

theorem count_true_le {l₁ l₂ : List Bool} (h : List.Forall₂ (fun h₁ h₂ => h₁ = true → h₂ = true) l₁ l₂) :
    l₁.count true ≤ l₂.count true := by
  induction h with
  | nil => exact Nat.le_refl _
  | @cons h₁ h₂ l₁ l₂ hhit _ ih =>
      rw [List.count_cons, List.count_cons]
      cases h₁ with
      | false => simp; omega
      | true => simp [hhit rfl]; omega

theorem length_touches_take (around : Nat → List Nat) (trace : List Nat) (n : Nat) :
    (touches around (trace.take n)).length ≤ (touches around trace).length := by
  conv_rhs => rw [← List.take_append_drop n trace, touches, List.flatMap_append, List.length_append]
  exact Nat.le_add_right _ _

variable {malloc₁ malloc₂ : Nat → Nat → Option (Nat → Nat)} {blockSize : Nat} {pool₁ pool₂ : LruBufferPool}

/-- A run of the loop on a fresh pool. -/
theorem Inserts.run_fresh {σ : Type} {sim : Simulator σ LruBufferPool} {ra : σ} {pread : Nat → Bool}
    {malloc : Nat → Nat → Option (Nat → Nat)} {c : Nat} {pool : LruBufferPool}
    (hsim : Inserts sim ra around) (hc : 1 ≤ c) (hlt : c < 2 ^ 64)
    (hinit : lruBufferPoolInit malloc c blockSize = some pool) (hread : ∀ b, pread b = true)
    {trace : List Nat} (htouches : (touches around trace).length < 2 ^ 64) :
    ∃ pool', sim.run pread trace (ra, pool) = some (lruHits c around [] trace, ra, pool') ∧
      (∀ x, x ∈ cells pool'.slots pool'.count ↔
        x ∈ (Recency.recent (touches around trace).reverse).take c) ∧
      pool'.hits = (lruHits c around [] trace).count true ∧
      pool'.misses = (lruHits c around [] trace).count false := by
  obtain ⟨hhits, hmisses⟩ := lruInit_counters hinit
  have hlen := Nat.lt_of_le_of_lt (length_le_touches around trace) htouches
  obtain ⟨pool', s', hrun, h', hlog, hhits', hmisses'⟩ := hsim.run (Simulates.init hc hlt hinit) hread trace
    (by rw [List.length_nil, Nat.zero_add]; exact htouches) (by rw [hhits, Nat.zero_add]; exact hlen)
    (by rw [hmisses, Nat.zero_add]; exact hlen)
  rw [hhits, Nat.zero_add] at hhits'
  rw [hmisses, Nat.zero_add] at hmisses'
  refine ⟨pool', hrun, fun x => ?_, hhits', hmisses'⟩
  rw [← h'.mem_list_iff, h'.list_eq, hlog, List.append_nil]

/-- **LRU inclusion.** The Stage 3 loop runs over one trace on fresh pools of capacities `c₁ ≤ c₂`. After
    any number of accesses the smaller pool's blocks are in the larger one, every access that hit in the
    smaller pool hit in the larger one, and the hit counters are in that order. -/
theorem lru_inclusion {pread : Nat → Bool} (hc : 1 ≤ c₁) (hle : c₁ ≤ c₂) (hlt : c₂ < 2 ^ 64)
    (hinit₁ : lruBufferPoolInit malloc₁ c₁ blockSize = some pool₁)
    (hinit₂ : lruBufferPoolInit malloc₂ c₂ blockSize = some pool₂) (hread : ∀ b, pread b = true)
    (ra : ReadAround) {trace : List Nat} (htouches : (touches (readAroundBlocks ra) trace).length < 2 ^ 64)
    (n : Nat) :
    ∃ hits₁ hits₂ pool₁' pool₂',
      readAroundSimulator.run pread (trace.take n) (ra, pool₁) = some (hits₁, ra, pool₁') ∧
      readAroundSimulator.run pread (trace.take n) (ra, pool₂) = some (hits₂, ra, pool₂') ∧
      (∀ x ∈ cells pool₁'.slots pool₁'.count, x ∈ cells pool₂'.slots pool₂'.count) ∧
      List.Forall₂ (fun h₁ h₂ => h₁ = true → h₂ = true) hits₁ hits₂ ∧ pool₁'.hits ≤ pool₂'.hits := by
  have htake := Nat.lt_of_le_of_lt (length_touches_take (readAroundBlocks ra) trace n) htouches
  have hsim := readAround_inserts ra
  obtain ⟨pool₁', hrun₁, hcells₁, hhits₁, -⟩ :=
    hsim.run_fresh hc (Nat.lt_of_le_of_lt hle hlt) hinit₁ hread htake
  obtain ⟨pool₂', hrun₂, hcells₂, hhits₂, -⟩ := hsim.run_fresh (hc.trans hle) hlt hinit₂ hread htake
  have hmono : List.Forall₂ _ (lruHits c₁ (readAroundBlocks ra) [] (trace.take n)) _ :=
    lruHits_mono hle [] (trace.take n)
  refine ⟨_, _, pool₁', pool₂', hrun₁, hrun₂, ?_, hmono, ?_⟩
  · intro x hx
    exact (hcells₂ x).mpr ((List.take_prefix_take_left hle).subset ((hcells₁ x).mp hx))
  · rw [hhits₁, hhits₂]
    exact count_true_le hmono

/-- A window of three blocks around every access, in pools of two and four blocks: only the larger one still
    has block 0 when it is read again. -/
theorem lru_inclusion_radius :
    ∃ pool₁ pool₂ pool₁' pool₂',
      lruBufferPoolInit (fun _ _ => some (fun _ => 0)) 2 4096 = some pool₁ ∧
      lruBufferPoolInit (fun _ _ => some (fun _ => 0)) 4 4096 = some pool₂ ∧
      readAroundSimulator.run (fun _ => true) [0, 1, 2, 0] (readAroundInit 1 4, pool₁) =
        some ([false, true, true, false], readAroundInit 1 4, pool₁') ∧
      readAroundSimulator.run (fun _ => true) [0, 1, 2, 0] (readAroundInit 1 4, pool₂) =
        some ([false, true, true, true], readAroundInit 1 4, pool₂') ∧
      (∀ x ∈ cells pool₁'.slots pool₁'.count, x ∈ cells pool₂'.slots pool₂'.count) ∧
      pool₁'.hits ≤ pool₂'.hits := by
  have hinit₁ : lruBufferPoolInit (fun _ _ => some (fun _ => 0)) 2 4096 = some _ := rfl
  have hinit₂ : lruBufferPoolInit (fun _ _ => some (fun _ => 0)) 4 4096 = some _ := rfl
  obtain ⟨hits₁, hits₂, pool₁', pool₂', hrun₁, hrun₂, hsub, -, hhits⟩ :=
    lru_inclusion (by decide) (by decide) (by decide) hinit₁ hinit₂
      (fun b => rfl : ∀ b, (fun _ : Nat => true) b = true) (readAroundInit 1 4)
      (show (touches (readAroundBlocks (readAroundInit 1 4)) [0, 1, 2, 0]).length < 2 ^ 64 by decide) 4
  have hlist₁ : hits₁ = [false, true, true, false] := (congrArg Prod.fst (Option.some.inj hrun₁)).symm
  have hlist₂ : hits₂ = [false, true, true, true] := (congrArg Prod.fst (Option.some.inj hrun₂)).symm
  exact ⟨_, _, pool₁', pool₂', rfl, rfl, hlist₁ ▸ hrun₁, hlist₂ ▸ hrun₂, hsub, hhits⟩

end Inclusion

/-! ## Local walks -/

section Walk

variable {around : Nat → List Nat} {c : Nat}

/-- After an access its window is in the pool, if the pool can hold it. -/
theorem window_resident {a x : Nat} {log : List Nat} (hnodup : (around a).Nodup)
    (hfit : (around a).length ≤ c) (hx : x ∈ around a) :
    x ∈ (Recency.recent ((accessTouches around a).reverse ++ log)).take c := by
  rw [Recency.recent_append, accessTouches, List.foldl_cons,
    Recency.foldl_touch hnodup (Recency.nodup_touch (Recency.nodup_recent log)), List.take_append,
    List.take_of_length_le (by rw [List.length_reverse]; exact hfit)]
  exact List.mem_append_left _ (List.mem_reverse.mpr hx)

/-- A walk each of whose steps stays in the window of the access before hits all the way. -/
theorem lruHits_walk {a : Nat} {log trace : List Nat}
    (hwindow : ∀ x ∈ a :: trace, (around x).Nodup ∧ (around x).length ≤ c)
    (hwalk : (a :: trace).IsChain fun x y => y ∈ around x) :
    lruHits c around ((accessTouches around a).reverse ++ log) trace =
      List.replicate trace.length true := by
  induction trace generalizing a log with
  | nil => rfl
  | cons b trace ih =>
      obtain ⟨hb, hwalk⟩ := List.isChain_cons_cons.mp hwalk
      obtain ⟨hnodup, hfit⟩ := hwindow a List.mem_cons_self
      rw [lruHits, decide_eq_true (window_resident hnodup hfit hb),
        ih (fun x hx => hwindow x (List.mem_cons_of_mem a hx)) hwalk, List.length_cons, List.replicate_succ]

/-- **Read-around saturates on local walks.** If each access of a trace is at most `r` blocks from the one
    before and the pool can hold a window of radius `r`, then the first access misses and all others hit.
    This holds for every trace that makes fewer than 2^64 touches. -/
theorem local_walk_saturates {malloc : Nat → Nat → Option (Nat → Nat)} {pread : Nat → Bool}
    {r total blockSize : Nat} {pool : LruBufferPool} (ht : 1 ≤ total) (hsum : total + r < 2 ^ 64)
    (hc : 2 * r + 1 ≤ c) (hlt : c < 2 ^ 64) (hinit : lruBufferPoolInit malloc c blockSize = some pool)
    (hread : ∀ b, pread b = true) {trace : List Nat} (hne : trace ≠ []) (hfile : ∀ b ∈ trace, b < total)
    (hwalk : trace.IsChain fun x y => x ≤ y + r ∧ y ≤ x + r)
    (htouches : (touches (readAroundBlocks (readAroundInit r total)) trace).length < 2 ^ 64) :
    ∃ pool', readAroundSimulator.run pread trace (readAroundInit r total, pool) =
        some (false :: List.replicate (trace.length - 1) true, readAroundInit r total, pool') ∧
      pool'.misses = 1 := by
  obtain ⟨a, rest, rfl⟩ := List.exists_cons_of_ne_nil hne
  have hwindow : ∀ x ∈ a :: rest, (readAroundBlocks (readAroundInit r total) x).Nodup ∧
      (readAroundBlocks (readAroundInit r total) x).length ≤ c := by
    intro x hx
    have hlt := hfile x hx
    rw [readAroundBlocks_eq (by omega) hlt (by omega), List.length_range']
    exact ⟨List.nodup_range', by omega⟩
  have hchain : (a :: rest).IsChain fun x y => y ∈ readAroundBlocks (readAroundInit r total) x := by
    refine hwalk.imp_of_mem_imp ?_
    intro x y hx hy hstep
    have hlt := hfile x hx
    exact (mem_readAroundBlocks (by omega) hlt (by omega)).mpr ⟨hfile y hy, hstep⟩
  have hhits : lruHits c (readAroundBlocks (readAroundInit r total)) [] (a :: rest) =
      false :: List.replicate rest.length true := by
    rw [lruHits, lruHits_walk hwindow hchain]
    simp [Recency.recent]
  obtain ⟨pool', hrun, -, -, hmisses⟩ :=
    (readAround_inserts (readAroundInit r total)).run_fresh (by omega) hlt hinit hread htouches
  rw [hhits] at hrun hmisses
  refine ⟨pool', hrun, hmisses.trans ?_⟩
  rw [List.count_cons_self, List.count_replicate]
  rfl

/-- Radius 1 in a pool of three blocks. -/
theorem local_walk_saturates_four :
    ∃ pool pool', lruBufferPoolInit (fun _ _ => some (fun _ => 0)) 3 4096 = some pool ∧
      readAroundSimulator.run (fun _ => true) [1, 2, 3, 2] (readAroundInit 1 4, pool) =
        some ([false, true, true, true], readAroundInit 1 4, pool') ∧ pool'.misses = 1 := by
  have hinit : lruBufferPoolInit (fun _ _ => some (fun _ => 0)) 3 4096 = some _ := rfl
  obtain ⟨pool', hrun, hmisses⟩ := local_walk_saturates (c := 3) (r := 1) (by decide)
    (show 4 + 1 < 2 ^ 64 by decide) (by decide) (by decide) hinit
    (fun b => rfl : ∀ b, (fun _ : Nat => true) b = true) (show [1, 2, 3, 2] ≠ [] by simp) (by decide)
    (by decide) (by decide)
  exact ⟨_, pool', rfl, hrun, hmisses⟩

end Walk

/-! ## The clock of the pool wraps

Radius 1, a file of four blocks and a pool of three. Each access to block 1 touches four times and leaves
the pool as it was, up to the stamps; after 2^62 of them the clock is back at 0, and the block touched last
has the smallest stamp. The next access to a new block evicts a block of its own window. -/

section ClockWrap

/-- The pool after `k` accesses to block 1, with `1 ≤ k`. -/
structure Idling (k : Nat) (pool : LruBufferPool) : Prop where
  capacity : pool.capacity = 3
  count : pool.count = 3
  slot₀ : pool.slots 0 = 1
  slot₁ : pool.slots 1 = 0
  slot₂ : pool.slots 2 = 2
  clock : pool.clock = u64 (4 * k)
  used₀ : pool.lastUsed 0 = u64 (4 * k - 1)
  used₁ : pool.lastUsed 1 = u64 (4 * k - 2)
  used₂ : pool.lastUsed 2 = u64 (4 * k)
  misses : pool.misses = 1

variable {k b i : Nat} {pool : LruBufferPool}

theorem findSlot_three (slots : Nat → Nat) (b : Nat) :
    findSlot slots 3 b = if slots 0 = b then some 0 else if slots 1 = b then some 1 else
      if slots 2 = b then some 2 else none := by
  have hrange : List.range 3 = [0, 1, 2] := rfl
  unfold findSlot
  rw [hrange]
  by_cases h₀ : slots 0 = b
  · simp [h₀]
  · by_cases h₁ : slots 1 = b
    · simp [h₀, h₁]
    · by_cases h₂ : slots 2 = b <;> simp [h₀, h₁, h₂]

/-- Inserting blocks that are found only stamps their slots. -/
theorem insertAll_found {p : LruBufferPool} {bs is : List Nat} (hs : p.slots = pool.slots)
    (hc : p.count = pool.count)
    (h : List.Forall₂ (fun b i => findSlot pool.slots pool.count b = some i) bs is) :
    bs.foldl lruBufferPoolInsert p = is.foldl LruBufferPool.stamp p := by
  induction h generalizing p with
  | nil => rfl
  | @cons b i bs is hfind _ ih =>
      have hinsert : lruBufferPoolInsert p b = p.stamp i :=
        lruInsert_of_found (by rw [hs, hc]; exact hfind)
      rw [List.foldl_cons, List.foldl_cons, hinsert]
      exact ih hs hc

theorem Idling.find (h : Idling k pool) :
    findSlot pool.slots pool.count 0 = some 1 ∧ findSlot pool.slots pool.count 1 = some 0 ∧
    findSlot pool.slots pool.count 2 = some 2 ∧ findSlot pool.slots pool.count 3 = none := by
  simp [h.count, findSlot_three, h.slot₀, h.slot₁, h.slot₂]

/-- All four touches of an access to block 1 find their block. -/
theorem Idling.access (h : Idling k pool) (hk : 1 ≤ k) :
    ∃ pool', readAroundSimulator.access (fun _ => true) (readAroundInit 1 4, pool) 1 =
      some (true, readAroundInit 1 4, pool') ∧ Idling (k + 1) pool' := by
  obtain ⟨hfind₀, hfind₁, hfind₂, -⟩ := h.find
  have hblocks : readAroundBlocks (readAroundInit 1 4) 1 = [0, 1, 2] := by decide
  have hwindow : List.Forall₂ (fun b i => findSlot pool.slots pool.count b = some i) [0, 1, 2] [1, 0, 2] :=
    .cons hfind₀ (.cons hfind₁ (.cons hfind₂ .nil))
  have haccess : readAroundSimulator.access (fun _ => true) (readAroundInit 1 4, pool) 1 =
      some (true, readAroundInit 1 4,
        [1, 0, 2].foldl LruBufferPool.stamp ({ pool with hits := u64 (pool.hits + 1) }.stamp 0)) := by
    rw [(readAround_inserts _).access_found hfind₁, hblocks]
    congr 3
    exact insertAll_found rfl rfl hwindow
  refine ⟨_, haccess, h.capacity, h.count, h.slot₀, h.slot₁, h.slot₂, ?_, ?_, ?_, ?_, h.misses⟩
  · simp only [List.foldl_cons, List.foldl_nil, LruBufferPool.stamp, h.clock, u64]
    omega
  · simp [LruBufferPool.stamp, h.clock, u64, Function.update]
    omega
  · simp [LruBufferPool.stamp, h.clock, u64, Function.update]
    omega
  · simp [LruBufferPool.stamp, h.clock, u64, Function.update]
    omega

theorem Idling.run (h : Idling k pool) (hk : 1 ≤ k) (n : Nat) :
    ∃ pool', readAroundSimulator.run (fun _ => true) (List.replicate n 1) (readAroundInit 1 4, pool) =
      some (List.replicate n true, readAroundInit 1 4, pool') ∧ Idling (k + n) pool' := by
  induction n generalizing k pool with
  | zero => exact ⟨pool, rfl, h⟩
  | succ n ih =>
      obtain ⟨pool₁, haccess, h₁⟩ := h.access hk
      obtain ⟨pool', hrun, h'⟩ := ih h₁ (by omega)
      refine ⟨pool', ?_, by rw [show k + (n + 1) = k + 1 + n by omega]; exact h'⟩
      rw [List.replicate_succ, List.replicate_succ]
      exact Simulator.run_cons haccess hrun

/-- When the clock is at 0, a step to block 2 makes the pool forget block 1. -/
theorem Idling.wrap (h : Idling k pool) (hk : 4 * k = 2 ^ 64) :
    ∃ pool', readAroundSimulator.run (fun _ => true) [2, 1] (readAroundInit 1 4, pool) =
      some ([true, false], readAroundInit 1 4, pool') ∧ pool'.misses = 2 := by
  obtain ⟨-, hfind₁, hfind₂, hfind₃⟩ := h.find
  have hblocks : readAroundBlocks (readAroundInit 1 4) 2 = [1, 2, 3] := by decide
  have hwindow : List.Forall₂ (fun b i => findSlot pool.slots pool.count b = some i) [1, 2] [0, 2] :=
    .cons hfind₁ (.cons hfind₂ .nil)
  -- the state in which block 3 is inserted
  let p := [0, 2].foldl LruBufferPool.stamp ({ pool with hits := u64 (pool.hits + 1) }.stamp 2)
  have hvictim : findVictim p.lastUsed p.count = 0 := by
    have hcount : p.count = 3 := h.count
    have hused₀ : p.lastUsed 0 = 2 := by
      simp [p, LruBufferPool.stamp, h.clock, hk, u64, Function.update]
    have hused₁ : p.lastUsed 1 = 2 ^ 64 - 2 := by
      simp [p, LruBufferPool.stamp, h.used₁, hk, u64, Function.update]
    have hused₂ : p.lastUsed 2 = 3 := by
      simp [p, LruBufferPool.stamp, h.clock, hk, u64, Function.update]
    simp [findVictim, hcount, List.range', hused₀, hused₁, hused₂]
  have haccess : readAroundSimulator.access (fun _ => true) (readAroundInit 1 4, pool) 2 =
      some (true, readAroundInit 1 4, p.write 0 3) := by
    have hinsert : lruBufferPoolInsert p 3 = p.write 0 3 := by
      have habsent : 3 ∉ cells p.slots p.count := findSlot_none.mp hfind₃
      have hfull : p.count = p.capacity := h.count.trans h.capacity.symm
      rw [lruInsert_of_full habsent hfull, hvictim]
    rw [(readAround_inserts _).access_found hfind₂, hblocks, ← hinsert]
    have hfound : [1, 2].foldl lruBufferPoolInsert ({ pool with hits := u64 (pool.hits + 1) }.stamp 2) = p :=
      insertAll_found rfl rfl hwindow
    rw [← hfound]
    rfl
  have hmiss : findSlot (p.write 0 3).slots (p.write 0 3).count 1 = none := by
    have hcount : (p.write 0 3).count = 3 := h.count
    have hslot₀ : (p.write 0 3).slots 0 = 3 := by simp [LruBufferPool.write]
    have hslot₁ : (p.write 0 3).slots 1 = 0 := h.slot₁
    have hslot₂ : (p.write 0 3).slots 2 = 2 := h.slot₂
    simp [hcount, findSlot_three, hslot₀, hslot₁, hslot₂]
  have haccess' : readAroundSimulator.access (fun _ => true) (readAroundInit 1 4, p.write 0 3) 1 = _ :=
    (readAround_inserts (readAroundInit 1 4)).access_absent hmiss rfl
  refine ⟨_, Simulator.run_cons haccess (Simulator.run_cons haccess' rfl), ?_⟩
  rw [(lruInsertAll_counters _ _).2]
  show u64 (pool.misses + 1) = 2
  rw [h.misses]
  rfl

/-- The first access to block 1. -/
theorem idling_start :
    ∃ pool', readAroundSimulator.access (fun _ => true)
        (readAroundInit 1 4, ⟨3, 4096, fun _ => 0, fun _ => 0, 0, 0, 0, 0⟩) 1 =
      some (false, readAroundInit 1 4, pool') ∧ Idling 1 pool' := by
  have hblocks : accessTouches (readAroundBlocks (readAroundInit 1 4)) 1 = [1, 0, 1, 2] := by decide
  have haccess : readAroundSimulator.access (fun _ => true)
      (readAroundInit 1 4, ⟨3, 4096, fun _ => 0, fun _ => 0, 0, 0, 0, 0⟩) 1 = _ :=
    (readAround_inserts (readAroundInit 1 4)).access_absent rfl rfl
  rw [hblocks] at haccess
  exact ⟨_, haccess, by decide, by decide, by decide, by decide, by decide, by decide, by decide, by decide,
    by decide, by decide⟩

/-- 2^62 accesses to block 1, one to block 2, and one back to block 1: all are in the file, no step is
    longer than the radius, the pool can hold a window, and the last access misses. -/
theorem local_walk_clock_wraps :
    let trace := List.replicate (2 ^ 62) 1 ++ [2, 1]
    1 ≤ 4 ∧ 4 + 1 < 2 ^ 64 ∧ 2 * 1 + 1 ≤ 3 ∧ trace ≠ [] ∧ (∀ b ∈ trace, b < 4) ∧
    (trace.IsChain fun x y => x ≤ y + 1 ∧ y ≤ x + 1) ∧
    ∃ pool hits pool', lruBufferPoolInit (fun _ _ => some (fun _ => 0)) 3 4096 = some pool ∧
      readAroundSimulator.run (fun _ => true) trace (readAroundInit 1 4, pool) =
        some (hits ++ [false], readAroundInit 1 4, pool') ∧
      pool'.misses = 2 := by
  obtain ⟨n, hn⟩ : ∃ n, 2 ^ 62 = n + 1 := ⟨2 ^ 62 - 1, by omega⟩
  rw [hn]
  intro trace
  refine ⟨by decide, by decide, by decide, by simp [trace], ?_, ?_, ?_⟩
  · intro b hb
    rcases List.mem_append.mp hb with hb | hb
    · rw [List.eq_of_mem_replicate hb]
      decide
    · have hb' : b = 2 ∨ b = 1 := by simpa using hb
      omega
  · refine List.isChain_append.mpr ⟨List.isChain_replicate_of_rel _ (by decide), by decide, ?_⟩
    intro x hx y hy
    have hx' := List.eq_of_mem_replicate (List.mem_of_mem_getLast? hx)
    have hy' : 2 = y := by simpa using hy
    omega
  · obtain ⟨pool₁, haccess, h₁⟩ := idling_start
    obtain ⟨pool₂, hidle, h₂⟩ := h₁.run (Nat.le_refl 1) n
    obtain ⟨pool', hwrap, hmisses⟩ := h₂.wrap (by omega)
    refine ⟨_, false :: List.replicate n true ++ [true], pool', rfl, ?_, hmisses⟩
    have hpre := Simulator.run_cons haccess hidle
    rw [← List.replicate_succ] at hpre
    rw [Simulator.run_append, hpre, Option.bind_some, hwrap]
    simp

end ClockWrap

end Prefetch
end SystemsPlayground
