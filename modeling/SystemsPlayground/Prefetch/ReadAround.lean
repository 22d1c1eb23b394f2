import SystemsPlayground.Prefetch.LruBufferPool
import SystemsPlayground.Prefetch.Readahead

/-!
# `Prefetch.ReadAround` — `prefetch-sim/src/read_around.c` and its driver loop

On an access to a block the Stage 3 hook inserts the blocks around it, `radius` to either side, into an LRU
pool. Both ends of the window are clamped: the lower one at block 0, the upper one at the last block of the
file. The sum `block_num + radius` is formed before it is clamped, so it can wrap; the window is the one
intended exactly when it does not (`read_around_window_iff`).

The driver loop of `read_around_bench.c` is the loop of the other stages (`Simulator`) over the LRU pool.
-/

namespace SystemsPlayground
namespace Prefetch

open Word

/-- `ReadAround`, without the pointer to the pool. -/
structure ReadAround where
  radius : Nat
  totalBlocks : Nat
deriving DecidableEq

/-- `read_around_init`. -/
def readAroundInit (radius totalBlocks : Nat) : ReadAround :=
  { radius := radius, totalBlocks := totalBlocks }

/-- `read_around_on_access`. -/
def readAroundOnAccess {π : Type} (prefetchRange : π → Nat → Nat → π) (ra : ReadAround) (pool : π)
    (blockNum : Nat) : π :=
  let start := if blockNum > ra.radius then blockNum - ra.radius else 0
  let endBlock := u64 (blockNum + ra.radius)
  let endBlock :=
    if ra.totalBlocks > 0 ∧ endBlock > ra.totalBlocks - 1 then ra.totalBlocks - 1 else endBlock
  -- `end - start + 1` in unsigned arithmetic
  let count := u64 (endBlock + 2 ^ 64 - start + 1)
  prefetchRange pool start count

/-- The loop of `read_around_bench.c`. -/
def readAroundSimulator : Simulator ReadAround LruBufferPool :=
  ⟨lruBufferPoolLookup, lruBufferPoolInsert,
    fun ra pool b => (ra, readAroundOnAccess lruBufferPoolPrefetchRange ra pool b)⟩

/-- The blocks that `read_around_on_access` passes to `lru_buffer_pool_insert`, in order. -/
def readAroundBlocks (ra : ReadAround) (blockNum : Nat) : List Nat :=
  readAroundOnAccess (fun blocks start count => blocks ++ rangeBlocks start count) ra [] blockNum

/-- The hook makes one call, and which one does not depend on the pool. -/
theorem readAround_call (ra : ReadAround) (b : Nat) : ∃ start count, ∀ {π : Type}
    (prefetchRange : π → Nat → Nat → π) (pool : π),
    readAroundOnAccess prefetchRange ra pool b = prefetchRange pool start count :=
  ⟨_, _, fun _ _ => rfl⟩

theorem readAround_eq (ra : ReadAround) (pool : LruBufferPool) (b : Nat) :
    readAroundOnAccess lruBufferPoolPrefetchRange ra pool b =
      (readAroundBlocks ra b).foldl lruBufferPoolInsert pool := by
  obtain ⟨start, count, hcall⟩ := readAround_call ra b
  rw [readAroundBlocks, hcall, hcall, List.nil_append, lruPrefetchRange_eq]

/-! ## The window -/

section Window

variable {r total b : Nat}

/-- The call of `lru_buffer_pool_prefetch_range`, with the lower clamp as truncated subtraction. -/
theorem readAroundBlocks_call (r total b : Nat) :
    readAroundBlocks (readAroundInit r total) b =
      rangeBlocks (b - r)
        (u64 ((if total > 0 ∧ u64 (b + r) > total - 1 then total - 1 else u64 (b + r)) + 2 ^ 64 - (b - r) +
          1)) := by
  have hstart : (if b > r then b - r else 0) = b - r := by split_ifs <;> omega
  rw [← hstart]
  exact List.nil_append _

/-- Without wrap, the window is an interval of the file around the block. -/
theorem readAroundBlocks_eq (ht : total < 2 ^ 64) (hb : b < total) (h : b + r < 2 ^ 64) :
    readAroundBlocks (readAroundInit r total) b =
      List.range' (b - r) (min (b + r) (total - 1) - (b - r) + 1) := by
  have hend : (if total > 0 ∧ b + r > total - 1 then total - 1 else b + r) = min (b + r) (total - 1) := by
    split_ifs <;> omega
  have hcount : u64 (min (b + r) (total - 1) + 2 ^ 64 - (b - r) + 1) =
      min (b + r) (total - 1) - (b - r) + 1 := by
    unfold u64
    omega
  rw [readAroundBlocks_call, u64_of_lt h, hend, hcount, rangeBlocks_eq (by omega)]

theorem mem_readAroundBlocks {x : Nat} (ht : total < 2 ^ 64) (hb : b < total) (h : b + r < 2 ^ 64) :
    x ∈ readAroundBlocks (readAroundInit r total) b ↔ x < total ∧ b ≤ x + r ∧ x ≤ b + r := by
  rw [readAroundBlocks_eq ht hb h, List.mem_range'_1]
  omega

/-- A sum that wraps leaves an upper end below the block: either the window ends there, or the count wraps
    as well and the range runs over the largest block number. -/
theorem readAroundBlocks_wrap (hr : r < 2 ^ 64) (ht : total < 2 ^ 64) (hb : b < total)
    (h : 2 ^ 64 ≤ b + r) :
    b ∉ readAroundBlocks (readAroundInit r total) b ∨
      2 ^ 64 - 1 ∈ readAroundBlocks (readAroundInit r total) b := by
  have hsum : u64 (b + r) = b + r - 2 ^ 64 := by unfold u64; omega
  rw [readAroundBlocks_call, hsum, if_neg (by omega)]
  by_cases hle : b - r ≤ b + r - 2 ^ 64
  · left
    have hcount : u64 (b + r - 2 ^ 64 + 2 ^ 64 - (b - r) + 1) = b + r - 2 ^ 64 - (b - r) + 1 := by
      unfold u64
      omega
    rw [hcount, rangeBlocks_eq (by omega), List.mem_range'_1]
    omega
  · right
    have hcount : u64 (b + r - 2 ^ 64 + 2 ^ 64 - (b - r) + 1) = 2 * r + 1 := by
      unfold u64
      omega
    rw [hcount, rangeBlocks, List.mem_map]
    refine ⟨2 ^ 64 - 1 - (b - r), List.mem_range.mpr (by omega), ?_⟩
    rw [show b - r + (2 ^ 64 - 1 - (b - r)) = 2 ^ 64 - 1 by omega]
    exact u64_of_lt (by omega)

/-- **The read-around window is exact unless the sum wraps.** For every 64-bit radius, file size and block
    of the file, what `read_around_on_access` inserts is a list of blocks; these are the blocks of the file
    at most `r` away from `b`, each once and in ascending order, exactly when `b + r` fits into a word. -/
theorem read_around_window_iff (hr : r < 2 ^ 64) (ht : total < 2 ^ 64) (hb : b < total) :
    let ra := readAroundInit r total
    let blocks := readAroundBlocks ra b
    (∀ pool, readAroundOnAccess lruBufferPoolPrefetchRange ra pool b =
      blocks.foldl lruBufferPoolInsert pool) ∧
    (((∀ x, x ∈ blocks ↔ x < total ∧ b ≤ x + r ∧ x ≤ b + r) ∧ blocks.Pairwise (· < ·) ∧ b ∈ blocks ∧
      ∀ x ∈ blocks, x < total) ↔ b + r < 2 ^ 64) := by
  intro ra blocks
  refine ⟨fun pool => readAround_eq ra pool b, ?_, ?_⟩
  · rintro ⟨-, -, hmem, hfile⟩
    by_contra hwrap
    rcases readAroundBlocks_wrap hr ht hb (Nat.not_lt.mp hwrap) with hno | hlarge
    · exact hno hmem
    · have := hfile _ hlarge
      omega
  · intro h
    have hiff : ∀ x, x ∈ blocks ↔ x < total ∧ b ≤ x + r ∧ x ≤ b + r := fun x =>
      mem_readAroundBlocks ht hb h
    refine ⟨hiff, ?_, (hiff b).mpr ⟨hb, by omega, by omega⟩, fun x hx => ((hiff x).mp hx).1⟩
    show (readAroundBlocks (readAroundInit r total) b).Pairwise (· < ·)
    rw [readAroundBlocks_eq ht hb h]
    exact List.pairwise_lt_range'

/-- Radius 2 around block 1 of a file of ten blocks. -/
theorem read_around_window_iff_one :
    readAroundBlocks (readAroundInit 2 10) 1 = [0, 1, 2, 3] ∧
    ∀ x ∈ readAroundBlocks (readAroundInit 2 10) 1, x < 10 :=
  ⟨by decide, ((read_around_window_iff (r := 2) (b := 1) (by decide) (by decide)
    (show 1 < 10 by decide)).2.mpr (by decide)).2.2.2⟩

/-- With the largest radius the sum `1 + r` wraps to 0, and block 1 is not in its own window. -/
theorem read_around_wraps :
    2 ^ 64 - 1 < 2 ^ 64 ∧ 1 < 10 ∧ readAroundBlocks (readAroundInit (2 ^ 64 - 1) 10) 1 = [0] ∧
    1 ∉ readAroundBlocks (readAroundInit (2 ^ 64 - 1) 10) 1 := by
  decide

end Window

end Prefetch
end SystemsPlayground
