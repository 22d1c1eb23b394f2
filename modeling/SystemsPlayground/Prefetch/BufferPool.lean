import Mathlib.Logic.Function.Basic
import SystemsPlayground.Lib.Word
import SystemsPlayground.Lib.Fifo

/-!
# `Prefetch.BufferPool` — `prefetch-sim/src/buffer_pool.c` refines a FIFO queue

The pool keeps the numbers of the cached blocks in an array `slots` that is first filled from the left
and then overwritten at a rotating position `evict_pos`. Reading the array from `evict_pos` around gives
the blocks in the order in which they were inserted (`queue`); the main result is that this list is a
bounded FIFO queue, `Fifo.push`, over every sequence of operations (`run_refines_fifo`).

`slots` is modelled as a total map from indices to cells, with arbitrary contents where nothing was
written; counters and indices are `size_t` values, reduced where they are incremented.
-/

namespace SystemsPlayground
namespace Prefetch

open Word

/-- `BufferPool`. -/
structure BufferPool where
  capacity : Nat
  blockSize : Nat
  slots : Nat → Nat
  count : Nat
  evictPos : Nat
  hits : Nat
  misses : Nat

/-- `buffer_pool_init`. `malloc` answers a size in bytes with the contents of a new array, or with
    `none` for `NULL`, in which case the program exits. -/
def bufferPoolInit (malloc : Nat → Option (Nat → Nat)) (capacity blockSize : Nat) :
    Option BufferPool :=
  (malloc (u64 (capacity * 8))).map fun slots =>
    { capacity := capacity, blockSize := blockSize, slots := slots, count := 0, evictPos := 0,
      hits := 0, misses := 0 }

/-- The scan of `slots[0..count)` for a block: the first index that holds it. -/
def findSlot (slots : Nat → Nat) (count : Nat) (blockNum : Nat) : Option Nat :=
  (List.range count).find? (fun i => slots i == blockNum)

/-- `buffer_pool_lookup`; the result is `true` for 1 and `false` for 0. -/
def bufferPoolLookup (pool : BufferPool) (blockNum : Nat) : Bool × BufferPool :=
  match findSlot pool.slots pool.count blockNum with
  | some _ => (true, { pool with hits := u64 (pool.hits + 1) })
  | none   => (false, { pool with misses := u64 (pool.misses + 1) })

/-- `buffer_pool_insert`. -/
def bufferPoolInsert (pool : BufferPool) (blockNum : Nat) : BufferPool :=
  match findSlot pool.slots pool.count blockNum with
  | some _ => pool
  | none   =>
    if pool.count < pool.capacity then
      { pool with
        slots := Function.update pool.slots pool.count blockNum
        count := u64 (pool.count + 1) }
    else
      { pool with
        slots := Function.update pool.slots pool.evictPos blockNum
        evictPos := u64 (pool.evictPos + 1) % pool.capacity }

/-- `buffer_pool_prefetch_range`. -/
def bufferPoolPrefetchRange (pool : BufferPool) (startBlock count : Nat) : BufferPool :=
  (List.range count).foldl (fun p i => bufferPoolInsert p (u64 (startBlock + i))) pool

/-! ## The scan -/

section Scan

variable {slots : Nat → Nat} {count b : Nat}

/-- The blocks in `slots[0..count)`, position by position. -/
def cells (slots : Nat → Nat) (count : Nat) : List Nat := (List.range count).map slots

theorem findSlot_none : findSlot slots count b = none ↔ b ∉ cells slots count := by
  simp [findSlot, cells]

theorem findSlot_some {i : Nat} (h : findSlot slots count b = some i) :
    i < count ∧ slots i = b := by
  have hmem := List.mem_of_find?_eq_some h
  have hp := List.find?_some h
  exact ⟨List.mem_range.mp hmem, by simpa using hp⟩

theorem findSlot_isSome : (findSlot slots count b).isSome = true ↔ b ∈ cells slots count := by
  rw [← not_iff_not, ← findSlot_none, Option.not_isSome_iff_eq_none]

/-- Writing past the filled part appends to it. -/
theorem cells_update_end :
    cells (Function.update slots count b) (count + 1) = cells slots count ++ [b] := by
  unfold cells
  rw [List.range_succ, List.map_append]
  congr 1
  · apply List.map_congr_left
    intro i hi
    rw [Function.update_of_ne (Nat.ne_of_lt (List.mem_range.mp hi))]
  · simp

/-- Overwriting a filled position replaces that element. -/
theorem cells_update_lt {i : Nat} :
    cells (Function.update slots i b) count = (cells slots count).set i b := by
  apply List.ext_getElem
  · simp [cells]
  · intro j h₁ h₂
    simp only [cells, List.getElem_map, List.getElem_range, List.getElem_set]
    by_cases hj : i = j
    · subst hj; simp
    · rw [Function.update_of_ne (Ne.symm hj), if_neg hj]

theorem length_cells : (cells slots count).length = count := by simp [cells]

end Scan

/-! ## The abstraction: the ring as a queue -/

/-- `slots[evict_pos..count)` followed by `slots[0..evict_pos)`. -/
def BufferPool.queue (pool : BufferPool) : List Nat :=
  (cells pool.slots pool.count).drop pool.evictPos ++ (cells pool.slots pool.count).take pool.evictPos

/-- The invariant of the pool: the array is filled from the left without duplicates, and the ring
    starts to turn only when it is full. -/
structure PoolInv (pool : BufferPool) : Prop where
  cap_pos : 1 ≤ pool.capacity
  cap_lt : pool.capacity < 2 ^ 64
  count_le : pool.count ≤ pool.capacity
  evict_lt : pool.evictPos < pool.capacity
  evict_zero : pool.count < pool.capacity → pool.evictPos = 0
  nodup : (cells pool.slots pool.count).Nodup

variable {pool : BufferPool} {b : Nat}

/-- The queue is a rotation of the array, so it has the same elements. -/
theorem mem_queue : b ∈ pool.queue ↔ b ∈ cells pool.slots pool.count := by
  unfold BufferPool.queue
  rw [List.mem_append, or_comm, ← List.mem_append, List.take_append_drop]

theorem length_queue : pool.queue.length = pool.count := by
  unfold BufferPool.queue
  rw [List.length_append, Nat.add_comm, ← List.length_append, List.take_append_drop, length_cells]

/-- One turn of a full ring: overwriting the oldest element and moving on drops it from the front of
    the queue and puts the new one at the back. -/
theorem rotate_set {L : List Nat} {e : Nat} (he : e < L.length) :
    (L.set e b).drop ((e + 1) % L.length) ++ (L.set e b).take ((e + 1) % L.length) =
      (L.drop e ++ L.take e).tail ++ [b] := by
  obtain ⟨A, x, B, hL, hA⟩ : ∃ A x B, L = A ++ x :: B ∧ A.length = e := by
    refine ⟨L.take e, L[e], L.drop (e + 1), ?_, by simp; omega⟩
    rw [← List.drop_eq_getElem_cons he, List.take_append_drop]
  subst hL hA
  -- the ring holds, from the oldest on, `x`, then `B`, then `A`
  have hset : (A ++ x :: B).set A.length b = A ++ b :: B := by simp
  have hold : ((A ++ x :: B).drop A.length ++ (A ++ x :: B).take A.length).tail = B ++ A := by simp
  rw [hset, hold]
  by_cases hB : B = []
  · -- `x` was the last cell, and `evict_pos` wraps to 0
    subst hB
    simp
  · have hlt : A.length + 1 < (A ++ x :: B).length := by
      have := List.length_pos_of_ne_nil hB
      simp only [List.length_append, List.length_cons]
      omega
    have hassoc : A ++ b :: B = (A ++ [b]) ++ B := by simp
    have hlen : A.length + 1 = (A ++ [b]).length := by simp
    rw [Nat.mod_eq_of_lt hlt, hassoc, hlen, List.drop_left, List.take_left, List.append_assoc]

/-! ## One specification per operation -/

/-- `buffer_pool_lookup` answers whether the block is in the queue. -/
theorem lookup_hit_iff : (bufferPoolLookup pool b).1 = true ↔ b ∈ pool.queue := by
  rw [mem_queue, ← findSlot_isSome]
  unfold bufferPoolLookup
  cases findSlot pool.slots pool.count b <;> simp

/-- `buffer_pool_lookup` counts one hit or one miss and changes nothing else. -/
theorem lookup_state :
    (bufferPoolLookup pool b).2 =
      if (bufferPoolLookup pool b).1 = true then { pool with hits := u64 (pool.hits + 1) }
      else { pool with misses := u64 (pool.misses + 1) } := by
  unfold bufferPoolLookup
  cases findSlot pool.slots pool.count b <;> rfl

theorem lookup_queue : (bufferPoolLookup pool b).2.queue = pool.queue := by
  rw [lookup_state]; split_ifs <;> rfl

theorem lookup_cells (pool : BufferPool) (b : Nat) :
    cells (bufferPoolLookup pool b).2.slots (bufferPoolLookup pool b).2.count =
      cells pool.slots pool.count := by
  rw [lookup_state]; split_ifs <;> rfl

theorem lookup_capacity : (bufferPoolLookup pool b).2.capacity = pool.capacity := by
  rw [lookup_state]; split_ifs <;> rfl

theorem lookup_inv (h : PoolInv pool) : PoolInv (bufferPoolLookup pool b).2 := by
  rw [lookup_state]; split_ifs <;> exact ⟨h.1, h.2, h.3, h.4, h.5, h.6⟩

/-- The three branches of `buffer_pool_insert`. -/
theorem insert_cases (h : PoolInv pool) :
    (b ∈ pool.queue ∧ bufferPoolInsert pool b = pool) ∨
    (b ∉ pool.queue ∧ pool.count < pool.capacity ∧ bufferPoolInsert pool b =
      { pool with slots := Function.update pool.slots pool.count b, count := pool.count + 1 }) ∨
    (b ∉ pool.queue ∧ pool.count = pool.capacity ∧ bufferPoolInsert pool b =
      { pool with
        slots := Function.update pool.slots pool.evictPos b
        evictPos := (pool.evictPos + 1) % pool.capacity }) := by
  have hlt := h.cap_lt
  have hle := h.count_le
  have hev := h.evict_lt
  rw [mem_queue]
  unfold bufferPoolInsert
  cases hfind : findSlot pool.slots pool.count b with
  | some i =>
      left
      exact ⟨findSlot_isSome.mp (by rw [hfind]; rfl), rfl⟩
  | none =>
      right
      have hb := findSlot_none.mp hfind
      by_cases hc : pool.count < pool.capacity
      · left
        refine ⟨hb, hc, ?_⟩
        simp only [if_pos hc, u64_of_lt (show pool.count + 1 < 2 ^ 64 by omega)]
      · right
        refine ⟨hb, by omega, ?_⟩
        simp only [if_neg hc, u64_of_lt (show pool.evictPos + 1 < 2 ^ 64 by omega)]

theorem insert_capacity (pool : BufferPool) (b : Nat) :
    (bufferPoolInsert pool b).capacity = pool.capacity := by
  unfold bufferPoolInsert
  cases findSlot pool.slots pool.count b with
  | some i => rfl
  | none => by_cases hroom : pool.count < pool.capacity <;> simp [hroom]

/-- Nothing but the inserted block and what was there is cached after an insertion. -/
theorem mem_cells_insert {x : Nat}
    (hx : x ∈ cells (bufferPoolInsert pool b).slots (bufferPoolInsert pool b).count) :
    x ∈ cells pool.slots pool.count ∨ x = b := by
  unfold bufferPoolInsert at hx
  cases hfind : findSlot pool.slots pool.count b with
  | some i =>
      rw [hfind] at hx
      exact Or.inl hx
  | none =>
      by_cases hroom : pool.count < pool.capacity
      · simp only [hfind, if_pos hroom] at hx
        -- the new count can only be smaller than `count + 1`
        obtain ⟨i, hi, rfl⟩ := List.mem_map.mp hx
        have hi' : i < u64 (pool.count + 1) := List.mem_range.mp hi
        have hle : u64 (pool.count + 1) ≤ pool.count + 1 := Nat.mod_le _ _
        have hmem : Function.update pool.slots pool.count b i ∈
            cells (Function.update pool.slots pool.count b) (pool.count + 1) :=
          List.mem_map_of_mem (List.mem_range.mpr (by omega))
        rw [cells_update_end, List.mem_append, List.mem_singleton] at hmem
        exact hmem
      · simp only [hfind, if_neg hroom, cells_update_lt] at hx
        exact List.mem_or_eq_of_mem_set hx

/-- Inserting touches neither counter. -/
theorem insert_counters (pool : BufferPool) (b : Nat) :
    (bufferPoolInsert pool b).hits = pool.hits ∧ (bufferPoolInsert pool b).misses = pool.misses := by
  unfold bufferPoolInsert
  cases findSlot pool.slots pool.count b with
  | some i => exact ⟨rfl, rfl⟩
  | none => by_cases hc : pool.count < pool.capacity <;> simp [hc]

theorem insert_inv (h : PoolInv pool) : PoolInv (bufferPoolInsert pool b) := by
  rcases insert_cases (b := b) h with ⟨-, he⟩ | ⟨hb, hc, he⟩ | ⟨hb, hc, he⟩
  · rw [he]; exact h
  · rw [he]
    rw [mem_queue] at hb
    refine ⟨h.cap_pos, h.cap_lt, hc, h.evict_lt, fun _ => h.evict_zero hc, ?_⟩
    simp only [cells_update_end]
    rw [← List.concat_eq_append]
    exact h.nodup.concat hb
  · rw [he]
    rw [mem_queue] at hb
    refine ⟨h.cap_pos, h.cap_lt, h.count_le, Nat.mod_lt _ h.cap_pos, fun hlt => ?_, ?_⟩
    · exact absurd hlt (by simp [hc])
    · simp only [cells_update_lt]
      exact h.nodup.set hb

/-- **Insertion is `Fifo.push`.** -/
theorem insert_queue (h : PoolInv pool) :
    (bufferPoolInsert pool b).queue = Fifo.push pool.capacity pool.queue b := by
  rcases insert_cases (b := b) h with ⟨hb, he⟩ | ⟨hb, hc, he⟩ | ⟨hb, hc, he⟩
  · rw [he, Fifo.push_of_mem hb]
  · rw [he, Fifo.push_of_room hb (by rw [length_queue]; exact hc)]
    -- as long as there is room the ring has not turned
    have hz := h.evict_zero hc
    simp only [BufferPool.queue, hz, cells_update_end, List.drop_zero, List.take_zero, List.append_nil]
  · rw [he, Fifo.push_of_full hb (by rw [length_queue]; omega)]
    have hlen : (cells pool.slots pool.count).length = pool.capacity := by rw [length_cells, hc]
    have hev : pool.evictPos < (cells pool.slots pool.count).length := hlen ▸ h.evict_lt
    have hrot := rotate_set (b := b) hev
    rw [hlen] at hrot
    simp only [BufferPool.queue, cells_update_lt]
    exact hrot

/-- The blocks that a call of `buffer_pool_prefetch_range` inserts, in order. -/
def rangeBlocks (startBlock count : Nat) : List Nat :=
  (List.range count).map fun i => u64 (startBlock + i)

/-- A range that ends at or below 2^64 does not wrap. -/
theorem rangeBlocks_eq {startBlock count : Nat} (h : startBlock + count ≤ 2 ^ 64) :
    rangeBlocks startBlock count = List.range' startBlock count := by
  rw [rangeBlocks, List.range'_eq_map_range]
  apply List.map_congr_left
  intro i hi
  have := List.mem_range.mp hi
  exact u64_of_lt (by omega)

theorem prefetchRange_eq (pool : BufferPool) (startBlock count : Nat) :
    bufferPoolPrefetchRange pool startBlock count =
      (rangeBlocks startBlock count).foldl bufferPoolInsert pool := by
  rw [bufferPoolPrefetchRange, rangeBlocks, List.foldl_map]

/-- A sequence of insertions keeps the invariant and the capacity, and pushes its blocks one after the
    other. -/
theorem insertAll_spec (h : PoolInv pool) (bs : List Nat) :
    PoolInv (bs.foldl bufferPoolInsert pool) ∧
    (bs.foldl bufferPoolInsert pool).capacity = pool.capacity ∧
    (bs.foldl bufferPoolInsert pool).queue = bs.foldl (Fifo.push pool.capacity) pool.queue := by
  induction bs generalizing pool with
  | nil => exact ⟨h, rfl, rfl⟩
  | cons b bs ih =>
      obtain ⟨hinv, hcap, hqueue⟩ := ih (insert_inv (b := b) h)
      refine ⟨hinv, ?_, ?_⟩
      · rw [List.foldl_cons, hcap, insert_capacity]
      · rw [List.foldl_cons, hqueue, insert_capacity, insert_queue h, List.foldl_cons]

theorem prefetchRange_capacity (pool : BufferPool) (startBlock count : Nat) :
    (bufferPoolPrefetchRange pool startBlock count).capacity = pool.capacity := by
  rw [prefetchRange_eq]
  induction rangeBlocks startBlock count generalizing pool with
  | nil => rfl
  | cons b bs ih => rw [List.foldl_cons, ih, insert_capacity]

theorem prefetchRange_counters (pool : BufferPool) (startBlock count : Nat) :
    (bufferPoolPrefetchRange pool startBlock count).hits = pool.hits ∧
    (bufferPoolPrefetchRange pool startBlock count).misses = pool.misses := by
  rw [prefetchRange_eq]
  induction rangeBlocks startBlock count generalizing pool with
  | nil => exact ⟨rfl, rfl⟩
  | cons b bs ih =>
      obtain ⟨hhits, hmisses⟩ := ih (bufferPoolInsert pool b)
      obtain ⟨hh, hm⟩ := insert_counters pool b
      exact ⟨hhits.trans hh, hmisses.trans hm⟩

/-! ## Sequences of operations -/

/-- One operation on a pool. -/
inductive PoolOp where
  | lookup (blockNum : Nat)
  | insert (blockNum : Nat)
  | prefetchRange (startBlock count : Nat)

/-- The operation on the pool. -/
def PoolOp.apply (pool : BufferPool) : PoolOp → BufferPool
  | .lookup b          => (bufferPoolLookup pool b).2
  | .insert b          => bufferPoolInsert pool b
  | .prefetchRange s n => bufferPoolPrefetchRange pool s n

/-- The operation on the abstract queue of capacity `c`. -/
def PoolOp.fifo (c : Nat) (q : List Nat) : PoolOp → List Nat
  | .lookup _          => q
  | .insert b          => Fifo.push c q b
  | .prefetchRange s n => (rangeBlocks s n).foldl (Fifo.push c) q

/-- 1 for a lookup. -/
def PoolOp.lookups : PoolOp → Nat
  | .lookup _ => 1
  | _         => 0

/-- One operation keeps the invariant and the capacity, acts on the queue as on the abstract one, and
    moves the counters by the lookups it makes. -/
theorem apply_spec (h : PoolInv pool) (op : PoolOp) :
    PoolInv (op.apply pool) ∧ (op.apply pool).capacity = pool.capacity ∧
    (op.apply pool).queue = op.fifo pool.capacity pool.queue ∧
    u64 ((op.apply pool).hits + (op.apply pool).misses) =
      u64 (pool.hits + pool.misses + op.lookups) := by
  cases op with
  | lookup b =>
      refine ⟨lookup_inv h, lookup_capacity, lookup_queue, ?_⟩
      simp only [PoolOp.apply, PoolOp.lookups]
      rw [lookup_state]
      split_ifs <;> simp only [u64] <;> omega
  | insert b =>
      obtain ⟨hh, hm⟩ := insert_counters pool b
      refine ⟨insert_inv h, insert_capacity _ _, insert_queue h, ?_⟩
      simp only [PoolOp.apply, PoolOp.lookups, hh, hm, Nat.add_zero]
  | prefetchRange s n =>
      obtain ⟨hinv, hcap, hqueue⟩ := insertAll_spec h (rangeBlocks s n)
      obtain ⟨hhits, hmisses⟩ := prefetchRange_counters pool s n
      simp only [PoolOp.apply, PoolOp.fifo, PoolOp.lookups, hhits, hmisses, Nat.add_zero]
      rw [prefetchRange_eq]
      exact ⟨hinv, hcap, hqueue, trivial⟩

theorem run_spec (h : PoolInv pool) (ops : List PoolOp) :
    PoolInv (ops.foldl PoolOp.apply pool) ∧
    (ops.foldl PoolOp.apply pool).capacity = pool.capacity ∧
    (ops.foldl PoolOp.apply pool).queue = ops.foldl (PoolOp.fifo pool.capacity) pool.queue ∧
    u64 ((ops.foldl PoolOp.apply pool).hits + (ops.foldl PoolOp.apply pool).misses) =
      u64 (pool.hits + pool.misses + (ops.map PoolOp.lookups).sum) := by
  induction ops generalizing pool with
  | nil => exact ⟨h, rfl, rfl, by simp⟩
  | cons op ops ih =>
      obtain ⟨hinv, hcap, hqueue, hcount⟩ := apply_spec h op
      obtain ⟨hinv', hcap', hqueue', hcount'⟩ := ih hinv
      refine ⟨hinv', hcap'.trans hcap, ?_, ?_⟩
      · rw [List.foldl_cons, hqueue', hcap, hqueue, List.foldl_cons]
      · rw [List.foldl_cons, hcount', List.map_cons, List.sum_cons]
        simp only [u64] at hcount ⊢
        omega

theorem init_spec {malloc : Nat → Option (Nat → Nat)} {c blockSize : Nat} (hc : 1 ≤ c)
    (hlt : c < 2 ^ 64) (hinit : bufferPoolInit malloc c blockSize = some pool) :
    PoolInv pool ∧ pool.capacity = c ∧ pool.queue = [] ∧ pool.hits = 0 ∧ pool.misses = 0 := by
  obtain ⟨slots, -, rfl⟩ := Option.map_eq_some_iff.mp hinit
  refine ⟨⟨hc, hlt, Nat.zero_le _, hc, fun _ => rfl, ?_⟩, rfl, rfl, rfl, rfl⟩
  exact List.nodup_nil

/-- **The pool refines a FIFO queue.** After any sequence of operations on a fresh pool of capacity `c`,
    the ring holds distinct blocks, is filled before it turns, and read from `evict_pos` around it is the
    abstract queue. A lookup answers membership in that queue and touches only the counters, insertions
    never touch them, and together the counters show the number of lookups. -/
theorem run_refines_fifo {malloc : Nat → Option (Nat → Nat)} {c blockSize : Nat}
    {pool₀ : BufferPool} (hc : 1 ≤ c) (hlt : c < 2 ^ 64)
    (hinit : bufferPoolInit malloc c blockSize = some pool₀) (ops : List PoolOp) :
    let pool := ops.foldl PoolOp.apply pool₀
    let q := ops.foldl (PoolOp.fifo c) []
    pool.count ≤ c ∧ (cells pool.slots pool.count).Nodup ∧ pool.evictPos < c ∧
    (pool.count < c → pool.evictPos = 0) ∧ pool.queue = q ∧
    (∀ b, ((bufferPoolLookup pool b).1 = true ↔ b ∈ q) ∧
      { (bufferPoolLookup pool b).2 with hits := pool.hits, misses := pool.misses } = pool) ∧
    (∀ b, (bufferPoolInsert pool b).hits = pool.hits ∧
      (bufferPoolInsert pool b).misses = pool.misses) ∧
    (∀ s n, (bufferPoolPrefetchRange pool s n).hits = pool.hits ∧
      (bufferPoolPrefetchRange pool s n).misses = pool.misses) ∧
    u64 (pool.hits + pool.misses) = u64 (ops.map PoolOp.lookups).sum := by
  obtain ⟨hinv₀, hcap₀, hqueue₀, hhits₀, hmisses₀⟩ := init_spec hc hlt hinit
  obtain ⟨hinv, hcap, hqueue, hcount⟩ := run_spec hinv₀ ops
  rw [hcap₀] at hcap hqueue
  rw [hqueue₀] at hqueue
  refine ⟨hcap ▸ hinv.count_le, hinv.nodup, hcap ▸ hinv.evict_lt, hcap ▸ hinv.evict_zero, hqueue,
    fun b => ⟨?_, ?_⟩, insert_counters _, prefetchRange_counters _, ?_⟩
  · rw [lookup_hit_iff, hqueue]
  · rw [lookup_state]; split_ifs <;> rfl
  · rw [hcount, hhits₀, hmisses₀, Nat.zero_add]

/-- A ring of capacity 2 after three insertions and a lookup: block 1 is gone. -/
theorem run_refines_fifo_three :
    let ops : List PoolOp := [.insert 1, .insert 2, .insert 3, .lookup 1]
    ∃ pool₀, bufferPoolInit (fun _ => some (fun _ => 0)) 2 4096 = some pool₀ ∧
      (ops.foldl PoolOp.apply pool₀).queue = [2, 3] ∧
      (bufferPoolLookup (ops.foldl PoolOp.apply pool₀) 3).1 = true := by
  intro ops
  refine ⟨_, rfl, ?_⟩
  obtain ⟨-, -, -, -, hqueue, hlookup, -⟩ :=
    run_refines_fifo (c := 2) (by decide) (by decide)
      (show bufferPoolInit (fun _ => some (fun _ => 0)) 2 4096 = some _ from rfl) ops
  exact ⟨hqueue, (hlookup 3).1.mpr (by decide)⟩

/-! ## What a prefetch delivers -/

theorem nodup_queue (h : PoolInv pool) : pool.queue.Nodup := by
  have hperm : pool.queue.Perm (cells pool.slots pool.count) := by
    refine List.perm_append_comm.trans (List.Perm.of_eq ?_)
    rw [List.take_append_drop]
  exact hperm.nodup_iff.mpr h.nodup

/-- `Fifo.Fits` for a range of consecutive blocks. -/
theorem fits_range {c start n : Nat} {q : List Nat} :
    Fifo.Fits c [] q (List.range' start n) ↔
      ∀ i < n, ∀ older younger, q = older ++ (start + i) :: younger →
        (List.range' start (i + 1) ++ younger).toFinset.card ≤ c →
        (List.range' start n ++ younger).toFinset.card ≤ c := by
  -- the range up to a block, counted with the block or without
  have hupto : ∀ i younger, [] ++ List.range' start i ++ (start + i) :: younger =
      List.range' start (i + 1) ++ younger := by
    intro i younger
    rw [List.nil_append, List.range'_1_concat, List.append_assoc, List.singleton_append]
  constructor
  · intro h i hi older younger hq hturn
    have hsplit : List.range' start n =
        List.range' start i ++ (start + i) :: List.range' (start + i + 1) (n - i - 1) := by
      rw [List.range'_eq_append_iff]
      refine ⟨i, by omega, rfl, ?_⟩
      rw [eq_comm, List.range'_eq_cons_iff]
      exact ⟨by omega, by omega, rfl⟩
    have hstays := h (start + i) older younger hq (Or.inr ⟨_, _, hsplit, (hupto i younger).symm ▸ hturn⟩)
    refine Fifo.card_le_of_subset ?_ hstays
    intro z hz
    rcases List.mem_append.mp hz with hz | hz
    · exact List.mem_append_left _ hz
    · exact List.mem_append_right _ (List.mem_cons_of_mem _ hz)
  · rintro h x older younger hq (hx | ⟨A, B, hsplit, hturn⟩)
    · exact absurd hx List.not_mem_nil
    · obtain ⟨i, -, rfl, hcons⟩ := List.range'_eq_append_iff.mp hsplit
      rw [Nat.mul_one, eq_comm, List.range'_eq_cons_iff] at hcons
      obtain ⟨rfl, hi, -⟩ := hcons
      rw [hupto] at hturn
      refine Fifo.card_le_of_subset ?_ (h i (by omega) older younger hq hturn)
      intro z hz
      rcases List.mem_append.mp hz with hz | hz
      · exact List.mem_append_left _ hz
      · rcases List.mem_cons.mp hz with rfl | hz
        · exact List.mem_append_left _ (List.mem_range'_1.mpr (by omega))
        · exact List.mem_append_right _ hz

/-- **When a prefetch delivers its range.** In any state reached by any operations, a range of at most `c`
    blocks is cached after `buffer_pool_prefetch_range` exactly when it does not drop a block of its own that
    it found: for each block of the range that is cached before, if the range up to it and the blocks
    inserted after it are at most `c` blocks (so that it is still there at its turn), then so are the whole
    range and the blocks inserted after it. -/
theorem prefetch_delivers_iff {malloc : Nat → Option (Nat → Nat)} {c blockSize start n : Nat}
    {pool₀ : BufferPool} (hc : 1 ≤ c) (hlt : c < 2 ^ 64)
    (hinit : bufferPoolInit malloc c blockSize = some pool₀) (ops : List PoolOp) (hn : n ≤ c)
    (hend : start + n ≤ 2 ^ 64) :
    let pool := ops.foldl PoolOp.apply pool₀
    (∀ i < n, (bufferPoolLookup (bufferPoolPrefetchRange pool start n) (start + i)).1 = true) ↔
      ∀ i < n, ∀ older younger, pool.queue = older ++ (start + i) :: younger →
        (List.range' start (i + 1) ++ younger).toFinset.card ≤ c →
        (List.range' start n ++ younger).toFinset.card ≤ c := by
  intro pool
  obtain ⟨hinv₀, hcap₀, -⟩ := init_spec hc hlt hinit
  obtain ⟨hinv, hcap, -⟩ := run_spec hinv₀ ops
  have hcap' : pool.capacity = c := hcap.trans hcap₀
  obtain ⟨-, -, hqueue⟩ := insertAll_spec hinv (rangeBlocks start n)
  rw [← prefetchRange_eq, rangeBlocks_eq hend, hcap'] at hqueue
  have hlen : pool.queue.length ≤ c := by
    rw [length_queue, ← hcap']
    exact hinv.count_le
  have hcard : ([] ++ List.range' start n).toFinset.card ≤ c :=
    (List.toFinset_card_le _).trans (by rw [List.nil_append, List.length_range']; exact hn)
  rw [← fits_range, ← Fifo.mem_pushAll_iff hc (nodup_queue hinv) hlen (by simp) List.nodup_range' (by simp)
    hcard, List.nil_append, ← hqueue]
  constructor
  · intro h x hx
    obtain ⟨i, hi, rfl⟩ : ∃ i < n, x = start + i := by
      have := List.mem_range'_1.mp hx
      exact ⟨x - start, by omega, by omega⟩
    exact lookup_hit_iff.mp (h i hi)
  · intro h i hi
    exact lookup_hit_iff.mpr (h _ (List.mem_range'_1.mpr (by omega)))

/-- Blocks 1 and 2 are prefetched into a full pool that holds 1 and 5. Block 1 stays if it is the younger one. -/
theorem prefetch_delivers_iff_ages :
    ∃ pool₀, bufferPoolInit (fun _ => some (fun _ => 0)) 2 4096 = some pool₀ ∧
      (∀ i < 2, (bufferPoolLookup (bufferPoolPrefetchRange
        ([PoolOp.insert 5, .insert 1].foldl PoolOp.apply pool₀) 1 2) (1 + i)).1 = true) ∧
      ¬ ∀ i < 2, (bufferPoolLookup (bufferPoolPrefetchRange
        ([PoolOp.insert 1, .insert 5].foldl PoolOp.apply pool₀) 1 2) (1 + i)).1 = true := by
  have hinit : bufferPoolInit (fun _ => some (fun _ => 0)) 2 4096 = some _ := rfl
  refine ⟨_, rfl, ?_, ?_⟩
  · refine (prefetch_delivers_iff (by decide) (by decide) hinit [.insert 5, .insert 1] (by decide)
      (by decide)).mpr ?_
    intro i hi older younger hqueue _
    have hqueue : [5, 1] = older ++ (1 + i) :: younger := hqueue
    -- no block was inserted after block 1
    rcases older with _ | ⟨a, _ | ⟨b, older⟩⟩
    · have := (List.cons.inj hqueue).1
      omega
    · obtain ⟨-, rfl⟩ := List.cons.inj (List.cons.inj hqueue).2
      decide
    · simp at hqueue
  · intro hall
    have hcard := (prefetch_delivers_iff (by decide) (by decide) hinit [.insert 1, .insert 5] (by decide)
      (by decide)).mp hall 0 (by decide) [] [5] (by decide) (by decide)
    exact absurd hcard (by decide)

/-- The pool holds blocks 1 and 5, and 1 is the older one. A prefetch of 1 and 2 finds 1, leaves its age as
    it is, and drops it for 2. -/
theorem prefetch_drops_own_block :
    let ops : List PoolOp := [.insert 1, .insert 5]
    ∃ pool₀, bufferPoolInit (fun _ => some (fun _ => 0)) 2 4096 = some pool₀ ∧ 2 ≤ 2 ∧ 1 + 2 ≤ 2 ^ 64 ∧
      (bufferPoolLookup (ops.foldl PoolOp.apply pool₀) 1).1 = true ∧
      (bufferPoolLookup (bufferPoolPrefetchRange (ops.foldl PoolOp.apply pool₀) 1 2) 1).1 = false := by
  intro ops
  exact ⟨_, rfl, by decide, by decide, by decide, by decide⟩

end Prefetch
end SystemsPlayground
