import Mathlib.Data.List.Sort
import SystemsPlayground.Lib.Recency
import SystemsPlayground.Prefetch.BufferPool

/-!
# `Prefetch.LruBufferPool` — `prefetch-sim/src/lru_buffer_pool.c` refines a recency list

This pool has the array `slots` of `BufferPool` but evicts the block that was used least recently. There
is no list: next to `slots` stands an array `last_used` of stamps drawn from a counter `clock`, and an
eviction searches it for its minimum. Sorting the indices by descending stamp gives the order of use
(`recency`); the main result is that this is the bounded recency list of `Lib.Recency`, over every
sequence of operations that makes fewer than 2^64 touches (`run_refines_lru`).

All four places of the source that draw a stamp are one move on that order: the written index leaves its
place, if it had one, and comes to the front (`Stamped.write`).
-/

namespace SystemsPlayground
namespace Prefetch

open Word

/-- `LruBufferPool`. -/
structure LruBufferPool where
  capacity : Nat
  blockSize : Nat
  slots : Nat → Nat
  lastUsed : Nat → Nat
  count : Nat
  clock : Nat
  hits : Nat
  misses : Nat

/-- `lru_buffer_pool_init`; `malloc i` answers the `i`-th of the two allocations, with `none` for `NULL`,
    in which case the program exits. -/
def lruBufferPoolInit (malloc : Nat → Nat → Option (Nat → Nat)) (capacity blockSize : Nat) :
    Option LruBufferPool :=
  match malloc 0 (u64 (capacity * 8)), malloc 1 (u64 (capacity * 8)) with
  | some slots, some lastUsed =>
      some { capacity := capacity, blockSize := blockSize, slots := slots, lastUsed := lastUsed,
             count := 0, clock := 0, hits := 0, misses := 0 }
  | _, _ => none

/-- `clock++; slots[i] = block_num; last_used[i] = clock`. -/
def LruBufferPool.write (pool : LruBufferPool) (i blockNum : Nat) : LruBufferPool :=
  { pool with
    clock := u64 (pool.clock + 1)
    slots := Function.update pool.slots i blockNum
    lastUsed := Function.update pool.lastUsed i (u64 (pool.clock + 1)) }

/-- `clock++; last_used[i] = clock`. -/
def LruBufferPool.stamp (pool : LruBufferPool) (i : Nat) : LruBufferPool :=
  { pool with
    clock := u64 (pool.clock + 1)
    lastUsed := Function.update pool.lastUsed i (u64 (pool.clock + 1)) }

/-- `lru_buffer_pool_lookup`; the result is `true` for 1 and `false` for 0. -/
def lruBufferPoolLookup (pool : LruBufferPool) (blockNum : Nat) : Bool × LruBufferPool :=
  match findSlot pool.slots pool.count blockNum with
  | some i => (true, { pool with hits := u64 (pool.hits + 1) }.stamp i)
  | none   => (false, { pool with misses := u64 (pool.misses + 1) })

/-- The search of `lru_buffer_pool_insert` for the smallest entry of `last_used[0..count)`. -/
def findVictim (lastUsed : Nat → Nat) (count : Nat) : Nat :=
  (List.range' 1 (count - 1)).foldl (fun victim i => if lastUsed i < lastUsed victim then i else victim) 0

/-- `lru_buffer_pool_insert`. -/
def lruBufferPoolInsert (pool : LruBufferPool) (blockNum : Nat) : LruBufferPool :=
  match findSlot pool.slots pool.count blockNum with
  | some i => pool.stamp i
  | none   =>
    if pool.count < pool.capacity then
      { pool.write pool.count blockNum with count := u64 (pool.count + 1) }
    else
      pool.write (findVictim pool.lastUsed pool.count) blockNum

/-- `lru_buffer_pool_prefetch_range`. -/
def lruBufferPoolPrefetchRange (pool : LruBufferPool) (startBlock count : Nat) : LruBufferPool :=
  (List.range count).foldl (fun p i => lruBufferPoolInsert p (u64 (startBlock + i))) pool

section Insert

variable {pool : LruBufferPool} {b : Nat}

theorem lruInsert_of_found {i : Nat} (h : findSlot pool.slots pool.count b = some i) :
    lruBufferPoolInsert pool b = pool.stamp i := by
  simp only [lruBufferPoolInsert, h]

theorem lruInsert_of_room (hb : b ∉ cells pool.slots pool.count) (hroom : pool.count < pool.capacity) :
    lruBufferPoolInsert pool b = { pool.write pool.count b with count := u64 (pool.count + 1) } := by
  simp only [lruBufferPoolInsert, findSlot_none.mpr hb, if_pos hroom]

theorem lruInsert_of_full (hb : b ∉ cells pool.slots pool.count) (hfull : pool.count = pool.capacity) :
    lruBufferPoolInsert pool b = pool.write (findVictim pool.lastUsed pool.count) b := by
  simp only [lruBufferPoolInsert, findSlot_none.mpr hb, if_neg (Nat.not_lt.mpr (Nat.le_of_eq hfull.symm))]

end Insert

/-! ## The search for the victim -/

section Victim

variable {lastUsed : Nat → Nat} {count : Nat}

/-- The loop keeps an index seen so far whose stamp is the smallest seen so far. -/
theorem foldl_victim (lastUsed : Nat → Nat) (is : List Nat) (v₀ : Nat) :
    let v := is.foldl (fun v i => if lastUsed i < lastUsed v then i else v) v₀
    (v = v₀ ∨ v ∈ is) ∧ ∀ i, i = v₀ ∨ i ∈ is → lastUsed v ≤ lastUsed i := by
  induction is generalizing v₀ with
  | nil => simp
  | cons j is ih =>
      obtain ⟨hmem, hle⟩ := ih (if lastUsed j < lastUsed v₀ then j else v₀)
      simp only [List.foldl_cons, List.mem_cons]
      by_cases hj : lastUsed j < lastUsed v₀
      · simp only [if_pos hj] at hmem hle ⊢
        have := hle j (Or.inl rfl)
        refine ⟨Or.inr hmem, ?_⟩
        rintro i (rfl | rfl | hi)
        · omega
        · exact this
        · exact hle i (Or.inr hi)
      · simp only [if_neg hj] at hmem hle ⊢
        have := hle v₀ (Or.inl rfl)
        refine ⟨hmem.imp id Or.inr, ?_⟩
        rintro i (rfl | rfl | hi)
        · exact this
        · omega
        · exact hle i (Or.inr hi)

theorem findVictim_lt (h : 0 < count) : findVictim lastUsed count < count := by
  obtain ⟨hmem, -⟩ := foldl_victim lastUsed (List.range' 1 (count - 1)) 0
  rcases hmem with h0 | h1
  · rw [findVictim, h0]; exact h
  · have := List.mem_range'_1.mp h1
    rw [findVictim]
    omega

theorem findVictim_le (lastUsed : Nat → Nat) {i : Nat} (hi : i < count) :
    lastUsed (findVictim lastUsed count) ≤ lastUsed i := by
  apply (foldl_victim lastUsed (List.range' 1 (count - 1)) 0).2 i
  by_cases h0 : i = 0
  · exact Or.inl h0
  · exact Or.inr (List.mem_range'_1.mpr (by omega))

end Victim

/-! ## Indices in order of use -/

/-- The indices of the filled slots, by descending stamp. -/
def LruBufferPool.order (pool : LruBufferPool) : List Nat :=
  (List.range pool.count).mergeSort fun i j => decide (pool.lastUsed j ≤ pool.lastUsed i)

/-- The cached blocks, by descending stamp. -/
def LruBufferPool.recency (pool : LruBufferPool) : List Nat := pool.order.map pool.slots

/-- The list `is` of indices has strictly descending stamps and its slots hold distinct blocks; each
    stamp is the time of the latest touch of its block in `log`, whose latest touch stands first. -/
structure Stamped (pool : LruBufferPool) (log is : List Nat) : Prop where
  sorted : is.Pairwise fun i j => pool.lastUsed j < pool.lastUsed i
  nodup : (is.map pool.slots).Nodup
  stamp : ∀ i ∈ is, pool.lastUsed i + log.idxOf (pool.slots i) = log.length
  clock : pool.clock = log.length

theorem order_perm (pool : LruBufferPool) : pool.order.Perm (List.range pool.count) :=
  List.mergeSort_perm ..

namespace Stamped

variable {pool : LruBufferPool} {log is js : List Nat} {i b : Nat}

theorem sublist (h : Stamped pool log is) (hs : List.Sublist js is) : Stamped pool log js :=
  ⟨h.sorted.sublist hs, h.nodup.sublist (hs.map _), fun i hi => h.stamp i (hs.subset hi), h.clock⟩

theorem nodup_stamps (h : Stamped pool log is) : (is.map pool.lastUsed).Nodup :=
  List.pairwise_map.mpr (h.sorted.imp fun hlt => Nat.ne_of_gt hlt)

theorem le_clock (h : Stamped pool log is) (hi : i ∈ is) : pool.lastUsed i ≤ pool.clock := by
  have := h.stamp i hi
  have := h.clock
  omega

theorem map_write (hi : i ∉ is) : is.map (pool.write i b).slots = is.map pool.slots := by
  apply List.map_congr_left
  intro j hj
  exact Function.update_of_ne (ne_of_mem_of_not_mem hj hi) _ _

/-- **A written index comes to the front**, with the newest stamp. -/
theorem write (h : Stamped pool log is) (hi : i ∉ is) (hb : b ∉ is.map pool.slots)
    (hclock : log.length + 1 < 2 ^ 64) : Stamped (pool.write i b) (b :: log) (i :: is) := by
  have hlast : ∀ j ∈ is, (pool.write i b).lastUsed j = pool.lastUsed j := fun j hj =>
    Function.update_of_ne (ne_of_mem_of_not_mem hj hi) _ _
  have hslots : ∀ j ∈ is, (pool.write i b).slots j = pool.slots j := fun j hj =>
    Function.update_of_ne (ne_of_mem_of_not_mem hj hi) _ _
  have hnew : (pool.write i b).lastUsed i = log.length + 1 := by
    simp [LruBufferPool.write, h.clock, u64_of_lt hclock]
  have hslot : (pool.write i b).slots i = b := Function.update_self ..
  refine ⟨List.Pairwise.cons ?_ ?_, ?_, ?_, ?_⟩
  · intro j hj
    rw [hnew, hlast j hj]
    have := h.stamp j hj
    omega
  · refine List.Pairwise.imp_of_mem ?_ h.sorted
    intro j k hj hk hjk
    rw [hlast j hj, hlast k hk]
    exact hjk
  · rw [List.map_cons, map_write hi, hslot]
    exact List.nodup_cons.mpr ⟨hb, h.nodup⟩
  · intro j hj
    rcases List.mem_cons.mp hj with rfl | hj
    · rw [hnew, hslot, List.idxOf_cons_self, List.length_cons, Nat.add_zero]
    · have hne : b ≠ pool.slots j := fun he => hb (he ▸ List.mem_map_of_mem hj)
      have := h.stamp j hj
      rw [hlast j hj, hslots j hj, List.idxOf_cons_ne _ hne, List.length_cons]
      omega
  · show u64 (pool.clock + 1) = _
    rw [h.clock, u64_of_lt hclock, List.length_cons]

/-- The order of the filled indices is the only list of them with descending stamps. -/
theorem order_eq (h : Stamped pool log is) (hp : is.Perm (List.range pool.count)) :
    pool.order = is := by
  have hperm : pool.order.Perm is := (order_perm pool).trans hp.symm
  have hsorted : pool.order.Pairwise fun i j => pool.lastUsed j ≤ pool.lastUsed i := by
    refine (List.pairwise_mergeSort ?_ ?_ _).imp fun hle => of_decide_eq_true hle
    · intro i j k hij hjk
      simp only [decide_eq_true_eq] at hij hjk ⊢
      omega
    · intro i j
      simp only [Bool.or_eq_true, decide_eq_true_eq]
      omega
  -- two sorted permutations agree, as stamps are distinct
  refine List.Perm.eq_of_pairwise ?_ hsorted (h.sorted.imp Nat.le_of_lt) hperm
  intro i j hi hj hij hji
  exact List.inj_on_of_nodup_map h.nodup_stamps (hperm.subset hi) hj (Nat.le_antisymm hji hij)

/-- Writing an index and setting the count, the order of the new state is known when the indices are. -/
theorem order_write {n : Nat} (h : Stamped pool log is) (hi : i ∉ is) (hb : b ∉ is.map pool.slots)
    (hclock : log.length + 1 < 2 ^ 64) (hp : (i :: is).Perm (List.range n)) :
    Stamped { pool.write i b with count := n } (b :: log)
      ({ pool.write i b with count := n } : LruBufferPool).order ∧
    ({ pool.write i b with count := n } : LruBufferPool).recency = b :: is.map pool.slots := by
  have hw := h.write hi hb hclock
  have hw' : Stamped { pool.write i b with count := n } (b :: log) (i :: is) :=
    ⟨hw.sorted, hw.nodup, hw.stamp, hw.clock⟩
  have horder := hw'.order_eq hp
  have hslot : (pool.write i b).slots i = b := Function.update_self ..
  refine ⟨horder ▸ hw', ?_⟩
  rw [LruBufferPool.recency, horder]
  exact congrArg₂ _ hslot (map_write hi)

/-- The victim of an eviction is the last index in the order of use. -/
theorem order_victim (h : Stamped pool log pool.order) (hpos : 0 < pool.count) :
    ∃ is, pool.order = is ++ [findVictim pool.lastUsed pool.count] := by
  have hmem : findVictim pool.lastUsed pool.count ∈ pool.order :=
    (order_perm pool).mem_iff.mpr (List.mem_range.mpr (findVictim_lt hpos))
  obtain ⟨is, x, hx⟩ : ∃ is x, pool.order = is ++ [x] :=
    ⟨_, _, (List.dropLast_append_getLast (List.ne_nil_of_mem hmem)).symm⟩
  have hxlt : x < pool.count := List.mem_range.mp ((order_perm pool).mem_iff.mp (by simp [hx]))
  have hle := findVictim_le pool.lastUsed hxlt
  have hsorted := h.sorted
  rw [hx] at hmem hsorted
  -- an index further in front has a larger stamp than the last one
  rcases List.mem_append.mp hmem with hv | hv
  · have := (List.pairwise_append.mp hsorted).2.2 _ hv x (by simp)
    omega
  · exact ⟨is, by rw [hx, List.mem_singleton.mp hv]⟩

end Stamped

/-! ## The abstract list and its simulation -/

/-- The abstract pool: the bounded recency list, and the log of all touches, latest first. -/
structure Lru where
  list : List Nat
  log : List Nat

/-- A touch by an insertion: `b` moves, or is added, to the front. -/
def Lru.insert (c : Nat) (s : Lru) (b : Nat) : Lru := ⟨Recency.insert c s.list b, b :: s.log⟩

/-- A lookup: a hit is a touch, a miss changes nothing. -/
def Lru.lookup (c : Nat) (s : Lru) (b : Nat) : Lru := if b ∈ s.list then s.insert c b else s

/-- The pool of capacity `c` implements the abstract state `s`. -/
structure Simulates (c : Nat) (pool : LruBufferPool) (s : Lru) : Prop where
  cap_pos : 1 ≤ c
  cap_lt : c < 2 ^ 64
  capacity : pool.capacity = c
  count_le : pool.count ≤ c
  stamped : Stamped pool s.log pool.order
  recency : pool.recency = s.list
  list_eq : s.list = (Recency.recent s.log).take c

section Simulation

variable {c b : Nat} {pool : LruBufferPool} {s : Lru}

namespace Simulates

theorem mem_list_iff (h : Simulates c pool s) : b ∈ s.list ↔ b ∈ cells pool.slots pool.count := by
  rw [← h.recency]
  exact ((order_perm pool).map pool.slots).mem_iff

theorem length_list (h : Simulates c pool s) : s.list.length = pool.count := by
  rw [← h.recency, LruBufferPool.recency, List.length_map, (order_perm pool).length_eq,
    List.length_range]

/-- The counters do not matter. -/
theorem counters (h : Simulates c pool s) (hits misses : Nat) :
    Simulates c { pool with hits := hits, misses := misses } s :=
  ⟨h.cap_pos, h.cap_lt, h.capacity, h.count_le,
    ⟨h.stamped.sorted, h.stamped.nodup, h.stamped.stamp, h.stamped.clock⟩, h.recency, h.list_eq⟩

theorem insert_list (h : Simulates c pool s) :
    (s.insert c b).list = (Recency.recent (s.insert c b).log).take c := by
  show Recency.insert c s.list b = (Recency.touch (Recency.recent s.log) b).take c
  rw [h.list_eq, Recency.insert_take h.cap_pos]

/-- Stamping the index of a cached block brings it to the front. -/
theorem stamp {i : Nat} (h : Simulates c pool s) (hi : i < pool.count) (hb : pool.slots i = b)
    (hlog : s.log.length + 1 < 2 ^ 64) : Simulates c (pool.stamp i) (s.insert c b) := by
  have hmem : i ∈ pool.order := (order_perm pool).mem_iff.mpr (List.mem_range.mpr hi)
  obtain ⟨A, B, horder⟩ := List.append_of_mem hmem
  have hperm : (i :: (A ++ B)).Perm (List.range pool.count) :=
    (List.perm_middle.symm.trans (List.Perm.of_eq horder.symm)).trans (order_perm pool)
  have hst := h.stamped
  rw [horder] at hst
  have hnodup := hst.nodup
  rw [List.map_append, List.map_cons, hb] at hnodup
  have hnot := List.nodup_middle.mp hnodup
  rw [← List.map_append] at hnot
  have hi' : i ∉ A ++ B := (List.nodup_cons.mp (hperm.nodup_iff.mpr List.nodup_range)).1
  -- the slot keeps its block, so stamping is writing
  have hwrite : pool.stamp i = { pool.write i b with count := pool.count } := by
    rw [LruBufferPool.write, ← hb, Function.update_eq_self]
    rfl
  obtain ⟨hst', hrec⟩ := (hst.sublist (by simp)).order_write hi' (List.nodup_cons.mp hnot).1 hlog hperm
  rw [← hwrite] at hst' hrec
  have hlist : s.list = A.map pool.slots ++ b :: B.map pool.slots := by
    rw [← h.recency, LruBufferPool.recency, horder, List.map_append, List.map_cons, hb]
  refine ⟨h.cap_pos, h.cap_lt, h.capacity, h.count_le, hst', ?_, h.insert_list⟩
  rw [hrec, Lru.insert, Recency.insert, if_pos (by simp [hlist]), hlist,
    Recency.touch_append_cons hnodup, List.map_append]

/-- Filling the next free slot. -/
theorem append (h : Simulates c pool s) (hb : b ∉ s.list) (hroom : pool.count < c)
    (hlog : s.log.length + 1 < 2 ^ 64) :
    Simulates c { pool.write pool.count b with count := pool.count + 1 } (s.insert c b) := by
  have hb' : b ∉ pool.order.map pool.slots := by rw [← h.recency] at hb; exact hb
  have hi : pool.count ∉ pool.order := by
    rw [(order_perm pool).mem_iff]; simp
  have hperm : (pool.count :: pool.order).Perm (List.range (pool.count + 1)) := by
    rw [List.range_succ]
    exact ((order_perm pool).cons _).trans (List.perm_append_singleton _ _).symm
  obtain ⟨hst', hrec⟩ := h.stamped.order_write hi hb' hlog hperm
  refine ⟨h.cap_pos, h.cap_lt, h.capacity, hroom, hst', ?_, h.insert_list⟩
  rw [hrec, Lru.insert, Recency.insert, if_neg hb, if_pos (by rw [h.length_list]; exact hroom), ← h.recency]
  rfl

/-- Overwriting the victim, which is the last index of the order. -/
theorem overwrite (h : Simulates c pool s) (hb : b ∉ s.list) (hfull : pool.count = c)
    (hlog : s.log.length + 1 < 2 ^ 64) :
    Simulates c (pool.write (findVictim pool.lastUsed pool.count) b) (s.insert c b) := by
  have hpos : 0 < pool.count := by rw [hfull]; exact h.cap_pos
  obtain ⟨is, horder⟩ := h.stamped.order_victim hpos
  have hb' : b ∉ is.map pool.slots := by
    rw [← h.recency, LruBufferPool.recency, horder, List.map_append, List.mem_append, not_or] at hb
    exact hb.1
  have hperm := order_perm pool
  rw [horder] at hperm
  have hperm' := (List.perm_append_singleton _ _).symm.trans hperm
  have hi := (List.nodup_cons.mp (hperm'.nodup_iff.mpr List.nodup_range)).1
  have hst := h.stamped
  rw [horder] at hst
  obtain ⟨hst', hrec⟩ := (hst.sublist (by simp)).order_write hi hb' hlog hperm'
  refine ⟨h.cap_pos, h.cap_lt, h.capacity, h.count_le, hst', hrec.trans ?_, h.insert_list⟩
  rw [Lru.insert, Recency.insert, if_neg hb, if_neg (by rw [h.length_list]; omega), ← h.recency,
    LruBufferPool.recency, horder]
  simp

/-- **`lru_buffer_pool_insert` is an insertion into the recency list.** -/
theorem insert (h : Simulates c pool s) (hlog : s.log.length + 1 < 2 ^ 64) :
    Simulates c (lruBufferPoolInsert pool b) (s.insert c b) := by
  cases hfind : findSlot pool.slots pool.count b with
  | some i =>
      obtain ⟨hi, hb⟩ := findSlot_some hfind
      rw [lruInsert_of_found hfind]
      exact h.stamp hi hb hlog
  | none =>
      have hcells := findSlot_none.mp hfind
      have hb : b ∉ s.list := mt h.mem_list_iff.mp hcells
      rcases Nat.lt_or_eq_of_le h.count_le with hroom | hfull
      · have hlt : pool.count + 1 < 2 ^ 64 := Nat.lt_of_le_of_lt hroom h.cap_lt
        rw [lruInsert_of_room hcells (h.capacity.symm ▸ hroom), u64_of_lt hlt]
        exact h.append hb hroom hlog
      · rw [lruInsert_of_full hcells (hfull.trans h.capacity.symm)]
        exact h.overwrite hb hfull hlog

theorem lookup_hit_iff (h : Simulates c pool s) :
    (lruBufferPoolLookup pool b).1 = true ↔ b ∈ s.list := by
  rw [h.mem_list_iff, ← findSlot_isSome]
  unfold lruBufferPoolLookup
  cases findSlot pool.slots pool.count b <;> simp

/-- **`lru_buffer_pool_lookup` touches the block it finds.** -/
theorem lookup (h : Simulates c pool s) (hlog : (s.lookup c b).log.length < 2 ^ 64) :
    Simulates c (lruBufferPoolLookup pool b).2 (s.lookup c b) := by
  unfold lruBufferPoolLookup
  unfold Lru.lookup at hlog ⊢
  cases hfind : findSlot pool.slots pool.count b with
  | some i =>
      obtain ⟨hi, hb⟩ := findSlot_some hfind
      have hmem : b ∈ s.list := h.mem_list_iff.mpr (findSlot_isSome.mp (by rw [hfind]; rfl))
      rw [if_pos hmem] at hlog ⊢
      exact (h.counters _ _).stamp hi hb hlog
  | none =>
      have hmem : b ∉ s.list := mt h.mem_list_iff.mp (findSlot_none.mp hfind)
      rw [if_neg hmem]
      exact h.counters _ _

theorem insertAll (h : Simulates c pool s) (bs : List Nat)
    (hlog : s.log.length + bs.length < 2 ^ 64) :
    Simulates c (bs.foldl lruBufferPoolInsert pool) (bs.foldl (Lru.insert c) s) := by
  induction bs generalizing pool s with
  | nil => exact h
  | cons b bs ih =>
      rw [List.length_cons] at hlog
      refine ih (h.insert (by omega)) ?_
      show s.log.length + 1 + bs.length < 2 ^ 64
      omega

end Simulates

end Simulation

theorem lruPrefetchRange_eq (pool : LruBufferPool) (startBlock count : Nat) :
    lruBufferPoolPrefetchRange pool startBlock count =
      (rangeBlocks startBlock count).foldl lruBufferPoolInsert pool := by
  rw [lruBufferPoolPrefetchRange, rangeBlocks, List.foldl_map]

/-- Inserting touches neither counter. -/
theorem lruInsertAll_counters (bs : List Nat) (pool : LruBufferPool) :
    (bs.foldl lruBufferPoolInsert pool).hits = pool.hits ∧
    (bs.foldl lruBufferPoolInsert pool).misses = pool.misses := by
  induction bs generalizing pool with
  | nil => exact ⟨rfl, rfl⟩
  | cons b bs ih =>
      have hone : (lruBufferPoolInsert pool b).hits = pool.hits ∧
          (lruBufferPoolInsert pool b).misses = pool.misses := by
        unfold lruBufferPoolInsert
        cases findSlot pool.slots pool.count b with
        | some i => exact ⟨rfl, rfl⟩
        | none => by_cases hc : pool.count < pool.capacity <;> simp [hc, LruBufferPool.write]
      obtain ⟨hhits, hmisses⟩ := ih (lruBufferPoolInsert pool b)
      exact ⟨hhits.trans hone.1, hmisses.trans hone.2⟩

/-! ## Sequences of operations -/

/-- The operation on the LRU pool. -/
def PoolOp.applyLru (pool : LruBufferPool) : PoolOp → LruBufferPool
  | .lookup b          => (lruBufferPoolLookup pool b).2
  | .insert b          => lruBufferPoolInsert pool b
  | .prefetchRange s n => lruBufferPoolPrefetchRange pool s n

/-- The operation on the abstract recency list of capacity `c`. -/
def PoolOp.lru (c : Nat) (s : Lru) : PoolOp → Lru
  | .lookup b          => s.lookup c b
  | .insert b          => s.insert c b
  | .prefetchRange t n => (rangeBlocks t n).foldl (Lru.insert c) s

section Runs

variable {c : Nat} {pool : LruBufferPool} {s : Lru}

theorem length_log_insertAll (bs : List Nat) (s : Lru) :
    (bs.foldl (Lru.insert c) s).log.length = s.log.length + bs.length := by
  induction bs generalizing s with
  | nil => rfl
  | cons b bs ih =>
      rw [List.foldl_cons, ih, List.length_cons]
      show s.log.length + 1 + bs.length = _
      omega

theorem log_le_lru (op : PoolOp) : s.log.length ≤ (op.lru c s).log.length := by
  cases op with
  | lookup b =>
      show _ ≤ (s.lookup c b).log.length
      unfold Lru.lookup
      split_ifs
      · exact Nat.le_succ _
      · exact Nat.le_refl _
  | insert b => exact Nat.le_succ _
  | prefetchRange t n =>
      show _ ≤ ((rangeBlocks t n).foldl (Lru.insert c) s).log.length
      rw [length_log_insertAll]
      omega

/-- The log only grows along a run. -/
theorem log_le_run (ops : List PoolOp) (s : Lru) :
    s.log.length ≤ (ops.foldl (PoolOp.lru c) s).log.length := by
  induction ops generalizing s with
  | nil => exact Nat.le_refl _
  | cons op ops ih => exact (log_le_lru op).trans (ih _)

theorem Simulates.apply (h : Simulates c pool s) (op : PoolOp)
    (hlog : (op.lru c s).log.length < 2 ^ 64) :
    Simulates c (op.applyLru pool) (op.lru c s) := by
  cases op with
  | lookup b => exact h.lookup hlog
  | insert b => exact h.insert hlog
  | prefetchRange t n =>
      simp only [PoolOp.applyLru, PoolOp.lru, lruPrefetchRange_eq, length_log_insertAll] at hlog ⊢
      exact h.insertAll _ hlog

/-- Every run that makes fewer than 2^64 touches is simulated. -/
theorem Simulates.run (h : Simulates c pool s) (ops : List PoolOp)
    (hlog : (ops.foldl (PoolOp.lru c) s).log.length < 2 ^ 64) :
    Simulates c (ops.foldl PoolOp.applyLru pool) (ops.foldl (PoolOp.lru c) s) := by
  induction ops generalizing pool s with
  | nil => exact h
  | cons op ops ih => exact ih (h.apply op (Nat.lt_of_le_of_lt (log_le_run ops _) hlog)) hlog

theorem Simulates.init {malloc : Nat → Nat → Option (Nat → Nat)} {blockSize : Nat} (hc : 1 ≤ c)
    (hlt : c < 2 ^ 64) (hinit : lruBufferPoolInit malloc c blockSize = some pool) :
    Simulates c pool ⟨[], []⟩ := by
  unfold lruBufferPoolInit at hinit
  split at hinit
  · obtain rfl := Option.some.inj hinit
    have horder : ∀ {p : LruBufferPool}, p.count = 0 → p.order = [] := by
      intro p hp
      simp [LruBufferPool.order, hp]
    refine ⟨hc, hlt, rfl, Nat.zero_le _, ?_, ?_, by simp [Recency.recent]⟩
    · rw [horder rfl]
      exact ⟨List.Pairwise.nil, List.nodup_nil, by simp, rfl⟩
    · rw [LruBufferPool.recency, horder rfl, List.map_nil]
  · simp at hinit

theorem lruInit_counters {malloc : Nat → Nat → Option (Nat → Nat)} {blockSize : Nat}
    (hinit : lruBufferPoolInit malloc c blockSize = some pool) : pool.hits = 0 ∧ pool.misses = 0 := by
  unfold lruBufferPoolInit at hinit
  split at hinit
  · obtain rfl := Option.some.inj hinit
    exact ⟨rfl, rfl⟩
  · simp at hinit

/-- The slot that an insertion overwrites has the smallest stamp, and holds the block whose latest touch
    is the oldest. -/
theorem Simulates.evicts {b : Nat} (h : Simulates c pool s) (hb : b ∉ s.list) (hfull : pool.count = c) :
    ∃ v < c, (lruBufferPoolInsert pool b).slots = Function.update pool.slots v b ∧
      (∀ i < c, i ≠ v → pool.lastUsed v < pool.lastUsed i) ∧
      s.list.getLast? = some (pool.slots v) ∧
      ∀ x ∈ s.list, x ≠ pool.slots v → s.log.idxOf x < s.log.idxOf (pool.slots v) := by
  have hpos : 0 < pool.count := by have := h.cap_pos; omega
  obtain ⟨is, horder⟩ := h.stamped.order_victim hpos
  have hmin : ∀ i ∈ is, pool.lastUsed (findVictim pool.lastUsed pool.count) < pool.lastUsed i := by
    have hsorted := h.stamped.sorted
    rw [horder] at hsorted
    exact fun i hi => (List.pairwise_append.mp hsorted).2.2 i hi _ (by simp)
  have hrest : ∀ i < c, i ≠ findVictim pool.lastUsed pool.count → i ∈ is := by
    intro i hi hne
    have hmem : i ∈ pool.order := (order_perm pool).mem_iff.mpr (List.mem_range.mpr (hfull ▸ hi))
    rw [horder, List.mem_append, List.mem_singleton] at hmem
    exact hmem.resolve_right hne
  have hlist : s.list = (is ++ [findVictim pool.lastUsed pool.count]).map pool.slots := by
    rw [← h.recency, LruBufferPool.recency, horder]
  refine ⟨findVictim pool.lastUsed pool.count, ?_, ?_, fun i hi hne => hmin i (hrest i hi hne), ?_, ?_⟩
  · exact hfull ▸ findVictim_lt hpos
  · rw [lruInsert_of_full (mt h.mem_list_iff.mpr hb) (hfull.trans h.capacity.symm)]
    rfl
  · rw [hlist]; simp
  · intro x hx hne
    rw [hlist, List.map_append, List.map_singleton, List.mem_append, List.mem_singleton] at hx
    obtain ⟨i, hi, rfl⟩ := List.mem_map.mp (hx.resolve_right hne)
    -- stamp and position in the log add up to the same number for all blocks
    have hstamp := h.stamped.stamp
    rw [horder] at hstamp
    have h₁ := hstamp i (by simp [hi])
    have h₂ := hstamp (findVictim pool.lastUsed pool.count) (by simp)
    have h₃ := hmin i hi
    omega

/-- **The pool refines a recency list.** After any sequence of operations on a fresh pool of capacity `c`
    that touches blocks fewer than 2^64 times, blocks and stamps are distinct, no stamp is ahead of the
    clock, and the slots sorted by descending stamp are the abstract recency list. Hence an eviction
    overwrites the one block whose latest touch is the oldest, and the cached blocks are the most recently
    touched ones, as many as there are or fit. -/
theorem run_refines_lru {malloc : Nat → Nat → Option (Nat → Nat)} {blockSize : Nat}
    {pool₀ : LruBufferPool} (hc : 1 ≤ c) (hlt : c < 2 ^ 64)
    (hinit : lruBufferPoolInit malloc c blockSize = some pool₀) (ops : List PoolOp)
    (htouches : (ops.foldl (PoolOp.lru c) ⟨[], []⟩).log.length < 2 ^ 64) :
    let pool := ops.foldl PoolOp.applyLru pool₀
    let s := ops.foldl (PoolOp.lru c) ⟨[], []⟩
    pool.count ≤ c ∧ (cells pool.slots pool.count).Nodup ∧
    (cells pool.lastUsed pool.count).Nodup ∧ (∀ i < pool.count, pool.lastUsed i ≤ pool.clock) ∧
    pool.recency = s.list ∧ (∀ b, (lruBufferPoolLookup pool b).1 = true ↔ b ∈ s.list) ∧
    (∀ b ∉ s.list, pool.count = c →
      ∃ v < c, (lruBufferPoolInsert pool b).slots = Function.update pool.slots v b ∧
        (∀ i < c, i ≠ v → pool.lastUsed v < pool.lastUsed i) ∧
        s.list.getLast? = some (pool.slots v) ∧
        ∀ x ∈ s.list, x ≠ pool.slots v → s.log.idxOf x < s.log.idxOf (pool.slots v)) ∧
    pool.count = min c s.log.dedup.length ∧ (∀ x ∈ cells pool.slots pool.count, x ∈ s.log) ∧
    ∀ x ∈ cells pool.slots pool.count, ∀ y ∈ s.log, y ∉ cells pool.slots pool.count →
      s.log.idxOf x < s.log.idxOf y := by
  intro pool s
  have h : Simulates c pool s := (Simulates.init hc hlt hinit).run ops htouches
  have hperm := order_perm pool
  have hcells : ∀ x, x ∈ cells pool.slots pool.count ↔ x ∈ (Recency.recent s.log).take c :=
    fun x => h.list_eq ▸ h.mem_list_iff.symm
  refine ⟨h.count_le, (hperm.map _).nodup_iff.mp h.stamped.nodup,
    (hperm.map _).nodup_iff.mp h.stamped.nodup_stamps, ?_, h.recency, fun b => h.lookup_hit_iff,
    fun b hb hfull => h.evicts hb hfull, ?_, ?_, ?_⟩
  · intro i hi
    exact h.stamped.le_clock (hperm.mem_iff.mpr (List.mem_range.mpr hi))
  · rw [← h.length_list, h.list_eq, List.length_take, Recency.length_recent]
  · intro x hx
    exact Recency.mem_recent.mp (List.mem_of_mem_take ((hcells x).mp hx))
  · intro x hx y hy hny
    have hpair := Recency.pairwise_recent s.log
    rw [← List.take_append_drop c (Recency.recent s.log), List.pairwise_append] at hpair
    have hy' := Recency.mem_recent.mpr hy
    rw [← List.take_append_drop c (Recency.recent s.log), List.mem_append] at hy'
    exact hpair.2.2 x ((hcells x).mp hx) y (hy'.resolve_left (mt (hcells y).mpr hny))

/-- In a pool of capacity 2 the lookup of block 1 makes block 2 the one to evict. -/
theorem run_refines_lru_four :
    let ops : List PoolOp := [.insert 1, .insert 2, .lookup 1, .insert 3]
    ∃ pool₀, lruBufferPoolInit (fun _ _ => some (fun _ => 0)) 2 4096 = some pool₀ ∧
      (ops.foldl PoolOp.applyLru pool₀).recency = [3, 1] ∧
      (lruBufferPoolLookup (ops.foldl PoolOp.applyLru pool₀) 2).1 = false := by
  intro ops
  refine ⟨_, rfl, ?_⟩
  obtain ⟨-, -, -, -, hrec, hlookup, -⟩ :=
    run_refines_lru (c := 2) (by decide) (by decide)
      (show lruBufferPoolInit (fun _ _ => some (fun _ => 0)) 2 4096 = some _ from rfl) ops (by decide)
  refine ⟨hrec, ?_⟩
  rw [Bool.eq_false_iff]
  exact mt (hlookup 2).mp (by decide)

/-! ## Inserting a range -/

theorem list_insertAll (bs : List Nat) (s : Lru) :
    (bs.foldl (Lru.insert c) s).list = bs.foldl (Recency.insert c) s.list := by
  induction bs generalizing s with
  | nil => rfl
  | cons b bs ih => exact ih (s.insert c b)

theorem Simulates.nodup_list (h : Simulates c pool s) : s.list.Nodup :=
  h.recency ▸ h.stamped.nodup

/-- The order of use after `lru_buffer_pool_prefetch_range`. -/
theorem Simulates.prefetchRange_recency {start n : Nat} (h : Simulates c pool s)
    (hend : start + n ≤ 2 ^ 64) (hlog : s.log.length + n < 2 ^ 64) :
    (lruBufferPoolPrefetchRange pool start n).recency = (List.range' start n).reverse.take c ++
      (pool.recency.filter (· ∉ List.range' start n)).take (c - n) := by
  have hlen : s.list.length ≤ c := h.length_list ▸ h.count_le
  have happly := h.apply (.prefetchRange start n) (by
    show ((rangeBlocks start n).foldl (Lru.insert c) s).log.length < 2 ^ 64
    rw [length_log_insertAll, rangeBlocks_eq hend, List.length_range']
    exact hlog)
  have hrec : (lruBufferPoolPrefetchRange pool start n).recency =
      ((rangeBlocks start n).foldl (Lru.insert c) s).list := happly.recency
  rw [hrec, list_insertAll, rangeBlocks_eq hend,
    Recency.foldl_insert h.cap_pos List.nodup_range' h.nodup_list hlen, List.length_range', h.recency]

theorem mem_recency {x : Nat} : x ∈ pool.recency ↔ x ∈ cells pool.slots pool.count :=
  ((order_perm pool).map pool.slots).mem_iff

/-- The last `c` of a range. -/
theorem mem_reverse_take_range' {start n x : Nat} (h : c ≤ n) :
    x ∈ (List.range' start n).reverse.take c ↔ start + n - c ≤ x ∧ x < start + n := by
  rw [List.take_reverse, List.mem_reverse, List.length_range', List.drop_range', List.mem_range'_1]
  omega

/-- **Inserting a range, exactly.** Afterwards the blocks of the range come first in the order of use, from
    the last one down, followed by the blocks that were cached before and lie outside the range, in their
    old order, and this list is cut at the capacity. So a range that fills the pool leaves its own last `c`
    blocks and nothing else; a shorter one leaves all its blocks and the most recently used of the others. -/
theorem range_insertion_exact {malloc : Nat → Nat → Option (Nat → Nat)} {blockSize start n : Nat}
    {pool₀ : LruBufferPool} (hc : 1 ≤ c) (hlt : c < 2 ^ 64)
    (hinit : lruBufferPoolInit malloc c blockSize = some pool₀) (ops : List PoolOp) (hn : 1 ≤ n)
    (hend : start + n ≤ 2 ^ 64)
    (htouches : (ops.foldl (PoolOp.lru c) ⟨[], []⟩).log.length + n < 2 ^ 64) :
    let pool := ops.foldl PoolOp.applyLru pool₀
    let pool' := lruBufferPoolPrefetchRange pool start n
    let survivors := (pool.recency.filter fun x => ¬ (start ≤ x ∧ x < start + n)).take (c - n)
    (c ≤ n → ∀ x, x ∈ cells pool'.slots pool'.count ↔ start + n - c ≤ x ∧ x < start + n) ∧
    (n < c → ∀ x, x ∈ cells pool'.slots pool'.count ↔ (start ≤ x ∧ x < start + n) ∨ x ∈ survivors) ∧
    pool'.recency = ((List.range' start n).reverse ++ survivors).take c := by
  intro pool pool' survivors
  have h : Simulates c pool _ := (Simulates.init hc hlt hinit).run ops (by omega)
  have hfilter : pool.recency.filter (· ∉ List.range' start n) =
      pool.recency.filter fun x => ¬ (start ≤ x ∧ x < start + n) := by
    apply List.filter_congr
    intro x _
    simp only [List.mem_range'_1]
  have hrec : pool'.recency = (List.range' start n).reverse.take c ++ survivors := by
    have := h.prefetchRange_recency hend htouches
    rw [hfilter] at this
    exact this
  refine ⟨fun hle x => ?_, fun hlt x => ?_, ?_⟩
  · have hnone : survivors = [] := by
      show List.take (c - n) _ = []
      rw [Nat.sub_eq_zero_of_le hle, List.take_zero]
    rw [← mem_recency, hrec, hnone, List.append_nil, mem_reverse_take_range' hle]
  · rw [← mem_recency, hrec, List.take_of_length_le (by simp; omega), List.mem_append, List.mem_reverse,
      List.mem_range'_1]
  · rw [hrec, List.take_append, List.length_reverse, List.length_range', List.take_take, Nat.min_self]

/-- In a pool of three blocks that holds 7 and 8, a range of two blocks keeps 8. -/
theorem range_insertion_exact_two :
    let ops : List PoolOp := [.insert 7, .insert 8]
    ∃ pool₀, lruBufferPoolInit (fun _ _ => some (fun _ => 0)) 3 4096 = some pool₀ ∧
      (lruBufferPoolPrefetchRange (ops.foldl PoolOp.applyLru pool₀) 1 2).recency = [2, 1, 8] := by
  intro ops
  have hinit : lruBufferPoolInit (fun _ _ => some (fun _ => 0)) 3 4096 = some _ := rfl
  refine ⟨_, hinit, ?_⟩
  have hbefore := ((Simulates.init (by decide) (by decide) hinit).run ops (by decide)).recency
  obtain ⟨-, -, hrec⟩ := range_insertion_exact (c := 3) (n := 2) (by decide) (by decide) hinit ops
    (by decide) (show 1 + 2 ≤ 2 ^ 64 by decide) (by decide)
  simp only [hbefore] at hrec
  exact hrec

end Runs

end Prefetch
end SystemsPlayground
