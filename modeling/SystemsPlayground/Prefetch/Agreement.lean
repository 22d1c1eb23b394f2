import Mathlib.Data.List.Find
import SystemsPlayground.Prefetch.Burst
import SystemsPlayground.Prefetch.LruBufferPool

/-!
# `Prefetch.Agreement` — when the FIFO and the LRU pool cannot be told apart

The two pools differ only in which slot an insertion into a full pool overwrites: the rotating position
`evict_pos` or the slot with the smallest stamp. They agree slot by slot (`Agree`) as long as these are the
same, which is the case when nothing is ever evicted, when there is only one slot, or when no cached block is
ever touched again: then the order of use is the order of insertion, and the least recently used block is
the one at the front of the ring (`Untouched`).

The last case needs the stamps to be in order, so it ends when the clock of the LRU pool wraps: the insertion
number 2^64 gets the stamp 0, and the next one overwrites it (`evicts_newest_of_wrap`).
-/

namespace SystemsPlayground
namespace Prefetch

open Word

/-! ## Operations step by step -/

/-- What an operation does to a pool, one block at a time. -/
inductive PoolStep where
  | lookup (blockNum : Nat)
  | insert (blockNum : Nat)

/-- The block that a step touches, if it is cached. -/
def PoolStep.block : PoolStep → Nat
  | .lookup b => b
  | .insert b => b

/-- The block that a step inserts. -/
def PoolStep.inserted : PoolStep → List Nat
  | .lookup _ => []
  | .insert b => [b]

/-- The step on the FIFO pool. -/
def PoolStep.apply (pool : BufferPool) : PoolStep → BufferPool
  | .lookup b => (bufferPoolLookup pool b).2
  | .insert b => bufferPoolInsert pool b

/-- The step on the LRU pool. -/
def PoolStep.applyLru (pool : LruBufferPool) : PoolStep → LruBufferPool
  | .lookup b => (lruBufferPoolLookup pool b).2
  | .insert b => lruBufferPoolInsert pool b

/-- The steps of an operation. -/
def PoolOp.steps : PoolOp → List PoolStep
  | .lookup b          => [.lookup b]
  | .insert b          => [.insert b]
  | .prefetchRange s n => (rangeBlocks s n).map .insert

/-- The blocks that an operation inserts. -/
def PoolOp.inserted (op : PoolOp) : List Nat := op.steps.flatMap PoolStep.inserted

theorem foldl_steps (op : PoolOp) (pool : BufferPool) :
    op.steps.foldl PoolStep.apply pool = op.apply pool := by
  cases op with
  | lookup b => rfl
  | insert b => rfl
  | prefetchRange s n =>
      show ((rangeBlocks s n).map PoolStep.insert).foldl PoolStep.apply pool = bufferPoolPrefetchRange pool s n
      rw [List.foldl_map, prefetchRange_eq]
      rfl

theorem foldl_steps_lru (op : PoolOp) (pool : LruBufferPool) :
    op.steps.foldl PoolStep.applyLru pool = op.applyLru pool := by
  cases op with
  | lookup b => rfl
  | insert b => rfl
  | prefetchRange s n =>
      show ((rangeBlocks s n).map PoolStep.insert).foldl PoolStep.applyLru pool =
        lruBufferPoolPrefetchRange pool s n
      rw [List.foldl_map, lruPrefetchRange_eq]
      rfl

theorem foldl_allSteps (ops : List PoolOp) (pool : BufferPool) :
    (ops.flatMap PoolOp.steps).foldl PoolStep.apply pool = ops.foldl PoolOp.apply pool := by
  induction ops generalizing pool with
  | nil => rfl
  | cons op ops ih => rw [List.flatMap_cons, List.foldl_append, foldl_steps, ih, List.foldl_cons]

theorem foldl_allSteps_lru (ops : List PoolOp) (pool : LruBufferPool) :
    (ops.flatMap PoolOp.steps).foldl PoolStep.applyLru pool = ops.foldl PoolOp.applyLru pool := by
  induction ops generalizing pool with
  | nil => rfl
  | cons op ops ih => rw [List.flatMap_cons, List.foldl_append, foldl_steps_lru, ih, List.foldl_cons]

/-! ## Pools that agree -/

/-- The two pools hold the same blocks in the same slots and have counted the same lookups. -/
structure Agree (fifo : BufferPool) (lru : LruBufferPool) : Prop where
  inv : PoolInv fifo
  capacity : lru.capacity = fifo.capacity
  count : lru.count = fifo.count
  slots : ∀ i < fifo.count, lru.slots i = fifo.slots i
  hits : lru.hits = fifo.hits
  misses : lru.misses = fifo.misses

namespace Agree

variable {fifo : BufferPool} {lru : LruBufferPool} {b i : Nat}

theorem find (h : Agree fifo lru) (b : Nat) :
    findSlot lru.slots lru.count b = findSlot fifo.slots fifo.count b := by
  rw [h.count]
  refine List.find?_congr ?_
  intro i hi
  rw [h.slots i (List.mem_range.mp hi)]

theorem absent (h : Agree fifo lru) (hb : b ∉ cells fifo.slots fifo.count) :
    b ∉ cells lru.slots lru.count :=
  findSlot_none.mp ((h.find b).trans (findSlot_none.mpr hb))

theorem lookup_result (h : Agree fifo lru) (b : Nat) :
    (bufferPoolLookup fifo b).1 = (lruBufferPoolLookup lru b).1 := by
  unfold bufferPoolLookup lruBufferPoolLookup
  rw [h.find]
  cases findSlot fifo.slots fifo.count b <;> rfl

/-- A stamp does not show. -/
theorem stamp (h : Agree fifo lru) (i : Nat) : Agree fifo (lru.stamp i) :=
  ⟨h.inv, h.capacity, h.count, h.slots, h.hits, h.misses⟩

theorem lookup (h : Agree fifo lru) (b : Nat) :
    Agree (bufferPoolLookup fifo b).2 (lruBufferPoolLookup lru b).2 := by
  have hinv := lookup_inv (b := b) h.inv
  unfold bufferPoolLookup at hinv ⊢
  unfold lruBufferPoolLookup
  rw [h.find]
  generalize findSlot fifo.slots fifo.count b = found at hinv ⊢
  cases found with
  | some i =>
      refine ⟨hinv, h.capacity, h.count, h.slots, ?_, h.misses⟩
      show u64 (lru.hits + 1) = u64 (fifo.hits + 1)
      rw [h.hits]
  | none =>
      refine ⟨hinv, h.capacity, h.count, h.slots, h.hits, ?_⟩
      show u64 (lru.misses + 1) = u64 (fifo.misses + 1)
      rw [h.misses]

/-- Both pools write `b` to the slot `i` and fill their slots up to `n`. -/
theorem write {n : Nat} {fifo' : BufferPool} {lru' : LruBufferPool} (h : Agree fifo lru)
    (hinv : PoolInv fifo') (hn : ∀ j < n, j ≠ i → j < fifo.count)
    (hF : fifo'.slots = Function.update fifo.slots i b) (hL : lru'.slots = Function.update lru.slots i b)
    (hcF : fifo'.count = n) (hcL : lru'.count = n) (hcap : lru'.capacity = fifo'.capacity)
    (hhits : lru'.hits = fifo'.hits) (hmisses : lru'.misses = fifo'.misses) : Agree fifo' lru' := by
  refine ⟨hinv, hcap, hcL.trans hcF.symm, ?_, hhits, hmisses⟩
  intro j hj
  rw [hF, hL]
  by_cases hji : j = i
  · rw [hji, Function.update_self, Function.update_self]
  · rw [Function.update_of_ne hji, Function.update_of_ne hji, h.slots j (hn j (hcF ▸ hj) hji)]

/-- **An insertion keeps the agreement** if both pools choose the same slot when one has to go. -/
theorem insert (h : Agree fifo lru)
    (hvictim : b ∉ cells fifo.slots fifo.count → fifo.count = fifo.capacity →
      findVictim lru.lastUsed lru.count = fifo.evictPos) :
    Agree (bufferPoolInsert fifo b) (lruBufferPoolInsert lru b) := by
  have hinv := insert_inv (b := b) h.inv
  have hcap := insert_capacity fifo b
  have hlt := h.inv.cap_lt
  rcases insert_cases (b := b) h.inv with ⟨hb, heq⟩ | ⟨hb, hroom, heq⟩ | ⟨hb, hfull, heq⟩
  · obtain ⟨i, hi⟩ := Option.isSome_iff_exists.mp (findSlot_isSome.mpr (mem_queue.mp hb))
    rw [heq, lruInsert_of_found ((h.find b).trans hi)]
    exact h.stamp i
  · have hroom' : lru.count < lru.capacity := by rw [h.count, h.capacity]; exact hroom
    rw [lruInsert_of_room (h.absent (mt mem_queue.mpr hb)) hroom']
    refine h.write hinv (i := fifo.count) (n := fifo.count + 1) (b := b) (by omega) (by rw [heq]) ?_
      (by rw [heq]) ?_ ?_ (by rw [heq]; exact h.hits) (by rw [heq]; exact h.misses)
    · show Function.update lru.slots lru.count b = _
      rw [h.count]
    · show u64 (lru.count + 1) = _
      rw [h.count, u64_of_lt (by omega)]
    · exact h.capacity.trans hcap.symm
  · have hb' := mt mem_queue.mpr hb
    have hfull' : lru.count = lru.capacity := by rw [h.count, h.capacity]; exact hfull
    rw [lruInsert_of_full (h.absent hb') hfull', hvictim hb' hfull]
    refine h.write hinv (i := fifo.evictPos) (n := fifo.count) (b := b) (fun j hj _ => hj) (by rw [heq]) rfl
      (by rw [heq]) h.count (h.capacity.trans hcap.symm) (by rw [heq]; exact h.hits)
      (by rw [heq]; exact h.misses)

/-- **A run keeps the agreement** if `K`, which may depend on the steps to come, gives at each step the slot
    to evict and carries over to the next one. -/
theorem run {K : BufferPool → LruBufferPool → List PoolStep → Prop}
    (hvictim : ∀ {fifo lru b steps}, Agree fifo lru → K fifo lru (.insert b :: steps) →
      b ∉ cells fifo.slots fifo.count → fifo.count = fifo.capacity →
      findVictim lru.lastUsed lru.count = fifo.evictPos)
    (hkeep : ∀ {fifo lru step steps}, Agree fifo lru → K fifo lru (step :: steps) →
      K (step.apply fifo) (step.applyLru lru) steps)
    {steps : List PoolStep} (h : Agree fifo lru) (hk : K fifo lru steps) :
    Agree (steps.foldl PoolStep.apply fifo) (steps.foldl PoolStep.applyLru lru) := by
  induction steps generalizing fifo lru with
  | nil => exact h
  | cons step steps ih =>
      refine ih ?_ (hkeep h hk)
      cases step with
      | lookup b => exact h.lookup b
      | insert b => exact h.insert (hvictim h hk)

end Agree

/-! ## Three ways not to differ -/

section Conditions

variable {fifo : BufferPool} {lru : LruBufferPool} {b : Nat} {steps : List PoolStep}

theorem step_capacity (fifo : BufferPool) (step : PoolStep) :
    (step.apply fifo).capacity = fifo.capacity := by
  cases step with
  | lookup b => exact lookup_capacity
  | insert b => exact insert_capacity _ _

/-- A step caches at most the block it inserts. -/
theorem mem_cells_step {x : Nat} (step : PoolStep)
    (hx : x ∈ cells (step.apply fifo).slots (step.apply fifo).count) :
    x ∈ cells fifo.slots fifo.count ∨ x ∈ step.inserted := by
  cases step with
  | lookup b => exact Or.inl ((lookup_cells fifo b) ▸ hx)
  | insert b => exact (mem_cells_insert hx).imp_right List.mem_singleton.mpr

/-- Nothing is evicted: the blocks cached and to come are no more than fit. -/
def NoEviction (fifo : BufferPool) (_ : LruBufferPool) (steps : List PoolStep) : Prop :=
  (cells fifo.slots fifo.count ++ steps.flatMap PoolStep.inserted).toFinset.card ≤ fifo.capacity

theorem agree_of_noEviction (h : Agree fifo lru) (hk : NoEviction fifo lru steps) :
    Agree (steps.foldl PoolStep.apply fifo) (steps.foldl PoolStep.applyLru lru) := by
  refine h.run (K := NoEviction) ?_ ?_ hk
  · intro fifo lru b steps h hk hb hfull
    have hlen : fifo.capacity ≤ (cells fifo.slots fifo.count).length := by rw [length_cells, hfull]
    have hsub : ∀ z ∈ b :: cells fifo.slots fifo.count, z ∈ cells fifo.slots fifo.count ++
        (PoolStep.insert b :: steps).flatMap PoolStep.inserted := by
      intro z hz
      rcases List.mem_cons.mp hz with rfl | hz
      · exact List.mem_append_right _ (List.mem_append_left _ (List.mem_singleton_self z))
      · exact List.mem_append_left _ hz
    exact absurd hk (Nat.not_le.mpr (Fifo.lt_card_of_full h.inv.nodup hlen hb hsub))
  · intro fifo lru step steps h hk
    rw [NoEviction, step_capacity]
    refine Fifo.card_le_of_subset ?_ hk
    intro z hz
    rw [List.mem_append] at hz
    rw [List.flatMap_cons, ← List.append_assoc, List.mem_append, List.mem_append]
    rcases hz with hz | hz
    · exact Or.inl (mem_cells_step step hz)
    · exact Or.inr hz

/-- With one slot there is no choice. -/
theorem agree_of_single (h : Agree fifo lru) (hone : fifo.capacity = 1) :
    Agree (steps.foldl PoolStep.apply fifo) (steps.foldl PoolStep.applyLru lru) := by
  refine h.run (K := fun fifo _ _ => fifo.capacity = 1) ?_ ?_ hone
  · intro fifo lru b steps h hone _ hfull
    have hvictim : findVictim lru.lastUsed lru.count < lru.count :=
      findVictim_lt (by rw [h.count]; omega)
    have hcount := h.count
    have hevict := h.inv.evict_lt
    omega
  · intro fifo lru step steps h hone
    exact (step_capacity fifo step).trans hone

/-- No step touches a block that is cached at that moment. -/
def Untouched (fifo : BufferPool) : List PoolStep → Prop
  | [] => True
  | step :: steps => step.block ∉ cells fifo.slots fifo.count ∧ Untouched (step.apply fifo) steps

/-- The LRU pool holds the blocks of the queue in the reverse order of use, at least while its clock is
    ahead of all its stamps. -/
def Reversed (fifo : BufferPool) (lru : LruBufferPool) (steps : List PoolStep) : Prop :=
  Untouched fifo steps ∧ ∃ s : Lru,
    s.log.length + (steps.flatMap PoolStep.inserted).length ≤ 2 ^ 64 ∧
    (s.log.length < 2 ^ 64 → Simulates fifo.capacity lru s ∧ s.list = fifo.queue.reverse)

/-- The front of a full ring. -/
theorem head_queue (h : PoolInv fifo) (hfull : fifo.count = fifo.capacity) :
    fifo.queue.head? = some (fifo.slots fifo.evictPos) := by
  have hlt : fifo.evictPos < (cells fifo.slots fifo.count).length := by
    rw [length_cells, hfull]
    exact h.evict_lt
  rw [BufferPool.queue, List.drop_eq_getElem_cons hlt, List.cons_append, List.head?_cons]
  simp [cells]

/-- The least recently used slot is the one at the front of the ring. -/
theorem victim_of_reversed {s : Lru} (h : Agree fifo lru) (hs : Simulates fifo.capacity lru s)
    (hlist : s.list = fifo.queue.reverse) (hfull : fifo.count = fifo.capacity) :
    findVictim lru.lastUsed lru.count = fifo.evictPos := by
  have hpos : 0 < lru.count := by rw [h.count, hfull]; exact h.inv.cap_pos
  have hvictim : findVictim lru.lastUsed lru.count < fifo.count := h.count ▸ findVictim_lt hpos
  have hevict : fifo.evictPos < fifo.count := hfull ▸ h.inv.evict_lt
  obtain ⟨is, horder⟩ := hs.stamped.order_victim hpos
  have hlast : s.list.getLast? = some (lru.slots (findVictim lru.lastUsed lru.count)) := by
    rw [← hs.recency, LruBufferPool.recency, horder]
    simp
  rw [hlist, List.getLast?_reverse, head_queue h.inv hfull, Option.some.injEq, h.slots _ hvictim] at hlast
  exact (List.inj_on_of_nodup_map h.inv.nodup (List.mem_range.mpr hevict) (List.mem_range.mpr hvictim)
    hlast).symm

theorem agree_of_reversed (h : Agree fifo lru) (hk : Reversed fifo lru steps) :
    Agree (steps.foldl PoolStep.apply fifo) (steps.foldl PoolStep.applyLru lru) := by
  refine h.run (K := Reversed) ?_ ?_ hk
  · rintro fifo lru b steps h ⟨-, s, hlen, hs⟩ _ hfull
    simp only [List.flatMap_cons, PoolStep.inserted, List.length_append, List.length_singleton] at hlen
    obtain ⟨hsim, hlist⟩ := hs (by omega)
    exact victim_of_reversed h hsim hlist hfull
  · rintro fifo lru step steps h ⟨⟨hb, hrest⟩, s, hlen, hs⟩
    refine ⟨hrest, ?_⟩
    rw [step_capacity]
    cases step with
    | lookup b =>
        refine ⟨s, hlen, fun hlt => ?_⟩
        obtain ⟨hsim, hlist⟩ := hs hlt
        have hmiss : findSlot lru.slots lru.count b = none := (h.find b).trans (findSlot_none.mpr hb)
        have hlookup : (PoolStep.lookup b).applyLru lru = { lru with misses := u64 (lru.misses + 1) } := by
          simp only [PoolStep.applyLru, lruBufferPoolLookup, hmiss]
        have hqueue : ((PoolStep.lookup b).apply fifo).queue = fifo.queue := lookup_queue
        rw [hlookup, hqueue]
        exact ⟨hsim.counters _ _, hlist⟩
    | insert b =>
        simp only [List.flatMap_cons, PoolStep.inserted, List.length_append, List.length_singleton] at hlen
        obtain ⟨hsim, hlist⟩ := hs (by omega)
        have hbq : b ∉ fifo.queue := mt mem_queue.mp hb
        have hbl : b ∉ s.list := by rw [hlist, List.mem_reverse]; exact hbq
        have hqueue : ((PoolStep.insert b).apply fifo).queue = Fifo.push fifo.capacity fifo.queue b :=
          insert_queue h.inv
        refine ⟨s.insert fifo.capacity b, ?_, fun hlt => ⟨hsim.insert hlt, ?_⟩⟩
        · show s.log.length + 1 + _ ≤ 2 ^ 64
          omega
        · show Recency.insert fifo.capacity s.list b = _
          rw [hqueue, Recency.insert, if_neg hbl, hlist, List.length_reverse]
          by_cases hroom : fifo.queue.length < fifo.capacity
          · rw [if_pos hroom, Fifo.push_of_room hbq hroom, List.reverse_append]
            rfl
          · rw [if_neg hroom, Fifo.push_of_full hbq hroom, List.reverse_append, List.dropLast_reverse]
            rfl

end Conditions

/-! ## Fresh pools -/

section Fresh

variable {mallocF : Nat → Option (Nat → Nat)} {mallocL : Nat → Nat → Option (Nat → Nat)}
  {c blockSize : Nat} {fifo₀ : BufferPool} {lru₀ : LruBufferPool}

theorem agree_init (hc : 1 ≤ c) (hlt : c < 2 ^ 64) (hF : bufferPoolInit mallocF c blockSize = some fifo₀)
    (hL : lruBufferPoolInit mallocL c blockSize = some lru₀) : Agree fifo₀ lru₀ := by
  obtain ⟨hinv, hcap, -, hhits, hmisses⟩ := init_spec hc hlt hF
  have hsim := Simulates.init hc hlt hL
  have hcountF : fifo₀.count = 0 := by
    obtain ⟨slots, -, rfl⟩ := Option.map_eq_some_iff.mp hF
    rfl
  have hcountL : lru₀.count = 0 := hsim.length_list.symm
  have hcounters : lru₀.hits = 0 ∧ lru₀.misses = 0 := lruInit_counters hL
  refine ⟨hinv, hsim.capacity.trans hcap.symm, hcountL.trans hcountF.symm, ?_,
    hcounters.1.trans hhits.symm, hcounters.2.trans hmisses.symm⟩
  intro i hi
  omega

/-- Fresh pools agree as long as no cached block is touched and the clock does not wrap. -/
theorem agree_of_untouched (hc : 1 ≤ c) (hlt : c < 2 ^ 64)
    (hF : bufferPoolInit mallocF c blockSize = some fifo₀)
    (hL : lruBufferPoolInit mallocL c blockSize = some lru₀) {steps : List PoolStep}
    (hun : Untouched fifo₀ steps) (hlen : (steps.flatMap PoolStep.inserted).length ≤ 2 ^ 64) :
    Agree (steps.foldl PoolStep.apply fifo₀) (steps.foldl PoolStep.applyLru lru₀) := by
  obtain ⟨-, hcap, hqueue, -⟩ := init_spec hc hlt hF
  refine agree_of_reversed (agree_init hc hlt hF hL) ⟨hun, ⟨[], []⟩, ?_, fun _ => ⟨?_, ?_⟩⟩
  · rw [List.length_nil, Nat.zero_add]
    exact hlen
  · rw [hcap]
    exact Simulates.init hc hlt hL
  · rw [hqueue]
    rfl

theorem untouched_prefix {fifo : BufferPool} {s₁ s₂ : List PoolStep} (h : Untouched fifo (s₁ ++ s₂)) :
    Untouched fifo s₁ := by
  induction s₁ generalizing fifo with
  | nil => trivial
  | cons step s₁ ih => exact ⟨h.1, ih h.2⟩

theorem inserted_eq (ops : List PoolOp) :
    (ops.flatMap PoolOp.steps).flatMap PoolStep.inserted = ops.flatMap PoolOp.inserted := by
  rw [List.flatMap_assoc]
  rfl

/-- **FIFO and LRU pools agree when the order of eviction cannot matter.** The same operations run on fresh
    pools of both kinds. If they insert at most `c` distinct blocks, or if they never touch a block that is
    cached at that moment and (unless there is one slot only) make at most 2^64 insertions, then after every
    operation the pools hold the same blocks in the same slots, have counted the same hits and misses, and
    answer every lookup alike. -/
theorem pools_agree (hc : 1 ≤ c) (hlt : c < 2 ^ 64)
    (hF : bufferPoolInit mallocF c blockSize = some fifo₀)
    (hL : lruBufferPoolInit mallocL c blockSize = some lru₀) (ops : List PoolOp)
    (hcond : (ops.flatMap PoolOp.inserted).toFinset.card ≤ c ∨
      Untouched fifo₀ (ops.flatMap PoolOp.steps) ∧
        (c = 1 ∨ (ops.flatMap PoolOp.inserted).length ≤ 2 ^ 64)) (n : Nat) :
    let fifo := (ops.take n).foldl PoolOp.apply fifo₀
    let lru := (ops.take n).foldl PoolOp.applyLru lru₀
    fifo.count = lru.count ∧ (∀ i < fifo.count, fifo.slots i = lru.slots i) ∧ fifo.hits = lru.hits ∧
    fifo.misses = lru.misses ∧ ∀ b, (bufferPoolLookup fifo b).1 = (lruBufferPoolLookup lru b).1 := by
  intro fifo lru
  obtain ⟨-, hcap, hqueue, -⟩ := init_spec hc hlt hF
  have hinit := agree_init hc hlt hF hL
  have hinserted : ((ops.take n).flatMap PoolOp.steps).flatMap PoolStep.inserted =
      (ops.take n).flatMap PoolOp.inserted := inserted_eq _
  have hsplit : ops.flatMap PoolOp.inserted =
      (ops.take n).flatMap PoolOp.inserted ++ (ops.drop n).flatMap PoolOp.inserted := by
    rw [← List.flatMap_append, List.take_append_drop]
  have hagree : Agree fifo lru := by
    simp only [fifo, lru, ← foldl_allSteps, ← foldl_allSteps_lru]
    rcases hcond with hfew | ⟨hun, hone | hlen⟩
    · refine agree_of_noEviction hinit ?_
      rw [NoEviction, hinserted, hcap]
      refine Fifo.card_le_of_subset ?_ hfew
      intro z hz
      rw [hsplit]
      rcases List.mem_append.mp hz with hz | hz
      · rw [← mem_queue, hqueue] at hz
        simp at hz
      · exact List.mem_append_left _ hz
    · exact agree_of_single hinit (hcap.trans hone)
    · refine agree_of_untouched hc hlt hF hL ?_ ?_
      · rw [← List.take_append_drop n ops, List.flatMap_append] at hun
        exact untouched_prefix hun
      · rw [hinserted]
        rw [hsplit, List.length_append] at hlen
        omega
  exact ⟨hagree.count.symm, fun i hi => (hagree.slots i hi).symm, hagree.hits.symm, hagree.misses.symm,
    hagree.lookup_result⟩

/-- Three insertions into pools of two slots, and a lookup that misses. -/
theorem pools_agree_four :
    let ops : List PoolOp := [.insert 1, .lookup 5, .prefetchRange 2 2]
    ∃ fifo₀ lru₀, bufferPoolInit (fun _ => some (fun _ => 0)) 2 4096 = some fifo₀ ∧
      lruBufferPoolInit (fun _ _ => some (fun _ => 0)) 2 4096 = some lru₀ ∧
      Untouched fifo₀ (ops.flatMap PoolOp.steps) ∧
      (bufferPoolLookup (ops.foldl PoolOp.apply fifo₀) 1).1 =
        (lruBufferPoolLookup (ops.foldl PoolOp.applyLru lru₀) 1).1 := by
  intro ops
  have hF : bufferPoolInit (fun _ => some (fun _ => 0)) 2 4096 = some _ := rfl
  have hL : lruBufferPoolInit (fun _ _ => some (fun _ => 0)) 2 4096 = some _ := rfl
  have hun : Untouched ⟨2, 4096, fun _ => 0, 0, 0, 0, 0⟩ (ops.flatMap PoolOp.steps) := by
    show _ ∉ _ ∧ _ ∉ _ ∧ _ ∉ _ ∧ _ ∉ _ ∧ True
    decide
  refine ⟨_, _, hF, hL, hun, ?_⟩
  obtain ⟨-, -, -, -, hlookup⟩ := pools_agree (c := 2) (by decide) (by decide) hF hL ops
    (Or.inr ⟨hun, Or.inr (by decide)⟩) 3
  exact hlookup 1

end Fresh

/-! ## The clock wraps -/

section Wrap

/-- A slot that is overwritten brings in its new block only. -/
theorem mem_cells_write {lru : LruBufferPool} {i b x : Nat}
    (hx : x ∈ cells (lru.write i b).slots (lru.write i b).count) : x ∈ cells lru.slots lru.count ∨ x = b := by
  rw [LruBufferPool.write, cells_update_lt] at hx
  exact List.mem_or_eq_of_mem_set hx

/-- Every stamp of a filled slot is positive: the clock starts at 0 and moves before it is read. -/
theorem stamp_pos {c i : Nat} {lru : LruBufferPool} {s : Lru} (h : Simulates c lru s) (hi : i < lru.count) :
    0 < lru.lastUsed i := by
  have hmem : i ∈ lru.order := (order_perm lru).mem_iff.mpr (List.mem_range.mpr hi)
  have hlist : lru.slots i ∈ s.list := h.recency ▸ List.mem_map_of_mem hmem
  rw [h.list_eq] at hlist
  have hidx := List.idxOf_lt_length_of_mem (Recency.mem_recent.mp (List.mem_of_mem_take hlist))
  have hstamp := h.stamped.stamp i hmem
  omega

/-- **The insertion that wraps the clock is the next to go.** A full pool that has made 2^64 - 1 touches gives
    its next block the stamp 0, and the insertion after that evicts this block, though it is the youngest. -/
theorem evicts_newest_of_wrap {c b b' : Nat} {lru : LruBufferPool} {s : Lru} (h : Simulates c lru s)
    (hlog : s.log.length + 1 = 2 ^ 64) (hfull : lru.count = c) (hb : b ∉ s.list) (hb' : b' ∉ s.list)
    (hne : b ≠ b') :
    (lruBufferPoolLookup (lruBufferPoolInsert (lruBufferPoolInsert lru b) b') b).1 = false := by
  have hcap : lru.count = lru.capacity := hfull.trans h.capacity.symm
  have hpos : 0 < lru.count := by rw [hfull]; exact h.cap_pos
  have hcells : b ∉ cells lru.slots lru.count := mt h.mem_list_iff.mpr hb
  have hcells' : b' ∉ cells lru.slots lru.count := mt h.mem_list_iff.mpr hb'
  obtain ⟨v, hv⟩ : ∃ v, findVictim lru.lastUsed lru.count = v := ⟨_, rfl⟩
  have hvlt : v < lru.count := hv ▸ findVictim_lt hpos
  have hstamp : (lru.write v b).lastUsed v = 0 := by
    show Function.update lru.lastUsed v (u64 (lru.clock + 1)) v = 0
    rw [Function.update_self, h.stamped.clock, hlog]
    rfl
  -- no other slot has the stamp 0
  have hvictim : findVictim (lru.write v b).lastUsed (lru.write v b).count = v := by
    by_contra hother
    have hle := findVictim_le (lru.write v b).lastUsed hvlt
    have hlt : findVictim (lru.write v b).lastUsed lru.count < lru.count := findVictim_lt hpos
    have hkept : (lru.write v b).lastUsed (findVictim (lru.write v b).lastUsed lru.count) =
        lru.lastUsed (findVictim (lru.write v b).lastUsed lru.count) := Function.update_of_ne hother _ _
    have hused := stamp_pos h hlt
    omega
  have habsent : b' ∉ cells (lru.write v b).slots (lru.write v b).count := by
    intro hmem
    rcases mem_cells_write hmem with hmem | rfl
    · exact hcells' hmem
    · exact hne rfl
  rw [lruInsert_of_full hcells hcap, hv, lruInsert_of_full habsent hcap, hvictim]
  -- both insertions went to the slot `v`
  have hslots : ((lru.write v b).write v b').slots = (lru.write v b').slots := Function.update_idem ..
  have hgone : b ∉ cells ((lru.write v b).write v b').slots lru.count := by
    rw [hslots]
    intro hmem
    rcases mem_cells_write hmem with hmem | rfl
    · exact hcells hmem
    · exact hne rfl
  have hfind : findSlot ((lru.write v b).write v b').slots ((lru.write v b).write v b').count b = none :=
    findSlot_none.mpr hgone
  simp only [lruBufferPoolLookup, hfind]

/-- Distinct blocks that are not cached are inserted one by one without touching a cached one. -/
theorem untouched_insertAll {fifo : BufferPool} {bs : List Nat} {rest : List PoolStep} (h : PoolInv fifo)
    (hbs : bs.Nodup) (habsent : ∀ b ∈ bs, b ∉ cells fifo.slots fifo.count)
    (hrest : Untouched (bs.foldl bufferPoolInsert fifo) rest) :
    Untouched fifo (bs.map .insert ++ rest) := by
  induction bs generalizing fifo with
  | nil => exact hrest
  | cons b bs ih =>
      obtain ⟨hb, hbs⟩ := List.nodup_cons.mp hbs
      refine ⟨habsent b List.mem_cons_self, ih (insert_inv h) hbs ?_ hrest⟩
      intro x hx hmem
      rcases mem_cells_step (.insert b) hmem with hmem | hmem
      · exact habsent x (List.mem_cons_of_mem b hx) hmem
      · exact hb (List.mem_singleton.mp hmem ▸ hx)

variable {mallocF : Nat → Option (Nat → Nat)} {mallocL : Nat → Nat → Option (Nat → Nat)}
  {c N blockSize : Nat} {fifo₀ : BufferPool} {lru₀ : LruBufferPool}

/-- The FIFO pool inserts the blocks from 0 to `N`, and 0 again, without touching a cached block, and ends
    up with `N`. -/
theorem fifo_wrap (hc : 2 ≤ c) (hN : N + 1 = 2 ^ 64) (hcN : c < N)
    (hF : bufferPoolInit mallocF c blockSize = some fifo₀) :
    Untouched fifo₀ (PoolOp.steps (.prefetchRange 0 N) ++ [.insert N, .insert 0]) ∧
    (bufferPoolLookup (bufferPoolInsert (bufferPoolInsert (bufferPoolPrefetchRange fifo₀ 0 N) N) 0) N).1 =
      true := by
  have hend : 0 + N ≤ 2 ^ 64 := by omega
  have h₀ : Holds c fifo₀ [] := Holds.init (by omega) (by omega) hF
  have h₁ : Holds c (bufferPoolPrefetchRange fifo₀ 0 N) (List.range' 0 N) :=
    h₀.prefetchRange hend (by simp)
  have hb₁ : N ∉ (List.range' 0 N).rtake c := by
    intro hmem
    have := List.mem_range'_1.mp (Fifo.mem_of_mem_rtake hmem)
    omega
  have h₂ := h₁.insert_absent hb₁
  have hb₂ : 0 ∉ (List.range' 0 N ++ [N]).rtake c := by
    have hsplit : List.range' 0 N ++ [N] = [0] ++ List.range' 1 N :=
      calc List.range' 0 N ++ [N] = List.range' 0 (N + 1) := by rw [List.range'_1_concat, Nat.zero_add]
        _ = [0] ++ List.range' 1 N := List.range'_succ
    rw [hsplit, Fifo.rtake_append_of_le (by rw [List.length_range']; omega)]
    intro hmem
    have := List.mem_range'_1.mp (Fifo.mem_of_mem_rtake hmem)
    omega
  have h₃ := h₂.insert_absent hb₂
  constructor
  · rw [PoolOp.steps]
    refine untouched_insertAll h₀.inv ?_ ?_ ?_
    · rw [rangeBlocks_eq hend]
      exact List.nodup_range'
    · intro b _ hmem
      rw [← mem_queue, h₀.queue, List.rtake_nil] at hmem
      exact List.not_mem_nil hmem
    · rw [← prefetchRange_eq]
      refine ⟨?_, ?_, trivial⟩
      · show N ∉ _
        rw [← mem_queue, h₁.queue]
        exact hb₁
      · show 0 ∉ cells (bufferPoolInsert _ N).slots (bufferPoolInsert _ N).count
        rw [← mem_queue, h₂.queue]
        exact hb₂
  · rw [lookup_hit_iff, h₃.queue, List.append_assoc, Fifo.rtake_append_of_ge (by simpa using hc)]
    simp

/-- The LRU pool has lost `N` by then. -/
theorem lru_wrap (hc : 2 ≤ c) (hN : N + 1 = 2 ^ 64) (hcN : c < N)
    (hL : lruBufferPoolInit mallocL c blockSize = some lru₀) :
    (lruBufferPoolLookup (lruBufferPoolInsert (lruBufferPoolInsert (lruBufferPoolPrefetchRange lru₀ 0 N) N) 0)
      N).1 = false := by
  have hend : 0 + N ≤ 2 ^ 64 := by omega
  have h₀ := Simulates.init (by omega) (by omega) hL
  have hlog : (PoolOp.lru c ⟨[], []⟩ (.prefetchRange 0 N)).log.length = N := by
    rw [PoolOp.lru, length_log_insertAll, rangeBlocks_eq hend, List.length_range', List.length_nil,
      Nat.zero_add]
  have h₁ := h₀.apply (.prefetchRange 0 N) (by omega)
  have hlist : (PoolOp.lru c ⟨[], []⟩ (.prefetchRange 0 N)).list = (List.range' 0 N).reverse.take c := by
    rw [← h₁.recency]
    refine (h₀.prefetchRange_recency hend (by rw [List.length_nil]; omega)).trans ?_
    rw [h₀.recency, List.filter_nil, List.take_nil, List.append_nil]
  have hmem : ∀ x, x ∈ (PoolOp.lru c ⟨[], []⟩ (.prefetchRange 0 N)).list ↔ 0 + N - c ≤ x ∧ x < 0 + N := by
    intro x
    rw [hlist, mem_reverse_take_range' (by omega)]
  refine evicts_newest_of_wrap h₁ (by omega) ?_ ?_ ?_ (by omega)
  · refine h₁.length_list.symm.trans ?_
    rw [hlist, List.length_take, List.length_reverse, List.length_range']
    omega
  · rw [hmem]
    omega
  · rw [hmem]
    omega

/-- Pools of two slots insert every block number once, from 0 to 2^64 - 1, and then 0 again, which is long
    gone. No cached block is ever touched; but the clock of the LRU pool wrapped with block 2^64 - 1, which
    is overwritten at once, while the FIFO pool still has it. -/
theorem pools_differ_after_wrap :
    let ops : List PoolOp := [.prefetchRange 0 (2 ^ 64 - 1), .insert (2 ^ 64 - 1), .insert 0]
    ∃ fifo₀ lru₀, bufferPoolInit (fun _ => some (fun _ => 0)) 2 4096 = some fifo₀ ∧
      lruBufferPoolInit (fun _ _ => some (fun _ => 0)) 2 4096 = some lru₀ ∧
      Untouched fifo₀ (ops.flatMap PoolOp.steps) ∧
      (bufferPoolLookup (ops.foldl PoolOp.apply fifo₀) (2 ^ 64 - 1)).1 = true ∧
      (lruBufferPoolLookup (ops.foldl PoolOp.applyLru lru₀) (2 ^ 64 - 1)).1 = false := by
  have hF : bufferPoolInit (fun _ => some (fun _ => 0)) 2 4096 = some _ := rfl
  have hL : lruBufferPoolInit (fun _ _ => some (fun _ => 0)) 2 4096 = some _ := rfl
  -- the number of blocks stays a variable, so that nothing computes the range
  obtain ⟨N, hN⟩ : ∃ N, N + 1 = 2 ^ 64 := ⟨2 ^ 64 - 1, rfl⟩
  have hN' : 2 ^ 64 - 1 = N := by omega
  rw [hN']
  intro ops
  obtain ⟨huntouched, hfifo⟩ := fifo_wrap (by decide) hN (by omega) hF
  refine ⟨_, _, hF, hL, ?_, hfifo, lru_wrap (by decide) hN (by omega) hL⟩
  have hsteps : ops.flatMap PoolOp.steps = PoolOp.steps (.prefetchRange 0 N) ++ [.insert N, .insert 0] := by
    simp only [ops, List.flatMap_cons, List.flatMap_nil, List.append_nil]
    rfl
  rw [hsteps]
  exact huntouched

end Wrap

end Prefetch
end SystemsPlayground
