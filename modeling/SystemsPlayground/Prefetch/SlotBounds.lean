import SystemsPlayground.Prefetch.Agreement

/-!
# `Prefetch.SlotBounds` — the indices at which the pools read and write their arrays

Both pools allocate `capacity * sizeof(size_t)` bytes, a product that wraps, and afterwards work with
`capacity`. For a capacity from 2^61 on the arrays have `capacity % 2^61` entries only. This module lists the
indices that every operation uses (`PoolStep.indices`, `PoolStep.indicesLru`) and gives the exact condition
for all of them to lie in the arrays (`slot_indices_iff`). The lists are complete: what is found depends on
the listed entries only (`findSlot_congr`, `findVictim_congr`), and no other entry is ever written
(`slots_of_not_mem_fifoIndices`, `slots_of_not_mem_lruIndices`).

The two pools are one argument: slots are filled from the left until the capacity is reached
(`FillsSlots`), so the first index out of a shorter array is the one for the first block that it has no room for.
-/

namespace SystemsPlayground
namespace Prefetch

open Word

/-! ## The indices that an operation uses -/

/-- The scan for a block reads up to the slot that holds it, or all the filled slots. -/
def scanReads (slots : Nat → Nat) (count blockNum : Nat) : List Nat :=
  match findSlot slots count blockNum with
  | some i => List.range (i + 1)
  | none   => List.range count

/-- The indices of `slots` that a step on the FIFO pool reads or writes. -/
def PoolStep.indices (pool : BufferPool) : PoolStep → List Nat
  | .lookup b => scanReads pool.slots pool.count b
  | .insert b =>
      scanReads pool.slots pool.count b ++
        match findSlot pool.slots pool.count b with
        | some _ => []
        | none   => if pool.count < pool.capacity then [pool.count] else [pool.evictPos]

/-- The indices of `last_used` that the search for the victim reads: each index, and the victim so far. -/
def victimReads (lastUsed : Nat → Nat) (count : Nat) : List Nat :=
  ((List.range' 1 (count - 1)).foldl (fun (reads, victim) i =>
    (reads ++ [i, victim], if lastUsed i < lastUsed victim then i else victim)) ([], 0)).1

/-- The indices of `slots` and of `last_used` that a step on the LRU pool reads or writes. -/
def PoolStep.indicesLru (pool : LruBufferPool) : PoolStep → List Nat
  | .lookup b =>
      scanReads pool.slots pool.count b ++
        match findSlot pool.slots pool.count b with
        | some i => [i]
        | none   => []
  | .insert b =>
      scanReads pool.slots pool.count b ++
        match findSlot pool.slots pool.count b with
        | some i => [i]
        | none   =>
          if pool.count < pool.capacity then [pool.count]
          else victimReads pool.lastUsed pool.count ++ [findVictim pool.lastUsed pool.count]

/-- The indices that a sequence of steps uses. -/
def runIndices {σ : Type} (apply : σ → PoolStep → σ) (indices : σ → PoolStep → List Nat) :
    σ → List PoolStep → List Nat
  | _, [] => []
  | pool, step :: steps => indices pool step ++ runIndices apply indices (apply pool step) steps

/-- The indices that a sequence of operations on the FIFO pool uses. -/
def fifoIndices (pool : BufferPool) (ops : List PoolOp) : List Nat :=
  runIndices PoolStep.apply PoolStep.indices pool (ops.flatMap PoolOp.steps)

/-- The indices that a sequence of operations on the LRU pool uses. -/
def lruIndices (pool : LruBufferPool) (ops : List PoolOp) : List Nat :=
  runIndices PoolStep.applyLru PoolStep.indicesLru pool (ops.flatMap PoolOp.steps)

/-! ## Nothing else is used

What is found depends on the entries at the listed indices only, and only these are written. -/

section Used

variable {slots slots' lastUsed lastUsed' : Nat → Nat} {count b : Nat}

theorem findSlot_congr (h : ∀ i ∈ scanReads slots count b, slots' i = slots i) :
    findSlot slots' count b = findSlot slots count b := by
  unfold scanReads at h
  cases hfind : findSlot slots count b with
  | some j =>
      rw [hfind] at h
      unfold findSlot at hfind ⊢
      rw [List.find?_range_eq_some] at hfind ⊢
      obtain ⟨hj, hmem, hbefore⟩ := hfind
      refine ⟨by rwa [h j List.self_mem_range_succ], hmem, fun k hk => ?_⟩
      rw [h k (List.mem_range.mpr (Nat.lt_succ_of_lt hk))]
      exact hbefore k hk
  | none =>
      rw [hfind] at h
      rw [findSlot_none] at hfind ⊢
      rwa [cells, List.map_congr_left h]

theorem findVictim_congr (h : ∀ i ∈ victimReads lastUsed count, lastUsed' i = lastUsed i) :
    findVictim lastUsed' count = findVictim lastUsed count := by
  -- what is read is kept, and both searches read the same
  have key : ∀ (is reads : List Nat) (victim : Nat),
      let all := (is.foldl (fun (reads, victim) i =>
        (reads ++ [i, victim], if lastUsed i < lastUsed victim then i else victim)) (reads, victim)).1
      (∀ i ∈ reads, i ∈ all) ∧ ((∀ i ∈ all, lastUsed' i = lastUsed i) →
        is.foldl (fun victim i => if lastUsed' i < lastUsed' victim then i else victim) victim =
          is.foldl (fun victim i => if lastUsed i < lastUsed victim then i else victim) victim) := by
    intro is
    induction is with
    | nil => exact fun reads victim => ⟨fun i hi => hi, fun _ => rfl⟩
    | cons j is ih =>
        intro reads victim
        obtain ⟨hkept, hsame⟩ := ih (reads ++ [j, victim]) (if lastUsed j < lastUsed victim then j else victim)
        refine ⟨fun i hi => hkept i (List.mem_append_left _ hi), fun hall => ?_⟩
        have hj := hall j (hkept j (by simp))
        have hvictim := hall victim (hkept victim (by simp))
        rw [List.foldl_cons, List.foldl_cons, hj, hvictim]
        exact hsame hall
  exact (key _ [] 0).2 h

end Used

/-- The FIFO pool's slots change at the listed indices only. -/
theorem slots_of_not_mem_indices {pool : BufferPool} {step : PoolStep} {i : Nat}
    (hi : i ∉ step.indices pool) : (step.apply pool).slots i = pool.slots i := by
  cases step with
  | lookup b =>
      show (bufferPoolLookup pool b).2.slots i = _
      unfold bufferPoolLookup
      split <;> rfl
  | insert b =>
      show (bufferPoolInsert pool b).slots i = _
      cases hfind : findSlot pool.slots pool.count b with
      | some j => simp only [bufferPoolInsert, hfind]
      | none =>
          by_cases hroom : pool.count < pool.capacity
          · simp only [PoolStep.indices, hfind, if_pos hroom, List.mem_append, List.mem_singleton, not_or] at hi
            simp only [bufferPoolInsert, hfind, if_pos hroom]
            exact Function.update_of_ne hi.2 _ _
          · simp only [PoolStep.indices, hfind, if_neg hroom, List.mem_append, List.mem_singleton, not_or] at hi
            simp only [bufferPoolInsert, hfind, if_neg hroom]
            exact Function.update_of_ne hi.2 _ _

/-- A slot that is written, and its stamp, differ from the old ones at its index only. -/
theorem write_of_ne {pool : LruBufferPool} {i j b : Nat} (h : j ≠ i) :
    (pool.write i b).slots j = pool.slots j ∧ (pool.write i b).lastUsed j = pool.lastUsed j :=
  ⟨Function.update_of_ne h _ _, Function.update_of_ne h _ _⟩

/-- The LRU pool's slots and stamps change at the listed indices only. -/
theorem slots_of_not_mem_indicesLru {pool : LruBufferPool} {step : PoolStep} {i : Nat}
    (hi : i ∉ step.indicesLru pool) :
    (step.applyLru pool).slots i = pool.slots i ∧ (step.applyLru pool).lastUsed i = pool.lastUsed i := by
  cases step with
  | lookup b =>
      show (lruBufferPoolLookup pool b).2.slots i = _ ∧ (lruBufferPoolLookup pool b).2.lastUsed i = _
      cases hfind : findSlot pool.slots pool.count b with
      | some j =>
          simp only [PoolStep.indicesLru, hfind, List.mem_append, List.mem_singleton, not_or] at hi
          rw [lruBufferPoolLookup, hfind]
          exact ⟨rfl, Function.update_of_ne hi.2 _ _⟩
      | none =>
          rw [lruBufferPoolLookup, hfind]
          exact ⟨rfl, rfl⟩
  | insert b =>
      show (lruBufferPoolInsert pool b).slots i = _ ∧ (lruBufferPoolInsert pool b).lastUsed i = _
      cases hfind : findSlot pool.slots pool.count b with
      | some j =>
          simp only [PoolStep.indicesLru, hfind, List.mem_append, List.mem_singleton, not_or] at hi
          rw [lruInsert_of_found hfind]
          exact ⟨rfl, Function.update_of_ne hi.2 _ _⟩
      | none =>
          by_cases hroom : pool.count < pool.capacity
          · simp only [PoolStep.indicesLru, hfind, if_pos hroom, List.mem_append, List.mem_singleton,
              not_or] at hi
            simp only [lruBufferPoolInsert, hfind, if_pos hroom]
            exact write_of_ne hi.2
          · simp only [PoolStep.indicesLru, hfind, if_neg hroom, List.mem_append, List.mem_singleton,
              not_or] at hi
            simp only [lruBufferPoolInsert, hfind, if_neg hroom]
            exact write_of_ne hi.2.2

/-- What no step of a sequence uses stays as it is. -/
theorem of_not_mem_runIndices {σ α : Type} {apply : σ → PoolStep → σ} {indices : σ → PoolStep → List Nat}
    {e : σ → Nat → α} (hstep : ∀ {s step i}, i ∉ indices s step → e (apply s step) i = e s i) {i : Nat} :
    ∀ {steps s}, i ∉ runIndices apply indices s steps → e (steps.foldl apply s) i = e s i := by
  intro steps
  induction steps with
  | nil => exact fun _ => rfl
  | cons step steps ih =>
      intro s hi
      obtain ⟨hhere, hlater⟩ := not_or.mp (mt List.mem_append.mpr hi)
      rw [List.foldl_cons, ih hlater, hstep hhere]

/-- Over a sequence of operations the FIFO pool writes at the listed indices only. -/
theorem slots_of_not_mem_fifoIndices {pool : BufferPool} {ops : List PoolOp} {i : Nat}
    (hi : i ∉ fifoIndices pool ops) : (ops.foldl PoolOp.apply pool).slots i = pool.slots i := by
  rw [← foldl_allSteps]
  exact of_not_mem_runIndices slots_of_not_mem_indices hi

/-- Over a sequence of operations the LRU pool writes at the listed indices only. -/
theorem slots_of_not_mem_lruIndices {pool : LruBufferPool} {ops : List PoolOp} {i : Nat}
    (hi : i ∉ lruIndices pool ops) :
    ((ops.foldl PoolOp.applyLru pool).slots i, (ops.foldl PoolOp.applyLru pool).lastUsed i) =
      (pool.slots i, pool.lastUsed i) := by
  rw [← foldl_allSteps_lru]
  exact of_not_mem_runIndices (e := fun pool i => (pool.slots i, pool.lastUsed i))
    (fun hi => Prod.ext_iff.mpr (slots_of_not_mem_indicesLru hi)) hi

/-! ## Slots that are filled from the left -/

/-- What the two pools have in common, for a capacity `c` and under an invariant `I`: a block that is not
    cached goes into the next slot as long as there is one below `c`; all other indices are filled. -/
structure FillsSlots {σ : Type} (apply : σ → PoolStep → σ) (indices : σ → PoolStep → List Nat)
    (blocks : σ → List Nat) (c : Nat) (I : σ → Prop) : Prop where
  keep : ∀ {s} step, I s → I (apply s step)
  nodup : ∀ {s}, I s → (blocks s).Nodup
  length_le : ∀ {s}, I s → (blocks s).length ≤ c
  cached : ∀ {s} step, I s → (∀ b ∈ step.inserted, b ∈ blocks s) →
    blocks (apply s step) = blocks s ∧ ∀ i ∈ indices s step, i < (blocks s).length
  next : ∀ {s b}, I s → b ∉ blocks s → (blocks s).length < c →
    blocks (apply s (.insert b)) = blocks s ++ [b] ∧ (blocks s).length ∈ indices s (.insert b) ∧
      ∀ i ∈ indices s (.insert b), i ≤ (blocks s).length
  full : ∀ {s b}, I s → b ∉ blocks s → (blocks s).length = c → ∀ i ∈ indices s (.insert b), i < c

namespace FillsSlots

variable {σ : Type} {apply : σ → PoolStep → σ} {indices : σ → PoolStep → List Nat}
  {blocks : σ → List Nat} {c : Nat} {I : σ → Prop} {s : σ}

/-- A step works on what is cached, or inserts a block that is not. -/
theorem cached_or_new (blocks : σ → List Nat) (s : σ) (step : PoolStep) :
    (∀ b ∈ step.inserted, b ∈ blocks s) ∨ ∃ b, step = .insert b ∧ b ∉ blocks s := by
  cases step with
  | lookup b => exact Or.inl (by simp [PoolStep.inserted])
  | insert b =>
      by_cases hb : b ∈ blocks s
      · exact Or.inl (by simpa [PoolStep.inserted] using hb)
      · exact Or.inr ⟨b, rfl, hb⟩

/-- No index reaches the capacity. -/
theorem lt_capacity (h : FillsSlots apply indices blocks c I) (steps : List PoolStep) (hs : I s) :
    ∀ i ∈ runIndices apply indices s steps, i < c := by
  induction steps generalizing s with
  | nil => simp [runIndices]
  | cons step steps ih =>
      have hle := h.length_le hs
      intro i hi
      rcases List.mem_append.mp hi with hi | hi
      · rcases cached_or_new blocks s step with hold | ⟨b, rfl, hb⟩
        · exact Nat.lt_of_lt_of_le ((h.cached step hs hold).2 i hi) hle
        · rcases Nat.lt_or_eq_of_le hle with hroom | hfull
          · exact Nat.lt_of_le_of_lt ((h.next hs hb hroom).2.2 i hi) hroom
          · exact h.full hs hb hfull i hi
      · exact ih (h.keep step hs) i hi

/-- **A shorter array.** The indices stay below `m < c` exactly when the blocks are at most `m`. -/
theorem lt_iff (h : FillsSlots apply indices blocks c I) {m : Nat} (hm : m < c) (steps : List PoolStep)
    (hs : I s) (hlen : (blocks s).length ≤ m) :
    (∀ i ∈ runIndices apply indices s steps, i < m) ↔
      (blocks s ++ steps.flatMap PoolStep.inserted).toFinset.card ≤ m := by
  induction steps generalizing s with
  | nil =>
      have hcard : (blocks s).toFinset.card ≤ m := (List.toFinset_card_le _).trans hlen
      simp [runIndices, hcard]
  | cons step steps ih =>
      have hsplit : (∀ i ∈ runIndices apply indices s (step :: steps), i < m) ↔
          (∀ i ∈ indices s step, i < m) ∧
            ∀ i ∈ runIndices apply indices (apply s step) steps, i < m := by
        simp only [runIndices, List.mem_append, or_imp, forall_and]
      rw [hsplit, List.flatMap_cons, ← List.append_assoc]
      rcases cached_or_new blocks s step with hold | ⟨b, rfl, hb⟩
      · obtain ⟨hblocks, hindices⟩ := h.cached step hs hold
        have hrest := ih (h.keep step hs) (hblocks ▸ hlen)
        have hsame : (blocks s ++ step.inserted ++ steps.flatMap PoolStep.inserted).toFinset =
            (blocks s ++ steps.flatMap PoolStep.inserted).toFinset := by
          ext x
          simp only [List.mem_toFinset, List.mem_append, or_iff_left_of_imp (hold x)]
        rw [hrest, hblocks, hsame]
        exact and_iff_right fun i hi => Nat.lt_of_lt_of_le (hindices i hi) hlen
      · obtain ⟨hblocks, hused, hindices⟩ := h.next hs hb (Nat.lt_of_le_of_lt hlen hm)
        rcases Nat.lt_or_eq_of_le hlen with hroom | hfull
        · have hlen' : (blocks (apply s (.insert b))).length ≤ m := by
            rw [hblocks, List.length_append, List.length_singleton]
            exact hroom
          rw [ih (h.keep _ hs) hlen', hblocks]
          exact and_iff_right fun i hi => Nat.lt_of_le_of_lt (hindices i hi) hroom
        · -- the array is full: the next index is out of it, and the blocks are more than `m`
          refine ⟨fun hall => absurd (hall.1 _ hused) (by omega), fun hcard => ?_⟩
          have hnodup : (blocks s ++ [b]).Nodup := by
            rw [← hblocks]
            exact h.nodup (h.keep _ hs)
          have hsub : (blocks s ++ [b]).toFinset ⊆
              (blocks s ++ PoolStep.inserted (.insert b) ++ steps.flatMap PoolStep.inserted).toFinset := by
            intro x hx
            rw [List.mem_toFinset] at hx ⊢
            exact List.mem_append_left _ hx
          have hmore := Finset.card_le_card hsub
          rw [List.toFinset_card_of_nodup hnodup, List.length_append, List.length_singleton] at hmore
          omega

end FillsSlots

/-! ## The two pools -/

section Reads

variable {slots lastUsed : Nat → Nat} {count b : Nat}

theorem scanReads_lt : ∀ i ∈ scanReads slots count b, i < count := by
  unfold scanReads
  intro i hi
  cases hfind : findSlot slots count b with
  | some j =>
      have := (findSlot_some hfind).1
      rw [hfind] at hi
      have := List.mem_range.mp hi
      omega
  | none =>
      rw [hfind] at hi
      exact List.mem_range.mp hi

/-- The scan and the write to the next slot. -/
theorem scan_next_le : ∀ i ∈ scanReads slots count b ++ [count], i ≤ count := by
  intro i hi
  rcases List.mem_append.mp hi with hi | hi
  · exact Nat.le_of_lt (scanReads_lt i hi)
  · exact Nat.le_of_eq (List.mem_singleton.mp hi)

/-- The scan and the stamp of the slot that it found. -/
theorem scan_found_lt {j : Nat} (hfind : findSlot slots count b = some j) :
    ∀ i ∈ scanReads slots count b ++ [j], i < count := by
  intro i hi
  rcases List.mem_append.mp hi with hi | hi
  · exact scanReads_lt i hi
  · rw [List.mem_singleton.mp hi]
    exact (findSlot_some hfind).1

/-- The search for the victim stays in the filled part. -/
theorem victimReads_lt (hpos : 0 < count) : ∀ i ∈ victimReads lastUsed count, i < count := by
  have key : ∀ (is : List Nat) (st : List Nat × Nat), (∀ i ∈ is, i < count) →
      (∀ i ∈ st.1, i < count) → st.2 < count →
      ∀ i ∈ (is.foldl (fun (reads, victim) i =>
        (reads ++ [i, victim], if lastUsed i < lastUsed victim then i else victim)) st).1, i < count := by
    intro is
    induction is with
    | nil => exact fun st _ hreads _ => hreads
    | cons j is ih =>
        intro st his hreads hvictim
        have hj := his j List.mem_cons_self
        refine ih _ (fun i hi => his i (List.mem_cons_of_mem _ hi)) ?_ ?_
        · intro i hi
          rcases List.mem_append.mp hi with hi | hi
          · exact hreads i hi
          · rcases List.mem_cons.mp hi with rfl | hi
            · exact hj
            · rwa [List.mem_singleton.mp hi]
        · show (if lastUsed j < lastUsed st.2 then j else st.2) < count
          split_ifs
          · exact hj
          · exact hvictim
  refine key _ _ (fun i hi => ?_) (by simp) hpos
  have := List.mem_range'_1.mp hi
  omega

end Reads

/-! ### The FIFO pool -/

section Fifo

variable {pool : BufferPool} {b : Nat}

theorem fifo_cached (pool : BufferPool) (step : PoolStep)
    (hold : ∀ b ∈ step.inserted, b ∈ cells pool.slots pool.count) :
    cells (step.apply pool).slots (step.apply pool).count = cells pool.slots pool.count ∧
      ∀ i ∈ step.indices pool, i < pool.count := by
  cases step with
  | lookup b => exact ⟨lookup_cells pool b, scanReads_lt⟩
  | insert b =>
      obtain ⟨i, hfind⟩ := Option.isSome_iff_exists.mp
        (findSlot_isSome.mpr (hold b (by simp [PoolStep.inserted])))
      constructor
      · show cells (bufferPoolInsert pool b).slots (bufferPoolInsert pool b).count = _
        simp only [bufferPoolInsert, hfind]
      · simp only [PoolStep.indices, hfind, List.append_nil]
        exact scanReads_lt

theorem insert_cells_room (hb : b ∉ cells pool.slots pool.count) (hroom : pool.count < pool.capacity)
    (hlt : pool.capacity < 2 ^ 64) :
    cells (bufferPoolInsert pool b).slots (bufferPoolInsert pool b).count =
      cells pool.slots pool.count ++ [b] := by
  simp only [bufferPoolInsert, findSlot_none.mpr hb, if_pos hroom,
    u64_of_lt (show pool.count + 1 < 2 ^ 64 by omega)]
  exact cells_update_end

theorem fifo_full (hinv : PoolInv pool) (hb : b ∉ cells pool.slots pool.count)
    (hfull : pool.count = pool.capacity) :
    ∀ i ∈ PoolStep.indices pool (.insert b), i < pool.capacity := by
  intro i hi
  simp only [PoolStep.indices, findSlot_none.mpr hb, if_neg (show ¬ pool.count < pool.capacity by omega)]
    at hi
  rcases List.mem_append.mp hi with hi | hi
  · rw [← hfull]
    exact scanReads_lt i hi
  · rw [List.mem_singleton.mp hi]
    exact hinv.evict_lt

end Fifo

theorem fifo_fillsSlots (c : Nat) :
    FillsSlots PoolStep.apply PoolStep.indices (fun pool => cells pool.slots pool.count) c
      (fun pool => PoolInv pool ∧ pool.capacity = c) := by
  refine ⟨?_, fun h => h.1.nodup, fun h => ?_, fun step h hold => ?_, ?_, ?_⟩
  · rintro pool step ⟨hinv, hcap⟩
    refine ⟨?_, (step_capacity pool step).trans hcap⟩
    cases step with
    | lookup b => exact lookup_inv hinv
    | insert b => exact insert_inv hinv
  · rw [length_cells, ← h.2]
    exact h.1.count_le
  · rw [length_cells]
    exact fifo_cached _ step hold
  · rintro pool b ⟨hinv, rfl⟩ hb hroom
    rw [length_cells] at hroom ⊢
    refine ⟨insert_cells_room hb hroom hinv.cap_lt, ?_⟩
    simp only [PoolStep.indices, findSlot_none.mpr hb, if_pos hroom]
    exact ⟨List.mem_append_right _ List.mem_cons_self, scan_next_le⟩
  · rintro pool b ⟨hinv, rfl⟩ hb hfull
    rw [length_cells] at hfull
    exact fifo_full hinv hb hfull

/-! ### The LRU pool -/

/-- The invariant of the slots of the LRU pool. -/
structure LruSlots (c : Nat) (pool : LruBufferPool) : Prop where
  cap_pos : 1 ≤ c
  cap_lt : c < 2 ^ 64
  capacity : pool.capacity = c
  count_le : pool.count ≤ c
  nodup : (cells pool.slots pool.count).Nodup

section LruSlots

variable {c b : Nat} {pool : LruBufferPool}

theorem lruLookup_slots (pool : LruBufferPool) (b : Nat) :
    (lruBufferPoolLookup pool b).2.slots = pool.slots ∧ (lruBufferPoolLookup pool b).2.count = pool.count ∧
    (lruBufferPoolLookup pool b).2.capacity = pool.capacity := by
  unfold lruBufferPoolLookup
  cases findSlot pool.slots pool.count b <;> exact ⟨rfl, rfl, rfl⟩

theorem lruInsert_cells_room (hb : b ∉ cells pool.slots pool.count) (hroom : pool.count < pool.capacity)
    (hlt : pool.capacity < 2 ^ 64) :
    cells (lruBufferPoolInsert pool b).slots (lruBufferPoolInsert pool b).count =
      cells pool.slots pool.count ++ [b] := by
  rw [lruInsert_of_room hb hroom, u64_of_lt (by omega)]
  exact cells_update_end

theorem LruSlots.step (h : LruSlots c pool) (step : PoolStep) : LruSlots c (step.applyLru pool) := by
  have hcap := h.capacity
  have hlt := h.cap_lt
  cases step with
  | lookup b =>
      obtain ⟨hslots, hcount, hcapacity⟩ := lruLookup_slots pool b
      refine ⟨h.cap_pos, h.cap_lt, hcapacity.trans h.capacity, ?_, ?_⟩
      · show (lruBufferPoolLookup pool b).2.count ≤ c
        rw [hcount]
        exact h.count_le
      · show (cells (lruBufferPoolLookup pool b).2.slots (lruBufferPoolLookup pool b).2.count).Nodup
        rw [hslots, hcount]
        exact h.nodup
  | insert b =>
      show LruSlots c (lruBufferPoolInsert pool b)
      cases hfind : findSlot pool.slots pool.count b with
      | some i =>
          rw [lruInsert_of_found hfind]
          exact ⟨h.cap_pos, h.cap_lt, h.capacity, h.count_le, h.nodup⟩
      | none =>
          have hb := findSlot_none.mp hfind
          rcases Nat.lt_or_eq_of_le h.count_le with hroom | hfull
          · have hcells := lruInsert_cells_room hb (by omega) (by omega)
            refine ⟨h.cap_pos, h.cap_lt, ?_, ?_, ?_⟩
            · rw [lruInsert_of_room hb (by omega)]
              exact h.capacity
            · rw [lruInsert_of_room hb (by omega)]
              show u64 (pool.count + 1) ≤ c
              rw [u64_of_lt (by omega)]
              exact hroom
            · rw [hcells, ← List.concat_eq_append]
              exact h.nodup.concat hb
          · rw [lruInsert_of_full hb (by omega)]
            refine ⟨h.cap_pos, h.cap_lt, h.capacity, h.count_le, ?_⟩
            show (cells (Function.update pool.slots _ b) pool.count).Nodup
            rw [cells_update_lt]
            exact h.nodup.set hb

theorem lru_cached (pool : LruBufferPool) (step : PoolStep)
    (hold : ∀ b ∈ step.inserted, b ∈ cells pool.slots pool.count) :
    cells (step.applyLru pool).slots (step.applyLru pool).count = cells pool.slots pool.count ∧
      ∀ i ∈ step.indicesLru pool, i < pool.count := by
  cases step with
  | lookup b =>
      obtain ⟨hslots, hcount, -⟩ := lruLookup_slots pool b
      constructor
      · show cells (lruBufferPoolLookup pool b).2.slots (lruBufferPoolLookup pool b).2.count = _
        rw [hslots, hcount]
      · cases hfind : findSlot pool.slots pool.count b with
        | some j =>
            simp only [PoolStep.indicesLru, hfind]
            exact scan_found_lt hfind
        | none =>
            simp only [PoolStep.indicesLru, hfind, List.append_nil]
            exact scanReads_lt
  | insert b =>
      obtain ⟨j, hfind⟩ := Option.isSome_iff_exists.mp
        (findSlot_isSome.mpr (hold b (by simp [PoolStep.inserted])))
      constructor
      · show cells (lruBufferPoolInsert pool b).slots (lruBufferPoolInsert pool b).count = _
        rw [lruInsert_of_found hfind]
        rfl
      · simp only [PoolStep.indicesLru, hfind]
        exact scan_found_lt hfind

theorem lru_full (h : LruSlots c pool) (hb : b ∉ cells pool.slots pool.count) (hfull : pool.count = c) :
    ∀ i ∈ PoolStep.indicesLru pool (.insert b), i < c := by
  have hpos : 0 < pool.count := by rw [hfull]; exact h.cap_pos
  have hnone : ¬ pool.count < pool.capacity := by rw [h.capacity]; omega
  intro i hi
  simp only [PoolStep.indicesLru, findSlot_none.mpr hb, if_neg hnone] at hi
  rw [← hfull]
  rcases List.mem_append.mp hi with hi | hi
  · exact scanReads_lt i hi
  · rcases List.mem_append.mp hi with hi | hi
    · exact victimReads_lt hpos i hi
    · rw [List.mem_singleton.mp hi]
      exact findVictim_lt hpos

end LruSlots

theorem lru_fillsSlots (c : Nat) :
    FillsSlots PoolStep.applyLru PoolStep.indicesLru (fun pool => cells pool.slots pool.count) c
      (LruSlots c) := by
  refine ⟨fun step h => h.step step, fun h => h.nodup, fun h => ?_, fun step h hold => ?_, ?_, ?_⟩
  · rw [length_cells]
    exact h.count_le
  · rw [length_cells]
    exact lru_cached _ step hold
  · intro pool b h hb hroom
    rw [length_cells, ← h.capacity] at hroom
    rw [length_cells]
    refine ⟨lruInsert_cells_room hb hroom (h.capacity ▸ h.cap_lt), ?_⟩
    simp only [PoolStep.indicesLru, findSlot_none.mpr hb, if_pos hroom]
    exact ⟨List.mem_append_right _ List.mem_cons_self, scan_next_le⟩
  · intro pool b h hb hfull
    rw [length_cells] at hfull
    exact lru_full h hb hfull

/-- **When the indices stay inside the arrays.** `buffer_pool_init` and `lru_buffer_pool_init` allocate arrays
    of `u64 (c * 8) / 8` entries. Over a sequence of operations, all indices that the pools use lie in them if
    and only if the capacity is below 2^61, or no more than `c % 2^61` distinct blocks are inserted. -/
theorem slot_indices_iff {c : Nat} (hpos : 1 ≤ c) (hlt : c < 2 ^ 64) (blockSize : Nat)
    (ops : List PoolOp) :
    (∀ malloc pool, bufferPoolInit malloc c blockSize = some pool →
      ((∀ i ∈ fifoIndices pool ops, i < u64 (c * 8) / 8) ↔
        c < 2 ^ 61 ∨ (ops.flatMap PoolOp.inserted).toFinset.card ≤ c % 2 ^ 61)) ∧
    ∀ malloc pool, lruBufferPoolInit malloc c blockSize = some pool →
      ((∀ i ∈ lruIndices pool ops, i < u64 (c * 8) / 8) ↔
        c < 2 ^ 61 ∨ (ops.flatMap PoolOp.inserted).toFinset.card ≤ c % 2 ^ 61) := by
  have hsize : u64 (c * 8) / 8 = c % 2 ^ 61 := by
    unfold u64
    omega
  -- what both halves come down to
  have key : ∀ {σ : Type} {apply : σ → PoolStep → σ} {indices : σ → PoolStep → List Nat}
      {blocks : σ → List Nat} {I : σ → Prop} (_ : FillsSlots apply indices blocks c I) {pool : σ},
      I pool → blocks pool = [] →
      ((∀ i ∈ runIndices apply indices pool (ops.flatMap PoolOp.steps), i < c % 2 ^ 61) ↔
        c < 2 ^ 61 ∨ (ops.flatMap PoolOp.inserted).toFinset.card ≤ c % 2 ^ 61) := by
    intro σ apply indices blocks I h pool hI hempty
    by_cases hsmall : c < 2 ^ 61
    · rw [Nat.mod_eq_of_lt hsmall]
      exact iff_of_true (h.lt_capacity _ hI) (Or.inl hsmall)
    · have hiff := h.lt_iff (m := c % 2 ^ 61) (by omega) (ops.flatMap PoolOp.steps) hI (by simp [hempty])
      rw [hempty, List.nil_append, inserted_eq] at hiff
      rw [hiff]
      exact (or_iff_right hsmall).symm
  rw [hsize]
  constructor
  · intro malloc pool hinit
    obtain ⟨slots, -, rfl⟩ := Option.map_eq_some_iff.mp hinit
    refine key (fifo_fillsSlots c) ⟨⟨hpos, hlt, Nat.zero_le c, hpos, fun _ => rfl, ?_⟩, rfl⟩ rfl
    exact List.nodup_nil
  · intro malloc pool hinit
    unfold lruBufferPoolInit at hinit
    split at hinit
    · obtain rfl := Option.some.inj hinit
      exact key (lru_fillsSlots c) ⟨hpos, hlt, rfl, Nat.zero_le c, List.nodup_nil⟩ rfl
    · cases hinit

/-- A pool of two slots stays inside its array, and so does one whose array has wrapped to a single entry if
    only one block is inserted. -/
theorem slot_indices_iff_two :
    (∃ pool, bufferPoolInit (fun _ => some fun _ => 0) 2 512 = some pool ∧
      ∀ i ∈ fifoIndices pool [.insert 5, .prefetchRange 6 3, .lookup 5], i < u64 (2 * 8) / 8) ∧
    ∃ pool, lruBufferPoolInit (fun _ _ => some fun _ => 0) (2 ^ 61 + 1) 512 = some pool ∧
      u64 ((2 ^ 61 + 1) * 8) / 8 = 1 ∧
      ∀ i ∈ lruIndices pool [.insert 7, .lookup 7], i < u64 ((2 ^ 61 + 1) * 8) / 8 := by
  refine ⟨⟨_, rfl, ?_⟩, _, rfl, by decide, ?_⟩
  · exact ((slot_indices_iff (by decide) (by decide) 512 _).1 (fun _ => some fun _ => 0) _ rfl).mpr
      (Or.inl (by decide))
  · exact ((slot_indices_iff (by decide) (by decide) 512 _).2 (fun _ _ => some fun _ => 0) _ rfl).mpr
      (Or.inr (by decide))

/-- **An index out of the array**: for a capacity of 2^61 the product wraps to 0, `malloc(0)` may return a
    pointer, and the first insertion writes `slots[0]` of an array without entries. -/
theorem slot_index_out_of_bounds :
    ∃ pool, bufferPoolInit (fun n => if n = 0 then some fun _ => 0 else none) (2 ^ 61) 512 = some pool ∧
      u64 (2 ^ 61 * 8) = 0 ∧ 0 ∈ fifoIndices pool [.insert 7] ∧ ¬ 0 < u64 (2 ^ 61 * 8) / 8 :=
  ⟨_, rfl, by decide, by decide, by decide⟩

end Prefetch
end SystemsPlayground
