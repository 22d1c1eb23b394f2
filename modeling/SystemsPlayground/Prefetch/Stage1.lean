import SystemsPlayground.Lib.Checked
import SystemsPlayground.Prefetch.Readahead
import SystemsPlayground.Prefetch.Workload

/-!
# `Prefetch.Stage1` — `prefetch-sim/src/main.c` and its divisions

The Stage 1 simulator checks its arguments, prepares a file, and then repeats: draw the offsets, start with
an empty pool, and run the driver loop over the offsets. Here every integer division and remainder on the way,
in `main` and in the functions it calls, is a checked one: a zero divisor stops the program. Where no divisor
is zero the checked functions are those of the other modules (`checkedInsert_eq`, `checkedGenerateOffsets_eq`,
`checkedAccess_eq`).

What the file functions, `malloc`, `rand` and `pread` return is arbitrary (`World`). `prepare_test_file`
divides nothing, and enters with its outcome only; the timer and the means over the samples are left out.
-/

namespace SystemsPlayground
namespace Prefetch

open Word Shuffle Checked

/-- Why the program stops: a division by zero, or an exit with status 1. -/
inductive Stop where
  | divisionByZero
  | exit
deriving DecidableEq, Repr

/-- `a / b`. -/
def divide (a b : Nat) : Except Stop Nat := if b = 0 then .error .divisionByZero else .ok (a / b)

/-- `a % b`. -/
def remainder (a b : Nat) : Except Stop Nat := if b = 0 then .error .divisionByZero else .ok (a % b)

/-- A check that exits when it fails. -/
def require (condition : Bool) : Except Stop Unit := if condition then .ok () else .error .exit

/-- A call that exits when it fails. -/
def orExit {α : Type} : Option α → Except Stop α
  | some a => .ok a
  | none   => .error .exit

/-! ## The functions that divide -/

/-- `buffer_pool_insert`. -/
def checkedInsert (pool : BufferPool) (blockNum : Nat) : Except Stop BufferPool :=
  match findSlot pool.slots pool.count blockNum with
  | some _ => .ok pool
  | none   =>
    if pool.count < pool.capacity then
      .ok { pool with
        slots := Function.update pool.slots pool.count blockNum
        count := u64 (pool.count + 1) }
    else do
      let evictPos ← remainder (u64 (pool.evictPos + 1)) pool.capacity
      return { pool with
        slots := Function.update pool.slots pool.evictPos blockNum
        evictPos := evictPos }

/-- `buffer_pool_prefetch_range`. -/
def checkedPrefetchRange (pool : BufferPool) (startBlock count : Nat) : Except Stop BufferPool :=
  (List.range count).foldlM (fun p i => checkedInsert p (u64 (startBlock + i))) pool

/-- `partial_shuffle`. -/
def checkedPartialShuffle (rand : Nat → Nat) (array : Nat → Nat) (n k : Nat) : Except Stop (Nat → Nat) :=
  (List.range k).foldlM (fun array i => do
    let r ← remainder (rand i) (n - i)
    let j := i + r
    let tmp := array i
    return Function.update (Function.update array i (array j)) j tmp) array

/-- `generate_offsets`. -/
def checkedGenerateOffsets (malloc : Nat → Option (Nat → Nat)) (rand : Nat → Nat)
    (pattern : AccessPattern) (fileSize blockSize numBlocks : Nat) (outOffsets : Option (Nat → Nat)) :
    Except Stop (WorkloadResult × Option (Nat → Nat)) :=
  match outOffsets with
  | none => .ok (.errInvalidArgs, none)
  | some out =>
    if blockSize = 0 then .ok (.errInvalidArgs, some out)
    else do
      let totalBlocks ← divide fileSize blockSize
      if numBlocks > totalBlocks then .ok (.errNumBlocksTooLarge, some out)
      else
        match malloc (u64 (totalBlocks * 8)) with
        | none => .ok (.errInvalidArgs, some out)
        | some memory => do
            let candidates := fill totalBlocks (fun i => i) memory
            let candidates ← checkedPartialShuffle rand candidates totalBlocks numBlocks
            let candidates := if pattern = .sequential then qsort candidates numBlocks compareSizeT
              else candidates
            return (.ok, some (fill numBlocks (fun i => u64 (candidates i * blockSize)) out))

/-! ## `main` -/

/-- The arguments of `main`, after `strtoull`. -/
structure Args where
  fileSize : Nat
  blockSize : Nat
  patternStr : String
  capacityBlocks : Nat
  window : Nat
  repeats : Nat

/-- What the calls outside the program return. The calls of `malloc` are numbered; those of `rand` and `pread`
    are numbered within each repeat. -/
structure World where
  prepared : Bool
  opened : Bool
  aligned : Bool
  malloc : Nat → Nat → Option (Nat → Nat)
  rand : Nat → Nat → Nat
  pread : Nat → Nat → Bool

/-- The comparisons of `pattern_str`. -/
def parsePattern (patternStr : String) : Option AccessPattern :=
  if patternStr = "sequential" then some .sequential
  else if patternStr = "random" then some .random
  else none

/-- The body of the driver loop at index `i`. -/
def checkedAccess (pread : Nat → Bool) (blockSize : Nat) (offsets : Nat → Nat)
    (st : Readahead × BufferPool) (i : Nat) : Except Stop (Readahead × BufferPool) := do
  let blockNum ← divide (offsets i) blockSize
  let (hit, pool) := bufferPoolLookup st.2 blockNum
  let pool ←
    if hit then .ok pool
    else do
      require (pread i)
      checkedInsert pool blockNum
  let (ra, pool) := readaheadOnAccess (fun pool start count => do checkedPrefetchRange (← pool) start count)
    st.1 (Except.ok pool) blockNum
  return (ra, ← pool)

/-- One repeat: the offsets, and the hits and misses of the repeats so far. -/
def checkedRepeat (w : World) (args : Args) (pattern : AccessPattern) (numBlocks : Nat)
    (st : (Nat → Nat) × List (Nat × Nat)) (r : Nat) : Except Stop ((Nat → Nat) × List (Nat × Nat)) := do
  let (result, out) ← checkedGenerateOffsets (w.malloc (3 + 2 * r)) (w.rand r) pattern args.fileSize
    args.blockSize numBlocks (some st.1)
  require (decide (result = .ok))
  let offsets := out.getD st.1
  let pool ← orExit (bufferPoolInit (w.malloc (4 + 2 * r)) args.capacityBlocks args.blockSize)
  let (_, pool) ← (List.range numBlocks).foldlM (checkedAccess (w.pread r) args.blockSize offsets)
    (readaheadInit args.window, pool)
  return (offsets, st.2 ++ [(pool.hits, pool.misses)])

/-- `main`, up to the statistics: the hits and misses of the repeats. -/
def stage1Main (w : World) (args : Args) : Except Stop (List (Nat × Nat)) := do
  require (decide (args.repeats ≠ 0))
  require (decide (¬ (args.capacityBlocks = 0 ∨ args.capacityBlocks < args.window)))
  let pattern ← orExit (parsePattern args.patternStr)
  require w.prepared
  let numBlocks ← divide args.fileSize args.blockSize
  let offsets ← orExit (w.malloc 0 (u64 (numBlocks * 8)))
  require w.opened
  require w.aligned
  let _ ← orExit (w.malloc 1 (u64 (args.repeats * 8)))
  let _ ← orExit (w.malloc 2 (u64 (args.repeats * 8)))
  let (_, samples) ← (List.range args.repeats).foldlM (checkedRepeat w args pattern numBlocks) (offsets, [])
  return samples

/-! ## The checked functions where no divisor is zero -/

section Checked

variable {pool : BufferPool} {blockSize : Nat}

theorem divide_of_ne {a b : Nat} (hb : b ≠ 0) : divide a b = .ok (a / b) := if_neg hb

theorem remainder_of_ne {a b : Nat} (hb : b ≠ 0) : remainder a b = .ok (a % b) := if_neg hb

theorem checkedInsert_eq (hcap : pool.capacity ≠ 0) (b : Nat) :
    checkedInsert pool b = .ok (bufferPoolInsert pool b) := by
  unfold checkedInsert bufferPoolInsert
  cases findSlot pool.slots pool.count b with
  | some i => rfl
  | none =>
      by_cases hroom : pool.count < pool.capacity
      · simp only [if_pos hroom]
      · simp only [if_neg hroom, remainder_of_ne hcap]
        rfl

theorem checkedPrefetchRange_eq (hcap : pool.capacity ≠ 0) (startBlock count : Nat) :
    checkedPrefetchRange pool startBlock count = .ok (bufferPoolPrefetchRange pool startBlock count) := by
  refine foldlM_eq_ok (P := fun pool => pool.capacity ≠ 0) hcap fun i _ p hp => ?_
  exact ⟨checkedInsert_eq hp _, by rwa [insert_capacity]⟩

/-- Inside the loop `i < k <= n`, so `n - i` is not 0. -/
theorem checkedPartialShuffle_eq (rand array : Nat → Nat) {n k : Nat} (hk : k ≤ n) :
    checkedPartialShuffle rand array n k = .ok (partialShuffle rand array n k) := by
  refine foldlM_eq_ok (P := fun _ => True) trivial fun i hi a _ => ⟨?_, trivial⟩
  have hi' := List.mem_range.mp hi
  rw [remainder_of_ne (show n - i ≠ 0 by omega)]
  rfl

/-- `generate_offsets` has its own guard and divides by zero on no input. -/
theorem checkedGenerateOffsets_eq (malloc : Nat → Option (Nat → Nat)) (rand : Nat → Nat)
    (pattern : AccessPattern) (fileSize blockSize numBlocks : Nat) (out : Option (Nat → Nat)) :
    checkedGenerateOffsets malloc rand pattern fileSize blockSize numBlocks out =
      .ok (generateOffsets malloc rand pattern fileSize blockSize numBlocks out) := by
  unfold checkedGenerateOffsets generateOffsets
  cases out with
  | none => rfl
  | some out =>
      by_cases hblock : blockSize = 0
      · simp only [if_pos hblock]
      · simp only [if_neg hblock, divide_of_ne hblock, ok_bind]
        by_cases hnum : numBlocks > fileSize / blockSize
        · simp only [if_pos hnum]
        · cases hmalloc : malloc (u64 (fileSize / blockSize * 8)) with
          | none => simp only [if_neg hnum]
          | some memory =>
              simp only [if_neg hnum, checkedPartialShuffle_eq rand _ (Nat.not_lt.mp hnum), ok_bind]
              rfl

/-- The hook over checked insertions is the hook. -/
theorem checkedOnAccess_eq (hcap : pool.capacity ≠ 0) (ra : Readahead) (b : Nat) :
    readaheadOnAccess (fun pool start count => do checkedPrefetchRange (← pool) start count) ra
        (Except.ok pool) b =
      ((readaheadOnAccess bufferPoolPrefetchRange ra pool b).1,
        Except.ok (readaheadOnAccess bufferPoolPrefetchRange ra pool b).2) := by
  have hrange : ∀ start count, (do checkedPrefetchRange (← Except.ok pool) start count) =
      Except.ok (bufferPoolPrefetchRange pool start count) := fun start count =>
    checkedPrefetchRange_eq hcap start count
  obtain ⟨ra', hquiet | ⟨start, count, hcall⟩⟩ := readahead_call ra b
  · rw [hquiet, hquiet]
  · rw [hcall, hcall, hrange]

theorem onAccess_capacity (ra : Readahead) (pool : BufferPool) (b : Nat) :
    (readaheadOnAccess bufferPoolPrefetchRange ra pool b).2.capacity = pool.capacity := by
  obtain ⟨ra', hquiet | ⟨start, count, hcall⟩⟩ := readahead_call ra b
  · rw [hquiet]
  · rw [hcall, prefetchRange_capacity]

/-- **The body of the loop is the driver loop's**, on the block of the offset. -/
theorem checkedAccess_eq (pread : Nat → Bool) (offsets : Nat → Nat) {st : Readahead × BufferPool}
    (hblock : blockSize ≠ 0) (hcap : st.2.capacity ≠ 0) (i : Nat) :
    checkedAccess pread blockSize offsets st i =
      orExit ((fixedSimulator.access (fun _ => pread i) st (offsets i / blockSize)).map Prod.snd) := by
  unfold checkedAccess
  rw [divide_of_ne hblock, ok_bind]
  rcases hfound : bufferPoolLookup st.2 (offsets i / blockSize) with ⟨hit, pool⟩
  have hcap₁ : pool.capacity ≠ 0 := by
    have hpool : pool = (bufferPoolLookup st.2 (offsets i / blockSize)).2 := by rw [hfound]
    rwa [hpool, lookup_capacity]
  cases hit with
  | true =>
      have haccess : fixedSimulator.access (fun _ => pread i) st (offsets i / blockSize) = some _ :=
        Simulator.access_of_hit hfound
      rw [haccess]
      simp only [if_true, ok_bind, checkedOnAccess_eq hcap₁]
      rfl
  | false =>
      by_cases hread : pread i = true
      · have hcap₂ : (bufferPoolInsert pool (offsets i / blockSize)).capacity ≠ 0 := by
          rwa [insert_capacity]
        have haccess : fixedSimulator.access (fun _ => pread i) st (offsets i / blockSize) = some _ :=
          Simulator.access_of_miss hfound hread
        rw [haccess]
        simp only [require, hread, if_true, checkedInsert_eq hcap₁, ok_bind, checkedOnAccess_eq hcap₂]
        rfl
      · have hnone : fixedSimulator.access (fun _ => pread i) st (offsets i / blockSize) = none := by
          simp only [Simulator.access, fixedSimulator, hfound, hread]
          rfl
        rw [hnone]
        simp [require, hread, orExit]

theorem access_capacity {pread : Nat → Bool} {st st' : Readahead × BufferPool} {b : Nat} {hit : Bool}
    (h : fixedSimulator.access pread st b = some (hit, st')) : st'.2.capacity = st.2.capacity := by
  rcases Simulator.access_cases h with ⟨pool, -, hfound, rfl⟩ | ⟨pool, -, hfound, -, rfl⟩
  · have hpool : pool = (bufferPoolLookup st.2 b).2 := congrArg Prod.snd hfound.symm
    show (readaheadOnAccess bufferPoolPrefetchRange st.1 pool b).2.capacity = _
    rw [onAccess_capacity, hpool, lookup_capacity]
  · have hpool : pool = (bufferPoolLookup st.2 b).2 := congrArg Prod.snd hfound.symm
    show (readaheadOnAccess bufferPoolPrefetchRange st.1 (bufferPoolInsert pool b) b).2.capacity = _
    rw [onAccess_capacity, insert_capacity, hpool, lookup_capacity]

end Checked

/-! ## No division by zero -/

section Safe

variable {w : World} {args : Args}

/-- The checks of the arguments that `main` makes. -/
def Args.Checked (args : Args) : Prop :=
  args.repeats ≠ 0 ∧ args.capacityBlocks ≠ 0 ∧ args.window ≤ args.capacityBlocks ∧
    (parsePattern args.patternStr).isSome = true

/-- The program does not stop on a division. -/
def NotDivision (e : Stop) : Prop := e ≠ .divisionByZero

theorem require_ends (condition : Bool) : Ends NotDivision (require condition) fun _ => True := by
  cases condition with
  | false => exact Stop.noConfusion
  | true => exact trivial

theorem orExit_ends {α : Type} (o : Option α) : Ends NotDivision (orExit o) fun a => o = some a := by
  cases o with
  | none => exact Stop.noConfusion
  | some a => exact rfl

theorem divide_ends {a b : Nat} (hb : b ≠ 0) : Ends NotDivision (divide a b) fun _ => True := by
  rw [divide_of_ne hb]
  exact trivial

/-- The driver loop keeps the capacity and divides by the block size and the capacity only. -/
theorem checkedAccess_ends {c blockSize : Nat} (pread : Nat → Bool) (offsets : Nat → Nat)
    {st : Readahead × BufferPool} (hblock : blockSize ≠ 0) (hc : c ≠ 0) (hcap : st.2.capacity = c) (i : Nat) :
    Ends NotDivision (checkedAccess pread blockSize offsets st i) fun st' => st'.2.capacity = c := by
  rw [checkedAccess_eq pread offsets hblock (hcap ▸ hc)]
  cases haccess : fixedSimulator.access (fun _ => pread i) st (offsets i / blockSize) with
  | none => exact Stop.noConfusion
  | some r => exact (access_capacity haccess).trans hcap

theorem checkedRepeat_ends (hblock : args.blockSize ≠ 0) (hcap : args.capacityBlocks ≠ 0)
    (pattern : AccessPattern) (numBlocks : Nat) (st : (Nat → Nat) × List (Nat × Nat)) (r : Nat) :
    Ends NotDivision (checkedRepeat w args pattern numBlocks st r) fun _ => True := by
  unfold checkedRepeat
  rw [checkedGenerateOffsets_eq]
  refine (require_ends _).bind fun _ _ => (orExit_ends _).bind fun pool hpool => ?_
  have hcapacity : pool.capacity = args.capacityBlocks := by
    obtain ⟨slots, -, rfl⟩ := Option.map_eq_some_iff.mp hpool
    rfl
  refine Ends.bind (P := fun st => st.2.capacity = args.capacityBlocks)
    (Ends.foldlM hcapacity fun i _ st hst => checkedAccess_ends _ _ hblock hcap hst i) fun _ _ => trivial

/-- With a block size, `main` ends or exits. -/
theorem stage1_ends (w : World) (hblock : args.blockSize ≠ 0) (hcap : args.capacityBlocks ≠ 0) :
    Ends NotDivision (stage1Main w args) fun _ => True := by
  unfold stage1Main
  refine (require_ends _).bind fun _ _ => (require_ends _).bind fun _ _ => ?_
  refine (orExit_ends _).bind fun pattern _ => (require_ends _).bind fun _ _ => ?_
  refine (divide_ends hblock).bind fun numBlocks _ => (orExit_ends _).bind fun offsets _ => ?_
  refine (require_ends _).bind fun _ _ => (require_ends _).bind fun _ _ => ?_
  refine (orExit_ends _).bind fun _ _ => (orExit_ends _).bind fun _ _ => ?_
  have hloop : Ends NotDivision ((List.range args.repeats).foldlM
      (checkedRepeat w args pattern numBlocks) (offsets, [])) fun _ => True :=
    Ends.foldlM trivial fun r _ st _ => checkedRepeat_ends hblock hcap pattern numBlocks st r
  exact hloop.bind fun _ _ => trivial

/-- **When the Stage 1 simulator does not divide by zero.** For arguments that pass the checks of `main`, and
    whatever the calls outside return: exactly when the block size is not 0, or the file cannot be
    prepared (and the program exits before its first division). -/
theorem stage1_divisions_iff (w : World) (hargs : args.Checked) :
    stage1Main w args ≠ .error .divisionByZero ↔ args.blockSize ≠ 0 ∨ w.prepared = false := by
  obtain ⟨hrepeats, hcap, hwindow, hpattern⟩ := hargs
  by_cases hblock : args.blockSize = 0
  · -- the first division of `main` comes right after the file is prepared
    obtain ⟨pattern, hparse⟩ := Option.isSome_iff_exists.mp hpattern
    have hcapacity : ¬ (args.capacityBlocks = 0 ∨ args.capacityBlocks < args.window) := by omega
    unfold stage1Main
    rw [hparse, divide, if_pos hblock]
    cases hprepared : w.prepared with
    | false => simp [require, orExit, hrepeats, hcapacity]
    | true => simp [require, orExit, hrepeats, hcapacity, hblock]
  · refine iff_of_true (fun hdivision => ?_) (Or.inl hblock)
    have hends := stage1_ends w hblock hcap
    rw [hdivision] at hends
    exact hends rfl

/-- All calls succeed. -/
def willingWorld : World :=
  { prepared := true, opened := true, aligned := true, malloc := fun _ _ => some fun _ => 0,
    rand := fun _ _ => 0, pread := fun _ _ => true }

/-- A file of 35 bytes in blocks of 8. -/
theorem stage1_divisions_iff_eight :
    Args.Checked ⟨35, 8, "sequential", 2, 1, 3⟩ ∧
    stage1Main willingWorld ⟨35, 8, "sequential", 2, 1, 3⟩ ≠ .error .divisionByZero := by
  have hargs : Args.Checked ⟨35, 8, "sequential", 2, 1, 3⟩ :=
    ⟨by decide, by decide, by decide, by decide⟩
  exact ⟨hargs, (stage1_divisions_iff willingWorld hargs).mpr (Or.inl (by decide))⟩

/-- **A block size of 0** passes the checks, and `main` divides the file size by it. -/
theorem stage1_divides_by_zero :
    Args.Checked ⟨4096, 0, "sequential", 1, 0, 1⟩ ∧
    stage1Main willingWorld ⟨4096, 0, "sequential", 1, 0, 1⟩ = .error .divisionByZero :=
  ⟨⟨by decide, by decide, by decide, by decide⟩, rfl⟩

end Safe

end Prefetch
end SystemsPlayground
