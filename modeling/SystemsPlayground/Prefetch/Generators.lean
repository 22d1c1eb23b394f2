import Mathlib.Data.List.Range
import Mathlib.Logic.Function.Basic
import SystemsPlayground.Lib.Word

/-!
# `Prefetch.Generators` — the synthetic traces of the benchmarks

`generate_locality_walk` (`read_around_bench.c`) walks at random inside a region of the file;
`generate_interrupted_sequence` (`interrupted_bench.c`, `adaptive_bench.c`) and `generate_mixed_sequence`
(`mixed_bench.c`) string sequential runs together. The results of `rand` are an arbitrary stream, indexed by
the calls.

Arithmetic on `size_t` is reduced, arithmetic on `long` and remainders are partial, so that a generator
returns a value only if it met no undefined operation.
-/

namespace SystemsPlayground
namespace Prefetch

open Word

/-! ## The locality walk -/

/-- `step` of `generate_locality_walk`; no number is drawn when `jitter` is 0. -/
def walkStep (jitter rand : Nat) : Option Int :=
  if jitter = 0 then some 0
  else do
    let r ← rem64 rand (u64 (2 * jitter + 1))
    i64 (toInt64 r - toInt64 jitter)

/-- The next position, clamped to the region. -/
def walkNext (regionStart regionEnd pos : Nat) (step : Int) : Option Nat := do
  let next ← i64 (toInt64 pos + step)
  let next := if next < toInt64 regionStart then toInt64 regionStart
    else if next > toInt64 regionEnd then toInt64 regionEnd else next
  return ofInt64 next

/-- The loop of `generate_locality_walk`, with `n` accesses left from index `i` on. Two numbers were drawn
    before it. -/
def walkLoop (rand : Nat → Nat) (regionStart regionEnd jitter : Nat) :
    Nat → Nat → Nat → (Nat → Nat) → Option (Nat → Nat)
  | 0, _, _, out => some out
  | n + 1, i, pos, out => do
      let out := Function.update out i pos
      let step ← walkStep jitter (rand (2 + i))
      let pos ← walkNext regionStart regionEnd pos step
      walkLoop rand regionStart regionEnd jitter n (i + 1) pos out

/-- `generate_locality_walk`. -/
def generateLocalityWalk (rand : Nat → Nat) (outBlocks : Nat → Nat)
    (numAccesses totalBlocks regionWidth jitter : Nat) : Option (Nat → Nat) := do
  let regionStart ← rem64 (rand 0) (u64 (totalBlocks + 2 ^ 64 - regionWidth + 1))
  let regionEnd := u64 (regionStart + regionWidth + 2 ^ 64 - 1)
  let r ← rem64 (rand 1) regionWidth
  let pos := u64 (regionStart + r)
  walkLoop rand regionStart regionEnd jitter numAccesses 0 pos outBlocks

/-- The step as an integer. -/
def jitterStep (jitter rand : Nat) : Int := (rand % (2 * jitter + 1) : Nat) - jitter

/-- A position brought back into the region `[lo, lo + width)`. -/
def clampTo (lo width : Nat) (x : Int) : Int := max lo (min (lo + width - 1) x)

section Walk

variable {lo width jitter pos : Nat}

theorem jitterStep_bounds (jitter r : Nat) :
    -(jitter : Int) ≤ jitterStep jitter r ∧ jitterStep jitter r ≤ jitter := by
  have hmod : r % (2 * jitter + 1) < 2 * jitter + 1 := Nat.mod_lt _ (by omega)
  unfold jitterStep
  omega

theorem walkStep_eq (hjitter : jitter < 2 ^ 62) (r : Nat) :
    walkStep jitter r = some (jitterStep jitter r) := by
  have hmod : r % (2 * jitter + 1) < 2 * jitter + 1 := Nat.mod_lt _ (by omega)
  unfold walkStep
  by_cases hzero : jitter = 0
  · subst hzero
    rw [if_pos rfl, jitterStep]
    simp [Nat.mod_one]
  · rw [if_neg hzero, u64_of_lt (by omega), rem64_of_pos (by omega)]
    show i64 (toInt64 (r % (2 * jitter + 1)) - toInt64 jitter) = _
    rw [toInt64_of_lt (by omega), toInt64_of_lt (by omega), i64_of_mem (by omega)]
    rfl

/-- The clamp keeps the position in the region, and does not lengthen a step that starts in it. -/
theorem clampTo_bounds {x : Int} (hwidth : 1 ≤ width) (hpos : lo ≤ pos ∧ pos < lo + width)
    (hx : -(jitter : Int) ≤ x ∧ x ≤ jitter) :
    (lo : Int) ≤ clampTo lo width (pos + x) ∧ clampTo lo width (pos + x) < lo + width ∧
    -(jitter : Int) ≤ clampTo lo width (pos + x) - pos ∧ clampTo lo width (pos + x) - pos ≤ jitter := by
  unfold clampTo
  omega

theorem walkNext_eq {x : Int} (hwidth : 1 ≤ width) (hlo : lo + width < 2 ^ 62)
    (hpos : lo ≤ pos ∧ pos < lo + width) (hjitter : jitter < 2 ^ 62)
    (hx : -(jitter : Int) ≤ x ∧ x ≤ jitter) :
    ∃ pos' : Nat, walkNext lo (lo + width - 1) pos x = some pos' ∧
      (pos' : Int) = clampTo lo width (pos + x) := by
  have hbounds := clampTo_bounds hwidth hpos hx
  have hclamp : (if (pos : Int) + x < lo then (lo : Int)
      else if (pos : Int) + x > (lo + width - 1 : Nat) then ((lo + width - 1 : Nat) : Int)
      else pos + x) = clampTo lo width (pos + x) := by
    unfold clampTo
    split_ifs <;> omega
  refine ⟨(clampTo lo width (pos + x)).toNat, ?_, by omega⟩
  unfold walkNext
  rw [toInt64_of_lt (by omega), toInt64_of_lt (by omega), toInt64_of_lt (by omega), i64_of_mem (by omega)]
  show some (ofInt64 _) = some _
  rw [hclamp]
  congr 1
  unfold ofInt64
  omega

/-- The loop writes the positions of the walk from index `i` on, and nothing else. -/
theorem walkLoop_spec (rand : Nat → Nat) (hwidth : 1 ≤ width) (hlo : lo + width < 2 ^ 62)
    (hjitter : jitter < 2 ^ 62) (n i : Nat) (hpos : lo ≤ pos ∧ pos < lo + width) (out : Nat → Nat) :
    ∃ out', walkLoop rand lo (lo + width - 1) jitter n i pos out = some out' ∧
      (∀ j, j < i ∨ i + n ≤ j → out' j = out j) ∧ (0 < n → out' i = pos) ∧
      (∀ j, i ≤ j → j < i + n → lo ≤ out' j ∧ out' j < lo + width) ∧
      ∀ j, i ≤ j → j + 1 < i + n →
        (out' (j + 1) : Int) = clampTo lo width (out' j + jitterStep jitter (rand (2 + j))) := by
  induction n generalizing i pos out with
  | zero => exact ⟨out, rfl, fun _ _ => rfl, by omega, by omega, by omega⟩
  | succ n ih =>
      have hstep := jitterStep_bounds jitter (rand (2 + i))
      obtain ⟨pos', hnext, hpos'⟩ := walkNext_eq hwidth hlo hpos hjitter hstep
      have hbounds := clampTo_bounds hwidth hpos hstep
      obtain ⟨out', hloop, hframe, hfirst, hregion, hwalk⟩ :=
        ih (i + 1) (show lo ≤ pos' ∧ pos' < lo + width by omega) (Function.update out i pos)
      have hi : out' i = pos := by rw [hframe i (Or.inl (by omega)), Function.update_self]
      refine ⟨out', ?_, ?_, fun _ => hi, ?_, ?_⟩
      · simp only [walkLoop, walkStep_eq hjitter, Option.bind_eq_bind, Option.bind_some, hnext]
        exact hloop
      · intro j hj
        rw [hframe j (by omega), Function.update_of_ne (by omega)]
      · intro j hij hj
        by_cases he : j = i
        · rw [he, hi]
          exact hpos
        · exact hregion j (by omega) (by omega)
      · intro j hij hj
        by_cases he : j = i
        · rw [he, hfirst (by omega), hpos', hi]
        · exact hwalk j (by omega) (by omega)

/-- **The locality walk stays local and in range.** The walk meets no undefined operation and fills the
    buffer with blocks of one region inside the file; each position is the one before it, moved by at most
    `jitter` and brought back into the region, computed exactly. -/
theorem locality_walk_local {totalBlocks : Nat} (rand outBlocks : Nat → Nat) (numAccesses : Nat)
    (hwidth : 1 ≤ width) (hle : width ≤ totalBlocks) (htotal : totalBlocks < 2 ^ 62)
    (hjitter : jitter < 2 ^ 62) :
    ∃ regionStart blocks,
      generateLocalityWalk rand outBlocks numAccesses totalBlocks width jitter = some blocks ∧
      regionStart + width ≤ totalBlocks ∧
      (∀ i < numAccesses, regionStart ≤ blocks i ∧ blocks i < regionStart + width) ∧
      (∀ i, i + 1 < numAccesses → ((blocks (i + 1) : Int) - blocks i).natAbs ≤ jitter) ∧
      (∀ i, numAccesses ≤ i → blocks i = outBlocks i) ∧
      u64 (2 * jitter + 1) = 2 * jitter + 1 ∧
      ∀ i, i + 1 < numAccesses → (blocks (i + 1) : Int) =
        clampTo regionStart width (blocks i + jitterStep jitter (rand (2 + i))) := by
  let lo := rand 0 % (totalBlocks - width + 1)
  have hlo : lo < totalBlocks - width + 1 := Nat.mod_lt _ (by omega)
  have hr : rand 1 % width < width := Nat.mod_lt _ (by omega)
  obtain ⟨blocks, hloop, hframe, -, hregion, hwalk⟩ := walkLoop_spec rand hwidth
    (show lo + width < 2 ^ 62 by omega) hjitter numAccesses 0
    (show lo ≤ lo + rand 1 % width ∧ lo + rand 1 % width < lo + width by omega) outBlocks
  have hregion' : ∀ i < numAccesses, lo ≤ blocks i ∧ blocks i < lo + width := fun i hi =>
    hregion i (Nat.zero_le i) (by omega)
  have hwalk' : ∀ i, i + 1 < numAccesses →
      (blocks (i + 1) : Int) = clampTo lo width (blocks i + jitterStep jitter (rand (2 + i))) :=
    fun i hi => hwalk i (Nat.zero_le i) (by omega)
  refine ⟨lo, blocks, ?_, by omega, hregion', ?_, fun i hi => hframe i (Or.inr (by omega)),
    u64_of_lt (by omega), hwalk'⟩
  · have hdivisor : u64 (totalBlocks + 2 ^ 64 - width + 1) = totalBlocks - width + 1 := by
      unfold u64
      omega
    have hend : u64 (lo + width + 2 ^ 64 - 1) = lo + width - 1 := by
      unfold u64
      omega
    unfold generateLocalityWalk
    rw [hdivisor, rem64_of_pos (by omega), rem64_of_pos (by omega)]
    show walkLoop rand lo (u64 (lo + width + 2 ^ 64 - 1)) jitter numAccesses 0
      (u64 (lo + rand 1 % width)) outBlocks = some blocks
    rw [hend, u64_of_lt (by omega)]
    exact hloop
  · intro i hi
    have hbounds := clampTo_bounds hwidth (hregion' i (by omega))
      (jitterStep_bounds jitter (rand (2 + i)))
    rw [hwalk' i hi]
    omega

/-- A jitter far beyond the width of the region. -/
theorem locality_walk_local_wide :
    ∃ regionStart blocks,
      generateLocalityWalk (fun i => 7 * i + 5) (fun _ => 0) 4 10 3 100 = some blocks ∧
      regionStart + 3 ≤ 10 ∧ ∀ i < 4, regionStart ≤ blocks i ∧ blocks i < regionStart + 3 := by
  obtain ⟨regionStart, blocks, hwalk, hregion, hblocks, -⟩ :=
    locality_walk_local (fun i => 7 * i + 5) (fun _ => 0) 4 (show 1 ≤ 3 by decide)
      (show 3 ≤ 10 by decide) (by decide) (show 100 < 2 ^ 62 by decide)
  exact ⟨regionStart, blocks, hwalk, hregion, hblocks⟩

end Walk

/-! ## Runs of blocks -/

/-- The inner loop, `for (j = 0; j < run; j++) out_blocks[i++] = start + j;`: the writes (index and value) in
    order, and the index after them. -/
def burstWrites (i start run : Nat) : List (Nat × Nat) × Nat :=
  (List.range run).foldl (fun (writes, i) j => (writes ++ [(i, u64 (start + j))], u64 (i + 1))) ([], i)

/-- The outer loop of the two generators: the writes from index `i` on. `draw` gives the burst length and the
    start of each round. -/
def burstLoop (draw : Nat → Option (Nat × Nat)) (numAccesses : Nat) :
    Nat → Nat → Nat → Option (List (Nat × Nat))
  | 0, _, _ => none
  | fuel + 1, round, i =>
      if i < numAccesses then do
        let (burstLen, start) ← draw round
        let run := if u64 (i + burstLen) > numAccesses then numAccesses - i else burstLen
        let (writes, i) := burstWrites i start run
        let rest ← burstLoop draw numAccesses fuel (round + 1) i
        return writes ++ rest
      else some []

/-- `generate_interrupted_sequence`. -/
def generateInterruptedSequence (rand : Nat → Nat) (numAccesses totalBlocks burstLen fuel : Nat) :
    Option (List (Nat × Nat)) :=
  let draw := fun round => do
    let start ← rem64 (rand round) (u64 (totalBlocks + 2 ^ 64 - burstLen))
    return (burstLen, start)
  burstLoop draw numAccesses fuel 0 0

/-- `kBurstLens`. -/
def kBurstLens : List Nat := [4, 16, 64, 256]

/-- `generate_mixed_sequence`; a round draws its burst length and then its start. -/
def generateMixedSequence (rand : Nat → Nat) (numAccesses totalBlocks fuel : Nat) :
    Option (List (Nat × Nat)) := do
  let maxBurst ← kBurstLens[kBurstLens.length - 1]?
  let draw := fun round => do
    let burstLen ← kBurstLens[rand (2 * round) % kBurstLens.length]?
    let start ← rem64 (rand (2 * round + 1)) (u64 (totalBlocks + 2 ^ 64 - maxBurst))
    return (burstLen, start)
  burstLoop draw numAccesses fuel 0 0

/-- `values` is a concatenation of runs that ascend by one, cut off at `n`: run number `k` begins at
    `start k` and has length `len k`. Each run begins before `n`, so only the last one is cut. -/
def Bursts (start len : Nat → Nat) (n : Nat) (values : List Nat) : Prop :=
  ∃ rounds, values = ((List.range rounds).flatMap fun k => List.range' (start k) (len k)).take n ∧
    n ≤ ((List.range rounds).map len).sum ∧ ∀ k < rounds, ((List.range k).map len).sum < n

section Bursts

variable {draw : Nat → Option (Nat × Nat)} {start len : Nat → Nat} {totalBlocks numAccesses : Nat}

theorem burstWrites_eq {i start run : Nat} (hi : i + run < 2 ^ 64) (hstart : start + run ≤ 2 ^ 64) :
    burstWrites i start run = ((List.range run).map fun j => (i + j, start + j), i + run) := by
  unfold burstWrites
  induction run with
  | zero => rfl
  | succ run ih =>
      rw [List.range_succ, List.foldl_append, ih (by omega) (by omega), List.map_append]
      simp only [List.foldl_cons, List.foldl_nil, List.map_cons, List.map_nil]
      rw [u64_of_lt (show start + run < 2 ^ 64 by omega), u64_of_lt (by omega), Nat.add_assoc]

/-- What `burstLoop` writes when it starts at index `i` with round `round`. -/
structure BurstRun (start len : Nat → Nat) (totalBlocks numAccesses round i : Nat)
    (writes : List (Nat × Nat)) (rounds : Nat) : Prop where
  indices : writes.map Prod.fst = List.range' i (numAccesses - i)
  inRange : ∀ w ∈ writes, w.2 < totalBlocks
  values : writes.map Prod.snd =
    ((List.range' round rounds).flatMap fun k => List.range' (start k) (len k)).take (numAccesses - i)
  covers : numAccesses - i ≤ ((List.range' round rounds).map len).sum
  begins : ∀ k < rounds, ((List.range' round k).map len).sum < numAccesses - i

/-- One round: `run` writes, from the index `i` on and from the block `start round` on. -/
theorem BurstRun.cons {round i run rounds : Nat} {rest : List (Nat × Nat)}
    (hblock : start round + len round ≤ totalBlocks) (hlt : i < numAccesses)
    (hrun : run = min (len round) (numAccesses - i))
    (hrest : BurstRun start len totalBlocks numAccesses (round + 1) (i + run) rest rounds) :
    BurstRun start len totalBlocks numAccesses round i
      (((List.range run).map fun j => (i + j, start round + j)) ++ rest) (rounds + 1) := by
  have hleft : numAccesses - i = run + (numAccesses - (i + run)) := by omega
  -- a run that is cut leaves nothing
  have hcut : numAccesses - (i + run) = numAccesses - i - len round := by omega
  refine ⟨?_, ?_, ?_, ?_, ?_⟩
  · rw [List.map_append, List.map_map, hrest.indices, hleft, ← List.range'_append_1,
      List.range'_eq_map_range (s := i)]
    rfl
  · intro w hw
    rcases List.mem_append.mp hw with hw | hw
    · obtain ⟨j, hj, rfl⟩ := List.mem_map.mp hw
      have := List.mem_range.mp hj
      show start round + j < totalBlocks
      omega
    · exact hrest.inRange w hw
  · have hfirst : (List.range' (start round) (len round)).take (numAccesses - i) =
        List.range' (start round) run := by
      rcases Nat.le_total (len round) (numAccesses - i) with hle | hge
      · rw [List.take_range'_of_length_le hle, hrun, Nat.min_eq_left hle]
      · rw [List.take_range'_of_length_ge hge, hrun, Nat.min_eq_right hge]
    rw [List.map_append, List.map_map, hrest.values, List.range'_succ, List.flatMap_cons, List.take_append,
      hfirst, List.length_range', hcut, List.range'_eq_map_range (s := start round) (n := run)]
    rfl
  · have := hrest.covers
    rw [List.range'_succ, List.map_cons, List.sum_cons]
    omega
  · intro k hk
    cases k with
    | zero =>
        show 0 < numAccesses - i
        omega
    | succ k =>
        have := hrest.begins k (by omega)
        rw [List.range'_succ, List.map_cons, List.sum_cons]
        omega

/-- **The loop returns**, and what it returns does not depend on the fuel. -/
theorem burstLoop_spec (hdraw : ∀ k, draw k = some (len k, start k)) (hlen : ∀ k, 1 ≤ len k)
    (hblock : ∀ k, start k + len k ≤ totalBlocks) (htotal : totalBlocks < 2 ^ 62)
    (hnum : numAccesses < 2 ^ 62) (round i : Nat) (hi : i ≤ numAccesses) :
    ∃ writes rounds, BurstRun start len totalBlocks numAccesses round i writes rounds ∧
      ∀ fuel > numAccesses - i, burstLoop draw numAccesses fuel round i = some writes := by
  induction hd : numAccesses - i using Nat.strong_induction_on generalizing round i with
  | _ d ih =>
      by_cases hlt : i < numAccesses
      · let run := min (len round) (numAccesses - i)
        have hrun : 1 ≤ run ∧ run ≤ len round ∧ i + run ≤ numAccesses := by
          have := hlen round
          omega
        obtain ⟨rest, rounds, hrest, hloop⟩ :=
          ih (numAccesses - (i + run)) (by omega) (round + 1) (i + run) hrun.2.2 rfl
        refine ⟨_, rounds + 1, hrest.cons (hblock round) hlt rfl, fun fuel hfuel => ?_⟩
        obtain ⟨fuel, rfl⟩ : ∃ f, fuel = f + 1 := ⟨fuel - 1, by omega⟩
        have hb := hblock round
        have hcut : (if u64 (i + len round) > numAccesses then numAccesses - i else len round) = run := by
          rw [u64_of_lt (by omega)]
          split_ifs <;> omega
        have hinner : burstWrites i (start round) run =
            ((List.range run).map fun j => (i + j, start round + j), i + run) :=
          burstWrites_eq (by omega) (by omega)
        simp only [burstLoop, if_pos hlt, hdraw, Option.bind_eq_bind, Option.bind_some, hcut, hinner,
          hloop fuel (by omega)]
        rfl
      · refine ⟨[], 0, ⟨?_, by simp, ?_, by simp; omega, by simp⟩, fun fuel hfuel => ?_⟩
        · simp [hd, show d = 0 by omega]
        · simp
        · obtain ⟨fuel, rfl⟩ : ∃ f, fuel = f + 1 := ⟨fuel - 1, by omega⟩
          simp only [burstLoop, if_neg hlt]

/-- What a generator has to write: every index once and in order, blocks of the file only, and runs. -/
structure Fills (start len : Nat → Nat) (totalBlocks numAccesses : Nat) (writes : List (Nat × Nat)) :
    Prop where
  indices : writes.map Prod.fst = List.range numAccesses
  inRange : ∀ w ∈ writes, w.2 < totalBlocks
  bursts : Bursts start len numAccesses (writes.map Prod.snd)

theorem burstLoop_fills (hdraw : ∀ k, draw k = some (len k, start k)) (hlen : ∀ k, 1 ≤ len k)
    (hblock : ∀ k, start k + len k ≤ totalBlocks) (htotal : totalBlocks < 2 ^ 62)
    (hnum : numAccesses < 2 ^ 62) :
    ∃ writes, Fills start len totalBlocks numAccesses writes ∧
      ∀ fuel > numAccesses, burstLoop draw numAccesses fuel 0 0 = some writes := by
  obtain ⟨writes, rounds, hrun, hloop⟩ :=
    burstLoop_spec hdraw hlen hblock htotal hnum 0 0 (Nat.zero_le numAccesses)
  refine ⟨writes, ⟨?_, hrun.inRange, rounds, ?_, ?_, ?_⟩, hloop⟩
  · rw [hrun.indices, List.range_eq_range', Nat.sub_zero]
  · rw [hrun.values, List.range_eq_range', Nat.sub_zero]
  · rw [List.range_eq_range']
    exact hrun.covers
  · intro k hk
    rw [List.range_eq_range']
    exact hrun.begins k hk

/-- **The burst generators fill exactly their buffer with runs that stay in the file.** Both return, whatever
    `rand` returns; they write each index once and in order, only blocks of the file, and the blocks are runs
    of the drawn lengths of which only the last may be cut. -/
theorem burst_generators_fill (rand : Nat → Nat) (hnum : numAccesses < 2 ^ 62)
    (htotal : totalBlocks < 2 ^ 62) :
    (∀ burstLen, 1 ≤ burstLen → burstLen < totalBlocks →
      ∃ writes,
        Fills (fun k => rand k % (totalBlocks - burstLen)) (fun _ => burstLen) totalBlocks numAccesses
          writes ∧
        ∀ fuel > numAccesses,
          generateInterruptedSequence rand numAccesses totalBlocks burstLen fuel = some writes) ∧
    (256 < totalBlocks →
      ∃ writes,
        Fills (fun k => rand (2 * k + 1) % (totalBlocks - 256))
          (fun k => [4, 16, 64, 256].getD (rand (2 * k) % 4) 0) totalBlocks numAccesses writes ∧
        ∀ fuel > numAccesses, generateMixedSequence rand numAccesses totalBlocks fuel = some writes) := by
  have hsub : ∀ {n}, n < totalBlocks → u64 (totalBlocks + 2 ^ 64 - n) = totalBlocks - n := by
    intro n hn
    unfold u64
    omega
  constructor
  · intro burstLen hpos hlt
    refine burstLoop_fills (fun k => ?_) (fun _ => hpos) (fun k => ?_) htotal hnum
    · rw [hsub hlt, rem64_of_pos (by omega)]
      rfl
    · have := Nat.mod_lt (rand k) (show totalBlocks - burstLen > 0 by omega)
      omega
  · intro hlt
    -- the four lengths
    have hlens : ∀ r < 4, 1 ≤ [4, 16, 64, 256].getD r 0 ∧ [4, 16, 64, 256].getD r 0 ≤ 256 ∧
        kBurstLens[r]? = some ([4, 16, 64, 256].getD r 0) := by decide
    have hr : ∀ k, rand (2 * k) % 4 < 4 := fun k => Nat.mod_lt _ (by decide)
    refine burstLoop_fills (fun k => ?_) (fun k => (hlens _ (hr k)).1) (fun k => ?_) htotal hnum
    · rw [hsub hlt, rem64_of_pos (by omega), show kBurstLens.length = 4 from rfl, (hlens _ (hr k)).2.2]
      rfl
    · have := Nat.mod_lt (rand (2 * k + 1)) (show totalBlocks - 256 > 0 by omega)
      have := (hlens _ (hr k)).2.1
      omega

/-- Ten accesses in runs of four, and in runs of which the second was to be of 64. Both times the last run
    is cut. -/
theorem burst_generators_fill_cut :
    (∃ writes, generateInterruptedSequence (fun i => 13 * i + 5) 10 100 4 11 = some writes ∧
      writes.map Prod.fst = List.range 10 ∧ writes.map Prod.snd = [5, 6, 7, 8, 18, 19, 20, 21, 31, 32]) ∧
    ∃ writes, generateMixedSequence (fun i => i) 10 300 11 = some writes ∧
      writes.map Prod.fst = List.range 10 ∧ writes.map Prod.snd = [1, 2, 3, 4, 3, 4, 5, 6, 7, 8] := by
  constructor
  · obtain ⟨writes, hfills, hreturns⟩ := (burst_generators_fill (fun i => 13 * i + 5)
      (show 10 < 2 ^ 62 by decide) (show 100 < 2 ^ 62 by decide)).1 4 (by decide) (by decide)
    have hrun := hreturns 11 (by decide)
    obtain rfl := Option.some.inj hrun
    exact ⟨_, hrun, hfills.indices, by decide⟩
  · obtain ⟨writes, hfills, hreturns⟩ := (burst_generators_fill (fun i => i)
      (show 10 < 2 ^ 62 by decide) (show 300 < 2 ^ 62 by decide)).2 (by decide)
    have hrun := hreturns 11 (by decide)
    obtain rfl := Option.some.inj hrun
    exact ⟨_, hrun, hfills.indices, by decide⟩

end Bursts

end Prefetch
end SystemsPlayground
