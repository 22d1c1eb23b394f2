import SystemsPlayground.Prefetch.BufferPool

/-!
# `Prefetch.Readahead` — the read-ahead hooks and the driver loop

`readahead.c` (fixed window) and `adaptive_readahead.c` (a window that doubles up to a maximum) watch the
accessed block numbers for sequential runs and fetch ranges ahead of the cursor into the pool. The driver
loop of the benchmarks looks each block of a trace up, reads and inserts it on a miss, and then calls the
hook.

The hooks only ever use the pool through `buffer_pool_prefetch_range`, so they are generic in the pool.
The last section runs two simulations in lock step, and instantiates that to the two hooks: the adaptive
one with equal bounds is the fixed one (`fixed_matches_adaptive`).
-/

namespace SystemsPlayground
namespace Prefetch

open Word

/-- `Readahead`, without the pointer to the pool. -/
structure Readahead where
  window : Nat
  lastBlock : Nat
  haveLast : Bool
  readaheadEdge : Nat
  haveEdge : Bool
deriving DecidableEq

/-- `readahead_init`. -/
def readaheadInit (window : Nat) : Readahead :=
  { window := window, lastBlock := 0, haveLast := false, readaheadEdge := 0, haveEdge := false }

/-- `readahead_on_access`. -/
def readaheadOnAccess {π : Type} (prefetchRange : π → Nat → Nat → π) (ra : Readahead) (pool : π)
    (blockNum : Nat) : Readahead × π :=
  let sequential := ra.haveLast && blockNum == u64 (ra.lastBlock + 1)
  let (ra, pool) :=
    if sequential && decide (ra.window > 0) then
      if !ra.haveEdge then
        ({ ra with readaheadEdge := u64 (blockNum + 1 + ra.window), haveEdge := true },
          prefetchRange pool (u64 (blockNum + 1)) ra.window)
      else if u64 (blockNum + 1) = ra.readaheadEdge then
        ({ ra with readaheadEdge := u64 (ra.readaheadEdge + ra.window) },
          prefetchRange pool ra.readaheadEdge ra.window)
      else (ra, pool)
    else ({ ra with haveEdge := false }, pool)
  ({ ra with lastBlock := blockNum, haveLast := true }, pool)

/-- `AdaptiveReadahead`, without the pointer to the pool. -/
structure AdaptiveReadahead where
  window : Nat
  minWindow : Nat
  maxWindow : Nat
  lastBlock : Nat
  haveLast : Bool
  readaheadEdge : Nat
  haveEdge : Bool
deriving DecidableEq

/-- `adaptive_readahead_init`. -/
def adaptiveReadaheadInit (minWindow maxWindow : Nat) : AdaptiveReadahead :=
  { window := minWindow, minWindow := minWindow, maxWindow := maxWindow, lastBlock := 0,
    haveLast := false, readaheadEdge := 0, haveEdge := false }

/-- `window *= 2`, clamped to `max_window`. -/
def AdaptiveReadahead.grow (ra : AdaptiveReadahead) : Nat :=
  if u64 (ra.window * 2) > ra.maxWindow then ra.maxWindow else u64 (ra.window * 2)

/-- `adaptive_readahead_on_access`. -/
def adaptiveReadaheadOnAccess {π : Type} (prefetchRange : π → Nat → Nat → π) (ra : AdaptiveReadahead)
    (pool : π) (blockNum : Nat) : AdaptiveReadahead × π :=
  let sequential := ra.haveLast && blockNum == u64 (ra.lastBlock + 1)
  let (ra, pool) :=
    if sequential && decide (ra.maxWindow > 0) then
      if !ra.haveEdge then
        ({ ra with readaheadEdge := u64 (blockNum + 1 + ra.window), haveEdge := true },
          prefetchRange pool (u64 (blockNum + 1)) ra.window)
      else if u64 (blockNum + 1) = ra.readaheadEdge then
        ({ ra with window := ra.grow, readaheadEdge := u64 (ra.readaheadEdge + ra.grow) },
          prefetchRange pool ra.readaheadEdge ra.grow)
      else (ra, pool)
    else ({ ra with haveEdge := false, window := ra.minWindow }, pool)
  ({ ra with lastBlock := blockNum, haveLast := true }, pool)

/-! ## The driver loop -/

/-- What the driver loop calls: the two operations of a pool, and the hook. -/
structure Simulator (σ π : Type) where
  lookup : π → Nat → Bool × π
  insert : π → Nat → π
  onAccess : σ → π → Nat → σ × π

/-- The loop of `run_fixed`. -/
def fixedSimulator : Simulator Readahead BufferPool :=
  ⟨bufferPoolLookup, bufferPoolInsert, readaheadOnAccess bufferPoolPrefetchRange⟩

/-- The loop of `run_adaptive`. -/
def adaptiveSimulator : Simulator AdaptiveReadahead BufferPool :=
  ⟨bufferPoolLookup, bufferPoolInsert, adaptiveReadaheadOnAccess bufferPoolPrefetchRange⟩

section Driver

variable {σ τ π : Type}

/-- The body of the driver loop: whether the lookup hit, and the new state. The loop is left (`none`) when
    a block has to be read from the file and `pread` fails. -/
def Simulator.access (sim : Simulator σ π) (pread : Nat → Bool) (st : σ × π) (blockNum : Nat) :
    Option (Bool × σ × π) :=
  match sim.lookup st.2 blockNum with
  | (true, pool)  => some (true, sim.onAccess st.1 pool blockNum)
  | (false, pool) =>
      if pread blockNum then some (false, sim.onAccess st.1 (sim.insert pool blockNum) blockNum)
      else none

/-- The driver loop over a trace: the lookup results in order, and the final state. -/
def Simulator.run (sim : Simulator σ π) (pread : Nat → Bool) :
    List Nat → σ × π → Option (List Bool × σ × π)
  | [], st => some ([], st)
  | b :: trace, st => do
      let (hit, st) ← sim.access pread st b
      let (hits, st) ← Simulator.run sim pread trace st
      return (hit :: hits, st)

section Steps

variable {sim : Simulator σ π} {pread : Nat → Bool} {b : Nat} {trace : List Nat} {hit : Bool}
  {hits : List Bool} {pool : π} {st st₁ st' : σ × π}

theorem Simulator.access_of_hit (h : sim.lookup st.2 b = (true, pool)) :
    sim.access pread st b = some (true, sim.onAccess st.1 pool b) := by
  simp only [Simulator.access, h]

theorem Simulator.access_of_miss (h : sim.lookup st.2 b = (false, pool)) (hread : pread b = true) :
    sim.access pread st b = some (false, sim.onAccess st.1 (sim.insert pool b) b) := by
  simp only [Simulator.access, h, if_pos hread]

/-- An access that does not leave the loop is a hit, or a miss whose block could be read. -/
theorem Simulator.access_cases (h : sim.access pread st b = some (hit, st')) :
    (∃ pool, hit = true ∧ sim.lookup st.2 b = (true, pool) ∧ st' = sim.onAccess st.1 pool b) ∨
    ∃ pool, hit = false ∧ sim.lookup st.2 b = (false, pool) ∧ pread b = true ∧
      st' = sim.onAccess st.1 (sim.insert pool b) b := by
  cases hfound : sim.lookup st.2 b with
  | mk found pool =>
      simp only [Simulator.access, hfound] at h
      cases found with
      | true =>
          obtain ⟨rfl, rfl⟩ := Prod.mk.inj (Option.some.inj h)
          exact Or.inl ⟨pool, rfl, rfl, rfl⟩
      | false =>
          by_cases hread : pread b = true
          · simp only [if_pos hread] at h
            obtain ⟨rfl, rfl⟩ := Prod.mk.inj (Option.some.inj h)
            exact Or.inr ⟨pool, rfl, rfl, hread, rfl⟩
          · simp [hread] at h

theorem Simulator.run_cons (haccess : sim.access pread st b = some (hit, st₁))
    (hrun : sim.run pread trace st₁ = some (hits, st')) :
    sim.run pread (b :: trace) st = some (hit :: hits, st') := by
  simp only [Simulator.run, haccess, Option.bind_eq_bind, Option.bind_some, hrun]
  rfl

/-- A run that is not left starts with an access that does not leave it. -/
theorem Simulator.of_run_cons (h : sim.run pread (b :: trace) st = some (hits, st')) :
    ∃ hit hits₁ st₁, hits = hit :: hits₁ ∧ sim.access pread st b = some (hit, st₁) ∧
      sim.run pread trace st₁ = some (hits₁, st') := by
  simp only [Simulator.run, Option.bind_eq_bind, Option.bind_eq_some_iff] at h
  obtain ⟨⟨hit, st₁⟩, haccess, ⟨hits₁, st₂⟩, hrun, heq⟩ := h
  obtain ⟨rfl, rfl⟩ : hit :: hits₁ = hits ∧ st₂ = st' := by simpa using heq
  exact ⟨hit, hits₁, st₁, rfl, haccess, hrun⟩

end Steps

theorem Simulator.run_append (sim : Simulator σ π) (pread : Nat → Bool) (t₁ t₂ : List Nat) (st : σ × π) :
    sim.run pread (t₁ ++ t₂) st =
      (sim.run pread t₁ st).bind fun r₁ =>
        (sim.run pread t₂ r₁.2).map fun r₂ => (r₁.1 ++ r₂.1, r₂.2) := by
  induction t₁ generalizing st with
  | nil =>
      show _ = Option.map (fun r₂ : List Bool × σ × π => r₂) _
      rw [Option.map_id']
      rfl
  | cons b t₁ ih =>
      simp only [List.cons_append, Simulator.run, ih]
      cases sim.access pread st b with
      | none => rfl
      | some r =>
          cases hrun : sim.run pread t₁ r.2 with
          | none => simp [hrun]
          | some r₁ => cases hrun₂ : sim.run pread t₂ r₁.2 <;> simp [hrun, hrun₂]

/-- **Induction along a run of consecutive blocks.** `P j` holds before the access at offset `j`, whose
    lookup result is `hit j`. -/
theorem Simulator.run_range {sim : Simulator σ π} {pread : Nat → Bool} {P : Nat → σ × π → Prop}
    {hit : Nat → Bool} {s n : Nat} {st : σ × π} (h₀ : P 0 st)
    (hstep : ∀ j st, j < n → P j st →
      ∃ st', sim.access pread st (s + j) = some (hit j, st') ∧ P (j + 1) st') :
    ∃ st', sim.run pread (List.range' s n) st = some ((List.range n).map hit, st') ∧ P n st' := by
  induction n with
  | zero => exact ⟨st, rfl, h₀⟩
  | succ n ih =>
      obtain ⟨st₁, hrun, h₁⟩ := ih fun j st hj => hstep j st (by omega)
      obtain ⟨st₂, haccess, h₂⟩ := hstep n st₁ (by omega) h₁
      refine ⟨st₂, ?_, h₂⟩
      rw [List.range'_concat, Simulator.run_append, hrun]
      simp [Simulator.run, haccess, List.range_succ]

section LockStep

variable {simA : Simulator σ π} {simB : Simulator τ π} {pread : Nat → Bool} {R : σ → τ → Prop}
  {ra : σ} {rb : τ} {pool : π} {stB : τ × π}

/-- Up to the hook the two loop bodies are the same. -/
theorem Simulator.access_lockstep {b : Nat} {hit : Bool} (hlookup : simA.lookup = simB.lookup)
    (hinsert : simA.insert = simB.insert)
    (hhook : ∀ pool, ∃ ra', simA.onAccess ra pool b = (ra', (simB.onAccess rb pool b).2) ∧
      R ra' (simB.onAccess rb pool b).1)
    (haccess : simB.access pread (rb, pool) b = some (hit, stB)) :
    ∃ ra', simA.access pread (ra, pool) b = some (hit, ra', stB.2) ∧ R ra' stB.1 := by
  rcases Simulator.access_cases haccess with ⟨pool₁, rfl, hfound, rfl⟩ | ⟨pool₁, rfl, hfound, hread, rfl⟩
  · obtain ⟨ra', heq, hR'⟩ := hhook pool₁
    refine ⟨ra', ?_, hR'⟩
    rw [Simulator.access_of_hit (hlookup ▸ hfound)]
    exact congrArg (fun st => some (true, st)) heq
  · obtain ⟨ra', heq, hR'⟩ := hhook (simB.insert pool₁ b)
    refine ⟨ra', ?_, hR'⟩
    rw [Simulator.access_of_miss (hlookup ▸ hfound) hread, hinsert]
    exact congrArg (fun st => some (false, st)) heq

/-- **Two simulations in lock step** on one pool type: if the hooks act alike on the pool and keep `R`,
    the loops return the same lookup results and the same pool. -/
theorem Simulator.run_lockstep {trace : List Nat} {hits : List Bool}
    (hlookup : simA.lookup = simB.lookup) (hinsert : simA.insert = simB.insert)
    (hhook : ∀ b ∈ trace, ∀ ra rb pool, R ra rb → ∃ ra',
      simA.onAccess ra pool b = (ra', (simB.onAccess rb pool b).2) ∧ R ra' (simB.onAccess rb pool b).1)
    (hR : R ra rb) (hrun : simB.run pread trace (rb, pool) = some (hits, stB)) :
    ∃ ra', simA.run pread trace (ra, pool) = some (hits, ra', stB.2) ∧ R ra' stB.1 := by
  induction trace generalizing ra rb pool hits with
  | nil =>
      obtain ⟨rfl, rfl⟩ : [] = hits ∧ (rb, pool) = stB := by simpa [Simulator.run] using hrun
      exact ⟨ra, rfl, hR⟩
  | cons b trace ih =>
      obtain ⟨hit, hits₁, stB₁, rfl, haccess, hrun₁⟩ := Simulator.of_run_cons hrun
      obtain ⟨ra₁, haccess₁, hR₁⟩ := Simulator.access_lockstep hlookup hinsert
        (fun pool => hhook b List.mem_cons_self ra rb pool hR) haccess
      obtain ⟨ra', hrun', hR'⟩ := ih (fun x hx => hhook x (List.mem_cons_of_mem b hx)) hR₁ hrun₁
      exact ⟨ra', Simulator.run_cons haccess₁ hrun', hR'⟩

end LockStep

end Driver

/-! ## The fixed hook -/

/-- What the hook can do to a pool: nothing, or one call. Neither depends on the pool. -/
theorem readahead_call (ra : Readahead) (b : Nat) :
    ∃ ra', (∀ {π : Type} (prefetchRange : π → Nat → Nat → π) (pool : π),
        readaheadOnAccess prefetchRange ra pool b = (ra', pool)) ∨
      ∃ start count, ∀ {π : Type} (prefetchRange : π → Nat → Nat → π) (pool : π),
        readaheadOnAccess prefetchRange ra pool b = (ra', prefetchRange pool start count) := by
  unfold readaheadOnAccess
  by_cases hseq : (ra.haveLast && b == u64 (ra.lastBlock + 1) && decide (ra.window > 0)) = true
  · by_cases hedge : (!ra.haveEdge) = true
    · simp only [if_pos hseq, if_pos hedge]
      exact ⟨_, Or.inr ⟨_, _, fun _ _ => rfl⟩⟩
    · by_cases hat : u64 (b + 1) = ra.readaheadEdge
      · simp only [if_pos hseq, if_neg hedge, if_pos hat]
        exact ⟨_, Or.inr ⟨_, _, fun _ _ => rfl⟩⟩
      · simp only [if_pos hseq, if_neg hedge, if_neg hat]
        exact ⟨_, Or.inl fun _ _ => rfl⟩
  · simp only [if_neg hseq]
    exact ⟨_, Or.inl fun _ _ => rfl⟩

/-! ## The adaptive hook, case by case -/

section AdaptiveCases

variable {π : Type} {prefetchRange : π → Nat → Nat → π} {ra : AdaptiveReadahead} {pool : π} {b : Nat}

/-- The state after a jump: the edge is forgotten and the window is back at its minimum. -/
theorem adaptive_jump (h : ¬ (ra.haveLast = true ∧ b = u64 (ra.lastBlock + 1) ∧ 0 < ra.maxWindow)) :
    adaptiveReadaheadOnAccess prefetchRange ra pool b =
      ({ ra with window := ra.minWindow, haveEdge := false, lastBlock := b, haveLast := true }, pool) := by
  have hcond : ¬ ((ra.haveLast && b == u64 (ra.lastBlock + 1)) && decide (ra.maxWindow > 0)) = true := by
    simpa [and_assoc] using h
  simp only [adaptiveReadaheadOnAccess, if_neg hcond]

variable (hlast : ra.haveLast = true) (hb : b = u64 (ra.lastBlock + 1)) (hmax : 0 < ra.maxWindow)

include hlast hb hmax

theorem sequential_cond :
    ((ra.haveLast && b == u64 (ra.lastBlock + 1)) && decide (ra.maxWindow > 0)) = true := by
  simp [hlast, hb, hmax]

/-- Case A of the source: a run has just been detected. -/
theorem adaptive_start (hedge : ra.haveEdge = false) :
    adaptiveReadaheadOnAccess prefetchRange ra pool b =
      ({ ra with readaheadEdge := u64 (b + 1 + ra.window), haveEdge := true, lastBlock := b,
                 haveLast := true },
        prefetchRange pool (u64 (b + 1)) ra.window) := by
  have hno : (!ra.haveEdge) = true := by simp [hedge]
  simp only [adaptiveReadaheadOnAccess, if_pos (sequential_cond hlast hb hmax), if_pos hno]

/-- Case B of the source: the cursor is at the last block fetched ahead. -/
theorem adaptive_edge (hedge : ra.haveEdge = true) (hat : u64 (b + 1) = ra.readaheadEdge) :
    adaptiveReadaheadOnAccess prefetchRange ra pool b =
      ({ ra with window := ra.grow, readaheadEdge := u64 (ra.readaheadEdge + ra.grow), lastBlock := b,
                 haveLast := true },
        prefetchRange pool ra.readaheadEdge ra.grow) := by
  have hno : ¬ (!ra.haveEdge) = true := by simp [hedge]
  simp only [adaptiveReadaheadOnAccess, if_pos (sequential_cond hlast hb hmax), if_neg hno, if_pos hat]

/-- The cursor is inside the range fetched ahead. -/
theorem adaptive_inside (hedge : ra.haveEdge = true) (hat : u64 (b + 1) ≠ ra.readaheadEdge) :
    adaptiveReadaheadOnAccess prefetchRange ra pool b =
      ({ ra with lastBlock := b, haveLast := true }, pool) := by
  have hno : ¬ (!ra.haveEdge) = true := by simp [hedge]
  simp only [adaptiveReadaheadOnAccess, if_pos (sequential_cond hlast hb hmax), if_neg hno, if_neg hat]

end AdaptiveCases

/-! ## The fixed window as the adaptive one with equal bounds -/

/-- The fixed read-ahead state that an adaptive one stands for when its bounds are equal. -/
def AdaptiveReadahead.fixed (ra : AdaptiveReadahead) : Readahead :=
  { window := ra.window, lastBlock := ra.lastBlock, haveLast := ra.haveLast,
    readaheadEdge := ra.readaheadEdge, haveEdge := ra.haveEdge }

/-- The window is `w` and cannot move. An edge that was set lies more than `w` above block 0 (or at 2^64,
    stored as 0), so that doubling `w` at the edge does not wrap. -/
structure Level (w : Nat) (ra : AdaptiveReadahead) : Prop where
  window : ra.window = w
  minWindow : ra.minWindow = w
  maxWindow : ra.maxWindow = w
  edge : ra.haveEdge = true → ra.readaheadEdge = 0 ∨ w + 1 ≤ ra.readaheadEdge

section Fixed

variable {π : Type} {w b : Nat} {ra : AdaptiveReadahead}

theorem edge_of_le (n : Nat) (hn : w + 1 ≤ n) (hle : n ≤ 2 ^ 64) : u64 n = 0 ∨ w + 1 ≤ u64 n := by
  unfold u64
  omega

/-- **Equal bounds make the adaptive hook the fixed one**: the same call of the pool, the same state. -/
theorem fixed_matches_adaptive (prefetchRange : π → Nat → Nat → π) (pool : π) (h : Level w ra)
    (hb : b + 1 + w ≤ 2 ^ 64) :
    readaheadOnAccess prefetchRange ra.fixed pool b =
      ((adaptiveReadaheadOnAccess prefetchRange ra pool b).1.fixed,
        (adaptiveReadaheadOnAccess prefetchRange ra pool b).2) ∧
    Level w (adaptiveReadaheadOnAccess prefetchRange ra pool b).1 := by
  have hw := h.window
  have hmax := h.maxWindow
  by_cases hseq : ra.haveLast = true ∧ b = u64 (ra.lastBlock + 1) ∧ 0 < ra.maxWindow
  · obtain ⟨hlast, hnext, hpos⟩ := hseq
    have hcond : ((ra.fixed.haveLast && b == u64 (ra.fixed.lastBlock + 1)) &&
        decide (ra.fixed.window > 0)) = true := by
      have : 0 < ra.window := by omega
      simp [AdaptiveReadahead.fixed, hlast, hnext, this]
    have hb1 : u64 (b + 1) = b + 1 := u64_of_lt (by omega)
    cases hedge : ra.haveEdge with
    | false =>
        have hno : (!ra.fixed.haveEdge) = true := by simp [AdaptiveReadahead.fixed, hedge]
        rw [adaptive_start hlast hnext hpos hedge]
        refine ⟨?_, h.window, h.minWindow, h.maxWindow, fun _ => ?_⟩
        · simp only [readaheadOnAccess, if_pos hcond, if_pos hno]
          rfl
        · exact edge_of_le _ (by omega) (by omega)
    | true =>
        have hno : ¬ (!ra.fixed.haveEdge) = true := by simp [AdaptiveReadahead.fixed, hedge]
        by_cases hat : u64 (b + 1) = ra.readaheadEdge
        · have hroom := h.edge hedge
          -- the edge is `b + 1`, so `2 * w` is at most `b + w`
          have hgrow : ra.grow = ra.window := by
            have h2 : u64 (ra.window * 2) = ra.window * 2 := u64_of_lt (by omega)
            rw [AdaptiveReadahead.grow, h2, if_pos (by omega)]
            omega
          rw [adaptive_edge hlast hnext hpos hedge hat, hgrow]
          refine ⟨?_, h.window, h.minWindow, h.maxWindow, fun _ => ?_⟩
          · simp only [readaheadOnAccess, if_pos hcond, if_neg hno]
            rw [if_pos (show u64 (b + 1) = ra.fixed.readaheadEdge from hat)]
            rfl
          · exact edge_of_le _ (by omega) (by omega)
        · rw [adaptive_inside hlast hnext hpos hedge hat]
          refine ⟨?_, h.window, h.minWindow, h.maxWindow, fun _ => h.edge hedge⟩
          simp only [readaheadOnAccess, if_pos hcond, if_neg hno]
          rw [if_neg (show ¬ u64 (b + 1) = ra.fixed.readaheadEdge from hat)]
          rfl
  · have hcond : ¬ ((ra.fixed.haveLast && b == u64 (ra.fixed.lastBlock + 1)) &&
        decide (ra.fixed.window > 0)) = true := by
      simp only [AdaptiveReadahead.fixed, hw, ← hmax, gt_iff_lt, Bool.and_eq_true, beq_iff_eq,
        decide_eq_true_eq, and_assoc]
      exact hseq
    rw [adaptive_jump hseq]
    refine ⟨?_, h.minWindow, h.minWindow, h.maxWindow, fun hf => absurd hf (by simp)⟩
    simp only [readaheadOnAccess, if_neg hcond]
    simp [AdaptiveReadahead.fixed, h.window, h.minWindow]

/-- The relation between the two hooks with equal bounds. -/
def SameWindow (w : Nat) (ra : Readahead) (rb : AdaptiveReadahead) : Prop := ra = rb.fixed ∧ Level w rb

theorem sameWindow_init (w : Nat) : SameWindow w (readaheadInit w) (adaptiveReadaheadInit w w) :=
  ⟨rfl, rfl, rfl, rfl, fun h => absurd h (by simp [adaptiveReadaheadInit])⟩

variable {pread : Nat → Bool} {ra : Readahead} {rb : AdaptiveReadahead} {pool : BufferPool}
  {trace : List Nat} {hits : List Bool}

/-- The loop of `run_fixed` follows that of `run_adaptive`. -/
theorem fixed_run_of_adaptive {st : AdaptiveReadahead × BufferPool} (h : SameWindow w ra rb)
    (htrace : ∀ b ∈ trace, b + 1 + w ≤ 2 ^ 64)
    (hrun : adaptiveSimulator.run pread trace (rb, pool) = some (hits, st)) :
    ∃ ra', fixedSimulator.run pread trace (ra, pool) = some (hits, ra', st.2) ∧
      SameWindow w ra' st.1 := by
  refine Simulator.run_lockstep rfl rfl ?_ h hrun
  rintro b hb _ rb pool ⟨rfl, hlevel⟩
  obtain ⟨heq, hlevel'⟩ := fixed_matches_adaptive bufferPoolPrefetchRange pool hlevel (htrace b hb)
  exact ⟨_, heq, rfl, hlevel'⟩

/-- The loop of `run_adaptive` follows that of `run_fixed`. -/
theorem adaptive_run_of_fixed {st : Readahead × BufferPool} (h : SameWindow w ra rb)
    (htrace : ∀ b ∈ trace, b + 1 + w ≤ 2 ^ 64)
    (hrun : fixedSimulator.run pread trace (ra, pool) = some (hits, st)) :
    ∃ rb', adaptiveSimulator.run pread trace (rb, pool) = some (hits, rb', st.2) ∧
      SameWindow w st.1 rb' := by
  refine Simulator.run_lockstep rfl rfl (R := fun rb ra => SameWindow w ra rb) ?_ h hrun
  rintro b hb rb _ pool ⟨rfl, hlevel⟩
  obtain ⟨heq, hlevel'⟩ := fixed_matches_adaptive bufferPoolPrefetchRange pool hlevel (htrace b hb)
  have hfixed : fixedSimulator.onAccess rb.fixed pool b = _ := heq
  rw [hfixed]
  exact ⟨_, rfl, rfl, hlevel'⟩

/-- **Stage 2 specialises to Stage 1.** With both bounds equal to `w`, the adaptive hook and the fixed one
    of window `w` drive copies of one pool in lock step: after any number of accesses both loops have been
    left on a failed read or neither has, the lookups gave the same results, the pools are equal, and so
    are the two records of the last access and of the edge. -/
theorem equal_bounds_lockstep (pread : Nat → Bool) (pool : BufferPool)
    (htrace : ∀ b ∈ trace, b + 1 + w < 2 ^ 64) (n : Nat) :
    let fixed := fixedSimulator.run pread (trace.take n) (readaheadInit w, pool)
    let adaptive := adaptiveSimulator.run pread (trace.take n) (adaptiveReadaheadInit w w, pool)
    (fixed = none ↔ adaptive = none) ∧
    ∀ hitsF ra poolF hitsA rb poolA, fixed = some (hitsF, ra, poolF) →
      adaptive = some (hitsA, rb, poolA) →
      hitsF = hitsA ∧ poolF = poolA ∧ ra.haveLast = rb.haveLast ∧ ra.lastBlock = rb.lastBlock ∧
      ra.haveEdge = rb.haveEdge ∧ (ra.haveEdge = true → ra.readaheadEdge = rb.readaheadEdge) ∧
      rb.window = w := by
  intro fixed adaptive
  have hle : ∀ b ∈ trace.take n, b + 1 + w ≤ 2 ^ 64 := fun b hb =>
    Nat.le_of_lt (htrace b (List.mem_of_mem_take hb))
  have hinit := sameWindow_init w
  constructor
  · rw [Option.eq_none_iff_forall_ne_some, Option.eq_none_iff_forall_ne_some]
    constructor
    · intro hnone r hrun
      obtain ⟨ra', hrun', -⟩ := fixed_run_of_adaptive hinit hle hrun
      exact hnone _ hrun'
    · intro hnone r hrun
      obtain ⟨rb', hrun', -⟩ := adaptive_run_of_fixed hinit hle hrun
      exact hnone _ hrun'
  · intro hitsF ra poolF hitsA rb poolA hfixed hadaptive
    obtain ⟨ra', hrun', rfl, hlevel⟩ := fixed_run_of_adaptive hinit hle hadaptive
    obtain ⟨rfl, hst⟩ := Prod.mk.inj (Option.some.inj (hfixed.symm.trans hrun'))
    obtain ⟨rfl, rfl⟩ := Prod.mk.inj hst
    exact ⟨rfl, rfl, rfl, rfl, rfl, fun _ => rfl, hlevel.window⟩

/-- A window of two blocks over a run and a jump back. -/
theorem equal_bounds_lockstep_seven :
    ∃ pool hits ra rb pool', bufferPoolInit (fun _ => some (fun _ => 0)) 4 4096 = some pool ∧
      fixedSimulator.run (fun _ => true) [0, 1, 2, 3, 4, 5, 2] (readaheadInit 2, pool) =
        some (hits, ra, pool') ∧
      adaptiveSimulator.run (fun _ => true) [0, 1, 2, 3, 4, 5, 2] (adaptiveReadaheadInit 2 2, pool) =
        some (hits, rb, pool') ∧ rb.window = 2 := by
  obtain ⟨hnone, hsome⟩ := equal_bounds_lockstep (fun _ => true) ⟨4, 4096, fun _ => 0, 0, 0, 0, 0⟩
    (show ∀ b ∈ [0, 1, 2, 3, 4, 5, 2], b + 1 + 2 < 2 ^ 64 by decide) 7
  have hread : fixedSimulator.run (fun _ => true) [0, 1, 2, 3, 4, 5, 2]
      (readaheadInit 2, ⟨4, 4096, fun _ => 0, 0, 0, 0, 0⟩) ≠ none := by
    rw [← Option.isSome_iff_ne_none]
    rfl
  obtain ⟨⟨hitsF, ra, poolF⟩, hfixed⟩ := Option.ne_none_iff_exists'.mp hread
  obtain ⟨⟨hitsA, rb, poolA⟩, hadaptive⟩ := Option.ne_none_iff_exists'.mp (mt hnone.mpr hread)
  obtain ⟨rfl, rfl, -, -, -, -, hwindow⟩ := hsome _ _ _ _ _ _ hfixed hadaptive
  exact ⟨_, hitsF, ra, rb, poolF, rfl, hfixed, hadaptive, hwindow⟩

end Fixed

end Prefetch
end SystemsPlayground
