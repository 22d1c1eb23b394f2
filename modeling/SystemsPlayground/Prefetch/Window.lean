import SystemsPlayground.Prefetch.Readahead

/-!
# `Prefetch.Window` — the window and the edge of the read-ahead hooks along a trace

Both hooks are state machines that see one block number per access and now and then ask the pool for a
range. This module follows the two over arbitrary traces, away from any pool: `record` stands in for
`buffer_pool_prefetch_range` and keeps the ranges asked for.

Three facts carry everything. The window stays between its bounds, and an edge always lies at least a
window above block 1, so that doubling cannot wrap (`Bounded`). The edge is ahead of the cursor by at least
one block and at most a window, so that the equality test of case B never misses it (`Ahead`). Along a run,
the ranges asked for line up from the second block after its start to the edge, and as long as the window
is below its maximum the edge is at most two windows away from there (`Tiling`).
-/

namespace SystemsPlayground
namespace Prefetch

open Word

/-! ## Hooks along a trace -/

section HookRun

variable {σ π : Type}

/-- The calls of a hook over a trace. -/
def hookRun (hook : σ → π → Nat → σ × π) (trace : List Nat) (st : σ × π) : σ × π :=
  trace.foldl (fun st b => hook st.1 st.2 b) st

theorem hookRun_append (hook : σ → π → Nat → σ × π) (t₁ t₂ : List Nat) (st : σ × π) :
    hookRun hook (t₁ ++ t₂) st = hookRun hook t₂ (hookRun hook t₁ st) := List.foldl_append

theorem hookRun_concat (hook : σ → π → Nat → σ × π) (trace : List Nat) (b : Nat) (st : σ × π) :
    hookRun hook (trace ++ [b]) st =
      hook (hookRun hook trace st).1 (hookRun hook trace st).2 b := by
  rw [hookRun_append]
  rfl

/-- **Invariant rule.** What every access to a block with `C` preserves holds after a trace of them. -/
theorem hookRun_inv {hook : σ → π → Nat → σ × π} {I : σ × π → Prop} {C : Nat → Prop}
    (hkeep : ∀ st b, I st → C b → I (hook st.1 st.2 b)) {trace : List Nat} {st : σ × π} (hi : I st)
    (hc : ∀ b ∈ trace, C b) : I (hookRun hook trace st) := by
  induction trace generalizing st with
  | nil => exact hi
  | cons b trace ih =>
      exact ih (hkeep st b hi (hc b List.mem_cons_self)) fun x hx => hc x (List.mem_cons_of_mem b hx)

end HookRun

/-- In place of `buffer_pool_prefetch_range`: keep the start and the count of the call. -/
def record (calls : List (Nat × Nat)) (startBlock count : Nat) : List (Nat × Nat) :=
  calls ++ [(startBlock, count)]

/-- The state of the fixed hook after a trace, with the ranges it asked for. -/
def readaheadCalls (ra : Readahead) (trace : List Nat) : Readahead × List (Nat × Nat) :=
  hookRun (readaheadOnAccess record) trace (ra, [])

/-- The state of the adaptive hook after a trace, with the ranges it asked for. -/
def adaptiveCalls (ra : AdaptiveReadahead) (trace : List Nat) : AdaptiveReadahead × List (Nat × Nat) :=
  hookRun (adaptiveReadaheadOnAccess record) trace (ra, [])

/-- The blocks of a sequence of calls, in call order. -/
def requested (calls : List (Nat × Nat)) : List Nat := calls.flatMap fun call => rangeBlocks call.1 call.2

theorem requested_record (calls : List (Nat × Nat)) (startBlock count : Nat) :
    requested (record calls startBlock count) = requested calls ++ rangeBlocks startBlock count := by
  simp [requested, record]

/-! ## Recorded calls and the driver loops

What a hook does is decided by its own state alone, so the calls recorded here are those that the driver
loops make: each access replays them on the pool. -/

section Replay

variable {σ π : Type}

theorem adaptive_replay (pf : π → Nat → Nat → π) (ra : AdaptiveReadahead) (pool : π) (b : Nat) :
    adaptiveReadaheadOnAccess pf ra pool b =
      ((adaptiveReadaheadOnAccess record ra [] b).1,
        (adaptiveReadaheadOnAccess record ra [] b).2.foldl (fun p call => pf p call.1 call.2) pool) := by
  simp only [adaptiveReadaheadOnAccess]
  split_ifs <;> rfl

theorem readahead_replay (pf : π → Nat → Nat → π) (ra : Readahead) (pool : π) (b : Nat) :
    readaheadOnAccess pf ra pool b =
      ((readaheadOnAccess record ra [] b).1,
        (readaheadOnAccess record ra [] b).2.foldl (fun p call => pf p call.1 call.2) pool) := by
  simp only [readaheadOnAccess]
  split_ifs <;> rfl

variable {f : σ → Nat → σ} {pread : Nat → Bool} {trace : List Nat} {hits : List Bool}

theorem hookRun_fst {hook : σ → π → Nat → σ × π} (hf : ∀ ra pool b, (hook ra pool b).1 = f ra b)
    (st : σ × π) : (hookRun hook trace st).1 = trace.foldl f st.1 := by
  induction trace generalizing st with
  | nil => rfl
  | cons b trace ih =>
      show (hookRun hook trace (hook st.1 st.2 b)).1 = _
      rw [ih, hf]
      rfl

/-- Along a driver loop the state of a hook that does not look at the pool evolves by itself. -/
theorem Simulator.run_fst {sim : Simulator σ π} (hf : ∀ ra pool b, (sim.onAccess ra pool b).1 = f ra b)
    {st st' : σ × π} (hrun : sim.run pread trace st = some (hits, st')) : st'.1 = trace.foldl f st.1 := by
  induction trace generalizing st hits with
  | nil =>
      obtain ⟨-, rfl⟩ : [] = hits ∧ st = st' := by simpa [Simulator.run] using hrun
      rfl
  | cons b trace ih =>
      obtain ⟨hit, hits₁, st₁, -, haccess, hrun₁⟩ := Simulator.of_run_cons hrun
      have hst₁ : st₁.1 = f st.1 b := by
        rcases Simulator.access_cases haccess with ⟨pool, -, -, rfl⟩ | ⟨pool, -, -, -, rfl⟩
        · exact hf ..
        · exact hf ..
      rw [ih hrun₁, hst₁, List.foldl_cons]

/-- The states of the adaptive hook in the loop of `run_adaptive`. -/
theorem adaptive_run_state {ra : AdaptiveReadahead} {pool : BufferPool}
    {st : AdaptiveReadahead × BufferPool}
    (hrun : adaptiveSimulator.run pread trace (ra, pool) = some (hits, st)) :
    st.1 = (adaptiveCalls ra trace).1 := by
  have hstate : ∀ {π : Type} (pf : π → Nat → Nat → π) ra pool b,
      (adaptiveReadaheadOnAccess pf ra pool b).1 = (adaptiveReadaheadOnAccess record ra [] b).1 :=
    fun pf ra pool b => congrArg Prod.fst (adaptive_replay pf ra pool b)
  rw [Simulator.run_fst (fun ra pool b => hstate bufferPoolPrefetchRange ra pool b) hrun]
  exact (hookRun_fst (fun ra pool b => hstate record ra pool b) (ra, [])).symm

/-- The states of the fixed hook in the loop of `run_fixed`. -/
theorem fixed_run_state {ra : Readahead} {pool : BufferPool} {st : Readahead × BufferPool}
    (hrun : fixedSimulator.run pread trace (ra, pool) = some (hits, st)) :
    st.1 = (readaheadCalls ra trace).1 := by
  have hstate : ∀ {π : Type} (pf : π → Nat → Nat → π) ra pool b,
      (readaheadOnAccess pf ra pool b).1 = (readaheadOnAccess record ra [] b).1 :=
    fun pf ra pool b => congrArg Prod.fst (readahead_replay pf ra pool b)
  rw [Simulator.run_fst (fun ra pool b => hstate bufferPoolPrefetchRange ra pool b) hrun]
  exact (hookRun_fst (fun ra pool b => hstate record ra pool b) (ra, [])).symm

end Replay

/-! ## One access of the adaptive hook -/

/-- The access to `b` continues the run: the first test of the source. -/
def AdaptiveReadahead.Continues (ra : AdaptiveReadahead) (b : Nat) : Prop :=
  ra.haveLast = true ∧ b = u64 (ra.lastBlock + 1) ∧ 0 < ra.maxWindow

/-- The access to `b` takes case B of the source, the only place that evaluates `window *= 2`. -/
def AdaptiveReadahead.AtEdge (ra : AdaptiveReadahead) (b : Nat) : Prop :=
  ra.Continues b ∧ ra.haveEdge = true ∧ u64 (b + 1) = ra.readaheadEdge

section Cases

variable {π : Type}

/-- What an access can do. -/
theorem adaptive_cases (pf : π → Nat → Nat → π) (ra : AdaptiveReadahead) (pool : π) (b : Nat) :
    (¬ ra.Continues b ∧ adaptiveReadaheadOnAccess pf ra pool b =
      ({ ra with window := ra.minWindow, haveEdge := false, lastBlock := b, haveLast := true }, pool)) ∨
    (ra.Continues b ∧ ra.haveEdge = false ∧ adaptiveReadaheadOnAccess pf ra pool b =
      ({ ra with readaheadEdge := u64 (b + 1 + ra.window), haveEdge := true, lastBlock := b,
                 haveLast := true },
        pf pool (u64 (b + 1)) ra.window)) ∨
    (ra.AtEdge b ∧ adaptiveReadaheadOnAccess pf ra pool b =
      ({ ra with window := ra.grow, readaheadEdge := u64 (ra.readaheadEdge + ra.grow), lastBlock := b,
                 haveLast := true },
        pf pool ra.readaheadEdge ra.grow)) ∨
    (ra.Continues b ∧ ra.haveEdge = true ∧ u64 (b + 1) ≠ ra.readaheadEdge ∧
      adaptiveReadaheadOnAccess pf ra pool b = ({ ra with lastBlock := b, haveLast := true }, pool)) := by
  by_cases hseq : ra.Continues b
  · right
    obtain ⟨hlast, hb, hmax⟩ := id hseq
    rcases Bool.eq_false_or_eq_true ra.haveEdge with hedge | hedge
    · right
      by_cases hat : u64 (b + 1) = ra.readaheadEdge
      · exact Or.inl ⟨⟨hseq, hedge, hat⟩, adaptive_edge hlast hb hmax hedge hat⟩
      · exact Or.inr ⟨hseq, hedge, hat, adaptive_inside hlast hb hmax hedge hat⟩
    · exact Or.inl ⟨hseq, hedge, adaptive_start hlast hb hmax hedge⟩
  · exact Or.inl ⟨hseq, adaptive_jump hseq⟩

end Cases

/-- Doubling without wrap. -/
theorem grow_of_lt {ra : AdaptiveReadahead} (h : ra.window * 2 < 2 ^ 64) :
    ra.grow = min (2 * ra.window) ra.maxWindow := by
  rw [AdaptiveReadahead.grow, u64_of_lt h]
  split_ifs <;> omega

theorem grow_le (ra : AdaptiveReadahead) : ra.grow ≤ ra.maxWindow := by
  unfold AdaptiveReadahead.grow
  split_ifs <;> omega

/-! ## The window stays in bounds -/

/-- The window is between its bounds, and an edge lies at least a window above block 1. -/
structure Bounded (mn mx : Nat) (ra : AdaptiveReadahead) : Prop where
  minWindow : ra.minWindow = mn
  maxWindow : ra.maxWindow = mx
  min_le : mn ≤ ra.window
  le_max : ra.window ≤ mx
  last : ra.haveLast = true → ra.lastBlock + 1 + mx < 2 ^ 64
  room : ra.haveEdge = true → ra.window + 2 ≤ ra.readaheadEdge

namespace Bounded

variable {π : Type} {mn mx b : Nat} {ra : AdaptiveReadahead}

theorem init (h : mn ≤ mx) : Bounded mn mx (adaptiveReadaheadInit mn mx) :=
  ⟨rfl, rfl, Nat.le_refl mn, h, by simp [adaptiveReadaheadInit], by simp [adaptiveReadaheadInit]⟩

/-- The next block of a run is not block 0. -/
theorem next (h : Bounded mn mx ra) (hseq : ra.Continues b) : b = ra.lastBlock + 1 := by
  have hlast := h.last hseq.1
  rw [hseq.2.1, u64_of_lt (by omega)]

/-- **Doubling does not wrap.** Case B is taken at a block at least as large as the window, and that block
    and the maximum fit into a word. -/
theorem double_lt (h : Bounded mn mx ra) (hb : b + 1 + mx < 2 ^ 64) (hat : ra.AtEdge b) :
    ra.window * 2 < 2 ^ 64 := by
  obtain ⟨-, hedge, heq⟩ := hat
  rw [u64_of_lt (by omega)] at heq
  have hroom := h.room hedge
  have hle := h.le_max
  omega

theorem grow_eq (h : Bounded mn mx ra) (hb : b + 1 + mx < 2 ^ 64) (hat : ra.AtEdge b) :
    ra.grow = min (2 * ra.window) mx := by
  rw [grow_of_lt (h.double_lt hb hat), h.maxWindow]

theorem access (pf : π → Nat → Nat → π) (pool : π) (h : Bounded mn mx ra) (hmn : mn ≤ mx)
    (hb : b + 1 + mx < 2 ^ 64) : Bounded mn mx (adaptiveReadaheadOnAccess pf ra pool b).1 := by
  have hmin := h.min_le
  have hmax := h.le_max
  rcases adaptive_cases pf ra pool b with ⟨-, heq⟩ | ⟨hseq, -, heq⟩ | ⟨hat, heq⟩ | ⟨-, hedge, -, heq⟩
  · rw [heq]
    exact ⟨h.minWindow, h.maxWindow, Nat.le_of_eq h.minWindow.symm, h.minWindow ▸ hmn, fun _ => hb,
      fun hf => absurd hf (by simp)⟩
  · have hnext := h.next hseq
    rw [heq, u64_of_lt (by omega)]
    refine ⟨h.minWindow, h.maxWindow, hmin, hmax, fun _ => hb, fun _ => ?_⟩
    show ra.window + 2 ≤ b + 1 + ra.window
    omega
  · have hnext := h.next hat.1
    have hgrow := h.grow_eq hb hat
    have hat' : b + 1 = ra.readaheadEdge := by rw [← hat.2.2, u64_of_lt (by omega)]
    rw [heq, ← hat', u64_of_lt (by omega)]
    refine ⟨h.minWindow, h.maxWindow, ?_, ?_, fun _ => hb, fun _ => ?_⟩
    · show mn ≤ ra.grow
      omega
    · show ra.grow ≤ mx
      omega
    · show ra.grow + 2 ≤ b + 1 + ra.grow
      omega
  · rw [heq]
    exact ⟨h.minWindow, h.maxWindow, hmin, hmax, fun _ => hb, fun _ => h.room hedge⟩

theorem run (h : Bounded mn mx ra) (hmn : mn ≤ mx) {trace : List Nat}
    (htrace : ∀ b ∈ trace, b + 1 + mx < 2 ^ 64) : Bounded mn mx (adaptiveCalls ra trace).1 :=
  hookRun_inv (I := fun st => Bounded mn mx st.1) (fun st _ hi hb => hi.access record st.2 hmn hb) h htrace

end Bounded

/-- **The window stays in bounds and doubling never wraps**, along every trace whose blocks leave room for
    the largest window. -/
theorem window_in_bounds {mn mx : Nat} (hmn : mn ≤ mx) {trace : List Nat}
    (htrace : ∀ b ∈ trace, b + 1 + mx < 2 ^ 64) :
    (∀ n, let ra := (adaptiveCalls (adaptiveReadaheadInit mn mx) (trace.take n)).1
      mn ≤ ra.window ∧ ra.window ≤ mx) ∧
    ∀ pre b post, trace = pre ++ b :: post →
      let ra := (adaptiveCalls (adaptiveReadaheadInit mn mx) pre).1
      ra.AtEdge b → u64 (ra.window * 2) = ra.window * 2 := by
  constructor
  · intro n ra
    have h : Bounded mn mx ra := (Bounded.init hmn).run hmn fun b hb => htrace b (List.mem_of_mem_take hb)
    exact ⟨h.min_le, h.le_max⟩
  · rintro pre b post rfl ra hat
    have h := (Bounded.init hmn).run hmn fun x hx => htrace x (List.mem_append_left _ hx)
    exact u64_of_lt (h.double_lt (htrace b (by simp)) hat)

/-- A run on which the window grows from 1 to its maximum 4. -/
theorem window_in_bounds_six :
    (∀ b ∈ [0, 1, 2, 3, 4, 5], b + 1 + 4 < 2 ^ 64) ∧
    (adaptiveCalls (adaptiveReadaheadInit 1 4) [0, 1]).1.AtEdge 2 ∧
    u64 ((adaptiveCalls (adaptiveReadaheadInit 1 4) [0, 1]).1.window * 2) = 2 := by
  have hat : (adaptiveCalls (adaptiveReadaheadInit 1 4) [0, 1]).1.AtEdge 2 := by
    unfold AdaptiveReadahead.AtEdge AdaptiveReadahead.Continues
    decide
  refine ⟨by decide, hat, ?_⟩
  exact (window_in_bounds (by decide)
    (show ∀ b ∈ [0, 1, 2, 3, 4, 5], b + 1 + 4 < 2 ^ 64 by decide)).2 [0, 1] 2 [3, 4, 5] rfl hat

/-! ## The edge is never skipped -/

/-- An edge is ahead of the block that follows the last one, by at most a window. -/
def AdaptiveReadahead.Ahead (ra : AdaptiveReadahead) : Prop :=
  ra.haveEdge = true →
    ra.lastBlock + 2 ≤ ra.readaheadEdge ∧ ra.readaheadEdge ≤ ra.lastBlock + 1 + ra.window

section Ahead

variable {π : Type} {mn mx b : Nat} {ra : AdaptiveReadahead}

/-- With a window of at least one block, the edge stays ahead. -/
theorem ahead_access (pf : π → Nat → Nat → π) (pool : π) (h : Bounded mn mx ra) (hpos : 1 ≤ mn)
    (hmn : mn ≤ mx) (hb : b + 1 + mx < 2 ^ 64) (ha : ra.Ahead) :
    (adaptiveReadaheadOnAccess pf ra pool b).1.Ahead := by
  have hmin := h.min_le
  have hmax := h.le_max
  intro hedge'
  rcases adaptive_cases pf ra pool b with ⟨-, heq⟩ | ⟨hseq, -, heq⟩ | ⟨hat, heq⟩ | ⟨hseq, hedge, hne, heq⟩
  · rw [heq] at hedge'
    simp at hedge'
  · rw [heq, u64_of_lt (by omega)]
    show b + 2 ≤ b + 1 + ra.window ∧ b + 1 + ra.window ≤ b + 1 + ra.window
    omega
  · have hgrow := h.grow_eq hb hat
    have hat' : b + 1 = ra.readaheadEdge := by rw [← hat.2.2, u64_of_lt (by omega)]
    rw [heq, ← hat', u64_of_lt (by omega)]
    show b + 2 ≤ b + 1 + ra.grow ∧ b + 1 + ra.grow ≤ b + 1 + ra.grow
    omega
  · -- the cursor moves by one block, and not onto the edge
    have hnext := h.next hseq
    obtain ⟨hlow, hhigh⟩ := ha hedge
    rw [u64_of_lt (by omega)] at hne
    rw [heq]
    show b + 2 ≤ ra.readaheadEdge ∧ ra.readaheadEdge ≤ b + 1 + ra.window
    omega

theorem ahead_run (h : Bounded mn mx ra) (hpos : 1 ≤ mn) (hmn : mn ≤ mx) (ha : ra.Ahead)
    {trace : List Nat} (htrace : ∀ b ∈ trace, b + 1 + mx < 2 ^ 64) : (adaptiveCalls ra trace).1.Ahead := by
  have hrun : Bounded mn mx (adaptiveCalls ra trace).1 ∧ (adaptiveCalls ra trace).1.Ahead :=
    hookRun_inv (I := fun st => Bounded mn mx st.1 ∧ st.1.Ahead)
      (fun st _ hi hb => ⟨hi.1.access record st.2 hmn hb, ahead_access record st.2 hi.1 hpos hmn hb hi.2⟩)
      ⟨h, ha⟩ htrace
  exact hrun.2

end Ahead

/-! ## The ranges of a run -/

/-- The state and the calls after the accesses `s`, …, `s + j` of a run with `1 ≤ j`. -/
structure Tiling (mn mx s j : Nat) (st : AdaptiveReadahead × List (Nat × Nat)) : Prop where
  bounded : Bounded mn mx st.1
  ahead : st.1.Ahead
  haveLast : st.1.haveLast = true
  lastBlock : st.1.lastBlock = s + j
  haveEdge : st.1.haveEdge = true
  start_le : s + 2 ≤ st.1.readaheadEdge
  requested : requested st.2 = List.range' (s + 2) (st.1.readaheadEdge - (s + 2))
  ramp : st.1.window < mx → st.1.readaheadEdge ≤ s + 2 + 2 * st.1.window

section Tiling

variable {mn mx s j : Nat} {ra : AdaptiveReadahead} {st : AdaptiveReadahead × List (Nat × Nat)}

/-- The access that starts a run. -/
theorem adaptive_restart (hjump : ¬ (ra.haveLast = true ∧ s = u64 (ra.lastBlock + 1))) :
    adaptiveCalls ra [s] =
      ({ ra with window := ra.minWindow, haveEdge := false, lastBlock := s, haveLast := true }, []) :=
  adaptive_jump fun h => hjump ⟨h.1, h.2.1⟩

/-- A range asked for next extends the blocks asked for so far. -/
theorem range'_extend {a e n : Nat} (h : a ≤ e) :
    List.range' a (e - a) ++ List.range' e n = List.range' a (e + n - a) := by
  rw [show e + n - a = (e - a) + n by omega, ← List.range'_append_1, show a + (e - a) = e by omega]

theorem Tiling.access (h : Tiling mn mx s j st) (hpos : 1 ≤ mn) (hmn : mn ≤ mx)
    (hb : s + (j + 1) + 1 + mx < 2 ^ 64) :
    Tiling mn mx s (j + 1) (adaptiveReadaheadOnAccess record st.1 st.2 (s + (j + 1))) := by
  have hbounded := h.bounded.access record st.2 hmn hb
  have hahead := ahead_access record st.2 h.bounded hpos hmn hb h.ahead
  have hle := h.bounded.le_max
  have hseq : st.1.Continues (s + (j + 1)) := by
    refine ⟨h.haveLast, ?_, by rw [h.bounded.maxWindow]; omega⟩
    rw [h.lastBlock, u64_of_lt (by omega)]
    rfl
  rcases adaptive_cases record st.1 st.2 (s + (j + 1)) with
    ⟨hno, -⟩ | ⟨-, hedge, -⟩ | ⟨hat, heq⟩ | ⟨-, -, -, heq⟩
  · exact absurd hseq hno
  · exact absurd (hedge.symm.trans h.haveEdge) (by simp)
  · have hgrow := h.bounded.grow_eq hb hat
    have hat' : s + (j + 1) + 1 = st.1.readaheadEdge := by rw [← hat.2.2, u64_of_lt (by omega)]
    rw [heq] at hbounded hahead ⊢
    have hedge : u64 (st.1.readaheadEdge + st.1.grow) = st.1.readaheadEdge + st.1.grow :=
      u64_of_lt (by omega)
    refine ⟨hbounded, hahead, rfl, rfl, h.haveEdge, ?_, ?_, ?_⟩
    · show s + 2 ≤ u64 (st.1.readaheadEdge + st.1.grow)
      omega
    · show Prefetch.requested (record st.2 _ _) = List.range' (s + 2) (u64 _ - (s + 2))
      rw [requested_record, h.requested, hedge, rangeBlocks_eq (by omega), range'_extend h.start_le]
    · -- below the maximum the window has doubled, as it always did before
      have hramp := h.ramp
      show st.1.grow < mx → u64 (st.1.readaheadEdge + st.1.grow) ≤ s + 2 + 2 * st.1.grow
      omega
  · rw [heq] at hbounded hahead ⊢
    exact ⟨hbounded, hahead, rfl, rfl, h.haveEdge, h.start_le, h.requested, h.ramp⟩

/-- The first two accesses of a run. Nothing of the state before it matters but the bounds. -/
theorem Tiling.start (hmin : ra.minWindow = mn) (hmax : ra.maxWindow = mx) (hpos : 1 ≤ mn) (hmn : mn ≤ mx)
    (hjump : ¬ (ra.haveLast = true ∧ s = u64 (ra.lastBlock + 1))) (hb : s + 1 + 1 + mx < 2 ^ 64) :
    Tiling mn mx s 1 (adaptiveCalls ra [s, s + 1]) := by
  have heq : adaptiveCalls ra [s, s + 1] =
      ({ ra with window := mn, readaheadEdge := s + 1 + 1 + mn, haveEdge := true, lastBlock := s + 1,
                 haveLast := true }, [(s + 1 + 1, mn)]) := by
    have hrun : adaptiveCalls ra [s, s + 1] =
        adaptiveReadaheadOnAccess record (adaptiveCalls ra [s]).1 (adaptiveCalls ra [s]).2 (s + 1) := rfl
    have hmax' : 0 < ra.maxWindow := by omega
    have hnext : s + 1 = u64 (s + 1) := (u64_of_lt (by omega)).symm
    rw [hrun, adaptive_restart hjump]
    generalize hr : ({ ra with window := ra.minWindow, haveEdge := false, lastBlock := s, haveLast := true } :
      AdaptiveReadahead) = r
    rw [adaptive_start (by rw [← hr]) (by rw [← hr]; exact hnext) (by rw [← hr]; exact hmax')
      (by rw [← hr]), ← hr]
    simp only [record, List.nil_append, hmin, u64_of_lt (show s + 1 + 1 < 2 ^ 64 by omega),
      u64_of_lt (show s + 1 + 1 + mn < 2 ^ 64 by omega)]
  rw [heq]
  refine ⟨⟨hmin, hmax, Nat.le_refl mn, hmn, fun _ => hb, fun _ => ?_⟩, fun _ => ?_, rfl, rfl, rfl, ?_, ?_,
    fun _ => ?_⟩
  · show mn + 2 ≤ s + 1 + 1 + mn
    omega
  · show s + 1 + 2 ≤ s + 1 + 1 + mn ∧ s + 1 + 1 + mn ≤ s + 1 + 1 + mn
    omega
  · show s + 2 ≤ s + 1 + 1 + mn
    omega
  · show Prefetch.requested (record [] (s + 1 + 1) mn) = List.range' (s + 2) (s + 1 + 1 + mn - (s + 2))
    rw [requested_record, rangeBlocks_eq (by omega), show s + 1 + 1 + mn - (s + 2) = mn by omega]
    rfl
  · show s + 1 + 1 + mn ≤ s + 2 + 2 * mn
    omega

/-- The accesses `s`, …, `s + j` of a run. -/
theorem Tiling.run (hmin : ra.minWindow = mn) (hmax : ra.maxWindow = mx) (hpos : 1 ≤ mn) (hmn : mn ≤ mx)
    (hjump : ¬ (ra.haveLast = true ∧ s = u64 (ra.lastBlock + 1))) (hj : 1 ≤ j)
    (hb : s + j + 1 + mx < 2 ^ 64) : Tiling mn mx s j (adaptiveCalls ra (List.range' s (j + 1))) := by
  induction j, hj using Nat.le_induction with
  | base => exact Tiling.start hmin hmax hpos hmn hjump hb
  | succ j hj ih =>
      have hrange : List.range' s (j + 1 + 1) = List.range' s (j + 1) ++ [s + (j + 1)] :=
        List.range'_1_concat
      rw [hrange, adaptiveCalls, hookRun_concat]
      exact (ih (by omega)).access hpos hmn hb

end Tiling

/-! ## Prefetches tile every run -/

section Trace

variable {w mn mx : Nat} {trace : List Nat}

/-- The fixed hook makes the calls of the adaptive one with equal bounds. -/
theorem readaheadCalls_eq {ra : Readahead} {rb : AdaptiveReadahead} (h : SameWindow w ra rb)
    (htrace : ∀ b ∈ trace, b + 1 + w ≤ 2 ^ 64) :
    readaheadCalls ra trace = ((adaptiveCalls rb trace).1.fixed, (adaptiveCalls rb trace).2) ∧
      Level w (adaptiveCalls rb trace).1 := by
  obtain ⟨rfl, hlevel⟩ := h
  induction trace using List.reverseRecOn with
  | nil => exact ⟨rfl, hlevel⟩
  | append_singleton trace b ih =>
      obtain ⟨heq, hlevel'⟩ := ih fun x hx => htrace x (List.mem_append_left _ hx)
      obtain ⟨hstep, hlevel''⟩ :=
        fixed_matches_adaptive record (adaptiveCalls rb trace).2 hlevel' (htrace b (by simp))
      simp only [readaheadCalls, adaptiveCalls, hookRun_concat] at heq hstep hlevel'' ⊢
      rw [heq]
      exact ⟨hstep, hlevel''⟩

/-- An access is recorded as the last one. -/
theorem adaptive_last {π : Type} (pf : π → Nat → Nat → π) (ra : AdaptiveReadahead) (pool : π) (b : Nat) :
    (adaptiveReadaheadOnAccess pf ra pool b).1.lastBlock = b := by
  rcases adaptive_cases pf ra pool b with ⟨-, heq⟩ | ⟨-, -, heq⟩ | ⟨-, heq⟩ | ⟨-, -, -, heq⟩ <;> rw [heq]

/-- A run that does not continue the trace before it starts with a jump. -/
theorem jump_of_getLast {s : Nat} (htrace : ∀ b ∈ trace, b + 1 + mx < 2 ^ 64)
    (hmax : ∀ x ∈ trace.getLast?, x + 1 ≠ s) :
    let ra := (adaptiveCalls (adaptiveReadaheadInit mn mx) trace).1
    ¬ (ra.haveLast = true ∧ s = u64 (ra.lastBlock + 1)) := by
  rintro ra ⟨hlast, hs⟩
  rcases List.eq_nil_or_concat' trace with rfl | ⟨pre, x, rfl⟩
  · simp [ra, adaptiveCalls, hookRun, adaptiveReadaheadInit] at hlast
  · have hx : ra.lastBlock = x := by
      simp only [ra, adaptiveCalls, hookRun_concat]
      exact adaptive_last ..
    have hroom := htrace x (by simp)
    rw [hx, u64_of_lt (by omega)] at hs
    exact hmax x (by simp) hs.symm

theorem ahead_of_trace (hpos : 1 ≤ mn) (hmn : mn ≤ mx) (htrace : ∀ b ∈ trace, b + 1 + mx < 2 ^ 64) :
    (adaptiveCalls (adaptiveReadaheadInit mn mx) trace).1.Ahead :=
  ahead_run (Bounded.init hmn) hpos hmn (fun h => absurd h (by simp [adaptiveReadaheadInit])) htrace

/-- The calls of a run inside a trace. -/
theorem tiling_of_trace {pre post : List Nat} {s j : Nat} (hpos : 1 ≤ mn) (hmn : mn ≤ mx)
    (htrace : ∀ b ∈ pre ++ List.range' s (j + 2) ++ post, b + 1 + mx < 2 ^ 64)
    (hfirst : ∀ x ∈ pre.getLast?, x + 1 ≠ s) :
    Tiling mn mx s (j + 1)
      (adaptiveCalls (adaptiveCalls (adaptiveReadaheadInit mn mx) pre).1 (List.range' s (j + 2))) := by
  have hpre : ∀ b ∈ pre, b + 1 + mx < 2 ^ 64 := fun b hb => htrace b (by simp [hb])
  have hbounded := (Bounded.init hmn).run hmn hpre
  exact Tiling.run hbounded.minWindow hbounded.maxWindow hpos hmn (jump_of_getLast hpre hfirst) (by omega)
    (htrace _ (by simp))

/-- **The edge is never skipped, and the prefetches tile the run.** For both hooks, after any number of
    accesses a set edge is ahead of the next block by at most the current window. And from the second access
    of any maximal run `s`, `s + 1`, … on, the edge is set and the ranges asked for since the run began are,
    one after the other, exactly the blocks from `s + 2` up to the edge. -/
theorem prefetches_tile_runs :
    (∀ w trace, 1 ≤ w → (∀ b ∈ trace, b + 1 + w < 2 ^ 64) →
      (∀ n, let ra := (readaheadCalls (readaheadInit w) (trace.take n)).1
        ra.haveEdge = true →
          ra.lastBlock + 2 ≤ ra.readaheadEdge ∧ ra.readaheadEdge ≤ ra.lastBlock + 1 + ra.window) ∧
      ∀ pre s j post, trace = pre ++ List.range' s (j + 2) ++ post → (∀ x ∈ pre.getLast?, x + 1 ≠ s) →
        let st := readaheadCalls (readaheadCalls (readaheadInit w) pre).1 (List.range' s (j + 2))
        st.1.haveEdge = true ∧ s + 2 ≤ st.1.readaheadEdge ∧
        requested st.2 = List.range' (s + 2) (st.1.readaheadEdge - (s + 2))) ∧
    ∀ mn mx trace, 1 ≤ mn → mn ≤ mx → (∀ b ∈ trace, b + 1 + mx < 2 ^ 64) →
      (∀ n, let ra := (adaptiveCalls (adaptiveReadaheadInit mn mx) (trace.take n)).1
        ra.haveEdge = true →
          ra.lastBlock + 2 ≤ ra.readaheadEdge ∧ ra.readaheadEdge ≤ ra.lastBlock + 1 + ra.window) ∧
      ∀ pre s j post, trace = pre ++ List.range' s (j + 2) ++ post → (∀ x ∈ pre.getLast?, x + 1 ≠ s) →
        let st := adaptiveCalls (adaptiveCalls (adaptiveReadaheadInit mn mx) pre).1 (List.range' s (j + 2))
        st.1.haveEdge = true ∧ s + 2 ≤ st.1.readaheadEdge ∧
        requested st.2 = List.range' (s + 2) (st.1.readaheadEdge - (s + 2)) := by
  constructor
  · intro w trace hw htrace
    have hle : ∀ t : List Nat, (∀ b ∈ t, b ∈ trace) → ∀ b ∈ t, b + 1 + w ≤ 2 ^ 64 := fun t ht b hb =>
      Nat.le_of_lt (htrace b (ht b hb))
    constructor
    · intro n ra
      have htake : ∀ b ∈ trace.take n, b + 1 + w < 2 ^ 64 := fun b hb => htrace b (List.mem_of_mem_take hb)
      have hahead := ahead_of_trace hw (Nat.le_refl w) htake
      obtain ⟨heq, -⟩ := readaheadCalls_eq (sameWindow_init w) fun b hb => Nat.le_of_lt (htake b hb)
      simp only [ra, heq]
      exact hahead
    · rintro pre s j post rfl hfirst st
      obtain ⟨hpre, hlevel⟩ := readaheadCalls_eq (sameWindow_init w) (hle pre fun b hb => by simp [hb])
      obtain ⟨hrun, -⟩ := readaheadCalls_eq ⟨congrArg Prod.fst hpre, hlevel⟩
        (hle (List.range' s (j + 2)) fun b hb => by simp [hb])
      have htiling := tiling_of_trace hw (Nat.le_refl w) htrace hfirst
      simp only [st, hrun]
      exact ⟨htiling.haveEdge, htiling.start_le, htiling.requested⟩
  · intro mn mx trace hpos hmn htrace
    constructor
    · intro n
      exact ahead_of_trace hpos hmn fun b hb => htrace b (List.mem_of_mem_take hb)
    · rintro pre s j post rfl hfirst st
      have htiling := tiling_of_trace hpos hmn htrace hfirst
      exact ⟨htiling.haveEdge, htiling.start_le, htiling.requested⟩

/-- A jump followed by a run of five blocks. -/
theorem prefetches_tile_runs_six :
    (∀ b ∈ [9, 0, 1, 2, 3, 4], b + 1 + 4 < 2 ^ 64) ∧
    requested (readaheadCalls (readaheadCalls (readaheadInit 2) [9]).1 [0, 1, 2, 3, 4]).2 = [2, 3, 4, 5] ∧
    requested (adaptiveCalls (adaptiveCalls (adaptiveReadaheadInit 1 4) [9]).1 [0, 1, 2, 3, 4]).2 =
      [2, 3, 4, 5, 6, 7, 8] := by
  refine ⟨by decide, ?_, ?_⟩
  · exact ((prefetches_tile_runs.1 2 [9, 0, 1, 2, 3, 4] (by decide) (by decide)).2 [9] 0 3 [] rfl
      (by decide)).2.2
  · exact ((prefetches_tile_runs.2 1 4 [9, 0, 1, 2, 3, 4] (by decide) (by decide) (by decide)).2 [9] 0 3 []
      rfl (by decide)).2.2

end Trace

/-! ## The window ramps up -/

/-- The bounds are those given to `adaptive_readahead_init`, and the window is clamped. -/
structure Clamped (mn mx : Nat) (ra : AdaptiveReadahead) : Prop where
  minWindow : ra.minWindow = mn
  maxWindow : ra.maxWindow = mx
  le_max : ra.window ≤ mx

section Ramp

variable {mn mx s n b : Nat} {ra : AdaptiveReadahead}

/-- The clamp holds after any trace at all, also where block numbers wrap. -/
theorem clamped_run (hmn : mn ≤ mx) (h : Clamped mn mx ra) (trace : List Nat) :
    Clamped mn mx (adaptiveCalls ra trace).1 := by
  refine hookRun_inv (I := fun st => Clamped mn mx st.1) (C := fun _ => True) ?_ h fun _ _ => trivial
  intro st b hi _
  rcases adaptive_cases record st.1 st.2 b with ⟨-, heq⟩ | ⟨-, -, heq⟩ | ⟨-, heq⟩ | ⟨-, -, -, heq⟩
  · rw [heq]
    exact ⟨hi.minWindow, hi.maxWindow, hi.minWindow ▸ hmn⟩
  · rw [heq]
    exact ⟨hi.minWindow, hi.maxWindow, hi.le_max⟩
  · rw [heq]
    exact ⟨hi.minWindow, hi.maxWindow, hi.maxWindow ▸ grow_le st.1⟩
  · rw [heq]
    exact ⟨hi.minWindow, hi.maxWindow, hi.le_max⟩

/-- A window that starts at 0 stays at 0: doubling does not move it. -/
theorem window_zero_stays (hmin : ra.minWindow = 0) (hzero : ra.window = 0) (trace : List Nat) :
    (adaptiveCalls ra trace).1.window = 0 := by
  have hrun : (adaptiveCalls ra trace).1.minWindow = 0 ∧ (adaptiveCalls ra trace).1.window = 0 := by
    refine hookRun_inv (I := fun st : AdaptiveReadahead × List (Nat × Nat) =>
      st.1.minWindow = 0 ∧ st.1.window = 0) (C := fun _ => True) ?_
      ⟨hmin, hzero⟩ fun _ _ => trivial
    rintro st b ⟨hmin, hzero⟩ _
    rcases adaptive_cases record st.1 st.2 b with ⟨-, heq⟩ | ⟨-, -, heq⟩ | ⟨-, heq⟩ | ⟨-, -, -, heq⟩
    · rw [heq]
      exact ⟨hmin, hmin⟩
    · rw [heq]
      exact ⟨hmin, hzero⟩
    · rw [heq]
      refine ⟨hmin, ?_⟩
      show st.1.grow = 0
      rw [grow_of_lt (by omega), hzero]
      simp
    · rw [heq]
      exact ⟨hmin, hzero⟩
  exact hrun.2

theorem rangeBlocks_succ (s n : Nat) : rangeBlocks s (n + 1) = rangeBlocks s n ++ [u64 (s + n)] := by
  simp [rangeBlocks, List.range_succ]

/-- At its maximum the window stays there as long as the run goes on. -/
theorem window_stays (hmax : 2 * mx < 2 ^ 64) (hpos : 1 ≤ mx) (h : Clamped mn mx ra)
    (hlast : ra.haveLast = true) (hb : b = u64 (ra.lastBlock + 1)) (hw : ra.window = mx)
    (calls : List (Nat × Nat)) : (adaptiveReadaheadOnAccess record ra calls b).1.window = mx := by
  have hseq : ra.Continues b := ⟨hlast, hb, by rw [h.maxWindow]; omega⟩
  rcases adaptive_cases record ra calls b with ⟨hno, -⟩ | ⟨-, -, heq⟩ | ⟨-, heq⟩ | ⟨-, -, -, heq⟩
  · exact absurd hseq hno
  · rw [heq]
    exact hw
  · rw [heq]
    show ra.grow = mx
    rw [grow_of_lt (by omega), h.maxWindow]
    omega
  · rw [heq]
    exact hw

/-- The state inside a run of blocks, counted modulo 2^64. -/
theorem last_of_run (ra : AdaptiveReadahead) (s n : Nat) :
    let r := (adaptiveCalls ra (rangeBlocks s (n + 1))).1
    r.haveLast = true ∧ u64 (r.lastBlock + 1) = u64 (s + (n + 1)) := by
  intro r
  have hr : r = (adaptiveReadaheadOnAccess record (adaptiveCalls ra (rangeBlocks s n)).1
      (adaptiveCalls ra (rangeBlocks s n)).2 (u64 (s + n))).1 := by
    simp only [r, rangeBlocks_succ, adaptiveCalls, hookRun_concat]
  rw [hr]
  refine ⟨?_, ?_⟩
  · rcases adaptive_cases record (adaptiveCalls ra (rangeBlocks s n)).1
      (adaptiveCalls ra (rangeBlocks s n)).2 (u64 (s + n)) with
      ⟨-, heq⟩ | ⟨-, -, heq⟩ | ⟨-, heq⟩ | ⟨-, -, -, heq⟩ <;> rw [heq]
  · rw [adaptive_last]
    unfold u64
    omega

/-- From a minimum of at least 1, the window is at its maximum after the access to `s + 1 + 2 * mx`: an
    edge beyond it cannot be reached with smaller windows. -/
theorem window_ramped (h : Clamped mn mx ra) (hpos : 1 ≤ mn) (hmn : mn ≤ mx)
    (hjump : ¬ (ra.haveLast = true ∧ s = u64 (ra.lastBlock + 1))) (hs : s + 2 + 3 * mx < 2 ^ 64) :
    (adaptiveCalls ra (rangeBlocks s (2 * mx + 1 + 1))).1.window = mx := by
  rw [rangeBlocks_eq (by omega)]
  have htiling := Tiling.run h.minWindow h.maxWindow hpos hmn hjump (show 1 ≤ 2 * mx + 1 by omega)
    (by omega)
  generalize adaptiveCalls ra (List.range' s (2 * mx + 1 + 1)) = st at htiling ⊢
  have hle := htiling.bounded.le_max
  have hlow := (htiling.ahead htiling.haveEdge).1
  have hlast := htiling.lastBlock
  have hramp := htiling.ramp
  omega

/-- **The window ramps up to its maximum, unless it starts at 0.** From any state reached by any accesses,
    in a run that starts with a non-sequential access to `s`: each time case B is taken the window becomes
    twice its value, clamped to the maximum, and from the access to `s + 1 + 2 * mx`, the run's access number
    `2 + 2 * mx`, on it is the maximum for as long as the run goes on. This is so exactly when the lower
    bound is at least 1. -/
theorem window_ramps_up_iff (hmn : mn ≤ mx) (hpos : 1 ≤ mx) (pre : List Nat)
    (hjump : ¬ ((adaptiveCalls (adaptiveReadaheadInit mn mx) pre).1.haveLast = true ∧
      s = u64 ((adaptiveCalls (adaptiveReadaheadInit mn mx) pre).1.lastBlock + 1)))
    (hs : s + 2 + 3 * mx < 2 ^ 64) :
    let after := fun n => (adaptiveCalls (adaptiveCalls (adaptiveReadaheadInit mn mx) pre).1
      (rangeBlocks s n)).1
    ((∀ n, (after n).AtEdge (u64 (s + n)) → (after (n + 1)).window = min (2 * (after n).window) mx) ∧
      ∀ n, 2 + 2 * mx ≤ n → (after n).window = mx) ↔ 1 ≤ mn := by
  intro after
  have hinit : Clamped mn mx (adaptiveReadaheadInit mn mx) := ⟨rfl, rfl, hmn⟩
  have hclamped : ∀ n, Clamped mn mx (after n) := fun n =>
    clamped_run hmn (clamped_run hmn hinit pre) _
  have hstep : ∀ n, ∃ calls,
      after (n + 1) = (adaptiveReadaheadOnAccess record (after n) calls (u64 (s + n))).1 := by
    intro n
    refine ⟨(adaptiveCalls (adaptiveCalls (adaptiveReadaheadInit mn mx) pre).1 (rangeBlocks s n)).2, ?_⟩
    simp only [after, rangeBlocks_succ]
    rw [adaptiveCalls, hookRun_concat]
    rfl
  constructor
  · rintro ⟨-, hmax⟩
    by_contra hzero
    have hmn0 : mn = 0 := by omega
    have hstay := hmax (2 + 2 * mx) (Nat.le_refl _)
    rw [window_zero_stays] at hstay
    · omega
    · exact (clamped_run hmn hinit pre).minWindow.trans hmn0
    · exact window_zero_stays hmn0 hmn0 pre
  · intro hmin
    constructor
    · intro n hat
      obtain ⟨calls, heq⟩ := hstep n
      have hle := (hclamped n).le_max
      obtain ⟨⟨hlast, hnext, hmax⟩, hedge, hat⟩ := hat
      rw [heq, adaptive_edge hlast hnext hmax hedge hat]
      show (after n).grow = _
      rw [grow_of_lt (by omega), (hclamped n).maxWindow]
    · intro n hn
      obtain ⟨k, rfl⟩ : ∃ k, n = 2 * mx + 1 + 1 + k := ⟨n - (2 * mx + 1 + 1), by omega⟩
      clear hn
      induction k with
      | zero => exact window_ramped (clamped_run hmn hinit pre) hmin hmn hjump hs
      | succ k ih =>
          obtain ⟨calls, heq⟩ := hstep (2 * mx + 1 + 1 + k)
          obtain ⟨hlast, hnext⟩ := last_of_run (adaptiveCalls (adaptiveReadaheadInit mn mx) pre).1 s
            (2 * mx + 1 + k)
          have hk : 2 * mx + 1 + k + 1 = 2 * mx + 1 + 1 + k := by omega
          rw [hk] at hlast hnext
          show (after (2 * mx + 1 + 1 + k + 1)).window = mx
          rw [heq]
          exact window_stays (by omega) hpos (hclamped _) hlast hnext.symm ih calls

/-- Windows from 1 to 4: the run reaches the maximum. -/
theorem window_ramps_up_iff_four :
    (adaptiveCalls (adaptiveCalls (adaptiveReadaheadInit 1 4) [3]).1 (rangeBlocks 10 10)).1.window = 4 :=
  ((window_ramps_up_iff (by decide) (by decide) [3] (by decide) (by decide)).mpr (Nat.le_refl 1)).2 10
    (Nat.le_refl 10)

/-- With the lower bound 0, which the drivers admit, the window is still 0 after the access to
    `s + 1 + 2 * mx`. -/
theorem window_stuck_at_zero :
    (0 : Nat) ≤ 4 ∧ 1 ≤ 4 ∧ (adaptiveReadaheadInit 0 4).haveLast = false ∧ 10 + 2 + 3 * 4 < 2 ^ 64 ∧
    rangeBlocks 10 10 = [10, 11, 12, 13, 14, 15, 16, 17, 18, 10 + 1 + 2 * 4] ∧
    (adaptiveCalls (adaptiveReadaheadInit 0 4) (rangeBlocks 10 10)).1.window = 0 ∧
    (adaptiveCalls (adaptiveReadaheadInit 0 4) (rangeBlocks 10 10)).1.window ≠ 4 := by
  decide

end Ramp

end Prefetch
end SystemsPlayground
