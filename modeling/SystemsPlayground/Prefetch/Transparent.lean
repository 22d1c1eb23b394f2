import Mathlib.Data.List.Chain
import SystemsPlayground.Prefetch.Readahead

/-!
# `Prefetch.Transparent` — read-ahead on traces that are not sequential

Both hooks act on the pool only after an access to the block that follows the previous one. On a trace
without such a pair, the driver loop with a hook cannot be told from the loop without one: the lookups have
the same results and the pool is the same after every access (`Simulator.run_quiet`). What the hook
remembers, its window and an edge of an earlier run, does not matter.
-/

namespace SystemsPlayground
namespace Prefetch

open Word

/-- The driver loop without a read-ahead hook. -/
def plainSimulator : Simulator Unit BufferPool :=
  ⟨bufferPoolLookup, bufferPoolInsert, fun _ pool _ => ((), pool)⟩

/-- What a loop leaves after the accesses of a trace: the lookup results and the pool. -/
def Simulator.outcome {σ π : Type} (sim : Simulator σ π) (pread : Nat → Bool) (trace : List Nat)
    (st : σ × π) : Option (List Bool × π) :=
  (sim.run pread trace st).map fun r => (r.1, r.2.2)

/-- No access is to the block after that of the access before. -/
def NonSequential (trace : List Nat) : Prop := trace.IsChain fun a b => b ≠ u64 (a + 1)

/-! ## Hooks that keep quiet -/

section Quiet

variable {σ τ π : Type} {simA : Simulator σ π} {simB : Simulator τ π} {pread : Nat → Bool}
  {P : σ → List Nat → Prop} {trace : List Nat} {st : σ} {pool : π} {b : Nat}

/-- An access whose hook leaves the pool alone is that of a loop without a hook. -/
theorem Simulator.access_quiet {st : σ} {sb : τ} (hlookup : simA.lookup = simB.lookup)
    (hinsert : simA.insert = simB.insert) (hplain : ∀ s pool b, (simB.onAccess s pool b).2 = pool)
    (hquiet : ∀ pool, (simA.onAccess st pool b).2 = pool) :
    (simA.access pread (st, pool) b).map (fun r => (r.1, r.2.2)) =
      (simB.access pread (sb, pool) b).map (fun r => (r.1, r.2.2)) := by
  unfold Simulator.access
  rw [hlookup, hinsert]
  rcases hfound : simB.lookup pool b with ⟨found, pool₁⟩
  cases found with
  | true => simp [hplain, hquiet]
  | false => by_cases hread : pread b = true <;> simp [hplain, hquiet, hread]

/-- What the hook remembers after an access is what one of its calls returned. -/
theorem Simulator.access_hook {hit : Bool} {st' : σ × π}
    (h : simA.access pread (st, pool) b = some (hit, st')) :
    ∃ pool', st'.1 = (simA.onAccess st pool' b).1 := by
  rcases Simulator.access_cases h with ⟨pool₁, -, -, rfl⟩ | ⟨pool₁, -, -, -, rfl⟩
  · exact ⟨pool₁, rfl⟩
  · exact ⟨simA.insert pool₁ b, rfl⟩

theorem Simulator.outcome_cons (sim : Simulator σ π) (pread : Nat → Bool) (b : Nat) (trace : List Nat)
    (st : σ × π) :
    sim.outcome pread (b :: trace) st = (sim.access pread st b).bind fun r =>
      (sim.outcome pread trace r.2).map fun o => (r.1 :: o.1, o.2) := by
  unfold Simulator.outcome
  rw [Simulator.run]
  cases sim.access pread st b with
  | none => rfl
  | some r =>
      cases hrun : sim.run pread trace r.2 with
      | none => simp [hrun]
      | some r₁ => simp [hrun]

/-- **A hook that keeps quiet on the rest of the trace does not show.** `P` says of the hook's state and of
    the accesses that are left that the hook will not touch the pool. -/
theorem Simulator.run_quiet {sb : τ} (hlookup : simA.lookup = simB.lookup)
    (hinsert : simA.insert = simB.insert) (hplain : ∀ s pool b, (simB.onAccess s pool b).2 = pool)
    (hstep : ∀ st b trace pool, P st (b :: trace) →
      (simA.onAccess st pool b).2 = pool ∧ P (simA.onAccess st pool b).1 trace)
    (h : P st trace) :
    simA.outcome pread trace (st, pool) = simB.outcome pread trace (sb, pool) := by
  induction trace generalizing st sb pool with
  | nil => rfl
  | cons b trace ih =>
      have haccess : (simA.access pread (st, pool) b).map (fun r => (r.1, r.2.2)) =
          (simB.access pread (sb, pool) b).map (fun r => (r.1, r.2.2)) :=
        Simulator.access_quiet hlookup hinsert hplain fun pool => (hstep st b trace pool h).1
      rw [Simulator.outcome_cons, Simulator.outcome_cons]
      cases hA : simA.access pread (st, pool) b with
      | none =>
          rw [hA, Option.map_none, eq_comm, Option.map_eq_none_iff] at haccess
          rw [haccess]
          rfl
      | some rA =>
          obtain ⟨pool', hst⟩ := Simulator.access_hook hA
          rw [hA, Option.map_some, eq_comm, Option.map_eq_some_iff] at haccess
          obtain ⟨rB, hB, heq⟩ := haccess
          obtain ⟨hhit, hpool⟩ := Prod.mk.inj heq
          have hrest : simA.outcome pread trace (rA.2.1, rA.2.2) =
              simB.outcome pread trace (rB.2.1, rA.2.2) := ih (hst ▸ (hstep st b trace pool' h).2)
          rw [hB, Option.bind_some, Option.bind_some, hhit, show rB.2 = (rB.2.1, rA.2.2) from by rw [← hpool],
            ← hrest]

end Quiet

/-! ## The two hooks -/

section Hooks

variable {π : Type} {prefetchRange : π → Nat → Nat → π} {pool : π} {b : Nat}

/-- The fixed hook after a jump. -/
theorem readahead_jump {ra : Readahead}
    (h : ¬ (ra.haveLast = true ∧ b = u64 (ra.lastBlock + 1) ∧ 0 < ra.window)) :
    readaheadOnAccess prefetchRange ra pool b =
      ({ ra with haveEdge := false, lastBlock := b, haveLast := true }, pool) := by
  have hcond : ¬ ((ra.haveLast && b == u64 (ra.lastBlock + 1)) && decide (ra.window > 0)) = true := by
    simpa [and_assoc] using h
  simp only [readaheadOnAccess, if_neg hcond]

/-- The trace that is left, with the block of the last access in front of it. -/
def sinceLast (haveLast : Bool) (lastBlock : Nat) (trace : List Nat) : List Nat :=
  if haveLast = true then lastBlock :: trace else trace

/-- The first access of what is left does not follow the last one. -/
theorem not_sequential {haveLast : Bool} {lastBlock : Nat} {trace : List Nat}
    (h : NonSequential (sinceLast haveLast lastBlock (b :: trace))) :
    ¬ (haveLast = true ∧ b = u64 (lastBlock + 1)) ∧ NonSequential (b :: trace) := by
  cases haveLast with
  | false => exact ⟨fun hf => absurd hf.1 (by simp), h⟩
  | true =>
      obtain ⟨hb, hrest⟩ := List.isChain_cons_cons.mp (show NonSequential (lastBlock :: b :: trace) from h)
      exact ⟨fun hf => hb hf.2, hrest⟩

theorem readahead_quiet (ra : Readahead) (b : Nat) (trace : List Nat) (pool : π)
    (h : NonSequential (sinceLast ra.haveLast ra.lastBlock (b :: trace))) :
    (readaheadOnAccess prefetchRange ra pool b).2 = pool ∧
    NonSequential (sinceLast (readaheadOnAccess prefetchRange ra pool b).1.haveLast
      (readaheadOnAccess prefetchRange ra pool b).1.lastBlock trace) := by
  obtain ⟨hjump, hrest⟩ := not_sequential h
  rw [readahead_jump fun hf => hjump ⟨hf.1, hf.2.1⟩]
  exact ⟨rfl, hrest⟩

theorem adaptive_quiet (ra : AdaptiveReadahead) (b : Nat) (trace : List Nat) (pool : π)
    (h : NonSequential (sinceLast ra.haveLast ra.lastBlock (b :: trace))) :
    (adaptiveReadaheadOnAccess prefetchRange ra pool b).2 = pool ∧
    NonSequential (sinceLast (adaptiveReadaheadOnAccess prefetchRange ra pool b).1.haveLast
      (adaptiveReadaheadOnAccess prefetchRange ra pool b).1.lastBlock trace) := by
  obtain ⟨hjump, hrest⟩ := not_sequential h
  rw [adaptive_jump fun hf => hjump ⟨hf.1, hf.2.1⟩]
  exact ⟨rfl, hrest⟩

/-- With a window of 0 the fixed hook never acts. -/
theorem readahead_zero (ra : Readahead) (b : Nat) (pool : π) (h : ra.window = 0) :
    (readaheadOnAccess prefetchRange ra pool b).2 = pool ∧
    (readaheadOnAccess prefetchRange ra pool b).1.window = 0 := by
  rw [readahead_jump fun hf => absurd hf.2.2 (by omega)]
  exact ⟨rfl, h⟩

end Hooks

variable {pread : Nat → Bool} {pool : BufferPool} {trace : List Nat}

theorem fixed_outcome (window : Nat) (h : NonSequential trace) :
    fixedSimulator.outcome pread trace (readaheadInit window, pool) =
      plainSimulator.outcome pread trace ((), pool) :=
  Simulator.run_quiet (P := fun (ra : Readahead) trace => NonSequential (sinceLast ra.haveLast ra.lastBlock trace))
    rfl rfl (fun _ _ _ => rfl) readahead_quiet h

theorem adaptive_outcome (minWindow maxWindow : Nat) (h : NonSequential trace) :
    adaptiveSimulator.outcome pread trace (adaptiveReadaheadInit minWindow maxWindow, pool) =
      plainSimulator.outcome pread trace ((), pool) :=
  Simulator.run_quiet (P := fun (ra : AdaptiveReadahead) trace =>
      NonSequential (sinceLast ra.haveLast ra.lastBlock trace))
    rfl rfl (fun _ _ _ => rfl) adaptive_quiet h

theorem fixed_outcome_zero (trace : List Nat) :
    fixedSimulator.outcome pread trace (readaheadInit 0, pool) =
      plainSimulator.outcome pread trace ((), pool) :=
  Simulator.run_quiet (P := fun ra _ => ra.window = 0) rfl rfl (fun _ _ _ => rfl)
    (fun ra b _ pool => readahead_zero ra b pool) rfl

/-! ## Cold misses -/

/-- A block that is not cached and occurs only once is missed. -/
theorem plain_misses {o : List Bool × BufferPool}
    (hnew : ∀ b ∈ trace, b ∉ cells pool.slots pool.count) (hdistinct : trace.Nodup)
    (h : plainSimulator.outcome pread trace ((), pool) = some o) :
    o.1 = List.replicate trace.length false := by
  induction trace generalizing pool o with
  | nil =>
      obtain rfl := Option.some.inj h
      rfl
  | cons b trace ih =>
      obtain ⟨hb, hdistinct'⟩ := List.nodup_cons.mp hdistinct
      rw [Simulator.outcome_cons, Option.bind_eq_some_iff] at h
      obtain ⟨⟨hit, st⟩, haccess, h⟩ := h
      obtain ⟨o₁, h₁, rfl⟩ := Option.map_eq_some_iff.mp h
      have hmiss : bufferPoolLookup pool b = (false, { pool with misses := u64 (pool.misses + 1) }) := by
        rw [bufferPoolLookup, findSlot_none.mpr (hnew b List.mem_cons_self)]
      rcases Simulator.access_cases haccess with ⟨pool₁, -, hfound, -⟩ | ⟨pool₁, rfl, hfound, -, rfl⟩
      · exact absurd (hmiss.symm.trans hfound) (by simp)
      · obtain rfl : _ = pool₁ := (Prod.mk.inj (hmiss.symm.trans hfound)).2
        have hrest := ih (fun x hx hmem => ?_) hdistinct' h₁
        · rw [List.length_cons, List.replicate_succ, ← hrest]
        · rcases mem_cells_insert hmem with hold | rfl
          · exact hnew x (List.mem_cons_of_mem _ hx) hold
          · exact hb hx

/-- **Read-ahead is transparent on traces that are not sequential.** Whatever the pool, the windows and
    the results of `pread`, both hooks, freshly initialised, leave after every access what the loop without a
    hook leaves; with a window of 0 the fixed one does so on every trace. Started on an empty pool, a trace
    of distinct blocks then misses at every access. -/
theorem readahead_transparent (pread : Nat → Bool) (pool : BufferPool)
    (window minWindow maxWindow : Nat) (trace : List Nat) :
    (NonSequential trace → ∀ n,
      fixedSimulator.outcome pread (trace.take n) (readaheadInit window, pool) =
        plainSimulator.outcome pread (trace.take n) ((), pool) ∧
      adaptiveSimulator.outcome pread (trace.take n) (adaptiveReadaheadInit minWindow maxWindow, pool) =
        plainSimulator.outcome pread (trace.take n) ((), pool)) ∧
    (∀ n, fixedSimulator.outcome pread (trace.take n) (readaheadInit 0, pool) =
      plainSimulator.outcome pread (trace.take n) ((), pool)) ∧
    (pool.count = 0 → trace.Nodup →
      (∀ o, plainSimulator.outcome pread trace ((), pool) = some o ∨
          fixedSimulator.outcome pread trace (readaheadInit 0, pool) = some o →
        o.1 = List.replicate trace.length false) ∧
      (NonSequential trace → ∀ o,
        fixedSimulator.outcome pread trace (readaheadInit window, pool) = some o ∨
          adaptiveSimulator.outcome pread trace (adaptiveReadaheadInit minWindow maxWindow, pool) = some o →
        o.1 = List.replicate trace.length false)) := by
  refine ⟨fun hseq n => ?_, fun n => fixed_outcome_zero _, fun hempty hdistinct => ?_⟩
  · have htake : NonSequential (trace.take n) := hseq.take n
    exact ⟨fixed_outcome window htake, adaptive_outcome minWindow maxWindow htake⟩
  · have hnew : ∀ b ∈ trace, b ∉ cells pool.slots pool.count := by simp [cells, hempty]
    refine ⟨fun o ho => ?_, fun hseq o ho => ?_⟩
    · rw [fixed_outcome_zero, or_self] at ho
      exact plain_misses hnew hdistinct ho
    · rw [fixed_outcome window hseq, adaptive_outcome minWindow maxWindow hseq, or_self] at ho
      exact plain_misses hnew hdistinct ho

/-- An empty pool of two slots. -/
def twoSlots : BufferPool :=
  { capacity := 2, blockSize := 512, slots := fun _ => 0, count := 0, evictPos := 0, hits := 0, misses := 0 }

/-- Three jumps over it: all three loops end, with the same misses and the same pool. -/
theorem readahead_transparent_jumps :
    ∃ pool', plainSimulator.outcome (fun _ => true) [5, 3, 9] ((), twoSlots) =
        some ([false, false, false], pool') ∧
      fixedSimulator.outcome (fun _ => true) [5, 3, 9] (readaheadInit 4, twoSlots) =
        some ([false, false, false], pool') ∧
      adaptiveSimulator.outcome (fun _ => true) [5, 3, 9] (adaptiveReadaheadInit 2 8, twoSlots) =
        some ([false, false, false], pool') := by
  have hseq : NonSequential [5, 3, 9] := by
    unfold NonSequential
    decide
  obtain ⟨hsame, -, hmisses⟩ := readahead_transparent (fun _ => true) twoSlots 4 2 8 [5, 3, 9]
  obtain ⟨hfixed, hadaptive⟩ := hsame hseq 3
  obtain ⟨⟨hits, pool'⟩, hplain⟩ := Option.isSome_iff_exists.mp
    (show (plainSimulator.outcome (fun _ => true) [5, 3, 9] ((), twoSlots)).isSome = true from rfl)
  obtain rfl : hits = [false, false, false] := (hmisses rfl (by decide)).1 _ (Or.inl hplain)
  exact ⟨pool', hplain, hfixed.trans hplain, hadaptive.trans hplain⟩

end Prefetch
end SystemsPlayground
