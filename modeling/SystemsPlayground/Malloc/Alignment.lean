import SystemsPlayground.Malloc.Correctness

/-!
# `Malloc.Alignment` — where the returned pointers lie

`my_malloc` asks `sbrk` for exactly `32 + size` bytes and never rounds a size up. A header is a multiple of 8
bytes, so the first pointer is as well aligned as the heap base, but a new block begins where the last one
ended: each request that takes a region from `sbrk` decides the alignment of every later one.

`malloc_aligned_iff` is the exact condition on a run: all its pointers are multiples of 8 if and only if, of the
requests that took a region, all but the last asked for a multiple of 8.
-/

namespace SystemsPlayground
namespace Malloc

open Word Runs

/-- A successful `sbrk` of `my_malloc(size)` returns the old break, which is not `NULL`, and moves it up by
    the requested amount, inside the address space. -/
def RaisesBreak (h : Heap) (os : Os) (size : Nat) : Prop :=
  ∀ p brk', os h.brk (toInt64 (u64 (sizeofBlock + size))) = some (p, brk') →
    p = h.brk ∧ p ≠ null ∧ brk' = h.brk + sizeofBlock + size ∧ brk' ≤ 2 ^ 64

/-- Any 64-bit size, with a `sbrk` that raises the break; `NULL` or a pointer returned before. (A size that
    the guards reject does not get as far as `sbrk`.) -/
def RaisingCall (s : Sys) : Call → Prop
  | .malloc size os => size ≤ sizeMax ∧ (size ≤ sizeMax - sizeofBlock → RaisesBreak s.heap os size)
  | .free ptr       => ptr = null ∨ ptr ∈ s.issued

/-- Runs of such calls, with the state before each of them. -/
def RaisingRun : Sys → List (Sys × Call) → Sys → Prop := Run fun s c t => RaisingCall s c ∧ s.Step c t

/-- The call takes a region for `n` bytes from `sbrk`: the size passes the guards, the free list has no
    block that fits, and `sbrk` succeeds. -/
def TakesRegion (s : Sys) (c : Call) (n : Nat) : Prop :=
  match c with
  | .malloc size os => size = n ∧ 0 < size ∧ size ≤ sizeMax - sizeofBlock ∧
      (∃ fuel, findFreeBlock fuel size s.heap = some null) ∧
      (os s.heap.brk (toInt64 (u64 (sizeofBlock + size)))).isSome = true
  | .free _ => False

/-- The invariant of the runs: the blocks lie below the break, and each was handed out. -/
structure RaisingInv (s : Sys) : Prop where
  inv : ∃ F, Inv s F
  below : ∀ a ∈ s.heap.blocks, a + sizeofBlock + (s.heap.mem a).size ≤ s.heap.brk
  handed : ∀ a ∈ s.heap.blocks, a + sizeofBlock ∈ s.issued

theorem start_raising_inv (mem : Nat → Block) (base : Nat) : RaisingInv (Sys.start mem base) :=
  ⟨⟨[], start_inv mem base⟩, by simp [Sys.start, Heap.blocks], by simp [Sys.start, Heap.blocks]⟩

/-! ## One call -/

section Step

variable {s t : Sys} {c : Call} {n : Nat}

/-- A break above all blocks gives fresh regions. -/
theorem RaisingInv.allowed (hi : RaisingInv s) (hc : RaisingCall s c) : Allowed s c := by
  cases c with
  | free ptr => exact hc
  | malloc size os =>
      refine ⟨hc.1, fun hle p brk' hans => ?_⟩
      obtain ⟨rfl, hnull, rfl, htop⟩ := hc.2 hle p brk' hans
      exact ⟨hnull, htop, fun a ha => Or.inr (hi.below a ha)⟩

/-- A region is taken for one size. -/
theorem TakesRegion.unique {m : Nat} (hm : TakesRegion s c m) (hn : TakesRegion s c n) : m = n := by
  cases c with
  | free ptr => exact hm.elim
  | malloc size os => exact hm.1.symm.trans hn.1

/-- **What a call does to the blocks.** It takes a region, and then the new block lies at the old break; or
    blocks and break stay. -/
theorem step_region (hi : RaisingInv s) (hc : RaisingCall s c) (hs : s.Step c t) :
    (∃ n, TakesRegion s c n ∧ t.heap.blocks = s.heap.blocks ++ [s.heap.brk] ∧
      t.heap.brk = s.heap.brk + sizeofBlock + n ∧ (t.heap.mem s.heap.brk).size = n ∧
      s.heap.brk + sizeofBlock ∈ t.issued) ∨
    ((∀ n, ¬ TakesRegion s c n) ∧ t.heap.blocks = s.heap.blocks ∧ t.heap.brk = s.heap.brk) := by
  have hallowed := hi.allowed hc
  obtain ⟨F, hF⟩ := hi.inv
  cases c with
  | free ptr =>
      obtain ⟨fuel, ⟨⟩⟩ := hs
      exact Or.inr ⟨fun _ h => h, blocks_congr myFree_calls, myFree_brk⟩
  | malloc size os =>
      obtain ⟨p, h', ho, hh, ht⟩ := step_malloc_outcome hF hallowed hs
      have hnull : (∃ fuel, findFreeBlock fuel size s.heap = some null) ↔ _ :=
        findFreeBlock_null_iff hF.heap
      rw [hh]
      cases ho with
      | refused hn =>
          refine Or.inr ⟨fun n h => ?_, rfl, rfl⟩
          obtain ⟨-, hpos, hle, -⟩ := h
          omega
      | @reused l₁ l₂ b _ _ hFl _ hb =>
          refine Or.inr ⟨fun n h => ?_, blocks_reused s.heap b, by rw [setFree_brk, removeFreeBlock_brk]⟩
          obtain ⟨-, -, -, hfit, -⟩ := h
          have := hnull.mp hfit b (by rw [hFl]; simp)
          omega
      | failed _ _ _ hans =>
          refine Or.inr ⟨fun n h => ?_, blocks_record_fail s.heap _ _, rfl⟩
          obtain ⟨-, -, -, -, hsome⟩ := h
          rw [hans] at hsome
          cases hsome
      | @grown q brk' hpos hle hnone hans hq =>
          obtain ⟨rfl, -, hbrk', -⟩ := hc.2 hle q brk' hans
          refine Or.inl ⟨size, ⟨rfl, hpos, hle, hnull.mpr hnone, by rw [hans]; rfl⟩,
            blocks_grown _ _ _ _ hq, hbrk', by simp, ?_⟩
          rw [if_neg (show ¬ s.heap.brk + sizeofBlock = null by simp [sizeofBlock, null])] at ht
          rw [ht]
          exact List.mem_cons_self

theorem RaisingInv.step (hi : RaisingInv s) (hc : RaisingCall s c) (hs : s.Step c t) : RaisingInv t := by
  have hallowed := hi.allowed hc
  obtain ⟨F, hF⟩ := hi.inv
  have hext := step_extends hF hallowed hs
  have hissued := step_issued hs
  refine ⟨step_inv hF hallowed hs, fun a ha => ?_, fun a ha => ?_⟩
  · rcases step_region hi hc hs with ⟨n, -, hbl, hbrk, hsize, -⟩ | ⟨-, hbl, hbrk⟩
    · rw [hbl, List.mem_append, List.mem_singleton] at ha
      rcases ha with ha | rfl
      · have := hi.below a ha
        rw [hext.size a ha, hbrk]
        omega
      · rw [hsize, hbrk]
    · rw [hbl] at ha
      rw [hext.size a ha, hbrk]
      exact hi.below a ha
  · rcases step_region hi hc hs with ⟨n, -, hbl, -, -, hnew⟩ | ⟨-, hbl, -⟩
    · rw [hbl, List.mem_append, List.mem_singleton] at ha
      rcases ha with ha | rfl
      · exact hissued _ (hi.handed a ha)
      · exact hnew
    · exact hissued _ (hi.handed a (hbl ▸ ha))

end Step

/-! ## Runs -/

section Run

variable {s : Sys} {tr : List (Sys × Call)}

/-- A header is a multiple of 8 bytes, so the pointers are aligned when the blocks are. -/
theorem RaisingInv.aligned_iff_blocks (hi : RaisingInv s) :
    (∀ p ∈ s.issued, 8 ∣ p) ↔ ∀ a ∈ s.heap.blocks, 8 ∣ a := by
  have h32 : sizeofBlock = 32 := rfl
  constructor
  · intro h a ha
    have := h _ (hi.handed a ha)
    omega
  · intro h p hp
    obtain ⟨F, hF⟩ := hi.inv
    obtain ⟨hle, hblk⟩ := hF.issued p hp
    have := h _ hblk
    omega

/-- All the requests that took a region asked for a multiple of 8. -/
def AllEights (tr : List (Sys × Call)) : Prop := ∀ x ∈ tr, ∀ n, TakesRegion x.1 x.2 n → 8 ∣ n

/-- All of them but the last did: one after which another took a region. -/
def EightsBeforeLast (tr : List (Sys × Call)) : Prop :=
  tr.Pairwise fun x y => ∀ m n, TakesRegion x.1 x.2 m → TakesRegion y.1 y.2 n → 8 ∣ m

theorem AllEights.beforeLast (h : AllEights tr) : EightsBeforeLast tr := by
  refine List.pairwise_of_forall_mem_list ?_
  intro x hx y _ m n hm _
  exact h x hx m hm

/-- Along a run, the blocks are aligned under the one condition, and the break under the other too. -/
theorem raising_run_aligned {mem : Nat → Block} {base : Nat} (hbase : 16 ∣ base)
    (hr : RaisingRun (Sys.start mem base) tr s) :
    RaisingInv s ∧ ((∀ a ∈ s.heap.blocks, 8 ∣ a) ↔ EightsBeforeLast tr) ∧
      ((∀ a ∈ s.heap.blocks, 8 ∣ a) ∧ 8 ∣ s.heap.brk ↔ AllEights tr) := by
  have h32 : sizeofBlock = 32 := rfl
  induction hr with
  | nil =>
      refine ⟨start_raising_inv mem base, ?_, ?_⟩
      · simp [Sys.start, Heap.blocks, EightsBeforeLast]
      · have : 8 ∣ base := Nat.dvd_trans (by decide) hbase
        simp [Sys.start, Heap.blocks, AllEights, this]
  | @snoc t u c tr _ hstep ih =>
      obtain ⟨hi, hblocks, hbrk⟩ := ih
      obtain ⟨hc, hs⟩ := hstep
      have hlast : EightsBeforeLast (tr ++ [(t, c)]) ↔
          EightsBeforeLast tr ∧ ∀ x ∈ tr, ∀ m n, TakesRegion x.1 x.2 m → TakesRegion t c n → 8 ∣ m := by
        unfold EightsBeforeLast
        rw [List.pairwise_append]
        simp
      have hall : AllEights (tr ++ [(t, c)]) ↔ AllEights tr ∧ ∀ n, TakesRegion t c n → 8 ∣ n := by
        unfold AllEights
        simp only [List.mem_append, List.mem_singleton, or_imp, forall_and, forall_eq]
      refine ⟨hi.step hc hs, ?_⟩
      rw [hlast, hall]
      rcases step_region hi hc hs with ⟨n, htakes, hbl, hbrk', -⟩ | ⟨hnot, hbl, hbrk'⟩
      · -- the new block is at the old break
        have hnew : (∀ a ∈ u.heap.blocks, 8 ∣ a) ↔ (∀ a ∈ t.heap.blocks, 8 ∣ a) ∧ 8 ∣ t.heap.brk := by
          rw [hbl]
          simp only [List.mem_append, List.mem_singleton, or_imp, forall_and, forall_eq]
        rw [hnew, hbrk, hbrk']
        constructor
        · constructor
          · intro h
            exact ⟨h.beforeLast, fun x hx m _ hm _ => h x hx m hm⟩
          · rintro ⟨-, h⟩ x hx m hm
            exact h x hx m n hm htakes
        · constructor
          · rintro ⟨h, hend⟩
            refine ⟨h, fun m hm => ?_⟩
            rw [hm.unique htakes]
            have := (hbrk.mpr h).2
            omega
          · rintro ⟨h, hn⟩
            have := (hbrk.mpr h).2
            have := hn n htakes
            exact ⟨h, by omega⟩
      · rw [hbl, hbrk', hbrk, hblocks]
        simp [hnot]

/-- **When all pointers are 8-byte aligned.** In a run from a heap base that is a multiple of 16, every pointer
    that `my_malloc` returned is a multiple of 8 if and only if, of the requests that took a region from
    `sbrk`, all but the last asked for a multiple of 8. -/
theorem malloc_aligned_iff {mem : Nat → Block} {base : Nat} (hbase : 16 ∣ base)
    (hr : RaisingRun (Sys.start mem base) tr s) :
    (∀ p ∈ s.issued, 8 ∣ p) ↔ tr.Pairwise fun x y =>
      ∀ m n, TakesRegion x.1 x.2 m → TakesRegion y.1 y.2 n → 8 ∣ m := by
  obtain ⟨hi, hblocks, -⟩ := raising_run_aligned hbase hr
  exact hi.aligned_iff_blocks.trans hblocks

/-- A system that grants every request below the top of the address space raises the break. -/
theorem grantOs_raises {h : Heap} {size : Nat} (hpos : 0 < h.brk)
    (htop : h.brk + sizeofBlock + size < 2 ^ 63) : RaisesBreak h grantOs size := by
  intro p brk' hans
  rw [u64_of_lt (by omega), toInt64_of_lt (by omega)] at hans
  obtain ⟨rfl, rfl⟩ := Prod.mk.inj (Option.some.inj hans)
  refine ⟨rfl, ?_, by omega, by omega⟩
  simp only [null]
  omega

theorem grant_raising_run (cs : List Granted) (h : ∀ x ∈ plays Sys.grant zeroed cs, x.2.Fine x.1) :
    RaisingRun zeroed ((plays Sys.grant zeroed cs).map (Prod.map id Granted.toCall)) (cs.foldl Sys.grant zeroed) := by
  refine Run.map Granted.toCall (fun {s c t} hstep => ?_) (grant_run cs h)
  obtain ⟨hfine, rfl⟩ := hstep
  refine ⟨?_, 4, hfine.step.2⟩
  cases c with
  | malloc size => exact ⟨hfine.step.1.1, fun _ => grantOs_raises hfine.1.1 hfine.1.2⟩
  | free ptr    => exact hfine.step.1

/-- Two blocks, the first one of which is reused for 5 bytes, and a third one of 3 bytes. -/
def roundSizes : List Granted := [.malloc 16, .malloc 8, .free 4128, .malloc 5, .malloc 3]

/-- The third block of this run would be misplaced. -/
def oddSizes : List Granted := [.malloc 16, .malloc 5, .free 4128, .malloc 8, .malloc 3]

/-- Of the first run all pointers are aligned, so its last block only can have another size; and of the second
    run one is not. -/
theorem malloc_aligned_iff_sizes :
    ((roundSizes.foldl Sys.grant zeroed).issued = [4216, 4128, 4176, 4128] ∧
      ((plays Sys.grant zeroed roundSizes).map (Prod.map id Granted.toCall)).Pairwise fun x y =>
        ∀ m n, TakesRegion x.1 x.2 m → TakesRegion y.1 y.2 n → 8 ∣ m) ∧
    (oddSizes.foldl Sys.grant zeroed).issued = [4213, 4128, 4176, 4128] ∧
      ¬ ((plays Sys.grant zeroed oddSizes).map (Prod.map id Granted.toCall)).Pairwise fun x y =>
        ∀ m n, TakesRegion x.1 x.2 m → TakesRegion y.1 y.2 n → 8 ∣ m := by
  have hround := malloc_aligned_iff (by decide) (grant_raising_run roundSizes (by decide))
  have hodd := malloc_aligned_iff (by decide) (grant_raising_run oddSizes (by decide))
  exact ⟨⟨by decide, hround.mp (by decide)⟩, by decide, fun hpair => absurd (hodd.mpr hpair) (by decide)⟩

/-- The state after `my_malloc(1)`, and after a second one. -/
def oneByte : Sys :=
  ⟨(((Sys.start (fun _ => ⟨0, 0, 0, 0⟩) 4096).heap.record ⟨33, 4096⟩ 4129).setSize 4096 1).setFree
    4096 0, [4128], [(4128, 1)]⟩

def twoBytes : Sys :=
  ⟨((oneByte.heap.record ⟨33, 4129⟩ 4162).setSize 4129 1).setFree 4129 0, [4161, 4128],
    [(4161, 1), (4128, 1)]⟩

/-- **A pointer that is not aligned**: from a heap base of 4096, the second `my_malloc(1)` returns 4161. -/
theorem malloc_misaligned :
    RaisingRun (Sys.start (fun _ => ⟨0, 0, 0, 0⟩) 4096)
      [(Sys.start (fun _ => ⟨0, 0, 0, 0⟩) 4096, .malloc 1 grantOs), (oneByte, .malloc 1 grantOs)]
      twoBytes ∧
    16 ∣ 4096 ∧ 4161 ∈ twoBytes.issued ∧ ¬ 8 ∣ 4161 := by
  refine ⟨?_, by decide, by decide, by decide⟩
  have hfirst : RaisingRun (Sys.start (fun _ => ⟨0, 0, 0, 0⟩) 4096)
      [(Sys.start (fun _ => ⟨0, 0, 0, 0⟩) 4096, .malloc 1 grantOs)] oneByte := by
    refine Run.snoc Run.nil ⟨⟨by decide, fun _ => grantOs_raises (by decide) (by decide)⟩, 1, ?_⟩
    simp [Sys.step, Sys.start, oneByte, myMalloc, findFreeBlock, findFreeBlockFrom, sbrk, grantOs,
      sizeMax, sizeofBlock, null, u64, toInt64]
  refine Run.snoc hfirst ⟨⟨by decide, fun _ => grantOs_raises (by decide) (by decide)⟩, 1, ?_⟩
  simp [Sys.step, Sys.start, oneByte, twoBytes, myMalloc, findFreeBlock, findFreeBlockFrom, sbrk, grantOs,
    sizeMax, sizeofBlock, null, u64, toInt64]

end Run

end Malloc
end SystemsPlayground
