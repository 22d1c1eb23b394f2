import SystemsPlayground.Malloc.Correctness

/-!
# `Malloc.Tiling` — the heap as one contiguous region

Here the operating system is the program break: `sbrk` takes a signed increment, returns the old break
and moves it, and it refuses to move the break below the heap base (`breakOs`). The blocks then tile
`[base, brk)` in creation order — unless a request is so large that its `total_size`, unsigned in
`my_malloc`, is negative as the argument of `sbrk`. Such a call *shrinks* the heap and places a header at
the old break.

`NoShrink` is the condition under which a single call cannot do so, and `break_run_tiled_iff` says that
it is exactly what a run needs: every state of the run is tiled if and only if every call of it meets
`NoShrink`.
-/

namespace SystemsPlayground
namespace Malloc

open Word Runs

/-- `sbrk` as the program break provides it. It may fail on its own account (`willing = false`); it
    fails when the break would leave `[base, (void *)-1)`. -/
def breakOs (base : Nat) (willing : Bool) : Os := fun brk increment =>
  if willing = true ∧ (base : Int) ≤ brk + increment ∧ (brk : Int) + increment < sizeMax then
    some (brk, ((brk : Int) + increment).toNat)
  else none

/-- A client's call when `sbrk` is the program break. -/
inductive BreakCall where
  | malloc (size : Nat) (willing : Bool)
  | free (ptr : Nat)

/-- The call, served by the program break. -/
def BreakCall.toCall (base : Nat) : BreakCall → Call
  | .malloc size willing => .malloc size (breakOs base willing)
  | .free ptr            => .free ptr

/-- Any 64-bit size; `NULL` or a pointer returned before. -/
def BreakCall.Ok (s : Sys) : BreakCall → Prop
  | .malloc size _ => size ≤ sizeMax
  | .free ptr      => ptr = null ∨ ptr ∈ s.issued

/-- A run, with the state before each call. -/
def BreakRun (base : Nat) : Sys → List (Sys × BreakCall) → Sys → Prop :=
  Run fun s c t => c.Ok s ∧ s.Step (c.toCall base) t

/-! ## Tiling -/

/-- The blocks follow each other without a gap from `a` up to `e`, each taking its header and its
    `size` bytes. -/
def Tiles (h : Heap) : Nat → List Nat → Nat → Prop
  | a, [],      e => a = e
  | a, b :: bs, e => b = a ∧ Tiles h (b + sizeofBlock + (h.mem b).size) bs e

/-- The heap is tiled by the blocks created so far, in creation order; hence the live payloads lie
    below the break and no block reaches into a later one. -/
structure HeapTiled (base : Nat) (s : Sys) : Prop where
  tiles : Tiles s.heap base s.heap.blocks s.heap.brk
  payload : ∀ e ∈ s.live, base ≤ e.1 ∧ e.1 + e.2 ≤ s.heap.brk
  disjoint : s.heap.blocks.Pairwise (fun a b => a + sizeofBlock + (s.heap.mem a).size ≤ b)

section Tiles

variable {h h' : Heap} {a e : Nat} {bs : List Nat}

theorem Tiles.congr (ht : Tiles h a bs e) (hs : ∀ b ∈ bs, (h'.mem b).size = (h.mem b).size) :
    Tiles h' a bs e := by
  induction bs generalizing a with
  | nil => exact ht
  | cons b bs ih =>
      obtain ⟨rfl, ht⟩ := ht
      refine ⟨rfl, ?_⟩
      rw [hs b List.mem_cons_self]
      exact ih ht (fun c hc => hs c (List.mem_cons_of_mem b hc))

theorem tiles_snoc {p : Nat} :
    Tiles h a (bs ++ [p]) e ↔ Tiles h a bs p ∧ p + sizeofBlock + (h.mem p).size = e := by
  induction bs generalizing a with
  | nil =>
      simp only [List.nil_append, Tiles]
      exact ⟨fun ⟨hp, he⟩ => ⟨hp.symm, he⟩, fun ⟨hp, he⟩ => ⟨hp.symm, he⟩⟩
  | cons b bs ih =>
      simp only [List.cons_append, Tiles, ih, and_assoc]

theorem Tiles.le (ht : Tiles h a bs e) : a ≤ e := by
  induction bs generalizing a with
  | nil => exact Nat.le_of_eq ht
  | cons b bs ih =>
      obtain ⟨rfl, ht⟩ := ht
      have := ih ht
      omega

/-- Every block of a tiling lies inside it. -/
theorem Tiles.bounds (ht : Tiles h a bs e) :
    ∀ b ∈ bs, a ≤ b ∧ b + sizeofBlock + (h.mem b).size ≤ e := by
  induction bs generalizing a with
  | nil => simp
  | cons b bs ih =>
      obtain ⟨rfl, ht⟩ := ht
      intro c hc
      rcases List.mem_cons.mp hc with rfl | hc
      · exact ⟨Nat.le_refl _, ht.le⟩
      · obtain ⟨h₁, h₂⟩ := ih ht c hc
        exact ⟨by omega, h₂⟩

/-- No block of a tiling reaches into a later one. -/
theorem Tiles.pairwise (ht : Tiles h a bs e) :
    bs.Pairwise (fun a b => a + sizeofBlock + (h.mem a).size ≤ b) := by
  induction bs generalizing a with
  | nil => exact List.Pairwise.nil
  | cons b bs ih =>
      obtain ⟨rfl, ht⟩ := ht
      exact List.pairwise_cons.mpr ⟨fun c hc => (ht.bounds c hc).1, ih ht⟩

end Tiles

/-! ## The condition on a call -/

/-- The call does not make the program break shrink the heap: the size is small enough for
    `total_size` to be positive as a signed number, or is rejected by the overflow guard, or `sbrk`
    fails — on its own account, or because the heap has fewer than `2^64 - 32 - size` bytes. -/
def NoShrink (base : Nat) (s : Sys) : BreakCall → Prop
  | .malloc size willing =>
    size + sizeofBlock < 2 ^ 63 ∨ sizeMax - sizeofBlock < size ∨ willing = false ∨
      s.heap.brk + sizeofBlock + size < base + 2 ^ 64
  | .free _ => True

/-- The invariant of the runs whose calls all meet `NoShrink`. -/
structure BreakInv (base : Nat) (s : Sys) : Prop where
  inv : ∃ F, Inv s F
  tiles : Tiles s.heap base s.heap.blocks s.heap.brk
  small : ∀ b ∈ s.heap.blocks, (s.heap.mem b).size + sizeofBlock < 2 ^ 63
  below : s.heap.brk < sizeMax

theorem BreakInv.heapTiled {base : Nat} {s : Sys} (hi : BreakInv base s) : HeapTiled base s := by
  obtain ⟨F, hinv⟩ := hi.inv
  refine ⟨hi.tiles, fun e he => ?_, hi.tiles.pairwise⟩
  obtain ⟨hissued, -, hsize⟩ := hinv.live e he
  obtain ⟨hle, hblk⟩ := hinv.issued e.1 hissued
  obtain ⟨h₁, h₂⟩ := hi.tiles.bounds _ hblk
  omega

/-- The answer of the program break to a request whose `total_size` is positive as a signed number. -/
theorem breakOs_grow {base brk size : Nat} {w : Bool} {p brk' : Nat}
    (hsz : size + sizeofBlock < 2 ^ 63)
    (ha : breakOs base w brk (toInt64 (u64 (sizeofBlock + size))) = some (p, brk')) :
    p = brk ∧ brk' = brk + sizeofBlock + size ∧ brk' < sizeMax := by
  have hsz' : sizeofBlock + size < 2 ^ 63 := by omega
  rw [u64_of_lt (by omega), toInt64_of_lt hsz'] at ha
  unfold breakOs at ha
  split_ifs at ha with hc
  cases ha
  exact ⟨rfl, by omega, by omega⟩

/-- The answer to a request whose `total_size` is negative as a signed number. -/
theorem breakOs_shrink {base brk size : Nat} {w : Bool} (hlo : 2 ^ 63 ≤ size + sizeofBlock)
    (hhi : size ≤ sizeMax - sizeofBlock) :
    breakOs base w brk (toInt64 (u64 (sizeofBlock + size))) =
      if w = true ∧ base + 2 ^ 64 ≤ brk + sizeofBlock + size ∧
          brk + sizeofBlock + size < sizeMax + 2 ^ 64 then
        some (brk, brk + sizeofBlock + size - 2 ^ 64)
      else none := by
  have hmax : sizeMax = 2 ^ 64 - 1 := rfl
  have h32 : sizeofBlock = 32 := rfl
  rw [u64_of_lt (by omega), toInt64_of_le (by omega)]
  unfold breakOs
  by_cases hw : w = true
  · by_cases hc : base + 2 ^ 64 ≤ brk + sizeofBlock + size ∧
        brk + sizeofBlock + size < sizeMax + 2 ^ 64
    · have hnew : ((brk : Int) + (((sizeofBlock + size : Nat) : Int) - 2 ^ 64)).toNat =
          brk + sizeofBlock + size - 2 ^ 64 := by omega
      rw [if_pos ⟨hw, by omega, by omega⟩, if_pos ⟨hw, hc⟩, hnew]
    · rw [if_neg (fun hd => hc ⟨by omega, by omega⟩), if_neg (fun hd => hc hd.2)]
  · rw [if_neg (fun hd => hw hd.1), if_neg (fun hd => hw hd.1)]

/-- A request that would shrink the heap and yet meets `NoShrink` is refused; so whoever gets a region has
    asked for a positive number of bytes. -/
theorem NoShrink.positive {base size : Nat} {w : Bool} {s : Sys} {r : Nat × Nat}
    (hc : NoShrink base s (.malloc size w)) (hle : size ≤ sizeMax - sizeofBlock)
    (ha : breakOs base w s.heap.brk (toInt64 (u64 (sizeofBlock + size))) = some r) :
    size + sizeofBlock < 2 ^ 63 := by
  by_contra hsz
  rw [breakOs_shrink (Nat.not_lt.mp hsz) hle] at ha
  split_ifs at ha with hd
  rcases hc with hc | hc | hc | hc
  · exact hsz hc
  · omega
  · simp [hc] at hd
  · omega

/-- A call that meets `NoShrink` gets a fresh region from the program break, if any. -/
theorem NoShrink.fresh {base size : Nat} {w : Bool} {s : Sys} (hbase : 0 < base)
    (hi : BreakInv base s) (hc : NoShrink base s (.malloc size w)) :
    FreshRegion s.heap (breakOs base w) size := by
  have hmax : sizeMax = 2 ^ 64 - 1 := rfl
  have h32 : sizeofBlock = 32 := rfl
  have hle' := hi.tiles.le
  intro hle p brk' ha
  obtain ⟨rfl, rfl, hlt⟩ := breakOs_grow (hc.positive hle ha) ha
  refine ⟨?_, by omega, fun a ha' => Or.inr (hi.tiles.bounds a ha').2⟩
  simp only [null]
  omega

theorem NoShrink.allowed {base : Nat} {s : Sys} {c : BreakCall} (hbase : 0 < base)
    (hi : BreakInv base s) (hok : c.Ok s) (hc : NoShrink base s c) : Allowed s (c.toCall base) := by
  cases c with
  | malloc size w => exact ⟨hok, hc.fresh hbase hi⟩
  | free ptr => exact hok

/-- **One call that meets `NoShrink` keeps the tiling.** -/
theorem step_break_inv {base : Nat} {s s' : Sys} {c : BreakCall} (hbase : 0 < base)
    (hi : BreakInv base s) (hok : c.Ok s) (hc : NoShrink base s c)
    (hs : s.Step (c.toCall base) s') : BreakInv base s' := by
  have hallowed := hc.allowed hbase hi hok
  obtain ⟨F, hF⟩ := hi.inv
  have hinv' := step_inv hF hallowed hs
  have hext := step_extends hF hallowed hs
  -- unless `sbrk` succeeds the blocks, their sizes and the break are as before
  have keep : s'.heap.blocks = s.heap.blocks → s'.heap.brk = s.heap.brk → BreakInv base s' := by
    intro hbl hbrk
    refine ⟨hinv', ?_, ?_, hbrk ▸ hi.below⟩
    · rw [hbl, hbrk]
      exact hi.tiles.congr hext.size
    · intro b hb
      rw [hbl] at hb
      rw [hext.size b hb]
      exact hi.small b hb
  cases c with
  | free ptr =>
      obtain ⟨fuel, ⟨⟩⟩ := hs
      exact keep (blocks_congr myFree_calls) myFree_brk
  | malloc size w =>
      obtain ⟨p, h', ho, hh, -⟩ := step_malloc_outcome hF hallowed hs
      cases ho with
      | refused _ => exact keep (by rw [hh]) (by rw [hh])
      | reused _ _ _ _ _ =>
          exact keep (by rw [hh, blocks_reused]) (by rw [hh, setFree_brk, removeFreeBlock_brk])
      | failed _ _ _ _ => exact keep (by rw [hh, blocks_record_fail]) (by rw [hh]; rfl)
      | @grown q brk' _ hle _ hans hq =>
          have hsz := hc.positive hle hans
          obtain ⟨rfl, hbrk', hlt⟩ := breakOs_grow hsz hans
          have hbl : s'.heap.blocks = s.heap.blocks ++ [s.heap.brk] := by
            rw [hh, blocks_grown _ _ _ _ hq]
          have hbrk : s'.heap.brk = s.heap.brk + sizeofBlock + size := by rw [hh, ← hbrk']; rfl
          have hsize : (s'.heap.mem s.heap.brk).size = size := by simp [hh]
          refine ⟨hinv', ?_, ?_, by omega⟩
          · rw [hbl, hbrk]
            exact tiles_snoc.mpr ⟨hi.tiles.congr hext.size, by rw [hsize]⟩
          · intro b hb
            rw [hbl] at hb
            rcases List.mem_append.mp hb with hb | hb
            · rw [hext.size b hb]
              exact hi.small b hb
            · rw [List.mem_singleton.mp hb, hsize]
              exact hsz

/-- **One call that does not meet `NoShrink` destroys it**: the block is placed at the old break and
    the new break lies below it. -/
theorem step_not_tiled {base : Nat} {s s' : Sys} {c : BreakCall} (hi : BreakInv base s)
    (hc : ¬ NoShrink base s c) (hs : s.Step (c.toCall base) s') : ¬ HeapTiled base s' := by
  have hmax : sizeMax = 2 ^ 64 - 1 := rfl
  have h32 : sizeofBlock = 32 := rfl
  have hbelow := hi.below
  obtain ⟨F, hF⟩ := hi.inv
  obtain ⟨fuel, hs⟩ := hs
  cases c with
  | free ptr => exact absurd trivial hc
  | malloc size w =>
      simp only [NoShrink, not_or, Nat.not_lt, Bool.not_eq_false] at hc
      obtain ⟨hlo, hhi, hw, hheap⟩ := hc
      have hans : breakOs base w s.heap.brk (toInt64 (u64 (sizeofBlock + size))) =
          some (s.heap.brk, s.heap.brk + sizeofBlock + size - 2 ^ 64) := by
        rw [breakOs_shrink hlo hhi, if_pos ⟨hw, hheap, by omega⟩]
      obtain ⟨⟨p, h'⟩, hm, hs'⟩ := Option.map_eq_some_iff.mp hs
      have hh : s'.heap = h' := by split_ifs at hs' <;> (subst hs'; rfl)
      have hos : ∀ q brk', breakOs base w s.heap.brk (toInt64 (u64 (sizeofBlock + size))) =
          some (q, brk') → q ≠ sizeMax := by
        intro q brk' hq
        rw [hans] at hq
        cases hq
        omega
      have ho := myMalloc_outcome hF.heap.rep hF.heap.free_ne_zero (fun _ => hos) hm
      intro ht
      cases ho with
      | refused hr => omega
      | failed _ _ _ hf => rw [hans] at hf; cases hf
      | @reused l₁ l₂ b _ _ hFl _ hfit =>
          -- every block is smaller than the request
          have hb : b ∈ F := by rw [hFl]; simp
          have hsmall := hi.small b ((hF.heap.listed b).mp hb).1
          omega
      | @grown q brk' _ _ _ hg hq =>
          rw [hans] at hg
          cases hg
          have hbl : s'.heap.blocks = s.heap.blocks ++ [s.heap.brk] := by
            rw [hh, blocks_grown _ _ _ _ hq]
          -- the last block of a tiling ends at the break, but this one starts above it
          have hend := (tiles_snoc.mp (hbl ▸ ht.tiles)).2
          have hbrk : s'.heap.brk = s.heap.brk + sizeofBlock + size - 2 ^ 64 := by rw [hh]; rfl
          omega

theorem start_break_inv {base : Nat} (mem : Nat → Block) (hlt : base < sizeMax) :
    BreakInv base (Sys.start mem base) :=
  ⟨⟨[], start_inv mem base⟩, rfl, by simp [Sys.start, Heap.blocks], hlt⟩

/-- **When the heap is tiled.** For every run from a fresh heap, with arbitrary 64-bit sizes and frees of
    `NULL` or of pointers returned before: every state of the run is tiled if and only if every call of
    it meets `NoShrink` in the state before it. -/
theorem break_run_tiled_iff {base : Nat} {mem : Nat → Block} {s : Sys}
    {tr : List (Sys × BreakCall)} (hbase : 0 < base) (hlt : base < sizeMax)
    (hr : BreakRun base (Sys.start mem base) tr s) :
    ((∀ x ∈ tr, HeapTiled base x.1) ∧ HeapTiled base s) ↔ ∀ x ∈ tr, NoShrink base x.1 x.2 := by
  refine hr.always_iff (start_break_inv mem hlt) BreakInv.heapTiled ?_ ?_
  · rintro s c t hi hc ⟨hok, hstep⟩
    exact step_break_inv hbase hi hok hc hstep
  · rintro s c t hi hc ⟨-, hstep⟩
    exact step_not_tiled hi hc hstep

/-! ### A run that grows and a run that shrinks -/

instance (s : Sys) : (c : BreakCall) → Decidable (c.Ok s)
  | .malloc _ _ => inferInstanceAs (Decidable (_ ≤ _))
  | .free _     => inferInstanceAs (Decidable (_ ∨ _))

instance (base : Nat) (s : Sys) : (c : BreakCall) → Decidable (NoShrink base s c)
  | .malloc _ _ => inferInstanceAs (Decidable (_ ∨ _ ∨ _ ∨ _))
  | .free _     => inferInstanceAs (Decidable True)

/-- The state after a call, from a heap base of 4096. -/
def Sys.serve (s : Sys) (c : BreakCall) : Sys := (s.step 4 (c.toCall 4096)).getD s

theorem serve_run (cs : List BreakCall)
    (h : ∀ x ∈ plays Sys.serve zeroed cs, x.2.Ok x.1 ∧ (x.1.step 4 (x.2.toCall 4096)).isSome = true) :
    BreakRun 4096 zeroed (plays Sys.serve zeroed cs) (cs.foldl Sys.serve zeroed) := by
  refine Run.play cs fun x hx => ?_
  obtain ⟨hok, hsome⟩ := h x hx
  obtain ⟨t, ht⟩ := Option.isSome_iff_exists.mp hsome
  refine ⟨hok, 4, ?_⟩
  rw [Sys.serve, ht]
  rfl

/-- Two blocks, a `sbrk` that fails, a block that is reused, and a request so large that the break would fall
    below the heap base. -/
def growing : List BreakCall :=
  [.malloc 16 true, .malloc 32 false, .malloc 32 true, .free 4128, .malloc 8 true, .malloc (2 ^ 63) true]

theorem break_run_tiled_iff_growing :
    (growing.foldl Sys.serve zeroed).heap.blocks = [4096, 4144] ∧
    (∀ x ∈ plays Sys.serve zeroed growing, NoShrink 4096 x.1 x.2) ∧
    HeapTiled 4096 (growing.foldl Sys.serve zeroed) := by
  have hno : ∀ x ∈ plays Sys.serve zeroed growing, NoShrink 4096 x.1 x.2 := by decide
  have hrun := serve_run growing (by decide)
  exact ⟨rfl, hno, ((break_run_tiled_iff (by decide) (by decide) hrun).mpr hno).2⟩

/-- The state after `p = my_malloc(16)`, from a break of 4096 and a zeroed memory. -/
def oneBlock : Sys :=
  ⟨(((Sys.start (fun _ => ⟨0, 0, 0, 0⟩) 4096).heap.record ⟨48, 4096⟩ 4144).setSize 4096 16).setFree
    4096 0, [4128], [(4128, 16)]⟩

theorem oneBlock_break_run :
    BreakRun 4096 (Sys.start (fun _ => ⟨0, 0, 0, 0⟩) 4096)
      [(Sys.start (fun _ => ⟨0, 0, 0, 0⟩) 4096, .malloc 16 true)] oneBlock := by
  have hok : BreakCall.Ok (Sys.start (fun _ => ⟨0, 0, 0, 0⟩) 4096) (.malloc 16 true) :=
    show 16 ≤ sizeMax by decide
  refine Run.snoc Run.nil ⟨hok, 1, ?_⟩
  simp [BreakCall.toCall, Sys.step, Sys.start, oneBlock, myMalloc, findFreeBlock, findFreeBlockFrom,
    sbrk, breakOs, sizeMax, sizeofBlock, null, u64, toInt64]

/-- The state after a second call, `my_malloc(SIZE_MAX - 47)`: `total_size` is `2^64 - 16`, so `sbrk`
    moves the break from 4144 down to 4128 and returns 4144. -/
def shrunk : Sys :=
  ⟨((oneBlock.heap.record ⟨-16, 4144⟩ 4128).setSize 4144 (2 ^ 64 - 48)).setFree 4144 0,
    [4176, 4128], [(4176, 2 ^ 64 - 48), (4128, 16)]⟩

/-- **A reachable heap that is not tiled**: the second block starts at 4144, above the break of 4128, and
    the payload of the first one ends above it too. -/
theorem shrunk_not_tiled :
    BreakRun 4096 (Sys.start (fun _ => ⟨0, 0, 0, 0⟩) 4096)
      [(Sys.start (fun _ => ⟨0, 0, 0, 0⟩) 4096, .malloc 16 true),
        (oneBlock, .malloc (2 ^ 64 - 48) true)] shrunk ∧
      ¬ HeapTiled 4096 shrunk := by
  constructor
  · have hok : BreakCall.Ok oneBlock (.malloc (2 ^ 64 - 48) true) :=
      show 2 ^ 64 - 48 ≤ sizeMax by decide
    refine Run.snoc oneBlock_break_run ⟨hok, 1, ?_⟩
    simp [BreakCall.toCall, Sys.step, Sys.start, oneBlock, shrunk, myMalloc, findFreeBlock,
      findFreeBlockFrom, sbrk, breakOs, sizeMax, sizeofBlock, null, u64, toInt64]
  · intro ht
    have hpay := (ht.payload (4128, 16) (by simp [shrunk])).2
    exact absurd hpay (by decide)

end Malloc
end SystemsPlayground
