import SystemsPlayground.Lib.Runs
import SystemsPlayground.Malloc.FreeList

/-!
# `Malloc.System` — runs of the allocator and their invariant

A `Sys` is the allocator's state together with what its client can remember: every pointer it was ever
given and the allocations it still holds. A client may call `my_malloc` with any size and `my_free` with
`NULL` or any pointer it was once given (`Allowed`), whether or not that pointer has been freed since;
the operating system may answer `sbrk` as it likes, as long as a successful answer is a region disjoint
from the earlier blocks (`FreshRegion`).

`Inv s F` is the invariant of every reachable state (`reachable_inv`). It is preserved by one call, and
the proof follows the four ways a call of `my_malloc` can end (`MallocOutcome`).
-/

namespace SystemsPlayground
namespace Malloc

open Word LinkedList Runs

/-- One call of a client, with the operating system that will serve it. -/
inductive Call where
  | malloc (size : Nat) (os : Os)
  | free (ptr : Nat)

/-- The allocator and its client's memory of the past. -/
structure Sys where
  heap : Heap
  /-- every non-`NULL` pointer returned so far, latest first -/
  issued : List Nat
  /-- the allocations not freed since they were made, with the size that was asked for -/
  live : List (Nat × Nat)

namespace Sys

/-- Before the first call: no block, an arbitrary memory and the break at the heap base. -/
def start (mem : Nat → Block) (base : Nat) : Sys := ⟨⟨mem, null, base, []⟩, [], []⟩

/-- One call. -/
def step (fuel : Nat) (s : Sys) : Call → Option Sys
  | .malloc size os =>
    (myMalloc os fuel size s.heap).map fun r =>
      if r.1 = null then { s with heap := r.2 }
      else ⟨r.2, r.1 :: s.issued, (r.1, size) :: s.live⟩
  | .free ptr => some ⟨myFree ptr s.heap, s.issued, s.live.filter (fun e => e.1 ≠ ptr)⟩

/-- A call that returns. -/
def Step (s : Sys) (c : Call) (s' : Sys) : Prop := ∃ fuel, s.step fuel c = some s'

end Sys

/-- A successful answer of `os` to the `sbrk` of `my_malloc(size)` is a region of `32 + size` bytes of
    the address space that is disjoint from every block created before. (A larger `size` does not get
    as far as `sbrk`.) -/
def FreshRegion (h : Heap) (os : Os) (size : Nat) : Prop :=
  size ≤ sizeMax - sizeofBlock → ∀ p brk', os h.brk (toInt64 (u64 (sizeofBlock + size))) = some (p, brk') →
    p ≠ null ∧ p + sizeofBlock + size ≤ 2 ^ 64 ∧
    ∀ a ∈ h.blocks, p + sizeofBlock + size ≤ a ∨ a + sizeofBlock + (h.mem a).size ≤ p

/-- The calls a client may make: any 64-bit size, and any pointer it was once given. -/
def Allowed (s : Sys) : Call → Prop
  | .malloc size os => size ≤ sizeMax ∧ FreshRegion s.heap os size
  | .free ptr       => ptr = null ∨ ptr ∈ s.issued

/-- Runs of allowed calls. -/
def Steps : Sys → Sys → Prop := Reaches fun s c t => Allowed s c ∧ s.Step c t

/-- The states a run can reach from a start state. -/
def Reachable (s : Sys) : Prop := ∃ mem base, Steps (Sys.start mem base) s

/-! ## The outcome of `my_malloc` -/

/-- The blocks large enough for a request. -/
def fits (h : Heap) (size : Nat) (a : Nat) : Bool := decide (size ≤ (h.mem a).size)

/-- More fuel does not change what the loop returns. -/
theorem findFreeBlockFrom_mono {h : Heap} {size fuel k : Nat} {a r : Nat}
    (hf : findFreeBlockFrom h size fuel a = some r) :
    findFreeBlockFrom h size (fuel + k) a = some r := by
  induction fuel generalizing a with
  | zero => simp [findFreeBlockFrom] at hf
  | succ n ih =>
      rw [show n + 1 + k = n + k + 1 by omega, findFreeBlockFrom]
      rw [findFreeBlockFrom] at hf
      split_ifs at hf ⊢ with h₁ h₂
      · exact hf
      · exact hf
      · exact ih hf

theorem myMalloc_mono {os : Os} {h : Heap} {size fuel k : Nat} {r : Nat × Heap}
    (hf : myMalloc os fuel size h = some r) : myMalloc os (fuel + k) size h = some r := by
  unfold myMalloc at hf ⊢
  split_ifs at hf ⊢ with h₁ h₂
  · exact hf
  · exact hf
  · obtain ⟨b, hb, hr⟩ := Option.map_eq_some_iff.mp hf
    exact Option.map_eq_some_iff.mpr ⟨b, findFreeBlockFrom_mono hb, hr⟩

/-- The four ways a call of `my_malloc(size)` ends, on a heap whose free list is `F`. -/
inductive MallocOutcome (os : Os) (size : Nat) (h : Heap) (F : List Nat) : Nat → Heap → Prop where
  /-- the guards reject the size -/
  | refused : size = 0 ∨ sizeMax - sizeofBlock < size → MallocOutcome os size h F null h
  /-- the first fitting block of the list is unlinked and handed out -/
  | reused {l₁ l₂ : List Nat} {b : Nat} : 0 < size → size ≤ sizeMax - sizeofBlock →
      F = l₁ ++ b :: l₂ → (∀ a ∈ l₁, (h.mem a).size < size) → size ≤ (h.mem b).size →
      MallocOutcome os size h F (b + sizeofBlock) ((removeFreeBlock b h).setFree b 0)
  /-- no block fits and `sbrk` fails -/
  | failed : 0 < size → size ≤ sizeMax - sizeofBlock → (∀ a ∈ F, (h.mem a).size < size) →
      os h.brk (toInt64 (u64 (sizeofBlock + size))) = none →
      MallocOutcome os size h F null
        (h.record ⟨toInt64 (u64 (sizeofBlock + size)), sizeMax⟩ h.brk)
  /-- no block fits and `sbrk` returns a new region -/
  | grown {p brk' : Nat} : 0 < size → size ≤ sizeMax - sizeofBlock →
      (∀ a ∈ F, (h.mem a).size < size) →
      os h.brk (toInt64 (u64 (sizeofBlock + size))) = some (p, brk') → p ≠ sizeMax →
      MallocOutcome os size h F (p + sizeofBlock)
        (((h.record ⟨toInt64 (u64 (sizeofBlock + size)), p⟩ brk').setSize p size).setFree p 0)

theorem fits_find?_some {h : Heap} {size : Nat} {F : List Nat} {b : Nat}
    (hb : F.find? (fits h size) = some b) :
    ∃ l₁ l₂, F = l₁ ++ b :: l₂ ∧ (∀ a ∈ l₁, (h.mem a).size < size) ∧ size ≤ (h.mem b).size := by
  obtain ⟨hfit, l₁, l₂, hF, hl₁⟩ := List.find?_eq_some_iff_append.mp hb
  refine ⟨l₁, l₂, hF, fun a ha => ?_, by simpa [fits] using hfit⟩
  simpa [fits] using hl₁ a ha

theorem fits_find?_none {h : Heap} {size : Nat} {F : List Nat} :
    F.find? (fits h size) = none ↔ ∀ a ∈ F, (h.mem a).size < size := by
  simp [fits, List.find?_eq_none]

section Outcome

variable {os : Os} {h h' : Heap} {F : List Nat} {size fuel : Nat} {p : Nat}

/-- `my_malloc` returns on every heap whose free list is a list of free blocks. -/
theorem myMalloc_returns (os : Os) (size : Nat) (hr : Represents h F)
    (hfree : ∀ a ∈ F, (h.mem a).free ≠ 0) (hfuel : F.length < fuel) :
    ∃ r, myMalloc os fuel size h = some r := by
  unfold myMalloc
  rw [findFreeBlock_eq hr hfree hfuel]
  split_ifs <;> exact ⟨_, rfl⟩

/-- Every returning call has one of the four outcomes, provided that a successful `sbrk` does not
    return `(void *)-1`. -/
theorem myMalloc_outcome (hr : Represents h F) (hfree : ∀ a ∈ F, (h.mem a).free ≠ 0)
    (hos : size ≤ sizeMax - sizeofBlock → ∀ q brk',
      os h.brk (toInt64 (u64 (sizeofBlock + size))) = some (q, brk') → q ≠ sizeMax)
    (hm : myMalloc os fuel size h = some (p, h')) : MallocOutcome os size h F p h' := by
  have hm' := myMalloc_mono (k := F.length + 1) hm
  unfold myMalloc at hm'
  rw [findFreeBlock_eq hr hfree (by omega)] at hm'
  split_ifs at hm' with h₁ h₂
  · cases hm'; exact .refused (Or.inl h₁)
  · cases hm'; exact .refused (Or.inr h₂)
  have hpos : 0 < size := Nat.pos_of_ne_zero h₁
  have hle : size ≤ sizeMax - sizeofBlock := Nat.not_lt.mp h₂
  cases hfind : F.find? (fits h size) with
  | some b =>
      -- the first fitting block splits the list
      obtain ⟨l₁, l₂, hF, hl₁, hb⟩ := fits_find?_some hfind
      have hbn : b ≠ null := fun he => hr.nonnull (by rw [hF, he]; simp)
      have hfind' : F.find? (fun a => decide (size ≤ (h.mem a).size)) = some b := hfind
      simp only [hfind', Option.getD_some, Option.map_some, if_pos hbn, Option.some.injEq] at hm'
      cases hm'
      exact .reused hpos hle hF hl₁ hb
  | none =>
      have hnone := fits_find?_none.mp hfind
      have hfind' : F.find? (fun a => decide (size ≤ (h.mem a).size)) = none := hfind
      simp only [hfind', Option.getD_none, Option.map_some, ne_eq, not_true_eq_false, if_false, sbrk,
        Option.some.injEq] at hm'
      cases hans : os h.brk (toInt64 (u64 (sizeofBlock + size))) with
      | none =>
          simp only [hans, if_true] at hm'
          cases hm'
          exact .failed hpos hle hnone hans
      | some r =>
          obtain ⟨q, brk'⟩ := r
          have hq := hos hle q brk' hans
          simp only [hans, if_neg hq] at hm'
          cases hm'
          exact .grown hpos hle hnone hans hq

end Outcome

/-! ## The invariant -/

/-- The allocator's half of the invariant: the free list is `F`, it holds exactly the created blocks
    whose flag is 1, and every created block's flag is 0 or 1. -/
structure HeapInv (h : Heap) (F : List Nat) : Prop where
  rep : Represents h F
  listed : ∀ a, a ∈ F ↔ a ∈ h.blocks ∧ (h.mem a).free = 1
  flag : ∀ a ∈ h.blocks, (h.mem a).free = 0 ∨ (h.mem a).free = 1
  nonnull : null ∉ h.blocks
  nodup : h.blocks.Nodup

/-- The invariant of a run. An issued pointer is the payload of a created block; a live allocation's
    block is in use and large enough for what was asked. -/
structure Inv (s : Sys) (F : List Nat) : Prop where
  heap : HeapInv s.heap F
  issued : ∀ p ∈ s.issued, sizeofBlock ≤ p ∧ p - sizeofBlock ∈ s.heap.blocks
  live : ∀ e ∈ s.live, e.1 ∈ s.issued ∧ (s.heap.mem (e.1 - sizeofBlock)).free = 0 ∧
    e.2 ≤ (s.heap.mem (e.1 - sizeofBlock)).size

/-- A failed `sbrk` creates no block. -/
theorem blocks_record_fail (h : Heap) (i : Int) (b : Nat) :
    (h.record ⟨i, sizeMax⟩ b).blocks = h.blocks := by
  simp [Heap.blocks]

theorem blocks_congr {h h' : Heap} (hc : h'.calls = h.calls) : h'.blocks = h.blocks := by
  unfold Heap.blocks; rw [hc]

/-- A successful `sbrk` creates one block, the latest; writing its header creates none. -/
theorem blocks_grown (h : Heap) (i : Int) (b size : Nat) {p : Nat} (hp : p ≠ sizeMax) :
    (((h.record ⟨i, p⟩ b).setSize p size).setFree p 0).blocks = h.blocks ++ [p] := by
  simp [Heap.blocks, hp]

theorem blocks_reused (h : Heap) (b : Nat) :
    ((removeFreeBlock b h).setFree b 0).blocks = h.blocks :=
  blocks_congr (by rw [setFree_calls, removeFreeBlock_calls])

namespace HeapInv

variable {h : Heap} {F : List Nat}

theorem free_ne_zero (hi : HeapInv h F) : ∀ a ∈ F, (h.mem a).free ≠ 0 := by
  intro a ha
  rw [((hi.listed a).mp ha).2]
  decide

/-- Freeing a created block that is in use puts it at the front. -/
theorem free (hi : HeapInv h F) {ptr : Nat} (hp : ptr ≠ null)
    (hb : ptr - sizeofBlock ∈ h.blocks) (hf : (h.mem (ptr - sizeofBlock)).free = 0) :
    HeapInv (myFree ptr h) ((ptr - sizeofBlock) :: F) := by
  have hbl : (myFree ptr h).blocks = h.blocks := blocks_congr myFree_calls
  have hbn : ptr - sizeofBlock ≠ null := fun he => hi.nonnull (he ▸ hb)
  have hnF : ptr - sizeofBlock ∉ F := fun hm => hi.free_ne_zero _ hm hf
  refine ⟨myFree_represents hi.rep hp hf hbn hnF, ?_, ?_, hbl ▸ hi.nonnull, hbl ▸ hi.nodup⟩
  · intro a
    rw [hbl, myFree_free hp hf, List.mem_cons, hi.listed]
    by_cases ha : a = ptr - sizeofBlock
    · simp [ha, hb]
    · simp [ha]
  · intro a ha
    rw [myFree_free hp hf]
    split_ifs
    · exact Or.inr rfl
    · exact hi.flag a (hbl ▸ ha)

/-- Handing out a block of the list. -/
theorem reuse {l₁ l₂ : List Nat} {b : Nat} (hi : HeapInv h (l₁ ++ b :: l₂)) :
    HeapInv ((removeFreeBlock b h).setFree b 0) (l₁ ++ l₂) := by
  have hrep : Represents ((removeFreeBlock b h).setFree b 0) (l₁ ++ l₂) :=
    (removeFreeBlock_represents hi.rep).congr rfl (by simp) (by simp)
  have hbl := blocks_reused h b
  have hnot : b ∉ l₁ ++ l₂ := (List.nodup_cons.mp (List.nodup_middle.mp hi.rep.nodup)).1
  refine ⟨hrep, ?_, ?_, hbl ▸ hi.nonnull, hbl ▸ hi.nodup⟩
  · intro a
    rw [hbl, setFree_free, removeFreeBlock_free]
    by_cases ha : a = b
    · subst ha; simp [hnot]
    · rw [if_neg ha, ← hi.listed]
      simp [ha]
  · intro a ha
    rw [setFree_free, removeFreeBlock_free]
    split_ifs
    · exact Or.inl rfl
    · exact hi.flag a (hbl ▸ ha)

/-- A failing `sbrk` is only recorded. -/
theorem fail (hi : HeapInv h F) (i : Int) :
    HeapInv (h.record ⟨i, sizeMax⟩ h.brk) F := by
  have hbl : (h.record ⟨i, sizeMax⟩ h.brk).blocks = h.blocks := blocks_record_fail h i h.brk
  exact ⟨hi.rep.congr rfl (fun _ _ => rfl) (fun _ _ => rfl), fun a => hbl ▸ hi.listed a,
    fun a ha => hi.flag a (hbl ▸ ha), hbl ▸ hi.nonnull, hbl ▸ hi.nodup⟩

/-- A new block, in use. -/
theorem grow (hi : HeapInv h F) (i : Int) (brk' size : Nat) {p : Nat} (hp : p ≠ sizeMax)
    (hpn : p ≠ null) (hpb : p ∉ h.blocks) :
    HeapInv (((h.record ⟨i, p⟩ brk').setSize p size).setFree p 0) F := by
  have hbl := blocks_grown h i brk' size hp
  have hpF : p ∉ F := fun hm => hpb ((hi.listed p).mp hm).1
  refine ⟨hi.rep.congr rfl (by simp) (by simp), ?_, ?_, ?_, ?_⟩
  · intro a
    rw [hbl, setFree_free, setSize_free, record_mem, List.mem_append, List.mem_singleton]
    by_cases ha : a = p
    · subst ha; simp [hpF]
    · rw [if_neg ha, hi.listed]
      simp [ha]
  · intro a ha
    rw [setFree_free, setSize_free, record_mem]
    split_ifs with hap
    · exact Or.inl rfl
    · rw [hbl, List.mem_append, List.mem_singleton] at ha
      exact hi.flag a (ha.resolve_right hap)
  · rw [hbl]
    simp [hi.nonnull, Ne.symm hpn]
  · rw [hbl]
    rw [← List.concat_eq_append]
    exact hi.nodup.concat hpb

end HeapInv

/-- A fresh region's address is not that of an earlier block. -/
theorem FreshRegion.not_mem {h : Heap} {os : Os} {size : Nat} (hf : FreshRegion h os size)
    (hle : size ≤ sizeMax - sizeofBlock) {p brk' : Nat}
    (ha : os h.brk (toInt64 (u64 (sizeofBlock + size))) = some (p, brk')) :
    p ∉ h.blocks := by
  intro hm
  have hd := (hf hle p brk' ha).2.2 p hm
  simp only [sizeofBlock] at hd
  omega

theorem FreshRegion.ne_sizeMax {h : Heap} {os : Os} {size : Nat} (hf : FreshRegion h os size)
    (hle : size ≤ sizeMax - sizeofBlock) :
    ∀ p brk', os h.brk (toInt64 (u64 (sizeofBlock + size))) = some (p, brk') → p ≠ sizeMax := by
  intro p brk' ha
  have hd := (hf hle p brk' ha).2.1
  simp only [sizeofBlock, sizeMax] at hd ⊢
  omega

/-! ## What a call keeps -/

/-- `h'` has the blocks of `h` and possibly more, all of the old ones with their old size. -/
structure Extends (h h' : Heap) : Prop where
  blocks : h.blocks <+: h'.blocks
  size : ∀ a ∈ h.blocks, (h'.mem a).size = (h.mem a).size

theorem Extends.refl (h : Heap) : Extends h h := ⟨List.prefix_rfl, fun _ _ => rfl⟩

theorem Extends.trans {h₁ h₂ h₃ : Heap} (h₁₂ : Extends h₁ h₂) (h₂₃ : Extends h₂ h₃) :
    Extends h₁ h₃ :=
  ⟨h₁₂.blocks.trans h₂₃.blocks, fun a ha =>
    (h₂₃.size a (h₁₂.blocks.subset ha)).trans (h₁₂.size a ha)⟩

theorem myFree_extends (ptr : Nat) (h : Heap) : Extends h (myFree ptr h) :=
  ⟨(blocks_congr myFree_calls).symm ▸ List.prefix_rfl, fun a _ => myFree_size a⟩

theorem MallocOutcome.extends {os : Os} {size : Nat} {h h' : Heap} {F : List Nat} {p : Nat}
    (ho : MallocOutcome os size h F p h') (hf : FreshRegion h os size) : Extends h h' := by
  cases ho with
  | refused _ => exact .refl h
  | @reused l₁ l₂ b _ _ _ _ _ =>
      refine ⟨(blocks_reused h b).symm ▸ List.prefix_rfl, fun a _ => ?_⟩
      rw [setFree_size, removeFreeBlock_size]
  | failed _ _ _ _ => exact ⟨(blocks_record_fail h _ h.brk).symm ▸ List.prefix_rfl, fun _ _ => rfl⟩
  | @grown p brk' _ hle _ hans hp =>
      refine ⟨?_, fun a ha => ?_⟩
      · rw [blocks_grown h _ brk' size hp]
        exact List.prefix_append _ _
      · have hap : a ≠ p := fun he => hf.not_mem hle hans (he ▸ ha)
        rw [setFree_size, setSize_size, if_neg hap, record_mem]

/-! ## Preservation over a run -/

/-- The free list after a call of `my_malloc` that ended in the given outcome. -/
theorem MallocOutcome.heapInv {os : Os} {size : Nat} {h h' : Heap} {F : List Nat} {p : Nat}
    (ho : MallocOutcome os size h F p h') (hi : HeapInv h F) (hf : FreshRegion h os size) :
    ∃ F', HeapInv h' F' := by
  cases ho with
  | refused _ => exact ⟨F, hi⟩
  | reused _ _ hF _ _ => subst hF; exact ⟨_, hi.reuse⟩
  | failed _ _ _ _ => exact ⟨F, hi.fail _⟩
  | grown _ hle _ hans hp =>
      exact ⟨F, hi.grow _ _ _ hp (hf hle _ _ hans).1 (hf.not_mem hle hans)⟩

/-- A returned pointer is the payload of a created block that is in use and large enough. -/
theorem MallocOutcome.payload {os : Os} {size : Nat} {h h' : Heap} {F : List Nat} {p : Nat}
    (ho : MallocOutcome os size h F p h') (hi : HeapInv h F) (hp : p ≠ null) :
    sizeofBlock ≤ p ∧ p - sizeofBlock ∈ h'.blocks ∧ (h'.mem (p - sizeofBlock)).free = 0 ∧
      size ≤ (h'.mem (p - sizeofBlock)).size := by
  cases ho with
  | refused _ => exact absurd rfl hp
  | failed _ _ _ _ => exact absurd rfl hp
  | @reused l₁ l₂ b _ _ hF _ hb =>
      have hbF : b ∈ F := by rw [hF]; simp
      rw [Nat.add_sub_cancel, blocks_reused, setFree_free, setFree_size, removeFreeBlock_size, if_pos rfl]
      exact ⟨Nat.le_add_left _ _, ((hi.listed b).mp hbF).1, rfl, hb⟩
  | @grown q brk' _ _ _ hans hq =>
      rw [Nat.add_sub_cancel, blocks_grown h _ brk' size hq, setFree_free, setFree_size, setSize_size,
        if_pos rfl, if_pos rfl]
      exact ⟨Nat.le_add_left _ _, by simp, rfl, Nat.le_refl _⟩

/-- `my_malloc` sets no flag: a block in use stays in use. -/
theorem MallocOutcome.in_use {os : Os} {size : Nat} {h h' : Heap} {F : List Nat} {p : Nat}
    (ho : MallocOutcome os size h F p h') {a : Nat} (ha : (h.mem a).free = 0) :
    (h'.mem a).free = 0 := by
  cases ho with
  | refused _ => exact ha
  | failed _ _ _ _ => exact ha
  | reused _ _ _ _ _ => rw [setFree_free, removeFreeBlock_free]; split_ifs <;> [rfl; exact ha]
  | grown _ _ _ _ _ => rw [setFree_free, setSize_free, record_mem]; split_ifs <;> [rfl; exact ha]

/-- A call of `my_malloc` that returns, in terms of its outcome. -/
theorem step_malloc_outcome {s t : Sys} {F : List Nat} {size : Nat} {os : Os} (hi : Inv s F)
    (ha : Allowed s (.malloc size os)) (hs : s.Step (.malloc size os) t) :
    ∃ p h', MallocOutcome os size s.heap F p h' ∧ t.heap = h' ∧
      t = if p = null then { s with heap := h' } else ⟨h', p :: s.issued, (p, size) :: s.live⟩ := by
  obtain ⟨fuel, hs⟩ := hs
  obtain ⟨⟨p, h'⟩, hm, ht⟩ := Option.map_eq_some_iff.mp hs
  refine ⟨p, h', myMalloc_outcome hi.heap.rep hi.heap.free_ne_zero ha.2.ne_sizeMax hm, ?_, ht.symm⟩
  rw [← ht]
  split_ifs <;> rfl

theorem step_malloc_inv {s s' : Sys} {F : List Nat} {size : Nat} {os : Os} (hi : Inv s F)
    (ha : Allowed s (.malloc size os)) (hs : s.Step (.malloc size os) s') : ∃ F', Inv s' F' := by
  obtain ⟨p, h', ho, -, hs'⟩ := step_malloc_outcome hi ha hs
  have hf : FreshRegion s.heap os size := ha.2
  have hext := ho.extends hf
  obtain ⟨F', hi'⟩ := ho.heapInv hi.heap hf
  -- the history is kept, and the blocks it speaks of are still there, in use and of the same size
  have hissued : ∀ q ∈ s.issued, sizeofBlock ≤ q ∧ q - sizeofBlock ∈ h'.blocks := fun q hq =>
    ⟨(hi.issued q hq).1, hext.blocks.subset (hi.issued q hq).2⟩
  have hlive : ∀ e ∈ s.live, e.1 ∈ s.issued ∧ (h'.mem (e.1 - sizeofBlock)).free = 0 ∧
      e.2 ≤ (h'.mem (e.1 - sizeofBlock)).size := by
    intro e he
    obtain ⟨hei, hef, hes⟩ := hi.live e he
    refine ⟨hei, ho.in_use hef, ?_⟩
    rw [hext.size _ (hi.issued e.1 hei).2]
    exact hes
  by_cases hp : p = null
  · rw [if_pos hp] at hs'
    subst hs'
    exact ⟨F', hi', hissued, hlive⟩
  · rw [if_neg hp] at hs'
    subst hs'
    obtain ⟨hle, hblk, hfree, hsz⟩ := ho.payload hi.heap hp
    refine ⟨F', hi', ?_, ?_⟩
    · intro q hq
      rcases List.mem_cons.mp hq with rfl | hq
      · exact ⟨hle, hblk⟩
      · exact hissued q hq
    · intro e he
      rcases List.mem_cons.mp he with rfl | he
      · exact ⟨List.mem_cons_self, hfree, hsz⟩
      · obtain ⟨hei, hrest⟩ := hlive e he
        exact ⟨List.mem_cons_of_mem p hei, hrest⟩

theorem step_free_inv {s s' : Sys} {F : List Nat} {ptr : Nat} (hi : Inv s F)
    (ha : Allowed s (.free ptr)) (hs : s.Step (.free ptr) s') : ∃ F', Inv s' F' := by
  obtain ⟨fuel, hs⟩ := hs
  cases hs
  have hissued : ∀ q ∈ s.issued, sizeofBlock ≤ q ∧ q - sizeofBlock ∈ (myFree ptr s.heap).blocks :=
    fun q hq => by rw [blocks_congr myFree_calls]; exact hi.issued q hq
  rcases myFree_guard ptr s.heap with hn | ⟨hp, hf⟩
  · -- a double free: the block is on the list already
    rw [myFree_noop hn] at hissued ⊢
    refine ⟨F, hi.heap, hissued, fun e he => ?_⟩
    exact hi.live e (List.mem_of_mem_filter he)
  · have hptr : ptr ∈ s.issued := ha.resolve_left hp
    obtain ⟨hle, hblk⟩ := hi.issued ptr hptr
    refine ⟨_, hi.heap.free hp hblk hf, hissued, fun e he => ?_⟩
    obtain ⟨hei, hef, hes⟩ := hi.live e (List.mem_of_mem_filter he)
    have hne : e.1 ≠ ptr := by simpa using (List.mem_filter.mp he).2
    -- two payload pointers that differ belong to different blocks
    have hneb : e.1 - sizeofBlock ≠ ptr - sizeofBlock := by
      have hle' := (hi.issued e.1 hei).1
      omega
    refine ⟨hei, ?_, ?_⟩
    · rw [myFree_free hp hf, if_neg hneb]; exact hef
    · rw [myFree_size]; exact hes

/-- **The invariant is preserved by every allowed call.** -/
theorem step_inv {s s' : Sys} {F : List Nat} {c : Call} (hi : Inv s F) (ha : Allowed s c)
    (hs : s.Step c s') : ∃ F', Inv s' F' := by
  cases c with
  | malloc size os => exact step_malloc_inv hi ha hs
  | free ptr => exact step_free_inv hi ha hs

theorem start_inv (mem : Nat → Block) (base : Nat) : Inv (Sys.start mem base) [] := by
  refine ⟨⟨⟨rfl, trivial, List.nodup_nil, by simp⟩, ?_, ?_, ?_, ?_⟩, ?_, ?_⟩ <;>
    simp [Sys.start, Heap.blocks]

/-- **Every reachable state satisfies the invariant.** -/
theorem reachable_inv {s : Sys} (hs : Reachable s) : ∃ F, Inv s F := by
  obtain ⟨mem, base, hsteps⟩ := hs
  refine hsteps.inv (I := fun s => ∃ F, Inv s F) ⟨[], start_inv mem base⟩ ?_
  rintro s c t ⟨F, hF⟩ ⟨ha, hstep⟩
  exact step_inv hF ha hstep

/-- A pointer once returned stays on record. -/
theorem step_issued {s t : Sys} {c : Call} (hs : s.Step c t) : ∀ p ∈ s.issued, p ∈ t.issued := by
  obtain ⟨fuel, hs⟩ := hs
  intro p hp
  cases c with
  | free ptr =>
      cases hs
      exact hp
  | malloc size os =>
      obtain ⟨r, -, ht⟩ := Option.map_eq_some_iff.mp hs
      rw [← ht]
      split_ifs
      · exact hp
      · exact List.mem_cons_of_mem _ hp

theorem step_extends {s s' : Sys} {F : List Nat} {c : Call} (hi : Inv s F) (ha : Allowed s c)
    (hs : s.Step c s') : Extends s.heap s'.heap := by
  cases c with
  | malloc size os =>
      obtain ⟨p, h', ho, hh, -⟩ := step_malloc_outcome hi ha hs
      rw [hh]
      exact ho.extends ha.2
  | free ptr =>
      obtain ⟨fuel, ⟨⟩⟩ := hs
      exact myFree_extends ptr s.heap

/-- Along a run no block disappears and no `size` field changes. -/
theorem steps_extends {s t : Sys} (hi : ∃ F, Inv s F) (hst : Steps s t) :
    Extends s.heap t.heap := by
  -- the invariant is carried along, since a step extends the heap only under it
  refine (hst.inv (I := fun t => (∃ F, Inv t F) ∧ Extends s.heap t.heap) ⟨hi, .refl _⟩ ?_).2
  rintro t c u ⟨⟨F, hF⟩, hext⟩ ⟨ha, hstep⟩
  exact ⟨step_inv hF ha hstep, hext.trans (step_extends hF ha hstep)⟩

end Malloc
end SystemsPlayground
