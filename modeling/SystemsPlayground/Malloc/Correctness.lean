import SystemsPlayground.Malloc.System

/-!
# `Malloc.Correctness` — the free list of a reachable state, and the list it simulates

Two results over every reachable state. The pointer structure is a finite doubly linked list of exactly
the free blocks, so the search ends and never hands out a block in use (`reachable_free_list`). And the
allocator is a LIFO first-fit allocator over that list (`reachable_first_fit`): `my_free` pushes,
`my_malloc` deletes the first fitting element or asks the system for one new region.
-/

namespace SystemsPlayground
namespace Malloc

open Word LinkedList Runs

/-! ## The representation invariant -/

/-- A block handed out from an existing region was on the free list. -/
theorem MallocOutcome.was_free {os : Os} {size : Nat} {h h' : Heap} {F : List Nat} {p : Nat}
    (ho : MallocOutcome os size h F p h') (hi : HeapInv h F) (hf : FreshRegion h os size)
    (hp : p ≠ null) (hb : p - sizeofBlock ∈ h.blocks) : (h.mem (p - sizeofBlock)).free = 1 := by
  cases ho with
  | refused _ => exact absurd rfl hp
  | failed _ _ _ _ => exact absurd rfl hp
  | @reused l₁ l₂ b _ _ hF _ _ =>
      rw [Nat.add_sub_cancel]
      exact ((hi.listed b).mp (by rw [hF]; simp)).2
  | grown _ hle _ hans _ =>
      rw [Nat.add_sub_cancel] at hb
      exact absurd hb (hf.not_mem hle hans)

/-- The search comes to the end of the list exactly when no block fits. -/
theorem findFreeBlock_null_iff {h : Heap} {F : List Nat} {size : Nat} (hi : HeapInv h F) :
    (∃ fuel, findFreeBlock fuel size h = some null) ↔ ∀ a ∈ F, (h.mem a).size < size := by
  have hfind : findFreeBlock (F.length + 1) size h = some ((F.find? (fits h size)).getD null) :=
    findFreeBlock_eq hi.rep hi.free_ne_zero (Nat.lt_succ_self F.length)
  rw [← fits_find?_none]
  constructor
  · rintro ⟨fuel, hnull⟩
    have hlong : findFreeBlock (F.length + 1 + fuel) size h = some null := by
      rw [Nat.add_comm]
      exact findFreeBlockFrom_mono hnull
    cases hfit : F.find? (fits h size) with
    | none => rfl
    | some b =>
        have hb : findFreeBlock (F.length + 1 + fuel) size h = some b := by
          rw [hfit] at hfind
          exact findFreeBlockFrom_mono hfind
        have hnull' : b = null := Option.some.inj (hb.symm.trans hlong)
        exact absurd (hnull' ▸ List.mem_of_find?_eq_some hfit) hi.rep.nonnull
  · intro hfit
    rw [hfit] at hfind
    exact ⟨_, hfind⟩

/-- **The free list of a reachable state.** Following `next` from `free_list` visits the blocks of `F`
    once each and ends at `NULL`; `prev` and `next` are inverse to each other along it and the head has
    no predecessor; `F` holds exactly the blocks whose flag is 1. Hence the search of
    `find_free_block` ends, and `my_malloc` returns no block whose flag was 0. -/
theorem reachable_free_list {s : Sys} (hs : Reachable s) :
    ∃ F : List Nat, Represents s.heap F ∧
      (fun a => (s.heap.mem a).next)^[F.length] s.heap.freeList = null ∧
      (∀ a ∈ F, ∀ b ∈ F, (s.heap.mem a).next = b ↔ (s.heap.mem b).prev = a) ∧
      (∀ a ∈ F.head?, (s.heap.mem a).prev = null) ∧
      (∀ a, a ∈ F ↔ a ∈ s.heap.blocks ∧ (s.heap.mem a).free = 1) ∧
      (∀ size fuel, F.length < fuel → ∃ r, findFreeBlock fuel size s.heap = some r) ∧
      (∀ size os, Allowed s (.malloc size os) →
        ∀ fuel p h', myMalloc os fuel size s.heap = some (p, h') → p ≠ null →
          p - sizeofBlock ∈ s.heap.blocks → (s.heap.mem (p - sizeofBlock)).free ≠ 0) := by
  obtain ⟨F, hi⟩ := reachable_inv hs
  have hr := hi.heap.rep
  refine ⟨F, hr, ?_, ?_, ?_, hi.heap.listed, ?_, ?_⟩
  · rw [hr.head]
    exact hr.linked.iterate_length
  · intro a ha b hb
    exact hr.linked.next_eq_iff hr.nonnull ha hb
  · intro a ha
    cases F with
    | nil => simp at ha
    | cons b F => cases ha; exact hr.linked.1
  · intro size fuel hfuel
    exact ⟨_, findFreeBlock_eq hr hi.heap.free_ne_zero hfuel⟩
  · intro size os ha fuel p h' hm hp hb
    have ho := myMalloc_outcome hr hi.heap.free_ne_zero ha.2.ne_sizeMax hm
    rw [ho.was_free hi.heap ha.2 hp hb]
    decide

/-! ### A run of seven calls -/

/-- An operating system that grants every request and moves the break by it. -/
def grantOs : Os := fun brk increment => some (brk, (brk + increment).toNat)

/-- A call of a client of this system. -/
inductive Granted where
  | malloc (size : Nat)
  | free (ptr : Nat)

def Granted.toCall : Granted → Call
  | .malloc size => .malloc size grantOs
  | .free ptr    => .free ptr

/-- The call returns within four turns of the loop; all blocks lie below the break, and the new one does not
    reach the upper half of the address space; and `my_free` is called with a pointer returned before. -/
def Granted.Fine (s : Sys) : Granted → Prop
  | .malloc size => (0 < s.heap.brk ∧ s.heap.brk + sizeofBlock + size < 2 ^ 63) ∧
      (∀ a ∈ s.heap.blocks, a + sizeofBlock + (s.heap.mem a).size ≤ s.heap.brk) ∧
      (myMalloc grantOs 4 size s.heap).isSome = true
  | .free ptr    => ptr ∈ s.issued

instance (s : Sys) : (c : Granted) → Decidable (c.Fine s)
  | .malloc _ => inferInstanceAs (Decidable (_ ∧ _ ∧ _))
  | .free _   => inferInstanceAs (Decidable (_ ∈ _))

/-- The state after the call. -/
def Sys.grant (s : Sys) (c : Granted) : Sys := (s.step 4 c.toCall).getD s

theorem grantOs_fresh {h : Heap} {size : Nat} (hpos : 0 < h.brk) (htop : h.brk + sizeofBlock + size < 2 ^ 63)
    (hbelow : ∀ a ∈ h.blocks, a + sizeofBlock + (h.mem a).size ≤ h.brk) : FreshRegion h grantOs size := by
  intro _ p brk' hans
  obtain ⟨rfl, -⟩ := Prod.mk.inj (Option.some.inj hans)
  refine ⟨?_, by omega, fun a ha => Or.inr (hbelow a ha)⟩
  simp only [null]
  omega

theorem Granted.Fine.step {s : Sys} {c : Granted} (h : c.Fine s) :
    Allowed s c.toCall ∧ s.step 4 c.toCall = some (s.grant c) := by
  cases c with
  | free ptr => exact ⟨Or.inr h, rfl⟩
  | malloc size =>
      obtain ⟨⟨hpos, htop⟩, hbelow, hsome⟩ := h
      refine ⟨⟨?_, grantOs_fresh hpos htop hbelow⟩, ?_⟩
      · change size ≤ 2 ^ 64 - 1
        omega
      · obtain ⟨r, hr⟩ := Option.isSome_iff_exists.mp hsome
        simp only [Sys.grant, Granted.toCall, Sys.step, hr, Option.map_some, Option.getD_some]

/-- A break of 4096 and a zeroed memory. -/
def zeroed : Sys := Sys.start (fun _ => ⟨0, 0, 0, 0⟩) 4096

theorem grant_run {s : Sys} (cs : List Granted) (h : ∀ x ∈ plays Sys.grant s cs, x.2.Fine x.1) :
    Run (fun s (c : Granted) t => c.Fine s ∧ t = s.grant c) s (plays Sys.grant s cs) (cs.foldl Sys.grant s) :=
  Run.play cs fun x hx => ⟨h x hx, rfl⟩

theorem grant_reachable (cs : List Granted) (h : ∀ x ∈ plays Sys.grant zeroed cs, x.2.Fine x.1) :
    Reachable (cs.foldl Sys.grant zeroed) := by
  refine ⟨_, _, (Run.map Granted.toCall (fun {s c t} hstep => ?_) (grant_run cs h)).reaches⟩
  obtain ⟨hfine, rfl⟩ := hstep
  exact ⟨hfine.step.1, 4, hfine.step.2⟩

/-- Three blocks are obtained and freed in their order. -/
def threeFreed : Sys :=
  [.malloc 16, .malloc 32, .malloc 16, .free 4128, .free 4176, .free 4240].foldl Sys.grant zeroed

/-- Then the one in the middle of the list is handed out again. -/
def middleTaken : Sys := threeFreed.grant (.malloc 32)

theorem threeFreed_reachable : Reachable threeFreed := grant_reachable _ (by decide)

theorem middleTaken_reachable : Reachable middleTaken :=
  grant_reachable [.malloc 16, .malloc 32, .malloc 16, .free 4128, .free 4176, .free 4240, .malloc 32] (by decide)

/-- The block at 4144 is in use, and the ones at 4208 and 4096 are linked to each other. -/
theorem reachable_free_list_middleTaken :
    (middleTaken.heap.mem 4144).free = 0 ∧ middleTaken.heap.freeList = 4208 ∧
      (middleTaken.heap.mem 4208).next = 4096 ∧
      ∃ F : List Nat, Represents middleTaken.heap F ∧ 4208 ∈ F ∧ 4144 ∉ F ∧ 4096 ∈ F ∧
        (middleTaken.heap.mem 4096).prev = 4208 := by
  obtain ⟨F, hF, -, hinverse, -, hlisted, -⟩ := reachable_free_list middleTaken_reachable
  have hhead : 4208 ∈ F := (hlisted 4208).mpr (by decide)
  have hlast : 4096 ∈ F := (hlisted 4096).mpr (by decide)
  have hused : 4144 ∉ F := fun hm => absurd ((hlisted 4144).mp hm) (by decide)
  exact ⟨rfl, rfl, rfl, F, hF, hhead, hused, hlast, (hinverse 4208 hhead 4096 hlast).mp rfl⟩

/-! ## The simulated first-fit list -/

/-- What a call of `my_malloc(n)` on a heap with free list `F` must do to be first fit: `p` is the
    returned pointer and `h'` the heap after the call. -/
structure FirstFitMalloc (os : Os) (n : Nat) (h : Heap) (F : List Nat) (p : Nat) (h' : Heap) :
    Prop where
  /-- the first fitting block is returned and deleted; `sbrk` is not called -/
  reuse : 0 < n → n ≤ sizeMax - sizeofBlock → ∀ b, F.find? (fits h n) = some b →
    p = b + sizeofBlock ∧ Represents h' (F.erase b) ∧ h'.calls = h.calls ∧ h'.brk = h.brk
  /-- without a fitting block there is one call of `sbrk` and the list stays -/
  grow : 0 < n → n ≤ sizeMax - sizeofBlock → F.find? (fits h n) = none →
    Represents h' F ∧ ∃ r, h'.calls = h.calls ++ [⟨toInt64 (u64 (sizeofBlock + n)), r⟩]
  null_iff : p = null ↔ n = 0 ∨ sizeMax - sizeofBlock < n ∨
    F.find? (fits h n) = none ∧ os h.brk (toInt64 (u64 (sizeofBlock + n))) = none
  null_frame : p = null → Represents h' F ∧ h'.mem = h.mem ∧ h'.brk = h.brk
  large : p ≠ null → n ≤ (h'.mem (p - sizeofBlock)).size

theorem MallocOutcome.firstFit {os : Os} {n : Nat} {h h' : Heap} {F : List Nat} {p : Nat}
    (ho : MallocOutcome os n h F p h') (hi : HeapInv h F) (hf : FreshRegion h os n) :
    FirstFitMalloc os n h F p h' := by
  have hlarge : p ≠ null → n ≤ (h'.mem (p - sizeofBlock)).size := fun hp => (ho.payload hi hp).2.2.2
  cases ho with
  | refused hn =>
      refine ⟨fun _ _ => by omega, fun _ _ => by omega, ?_, fun _ => ⟨hi.rep, rfl, rfl⟩, hlarge⟩
      exact ⟨fun _ => hn.imp_right Or.inl, fun _ => rfl⟩
  | @reused l₁ l₂ b hpos hle hF hl₁ hb =>
      have hfind : F.find? (fits h n) = some b := by
        rw [hF, List.find?_append, List.find?_cons_of_pos (by simpa [fits] using hb),
          fits_find?_none.mpr hl₁]
        rfl
      have hnot : b ∉ l₁ := by
        have hnd := hF ▸ hi.rep.nodup
        exact fun hm => (List.nodup_cons.mp (List.nodup_middle.mp hnd)).1 (List.mem_append_left l₂ hm)
      have herase : F.erase b = l₁ ++ l₂ := by
        rw [hF, List.erase_append_right _ hnot, List.erase_cons_head]
      have hbn : b + sizeofBlock ≠ null := by simp [sizeofBlock, null]
      refine ⟨?_, ?_, ?_, fun hp => absurd hp hbn, hlarge⟩
      · intro _ _ b' hb'
        obtain rfl : b = b' := Option.some.inj (hfind.symm.trans hb')
        refine ⟨rfl, ?_, by rw [setFree_calls, removeFreeBlock_calls],
          by rw [setFree_brk, removeFreeBlock_brk]⟩
        rw [herase]
        exact (hF ▸ hi).reuse.rep
      · intro _ _ hnone
        rw [hfind] at hnone
        cases hnone
      · refine ⟨fun hp => absurd hp hbn, fun hc => ?_⟩
        rw [hfind] at hc
        rcases hc with hc | hc | ⟨hc, -⟩
        · omega
        · omega
        · cases hc
  | failed hpos hle hnone hans =>
      have hfind := fits_find?_none.mpr hnone
      have hrep := (hi.fail (toInt64 (u64 (sizeofBlock + n)))).rep
      refine ⟨?_, fun _ _ _ => ⟨hrep, _, rfl⟩, ?_, fun _ => ⟨hrep, rfl, rfl⟩, hlarge⟩
      · intro _ _ b hb
        rw [hfind] at hb
        cases hb
      · exact ⟨fun _ => Or.inr (Or.inr ⟨hfind, hans⟩), fun _ => rfl⟩
  | @grown q brk' hpos hle hnone hans hq =>
      have hfind := fits_find?_none.mpr hnone
      have hqn : q + sizeofBlock ≠ null := by simp [sizeofBlock, null]
      have hrep := (hi.grow (toInt64 (u64 (sizeofBlock + n))) brk' n hq
        (hf hle q brk' hans).1 (hf.not_mem hle hans)).rep
      refine ⟨?_, fun _ _ _ => ⟨hrep, _, rfl⟩, ?_, fun hp => absurd hp hqn, hlarge⟩
      · intro _ _ b hb
        rw [hfind] at hb
        cases hb
      · refine ⟨fun hp => absurd hp hqn, fun hc => ?_⟩
        rw [hans] at hc
        rcases hc with hc | hc | ⟨-, hc⟩
        · omega
        · omega
        · cases hc

/-- **The allocator simulates a LIFO first-fit list.** In every reachable state the pointer structure
    represents a list `F`; `my_free` on a block in use pushes it and is otherwise the identity;
    `my_malloc` returns and does to `F` what first fit does; and no later call changes the size of a
    block that exists now. -/
theorem reachable_first_fit {s : Sys} (hs : Reachable s) :
    ∃ F : List Nat, Represents s.heap F ∧
      (∀ a, a ∈ F ↔ a ∈ s.heap.blocks ∧ (s.heap.mem a).free = 1) ∧
      (∀ ptr, Allowed s (.free ptr) →
        (ptr = null ∨ ptr - sizeofBlock ∈ F → myFree ptr s.heap = s.heap) ∧
        (ptr ≠ null → ptr - sizeofBlock ∉ F →
          Represents (myFree ptr s.heap) ((ptr - sizeofBlock) :: F))) ∧
      (∀ n os, Allowed s (.malloc n os) → ∃ p h',
        (∀ fuel, F.length < fuel → myMalloc os fuel n s.heap = some (p, h')) ∧
        FirstFitMalloc os n s.heap F p h') ∧
      (∀ t, Steps s t → ∀ a ∈ s.heap.blocks, (t.heap.mem a).size = (s.heap.mem a).size) := by
  obtain ⟨F, hi⟩ := reachable_inv hs
  have hr := hi.heap.rep
  refine ⟨F, hr, hi.heap.listed, ?_, ?_, ?_⟩
  · intro ptr ha
    refine ⟨fun hn => myFree_noop (hn.imp_right (hi.heap.free_ne_zero _)), fun hp hF => ?_⟩
    have hblk := (hi.issued ptr (ha.resolve_left hp)).2
    have hf : (s.heap.mem (ptr - sizeofBlock)).free = 0 :=
      (hi.heap.flag _ hblk).resolve_right (fun h1 => hF ((hi.heap.listed _).mpr ⟨hblk, h1⟩))
    exact (hi.heap.free hp hblk hf).rep
  · intro n os ha
    obtain ⟨⟨p, h'⟩, hm⟩ :=
      myMalloc_returns os n hr hi.heap.free_ne_zero (Nat.lt_succ_self F.length)
    have ho := myMalloc_outcome hr hi.heap.free_ne_zero ha.2.ne_sizeMax hm
    refine ⟨p, h', fun fuel hfuel => ?_, ho.firstFit hi.heap ha.2⟩
    obtain ⟨k, rfl⟩ : ∃ k, fuel = F.length + 1 + k := ⟨fuel - (F.length + 1), by omega⟩
    exact myMalloc_mono hm
  · intro t ht a ha
    exact (steps_extends ⟨F, hi⟩ ht).size a ha

/-- Of the list 4208, 4144, 4096 the request for 32 bytes takes the second block; the sizes stay. -/
theorem reachable_first_fit_threeFreed :
    ∃ F : List Nat, Represents threeFreed.heap F ∧ F.find? (fits threeFreed.heap 32) = some 4144 ∧
      (∃ h', (∀ fuel, F.length < fuel → myMalloc grantOs fuel 32 threeFreed.heap = some (4144 + sizeofBlock, h')) ∧
        Represents h' (F.erase 4144)) ∧
      myFree 4176 threeFreed.heap = threeFreed.heap ∧
      ∀ t, Steps threeFreed t →
        ∀ a ∈ threeFreed.heap.blocks, (t.heap.mem a).size = (threeFreed.heap.mem a).size := by
  obtain ⟨F, hF, hlisted, hfree, hmalloc, hsize⟩ := reachable_first_fit threeFreed_reachable
  -- the links of the list decide what it is
  have hlist : F = [4208, 4144, 4096] := by
    have hlinked : Linked null (fun a => (threeFreed.heap.mem a).next) (fun a => (threeFreed.heap.mem a).prev) null
        [4208, 4144, 4096] := ⟨rfl, rfl, rfl, rfl, rfl, rfl, trivial⟩
    exact hF.unique ⟨rfl, hlinked, by decide, by decide⟩
  have hfind : F.find? (fits threeFreed.heap 32) = some 4144 := by
    rw [hlist]
    decide
  have hallowed : Allowed threeFreed (.malloc 32 grantOs) :=
    (Granted.Fine.step (s := threeFreed) (c := .malloc 32) (by decide)).1
  obtain ⟨p, h', hret, hfit⟩ := hmalloc 32 grantOs hallowed
  obtain ⟨rfl, hrep, -⟩ := hfit.reuse (by decide) (by decide) 4144 hfind
  refine ⟨F, hF, hfind, ⟨h', hret, hrep⟩, ?_, hsize⟩
  refine (hfree 4176 (Or.inr (by decide))).1 (Or.inr ?_)
  rw [hlist]
  decide

end Malloc
end SystemsPlayground
