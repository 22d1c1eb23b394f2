import SystemsPlayground.Lib.LinkedList
import SystemsPlayground.Malloc.Model

/-!
# `Malloc.FreeList` — what each function does to the free list

`Represents h F` reads the pointer structure of a heap as a list `F` of block addresses, first block
first. This module gives one specification per source function in terms of that list: `my_free` pushes
(`myFree_represents`), `remove_free_block` deletes one element (`removeFreeBlock_represents`) and
`find_free_block` returns the first fitting element within a fuel that the length of `F` bounds
(`findFreeBlock_eq`). The frame lemmas say which header fields each function leaves alone.
-/

namespace SystemsPlayground
namespace Malloc

open LinkedList

/-- The heap's free list, read from `free_list` along `next`, is `F`. -/
structure Represents (h : Heap) (F : List Nat) : Prop where
  head : h.freeList = F.headD null
  linked : Linked null (fun a => (h.mem a).next) (fun a => (h.mem a).prev) null F
  nodup : F.Nodup
  nonnull : null ∉ F

namespace Represents

variable {h h' : Heap} {F : List Nat}

/-- Only the head and the links of the listed blocks matter. -/
theorem congr (hr : Represents h F) (hf : h'.freeList = h.freeList)
    (hn : ∀ a ∈ F, (h'.mem a).next = (h.mem a).next)
    (hp : ∀ a ∈ F, (h'.mem a).prev = (h.mem a).prev) : Represents h' F :=
  ⟨hf.trans hr.head, hr.linked.congr hn hp, hr.nodup, hr.nonnull⟩

/-- A heap represents at most one list. -/
theorem unique {G : List Nat} (hF : Represents h F) (hG : Represents h G) : F = G := by
  have key : ∀ {q q' : Nat} {F G : List Nat}, F.headD null = G.headD null →
      Linked null (fun a => (h.mem a).next) (fun a => (h.mem a).prev) q F →
      Linked null (fun a => (h.mem a).next) (fun a => (h.mem a).prev) q' G →
      null ∉ F → null ∉ G → F = G := by
    intro q q' F
    induction F generalizing q q' with
    | nil =>
        intro G hhd _ _ _ hnG
        cases G with
        | nil => rfl
        | cons b G => exact absurd (show null = b from hhd) (fun he => hnG (he ▸ List.mem_cons_self))
    | cons a F ih =>
        intro G hhd hlF hlG hnF hnG
        cases G with
        | nil => exact absurd (show a = null from hhd) (fun he => hnF (he ▸ List.mem_cons_self))
        | cons b G =>
            obtain rfl : a = b := hhd
            rw [ih (hlF.2.1.symm.trans hlG.2.1) hlF.2.2 hlG.2.2
              (fun hm => hnF (List.mem_cons_of_mem a hm)) (fun hm => hnG (List.mem_cons_of_mem a hm))]
  exact key (hF.head.symm.trans hG.head) hF.linked hG.linked hF.nonnull hG.nonnull

end Represents

/-! ## `my_free` -/

section Free

variable {h : Heap} {ptr : Nat}

/-- Freeing `NULL` or a block whose flag is already set changes nothing. -/
theorem myFree_noop (hn : ptr = null ∨ (h.mem (ptr - sizeofBlock)).free ≠ 0) : myFree ptr h = h := by
  unfold myFree
  by_cases hp : ptr = null
  · rw [if_pos hp]
  · rw [if_neg hp]
    exact if_pos (hn.resolve_left hp)

/-- The guards of `my_free` that let a call through. -/
theorem myFree_guard (ptr : Nat) (h : Heap) :
    (ptr = null ∨ (h.mem (ptr - sizeofBlock)).free ≠ 0) ∨
      ptr ≠ null ∧ (h.mem (ptr - sizeofBlock)).free = 0 := by
  tauto

/-- What a call that passes the guards writes: four header fields, one more when the list was not
    empty, and `free_list`. -/
theorem myFree_push (hp : ptr ≠ null) (hf : (h.mem (ptr - sizeofBlock)).free = 0) :
    myFree ptr h =
      if h.freeList ≠ null then
        ((((h.setFree (ptr - sizeofBlock) 1).setPrev (ptr - sizeofBlock) null).setNext
          (ptr - sizeofBlock) h.freeList).setPrev h.freeList (ptr - sizeofBlock)).setFreeList
            (ptr - sizeofBlock)
      else
        (((h.setFree (ptr - sizeofBlock) 1).setPrev (ptr - sizeofBlock) null).setNext
          (ptr - sizeofBlock) h.freeList).setFreeList (ptr - sizeofBlock) := by
  unfold myFree
  rw [if_neg hp, if_neg (by simp [hf])]
  by_cases hl : h.freeList = null <;> simp [hl]

/-- `my_free` keeps whatever writes to flags, links and the list head keep. -/
theorem myFree_keeps {β : Type} (f : Heap → β) (hfree : ∀ h a v, f (h.setFree a v) = f h)
    (hprev : ∀ h a v, f (h.setPrev a v) = f h) (hnext : ∀ h a v, f (h.setNext a v) = f h)
    (hlist : ∀ h v, f (h.setFreeList v) = f h) : f (myFree ptr h) = f h := by
  rcases myFree_guard ptr h with hn | ⟨hp, hf⟩
  · rw [myFree_noop hn]
  · rw [myFree_push hp hf]
    split_ifs
    · rw [hlist, hprev, hnext, hprev, hfree]
    · rw [hlist, hnext, hprev, hfree]

theorem myFree_size (a : Nat) : ((myFree ptr h).mem a).size = (h.mem a).size :=
  myFree_keeps (fun h => (h.mem a).size) (by simp) (by simp) (by simp) (by simp)

theorem myFree_calls : (myFree ptr h).calls = h.calls :=
  myFree_keeps Heap.calls (by simp) (by simp) (by simp) (by simp)

theorem myFree_brk : (myFree ptr h).brk = h.brk :=
  myFree_keeps Heap.brk (by simp) (by simp) (by simp) (by simp)

/-- The flag of the freed block becomes 1; every other flag is kept. -/
theorem myFree_free (hp : ptr ≠ null) (hf : (h.mem (ptr - sizeofBlock)).free = 0) (a : Nat) :
    ((myFree ptr h).mem a).free = if a = ptr - sizeofBlock then 1 else (h.mem a).free := by
  rw [myFree_push hp hf]; split_ifs <;> simp [*]

theorem myFree_next (hp : ptr ≠ null) (hf : (h.mem (ptr - sizeofBlock)).free = 0) (a : Nat) :
    ((myFree ptr h).mem a).next =
      if a = ptr - sizeofBlock then h.freeList else (h.mem a).next := by
  rw [myFree_push hp hf]; split_ifs <;> simp [*]

theorem myFree_prev (hp : ptr ≠ null) (hf : (h.mem (ptr - sizeofBlock)).free = 0) (a : Nat) :
    ((myFree ptr h).mem a).prev =
      if a = h.freeList ∧ h.freeList ≠ null then ptr - sizeofBlock
      else if a = ptr - sizeofBlock then null else (h.mem a).prev := by
  rw [myFree_push hp hf]; split_ifs <;> simp_all

theorem myFree_freeList (hp : ptr ≠ null) (hf : (h.mem (ptr - sizeofBlock)).free = 0) :
    (myFree ptr h).freeList = ptr - sizeofBlock := by
  rw [myFree_push hp hf]; split_ifs <;> rfl

/-- **`my_free` pushes.** A block in use that is not on the list becomes its first element. -/
theorem myFree_represents {F : List Nat} (hr : Represents h F) (hp : ptr ≠ null)
    (hf : (h.mem (ptr - sizeofBlock)).free = 0) (hb : ptr - sizeofBlock ≠ null)
    (hF : ptr - sizeofBlock ∉ F) :
    Represents (myFree ptr h) ((ptr - sizeofBlock) :: F) := by
  have hhd := hr.head
  have hne : ∀ x ∈ F, x ≠ ptr - sizeofBlock := fun x hx he => hF (he ▸ hx)
  have hnn : ∀ x ∈ F, x ≠ null := fun x hx he => hr.nonnull (he ▸ hx)
  -- the freed block is not the old head, so the write to the old head's `prev` misses it
  have hbh : ¬ (ptr - sizeofBlock = h.freeList ∧ h.freeList ≠ null) := by
    rintro ⟨he, hnl⟩
    rcases headD_mem_or null F with hm | hm
    · exact hF (he.trans hhd ▸ hm)
    · exact hnl (hhd.trans hm)
  refine ⟨myFree_freeList hp hf, hr.linked.push ?_ ?_ ?_ ?_ ?_, ?_, ?_⟩
  · rw [myFree_next hp hf, if_pos rfl, hhd]
  · rw [myFree_prev hp hf, if_neg hbh, if_pos rfl]
  · intro x hx
    rw [myFree_next hp hf, if_neg (hne x hx)]
  · intro x hx
    have hxF : x ∈ F := List.mem_of_mem_head? hx
    have hxh : x = h.freeList := by
      cases F with
      | nil => simp at hx
      | cons y l => exact (Option.some.inj hx).symm.trans hhd.symm
    rw [myFree_prev hp hf, if_pos ⟨hxh, hxh ▸ hnn x hxF⟩]
  · intro x hx
    have hxF : x ∈ F := List.mem_of_mem_tail hx
    have hxh : x ≠ h.freeList := by
      cases F with
      | nil => simp at hx
      | cons y l =>
          intro he
          obtain rfl : x = y := he.trans hhd
          exact (List.nodup_cons.mp hr.nodup).1 hx
    rw [myFree_prev hp hf, if_neg (fun hc => hxh hc.1), if_neg (hne x hxF)]
  · exact List.nodup_cons.mpr ⟨hF, hr.nodup⟩
  · simp [Ne.symm hb, hr.nonnull]

end Free

/-! ## `remove_free_block` -/

section Remove

variable {h : Heap} {block : Nat}

/-- `remove_free_block` keeps whatever writes to links and the list head keep. -/
theorem removeFreeBlock_keeps {β : Type} (f : Heap → β) (hprev : ∀ h a v, f (h.setPrev a v) = f h)
    (hnext : ∀ h a v, f (h.setNext a v) = f h) (hlist : ∀ h v, f (h.setFreeList v) = f h) :
    f (removeFreeBlock block h) = f h := by
  have hfirst : f (if (h.mem block).prev ≠ null then h.setNext (h.mem block).prev (h.mem block).next
      else h.setFreeList (h.mem block).next) = f h := by
    split_ifs
    · exact hnext _ _ _
    · exact hlist _ _
  unfold removeFreeBlock
  simp only [hnext, hprev]
  generalize (if (h.mem block).prev ≠ null then h.setNext (h.mem block).prev (h.mem block).next
    else h.setFreeList (h.mem block).next) = h₁ at hfirst
  split_ifs
  · rw [hprev, hfirst]
  · exact hfirst

theorem removeFreeBlock_size (a : Nat) :
    ((removeFreeBlock block h).mem a).size = (h.mem a).size :=
  removeFreeBlock_keeps (fun h => (h.mem a).size) (by simp) (by simp) (by simp)

theorem removeFreeBlock_free (a : Nat) :
    ((removeFreeBlock block h).mem a).free = (h.mem a).free :=
  removeFreeBlock_keeps (fun h => (h.mem a).free) (by simp) (by simp) (by simp)

theorem removeFreeBlock_calls : (removeFreeBlock block h).calls = h.calls :=
  removeFreeBlock_keeps Heap.calls (by simp) (by simp) (by simp)

theorem removeFreeBlock_brk : (removeFreeBlock block h).brk = h.brk :=
  removeFreeBlock_keeps Heap.brk (by simp) (by simp) (by simp)

/-- The forward links after unlinking `block`: only the predecessor's changes. -/
theorem removeFreeBlock_next (hpb : (h.mem block).prev ≠ block) {a : Nat} (ha : a ≠ block) :
    ((removeFreeBlock block h).mem a).next =
      if a = (h.mem block).prev ∧ (h.mem block).prev ≠ null then (h.mem block).next
      else (h.mem a).next := by
  unfold removeFreeBlock
  by_cases hp : (h.mem block).prev = null <;> by_cases hn : (h.mem block).next = null <;>
    simp [hp, hn, ha, Ne.symm hpb]

/-- The backward links after unlinking `block`: only the successor's changes. -/
theorem removeFreeBlock_prev (hpb : (h.mem block).prev ≠ block) {a : Nat} (ha : a ≠ block) :
    ((removeFreeBlock block h).mem a).prev =
      if a = (h.mem block).next ∧ (h.mem block).next ≠ null then (h.mem block).prev
      else (h.mem a).prev := by
  unfold removeFreeBlock
  by_cases hp : (h.mem block).prev = null <;> by_cases hn : (h.mem block).next = null <;>
    simp [hp, hn, ha, Ne.symm hpb]

theorem removeFreeBlock_freeList (hpb : (h.mem block).prev ≠ block) :
    (removeFreeBlock block h).freeList =
      if (h.mem block).prev = null then (h.mem block).next else h.freeList := by
  unfold removeFreeBlock
  by_cases hp : (h.mem block).prev = null <;> by_cases hn : (h.mem block).next = null <;>
    simp [hp, hn, Ne.symm hpb]

/-- **`remove_free_block` deletes one block**, wherever it stands, and keeps the order of the rest. -/
theorem removeFreeBlock_represents {l₁ l₂ : List Nat} (hr : Represents h (l₁ ++ block :: l₂)) :
    Represents (removeFreeBlock block h) (l₁ ++ l₂) := by
  have hnext : (h.mem block).next = l₂.headD null := hr.linked.next_eq
  have hprev : (h.mem block).prev = l₁.getLastD null := hr.linked.prev_eq
  have hnd := List.nodup_middle.mp hr.nodup
  have hbl : block ∉ l₁ ++ l₂ := (List.nodup_cons.mp hnd).1
  have hbn : block ≠ null := fun he => hr.nonnull (he ▸ by simp)
  have hnn : ∀ x ∈ l₁ ++ l₂, x ≠ null := by
    rintro x hx rfl
    exact hr.nonnull (by simp only [List.mem_append, List.mem_cons] at hx ⊢; tauto)
  have hpb : (h.mem block).prev ≠ block := by
    rw [hprev]
    rcases getLastD_mem_or null l₁ with hm | ⟨-, hm⟩
    · exact fun he => hbl (List.mem_append_left l₂ (he ▸ hm))
    · rw [hm]; exact Ne.symm hbn
  refine ⟨?_, ?_, (List.nodup_cons.mp hnd).2, fun hm => hnn null hm rfl⟩
  · -- the head moves only if `block` is the first one
    rw [removeFreeBlock_freeList hpb, hprev]
    rcases getLastD_mem_or null l₁ with hm | ⟨he, hm⟩
    · rw [if_neg (hnn _ (List.mem_append_left l₂ hm)), hr.head]
      cases l₁ with
      | nil => simp at hm
      | cons c l₁ => rfl
    · rw [if_pos hm, hnext, he]; rfl
  · refine hr.linked.unlink (List.nodup_cons.mpr ⟨hr.nonnull, hr.nodup⟩) hr.nonnull ?_ ?_
    · intro x hx
      rw [removeFreeBlock_next hpb (fun he => hbl (he ▸ hx))]
      by_cases hxp : x = (h.mem block).prev
      · rw [if_pos ⟨hxp, hxp ▸ hnn x hx⟩, if_pos hxp]
      · rw [if_neg (fun hc => hxp hc.1), if_neg hxp]
    · intro x hx
      rw [removeFreeBlock_prev hpb (fun he => hbl (he ▸ hx))]
      by_cases hxn : x = (h.mem block).next
      · rw [if_pos ⟨hxn, hxn ▸ hnn x hx⟩, if_pos hxn]
      · rw [if_neg (fun hc => hxn hc.1), if_neg hxn]

end Remove

/-! ## `find_free_block` -/

section Find

variable {h : Heap} {size : Nat}

/-- The loop, started at the head of a linked list of free blocks, returns its first block of at least
    `size` bytes, or `NULL`; it takes at most one iteration per block and one more. -/
theorem findFreeBlockFrom_eq {q : Nat} {F : List Nat} {fuel : Nat}
    (hl : Linked null (fun a => (h.mem a).next) (fun a => (h.mem a).prev) q F) (hnn : null ∉ F)
    (hfree : ∀ a ∈ F, (h.mem a).free ≠ 0) (hfuel : F.length < fuel) :
    findFreeBlockFrom h size fuel (F.headD null) =
      some ((F.find? (fun a => decide (size ≤ (h.mem a).size))).getD null) := by
  induction F generalizing q fuel with
  | nil =>
      obtain ⟨k, rfl⟩ : ∃ k, fuel = k + 1 := ⟨fuel - 1, by simp at hfuel; omega⟩
      simp [findFreeBlockFrom]
  | cons a F ih =>
      obtain ⟨k, rfl⟩ : ∃ k, fuel = k + 1 := ⟨fuel - 1, by simp at hfuel; omega⟩
      have han : a ≠ null := fun he => hnn (he ▸ List.mem_cons_self)
      have hfa := hfree a List.mem_cons_self
      rw [List.headD_cons, findFreeBlockFrom, if_neg han]
      by_cases hs : size ≤ (h.mem a).size
      · rw [if_pos ⟨hfa, hs⟩, List.find?_cons_of_pos (by simpa using hs)]
        rfl
      · rw [if_neg (fun hc => hs hc.2), List.find?_cons_of_neg (by simpa using hs)]
        have hna : (h.mem a).next = F.headD null := hl.2.1
        rw [hna]
        exact ih hl.2.2 (fun hm => hnn (List.mem_cons_of_mem a hm))
          (fun b hb => hfree b (List.mem_cons_of_mem a hb)) (by simpa using hfuel)

/-- **`find_free_block` is first fit** on the represented list, and terminates. -/
theorem findFreeBlock_eq {F : List Nat} {fuel : Nat} (hr : Represents h F)
    (hfree : ∀ a ∈ F, (h.mem a).free ≠ 0) (hfuel : F.length < fuel) :
    findFreeBlock fuel size h =
      some ((F.find? (fun a => decide (size ≤ (h.mem a).size))).getD null) := by
  unfold findFreeBlock
  rw [hr.head]
  exact findFreeBlockFrom_eq hr.linked hr.nonnull hfree hfuel

end Find

end Malloc
end SystemsPlayground
