import Mathlib.Logic.Function.Basic
import SystemsPlayground.Lib.Word

/-!
# `Malloc.Model` — `mini-malloc/src/malloc.c`

The allocator keeps one header (`block_t`) in front of every payload and threads the freed blocks on a
doubly linked list whose links live in the headers. The memory is modelled at the granularity of
headers: `Heap.mem a` is the `block_t` stored at address `a`, whatever it holds before the allocator
writes it. Addresses and sizes are naturals; the two places where the width of `size_t` matters — the
addition of the header size and the conversion to the signed argument of `sbrk` — reduce explicitly.

`sbrk` belongs to the operating system. An `Os` answers a call from the current break and the signed
increment, with `none` for a failure and `some (p, brk')` for the returned address and the new break.
Every call is recorded in `Heap.calls`, so that "calls `sbrk` once" and "the blocks created so far" are
statements about the state.

`find_free_block` is a `while` loop over the links and need not end on an arbitrary memory. The model
takes a `fuel` and returns `none` when the loop has not ended within it.
-/

namespace SystemsPlayground
namespace Malloc

open Word

/-- The null pointer. -/
def null : Nat := 0

/-- `struct block`, the header in front of a payload. -/
structure Block where
  size : Nat
  free : Int
  prev : Nat
  next : Nat
deriving DecidableEq, Repr

/-- `sizeof(block_t)`: 28 bytes of members and 4 of padding. -/
def sizeofBlock : Nat := 32

/-- `SIZE_MAX`, which is also the address `(void *)-1` that a failing `sbrk` returns. -/
def sizeMax : Nat := 2 ^ 64 - 1

/-- One call of `sbrk`: its signed argument and the address it returned. -/
structure SbrkCall where
  increment : Int
  result : Nat
deriving DecidableEq, Repr

/-- The operating system's answer to `sbrk`, from the break and the increment: `none` for a failure,
    else the returned address and the new break. -/
abbrev Os := Nat → Int → Option (Nat × Nat)

/-- The state the allocator works on: the headers in memory, the static `free_list`, the break, and
    the `sbrk` calls made so far, oldest first. -/
structure Heap where
  mem : Nat → Block
  freeList : Nat
  brk : Nat
  calls : List SbrkCall

namespace Heap

/-! ## Header writes -/

/-- `block->size = v`. -/
def setSize (h : Heap) (a : Nat) (v : Nat) : Heap :=
  { h with mem := Function.update h.mem a { h.mem a with size := v } }

/-- `block->free = v`. -/
def setFree (h : Heap) (a : Nat) (v : Int) : Heap :=
  { h with mem := Function.update h.mem a { h.mem a with free := v } }

/-- `block->prev = v`. -/
def setPrev (h : Heap) (a : Nat) (v : Nat) : Heap :=
  { h with mem := Function.update h.mem a { h.mem a with prev := v } }

/-- `block->next = v`. -/
def setNext (h : Heap) (a : Nat) (v : Nat) : Heap :=
  { h with mem := Function.update h.mem a { h.mem a with next := v } }

/-- `free_list = v`. -/
def setFreeList (h : Heap) (v : Nat) : Heap := { h with freeList := v }

/-- Note one `sbrk` call and the break it leaves. -/
def record (h : Heap) (c : SbrkCall) (brk' : Nat) : Heap :=
  { h with brk := brk', calls := h.calls ++ [c] }

/-- The addresses returned by the successful `sbrk` calls: the blocks created so far, in order. -/
def blocks (h : Heap) : List Nat :=
  (h.calls.map SbrkCall.result).filter (fun a => a ≠ sizeMax)

end Heap

/-! ## The source functions -/

/-- `sbrk(increment)`. -/
def sbrk (os : Os) (increment : Int) (h : Heap) : Nat × Heap :=
  match os h.brk increment with
  | none           => (sizeMax, h.record ⟨increment, sizeMax⟩ h.brk)
  | some (p, brk') => (p, h.record ⟨increment, p⟩ brk')

/-- The loop of `find_free_block`, from `current` on. -/
def findFreeBlockFrom (h : Heap) (size : Nat) : Nat → Nat → Option Nat
  | 0,        _       => none
  | fuel + 1, current =>
    if current = null then some null
    else if (h.mem current).free ≠ 0 ∧ (h.mem current).size ≥ size then some current
    else findFreeBlockFrom h size fuel (h.mem current).next

/-- `find_free_block`: the first block of the list that is free and large enough, or `NULL`. -/
def findFreeBlock (fuel : Nat) (size : Nat) (h : Heap) : Option Nat :=
  findFreeBlockFrom h size fuel h.freeList

/-- `remove_free_block`. -/
def removeFreeBlock (block : Nat) (h : Heap) : Heap :=
  let h := if (h.mem block).prev ≠ null
    then h.setNext (h.mem block).prev (h.mem block).next
    else h.setFreeList (h.mem block).next
  let h := if (h.mem block).next ≠ null
    then h.setPrev (h.mem block).next (h.mem block).prev
    else h
  (h.setPrev block null).setNext block null

/-- `my_malloc`: the returned pointer and the state after the call. -/
def myMalloc (os : Os) (fuel : Nat) (size : Nat) (h : Heap) : Option (Nat × Heap) :=
  if size = 0 then some (null, h)
  else if size > sizeMax - sizeofBlock then some (null, h)
  else
    (findFreeBlock fuel size h).map fun block =>
      if block ≠ null then
        (block + sizeofBlock, (removeFreeBlock block h).setFree block 0)
      else
        -- `total_size` is a `size_t`; the parameter of `sbrk` is a signed `intptr_t`
        let totalSize := u64 (sizeofBlock + size)
        let (block, h) := sbrk os (toInt64 totalSize) h
        if block = sizeMax then (null, h)
        else (block + sizeofBlock, (h.setSize block size).setFree block 0)

/-- `my_free`. -/
def myFree (ptr : Nat) (h : Heap) : Heap :=
  if ptr = null then h
  else
    let block := ptr - sizeofBlock
    if (h.mem block).free ≠ 0 then h
    else
      let h := h.setFree block 1
      let h := h.setPrev block null
      let h := h.setNext block h.freeList
      let h := if h.freeList ≠ null then h.setPrev h.freeList block else h
      h.setFreeList block

/-! ## Field lemmas for the header writes -/

/-- An update at `a` that keeps the projection `f` of the cell keeps it everywhere. -/
theorem updateProj_eq {β γ : Type} (m : Nat → β) (a b : Nat) (v : β) (f : β → γ)
    (hv : f v = f (m a)) : f (Function.update m a v b) = f (m b) := by
  by_cases hb : b = a
  · subst hb; simpa using hv
  · rw [Function.update_of_ne hb]

section Fields

variable (h : Heap) (a b : Nat)

@[simp] theorem setSize_freeList (v : Nat) : (h.setSize a v).freeList = h.freeList := rfl
@[simp] theorem setFree_freeList (v : Int) : (h.setFree a v).freeList = h.freeList := rfl
@[simp] theorem setPrev_freeList (v : Nat) : (h.setPrev a v).freeList = h.freeList := rfl
@[simp] theorem setNext_freeList (v : Nat) : (h.setNext a v).freeList = h.freeList := rfl
@[simp] theorem setFreeList_freeList (v : Nat) : (h.setFreeList v).freeList = v := rfl

@[simp] theorem setSize_calls (v : Nat) : (h.setSize a v).calls = h.calls := rfl
@[simp] theorem setFree_calls (v : Int) : (h.setFree a v).calls = h.calls := rfl
@[simp] theorem setPrev_calls (v : Nat) : (h.setPrev a v).calls = h.calls := rfl
@[simp] theorem setNext_calls (v : Nat) : (h.setNext a v).calls = h.calls := rfl
@[simp] theorem setFreeList_calls (v : Nat) : (h.setFreeList v).calls = h.calls := rfl

@[simp] theorem setSize_brk (v : Nat) : (h.setSize a v).brk = h.brk := rfl
@[simp] theorem setFree_brk (v : Int) : (h.setFree a v).brk = h.brk := rfl
@[simp] theorem setPrev_brk (v : Nat) : (h.setPrev a v).brk = h.brk := rfl
@[simp] theorem setNext_brk (v : Nat) : (h.setNext a v).brk = h.brk := rfl
@[simp] theorem setFreeList_brk (v : Nat) : (h.setFreeList v).brk = h.brk := rfl

@[simp] theorem record_freeList (c : SbrkCall) (v : Nat) : (h.record c v).freeList = h.freeList := rfl
@[simp] theorem record_calls (c : SbrkCall) (v : Nat) : (h.record c v).calls = h.calls ++ [c] := rfl
@[simp] theorem record_brk (c : SbrkCall) (v : Nat) : (h.record c v).brk = v := rfl
@[simp] theorem record_mem (c : SbrkCall) (v : Nat) : (h.record c v).mem = h.mem := rfl
@[simp] theorem setFreeList_mem (v : Nat) : (h.setFreeList v).mem = h.mem := rfl

/-! Reading one field of the header at `b` after a write to another or to the same field at `a`. -/

@[simp] theorem setSize_size (v : Nat) :
    ((h.setSize a v).mem b).size = if b = a then v else (h.mem b).size := by
  unfold Heap.setSize
  by_cases hb : b = a
  · subst hb; simp
  · simp [hb]

@[simp] theorem setFree_free (v : Int) :
    ((h.setFree a v).mem b).free = if b = a then v else (h.mem b).free := by
  unfold Heap.setFree
  by_cases hb : b = a
  · subst hb; simp
  · simp [hb]

@[simp] theorem setPrev_prev (v : Nat) :
    ((h.setPrev a v).mem b).prev = if b = a then v else (h.mem b).prev := by
  unfold Heap.setPrev
  by_cases hb : b = a
  · subst hb; simp
  · simp [hb]

@[simp] theorem setNext_next (v : Nat) :
    ((h.setNext a v).mem b).next = if b = a then v else (h.mem b).next := by
  unfold Heap.setNext
  by_cases hb : b = a
  · subst hb; simp
  · simp [hb]

@[simp] theorem setSize_free (v : Nat) : ((h.setSize a v).mem b).free = (h.mem b).free :=
  updateProj_eq h.mem a b _ (·.free) rfl

@[simp] theorem setSize_prev (v : Nat) : ((h.setSize a v).mem b).prev = (h.mem b).prev :=
  updateProj_eq h.mem a b _ (·.prev) rfl

@[simp] theorem setSize_next (v : Nat) : ((h.setSize a v).mem b).next = (h.mem b).next :=
  updateProj_eq h.mem a b _ (·.next) rfl

@[simp] theorem setFree_size (v : Int) : ((h.setFree a v).mem b).size = (h.mem b).size :=
  updateProj_eq h.mem a b _ (·.size) rfl

@[simp] theorem setFree_prev (v : Int) : ((h.setFree a v).mem b).prev = (h.mem b).prev :=
  updateProj_eq h.mem a b _ (·.prev) rfl

@[simp] theorem setFree_next (v : Int) : ((h.setFree a v).mem b).next = (h.mem b).next :=
  updateProj_eq h.mem a b _ (·.next) rfl

@[simp] theorem setPrev_size (v : Nat) : ((h.setPrev a v).mem b).size = (h.mem b).size :=
  updateProj_eq h.mem a b _ (·.size) rfl

@[simp] theorem setPrev_free (v : Nat) : ((h.setPrev a v).mem b).free = (h.mem b).free :=
  updateProj_eq h.mem a b _ (·.free) rfl

@[simp] theorem setPrev_next (v : Nat) : ((h.setPrev a v).mem b).next = (h.mem b).next :=
  updateProj_eq h.mem a b _ (·.next) rfl

@[simp] theorem setNext_size (v : Nat) : ((h.setNext a v).mem b).size = (h.mem b).size :=
  updateProj_eq h.mem a b _ (·.size) rfl

@[simp] theorem setNext_free (v : Nat) : ((h.setNext a v).mem b).free = (h.mem b).free :=
  updateProj_eq h.mem a b _ (·.free) rfl

@[simp] theorem setNext_prev (v : Nat) : ((h.setNext a v).mem b).prev = (h.mem b).prev :=
  updateProj_eq h.mem a b _ (·.prev) rfl

end Fields

end Malloc
end SystemsPlayground
