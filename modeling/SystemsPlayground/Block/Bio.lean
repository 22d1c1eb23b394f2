import SystemsPlayground.Lib.Word

/-!
# `Block.Bio` — bios, queue limits and `bio_split`

The data that the splitting code of `readaround-split/src/block` works on. A `Bio` is a contiguous range of
sectors together with the memory vectors it transfers; `bio_split` (`bio.c`) cuts a piece off its front.

What the code takes from kernel headers outside the repository and only calls (`Helpers`) is a parameter of
the model, with the documented behaviour that the proofs rely on as a separate predicate (`Documented`).
The iteration over the vectors and the advancing of a bio are part of the meaning of the data and are
defined here as the headers document them.
-/

namespace SystemsPlayground
namespace Block

open Word

/-! ## Data -/

/-- The operations that the code distinguishes. -/
inductive ReqOp where
  | read | write | flush | discard | secureErase | zoneAppend | writeZeroes
deriving DecidableEq

/-- `op_is_write`. -/
def ReqOp.isWrite : ReqOp → Bool
  | .read | .flush => false
  | _ => true

/-- `blk_opf_t`: the operation and the flags that the code reads or writes. `failfast` is the part under
    `REQ_FAILFAST_MASK`. -/
structure Opf where
  op : ReqOp
  failfast : BitVec 3
  rahead : Bool
  nowait : Bool
  atomic : Bool
  nomerge : Bool
  polled : Bool
deriving DecidableEq

/-- `struct bio_vec`; `page` is the physical address of the page. -/
structure Bvec where
  page : Nat
  offset : Nat
  len : Nat
deriving DecidableEq

/-- `bvec_phys`. -/
def Bvec.phys (bv : Bvec) : Nat := bv.page + bv.offset

/-- `struct bio`: `sector` and `size` (in bytes) are those of `bi_iter`, `vecs` are the vectors from the
    position of `bi_iter` on, and `dataUnitSize` is that of the encryption context, if there is one. -/
structure Bio where
  sector : Nat
  size : Nat
  vecs : List Bvec
  opf : Opf
  dataUnitSize : Option Nat
  writeHint : Nat
  writeStream : Nat
  ioprio : Nat
deriving DecidableEq

/-- `bio_sectors`. -/
def Bio.sectors (bio : Bio) : Nat := bio.size / 512

/-- The bytes that the vectors hold. -/
def total (vecs : List Bvec) : Nat := (vecs.map Bvec.len).sum

/-- `struct queue_limits`, the fields that splitting reads. -/
structure QueueLimits where
  logicalBlockSize : Nat
  physicalBlockSize : Nat
  maxSectors : Nat
  chunkSectors : Nat
  maxWriteZeroesSectors : Nat
  atomicWriteMaxSectors : Nat
  atomicWriteBoundarySectors : Nat
  maxSegments : Nat
  maxFastSegmentSize : Nat
  dmaAlignment : Nat
  virtBoundaryMask : Nat
  zoneWriteGranularity : Nat
deriving DecidableEq

/-- What the kernel validates of limits before a queue uses them: block sizes are powers of two of at
    least a sector, and sector limits are multiples of the logical block. -/
structure QueueLimits.Valid (lim : QueueLimits) : Prop where
  logical : ∃ k, 9 ≤ k ∧ k < 32 ∧ lim.logicalBlockSize = 2 ^ k
  physical : ∃ k, k < 32 ∧ lim.physicalBlockSize = 2 ^ k
  logical_le : lim.logicalBlockSize ≤ lim.physicalBlockSize
  maxSectors_pos : 0 < lim.maxSectors
  maxSectors_lt : lim.maxSectors < 2 ^ 32
  maxSectors_dvd : lim.logicalBlockSize ∣ lim.maxSectors * 512
  chunkSectors_lt : lim.chunkSectors < 2 ^ 32
  chunkSectors_dvd : lim.logicalBlockSize ∣ lim.chunkSectors * 512

/-- A bio as the block layer receives it: the vectors hold the data, sizes and sectors are in the range of
    their types, and start and size are aligned to the logical block. -/
structure Bio.Valid (lim : QueueLimits) (bio : Bio) : Prop where
  data : bio.size ≤ total bio.vecs
  size_lt : bio.size < 2 ^ 32
  sector_lt : bio.sector + bio.sectors < 2 ^ 64
  start_dvd : lim.logicalBlockSize ∣ bio.sector * 512
  size_dvd : lim.logicalBlockSize ∣ bio.size

/-! ## Kernel helpers -/

/-- The helpers of the kernel headers that splitting calls. -/
structure Helpers where
  /-- `blk_boundary_sectors_left(offset, boundary_sectors)`. -/
  boundarySectorsLeft : Nat → Nat → Nat
  /-- `get_max_segment_size(lim, paddr, len)`. -/
  maxSegmentSize : QueueLimits → Nat → Nat → Nat
  /-- `bvec_gap_to_prev(lim, bprv, offset)`. -/
  gapToPrev : QueueLimits → Bvec → Nat → Bool
  /-- The length mask that `bio_split_rw_at` hands to `bio_split_io_at`. -/
  lenAlignMask : QueueLimits → Nat

/-- What is documented of the helpers: the sectors left up to the next boundary, and a segment that takes
    at least one and at most all of the bytes offered. -/
structure Helpers.Documented (k : Helpers) : Prop where
  boundary : ∀ offset b, 0 < b → k.boundarySectorsLeft offset b = b - offset % b
  segment_pos : ∀ lim paddr len, 0 < len → 1 ≤ k.maxSegmentSize lim paddr len
  segment_le : ∀ lim paddr len, 0 < len → k.maxSegmentSize lim paddr len ≤ len

/-! ## Advancing and splitting a bio -/

/-- `bvec_iter_advance`: the vectors after `bytes` bytes. -/
def advanceVecs : Nat → List Bvec → List Bvec
  | 0, vecs => vecs
  | _ + 1, [] => []
  | n + 1, bv :: vecs =>
      if bv.len ≤ n + 1 then advanceVecs (n + 1 - bv.len) vecs
      else { bv with offset := bv.offset + (n + 1), len := bv.len - (n + 1) } :: vecs

/-- Operations whose bios have no data to advance over. -/
def ReqOp.noAdvance : ReqOp → Bool
  | .discard | .secureErase | .writeZeroes => true
  | _ => false

/-- `bio_advance`. -/
def Bio.advance (bio : Bio) (bytes : Nat) : Bio :=
  { bio with
    sector := u64 (bio.sector + bytes / 512)
    size := bio.size - bytes
    vecs := if bio.opf.op.noAdvance then bio.vecs else advanceVecs bytes bio.vecs }

/-- The error codes of the splitting code. -/
inductive Errno where
  | einval | eagain | enomem
deriving DecidableEq

/-- `bio_split`: the new front piece and the shortened bio. `alloc` says whether the clone could be
    allocated. -/
def bioSplit (alloc : Bool) (bio : Bio) (sectors : Nat) : Except Errno (Bio × Bio) :=
  if sectors = 0 then .error .einval
  else if sectors ≥ bio.sectors then .error .einval
  else if bio.opf.op = .zoneAppend then .error .einval
  else if bio.opf.atomic then .error .einval
  else if !alloc then .error .enomem
  else
    let split := { bio with size := u32 (sectors * 512) }
    .ok (split, bio.advance split.size)

/-! ## What a split leaves -/

theorem total_cons (bv : Bvec) (vecs : List Bvec) : total (bv :: vecs) = bv.len + total vecs := by
  simp [total]

theorem total_advanceVecs {vecs : List Bvec} {n : Nat} (h : n ≤ total vecs) :
    total (advanceVecs n vecs) = total vecs - n := by
  induction vecs generalizing n with
  | nil =>
      have : n = 0 := by simpa [total] using h
      subst this
      rfl
  | cons bv vecs ih =>
      cases n with
      | zero => rfl
      | succ n =>
          rw [total_cons] at h
          unfold advanceVecs
          by_cases hlen : bv.len ≤ n + 1
          · rw [if_pos hlen, ih (by omega), total_cons]
            omega
          · rw [if_neg hlen, total_cons, total_cons]
            show bv.len - (n + 1) + total vecs = _
            omega

variable {lim : QueueLimits} {bio : Bio} {sectors : Nat}

theorem Bio.Valid.size_mod (hlim : lim.Valid) (h : bio.Valid lim) : bio.size % 512 = 0 := by
  obtain ⟨k, hk, -, hlbs⟩ := hlim.logical
  have h512 : 512 ∣ lim.logicalBlockSize := hlbs ▸ Nat.pow_dvd_pow 2 hk
  exact Nat.mod_eq_zero_of_dvd (Nat.dvd_trans h512 h.size_dvd)

/-- `bio_split` accepts every cut strictly inside a bio that may be split; only the allocation can fail. -/
theorem bioSplit_inside (alloc : Bool) (hpos : 0 < sectors) (hlt : sectors < bio.sectors)
    (hop : bio.opf.op ≠ .zoneAppend) (hatomic : bio.opf.atomic = false) :
    bioSplit alloc bio sectors =
      if alloc then .ok ({ bio with size := u32 (sectors * 512) }, bio.advance (u32 (sectors * 512)))
      else .error .enomem := by
  unfold bioSplit
  rw [if_neg (by omega), if_neg (by omega), if_neg hop, if_neg (by simp [hatomic])]
  cases alloc <;> rfl

end Block
end SystemsPlayground
