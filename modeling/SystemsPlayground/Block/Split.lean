import SystemsPlayground.Block.Bio

/-!
# `Block.Split` — `bio_split_rw` with the read-around hook

`bio_split_rw` (`blk-merge.c`) asks `get_max_io_size` how many sectors one request may have, walks over the
vectors of the bio as far as that limit and the segment limits of the queue allow (`bio_split_io_at`), and
cuts the bio there if it is longer. The read-around hook makes `get_max_io_size` answer half of a
read-ahead bio of exactly 256 sectors.

The walk takes bytes from the front of the bio without skipping any, and stops short of the end whenever it
does not take them all (`walk_spec`); everything else about the cut follows from that.
-/

namespace SystemsPlayground
namespace Block

open Word

/-! ## The limit on one request -/

/-- `blk_boundary_sectors`. -/
def blkBoundarySectors (lim : QueueLimits) (isAtomic : Bool) : Nat :=
  if isAtomic && lim.atomicWriteBoundarySectors != 0 then lim.atomicWriteBoundarySectors
  else lim.chunkSectors

/-- `RASPLIT_TARGET_SECTORS`. -/
def rasplitTargetSectors : Nat := 256

/-- The condition of the read-around hook in `get_max_io_size`. -/
def rasplitHook (rasplitEnabled : Bool) (bio : Bio) : Bool :=
  rasplitEnabled && bio.opf.op == .read && bio.opf.rahead && bio.sectors == rasplitTargetSectors

/-- `get_max_io_size`. -/
def getMaxIoSize (k : Helpers) (rasplitEnabled : Bool) (bio : Bio) (lim : QueueLimits) : Nat :=
  let pbs := lim.physicalBlockSize / 512
  let lbs := lim.logicalBlockSize / 512
  let isAtomic := bio.opf.atomic
  let boundarySectors := blkBoundarySectors lim isAtomic
  if rasplitHook rasplitEnabled bio then rasplitTargetSectors / 2
  else
    let maxSectors :=
      if bio.opf.op = .writeZeroes then lim.maxWriteZeroesSectors
      else if isAtomic then lim.atomicWriteMaxSectors
      else lim.maxSectors
    let maxSectors :=
      if boundarySectors ≠ 0 then min maxSectors (k.boundarySectorsLeft bio.sector boundarySectors)
      else maxSectors
    let start := u32 (bio.sector &&& pred32 pbs)
    let end' := alignDown (u32 (start + maxSectors)) pbs
    if end' > start then end' - start else alignDown maxSectors lbs

/-! ## The walk over the vectors -/

/-- The loop of `bvec_split_segs`: the number of segments, the bytes taken, and the bytes left of those
    offered. Each round takes at least one byte, so as much fuel as bytes is enough. -/
def splitSegsLoop (k : Helpers) (lim : QueueLimits) (bv : Bvec) (maxSegs : Nat) :
    Nat → Nat → Nat → Nat → Nat × Nat × Nat
  | 0, nsegs, totalLen, len => (nsegs, totalLen, len)
  | fuel + 1, nsegs, totalLen, len =>
      if len ≠ 0 ∧ nsegs < maxSegs then
        let segSize := k.maxSegmentSize lim (bv.phys + totalLen) len
        let nsegs := nsegs + 1
        let totalLen := totalLen + segSize
        let len := len - segSize
        if u32 (bv.offset + totalLen) &&& lim.virtBoundaryMask ≠ 0 then (nsegs, totalLen, len)
        else splitSegsLoop k lim bv maxSegs fuel nsegs totalLen len
      else (nsegs, totalLen, len)

/-- `bvec_split_segs`: whether the vector has to be split, and the new `nsegs` and `bytes`. -/
def bvecSplitSegs (k : Helpers) (lim : QueueLimits) (bv : Bvec) (nsegs bytes maxSegs maxBytes : Nat) :
    Bool × Nat × Nat :=
  let maxLen := maxBytes - bytes
  let len := min bv.len maxLen
  let (nsegs, totalLen, len) := splitSegsLoop k lim bv maxSegs len nsegs 0 len
  (decide (len > 0 ∨ bv.len > maxLen), nsegs, bytes + totalLen)

/-- How the walk of `bio_split_io_at` over the vectors ends: at a misaligned vector, at the end of the bio,
    or at `goto split` after some bytes. -/
inductive Walk where
  | misaligned
  | full (nsegs : Nat)
  | cut (nsegs bytes : Nat)
deriving DecidableEq

/-- The loop `bio_for_each_bvec` of `bio_split_io_at`; `left` is the size that the iterator has left, and
    the vector it yields is cut to it. -/
def walk (k : Helpers) (lim : QueueLimits) (maxBytes startMask lenMask : Nat) :
    List Bvec → Nat → Option Bvec → Nat → Nat → Walk
  | [], _, _, nsegs, _ => .full nsegs
  | bv :: vecs, left, prev, nsegs, bytes =>
      if left = 0 then .full nsegs
      else
        let bv := { bv with len := min bv.len left }
        if bv.offset &&& startMask ≠ 0 ∨ bv.len &&& lenMask ≠ 0 then .misaligned
        else if prev.any fun bvprv => k.gapToPrev lim bvprv bv.offset then .cut nsegs bytes
        else if nsegs < lim.maxSegments ∧ u32 (bytes + bv.len) ≤ maxBytes ∧
            u32 (bv.offset + bv.len) ≤ lim.maxFastSegmentSize then
          walk k lim maxBytes startMask lenMask vecs (left - bv.len) (some bv) (nsegs + 1)
            (u32 (bytes + bv.len))
        else
          let (split, nsegs, bytes) := bvecSplitSegs k lim bv nsegs bytes lim.maxSegments maxBytes
          if split then .cut nsegs bytes
          else walk k lim maxBytes startMask lenMask vecs (left - bv.len) (some bv) nsegs bytes

/-- `bio_split_alignment`. -/
def bioSplitAlignment (bio : Bio) (lim : QueueLimits) : Nat :=
  if bio.opf.op.isWrite ∧ lim.zoneWriteGranularity ≠ 0 then lim.zoneWriteGranularity
  else lim.logicalBlockSize

/-- The walk of `bio_split_io_at` over a bio; an encryption context adds its data unit to the masks. -/
def bioWalk (k : Helpers) (bio : Bio) (lim : QueueLimits) (maxBytes lenAlignMask : Nat) : Walk :=
  let unitMask := match bio.dataUnitSize with
    | some unit => pred32 unit
    | none      => 0
  walk k lim maxBytes (lim.dmaAlignment ||| unitMask) (lenAlignMask ||| unitMask) bio.vecs bio.size
    none 0 0

/-- `bio_split_io_at`: an error or the sector to split at (0 for none), and the bio, whose `REQ_POLLED` is
    cleared by a split. -/
def bioSplitIoAt (k : Helpers) (bio : Bio) (lim : QueueLimits) (maxBytes lenAlignMask : Nat) :
    Except Errno Nat × Bio :=
  match bioWalk k bio lim maxBytes lenAlignMask with
  | .misaligned => (.error .einval, bio)
  | .full _ => (.ok 0, bio)
  | .cut _ bytes =>
      if bio.opf.atomic then (.error .einval, bio)
      else if bio.opf.nowait then (.error .eagain, bio)
      else
        let bytes := alignDown bytes (bioSplitAlignment bio lim)
        if bytes = 0 then (.error .einval, bio)
        else (.ok (bytes / 512), { bio with opf := { bio.opf with polled := false } })

/-- The number of segments that `bio_split_io_at` writes to `*segs`, unless it returns an error first. -/
def bioSplitIoAtSegs (k : Helpers) (bio : Bio) (lim : QueueLimits) (maxBytes lenAlignMask : Nat) :
    Option Nat :=
  match bioWalk k bio lim maxBytes lenAlignMask with
  | .misaligned => none
  | .full nsegs => some nsegs
  | .cut nsegs _ => if bio.opf.atomic || bio.opf.nowait then none else some nsegs

/-! ## Submitting -/

/-- What becomes of the remainder of a split: `submit_bio_noacct_nocheck`, the throttle, or `bio_io_error`
    of the fault injection. -/
inductive Fate where
  | resubmitted | throttled | failed
deriving DecidableEq

/-- The surroundings of a submission: whether a clone can be allocated, `should_fail_bio` and
    `blk_throtl_bio`. -/
structure Env where
  alloc : Bio → Bool
  shouldFailBio : Bio → Bool
  blkThrotlBio : Bio → Bool

/-- The branch that `bio_submit_split_bioset` takes for the remainder. -/
def Env.fate (env : Env) (bio : Bio) : Fate :=
  if env.shouldFailBio bio then .failed
  else if env.blkThrotlBio bio then .throttled
  else .resubmitted

/-- The outcome of `bio_submit_split`: the bio itself is returned, or it ends with an error, or a front
    piece is returned and the bio has become the remainder. -/
inductive Submitted where
  | whole (bio : Bio)
  | error (bio : Bio) (e : Errno)
  | split (front rest : Bio) (fate : Fate)
deriving DecidableEq

/-- `bio_submit_split_bioset`. -/
def bioSubmitSplitBioset (env : Env) (bio : Bio) (splitSectors : Nat) : Submitted :=
  match bioSplit (env.alloc bio) bio splitSectors with
  | .error e => .error bio e
  | .ok (split, bio) => .split split bio (env.fate bio)

/-- `bio_submit_split`; the front piece is stamped `REQ_NOMERGE`. -/
def bioSubmitSplit (env : Env) (bio : Bio) : Except Errno Nat → Submitted
  | .error e => .error bio e
  | .ok 0 => .whole bio
  | .ok (n + 1) =>
      match bioSubmitSplitBioset env bio (n + 1) with
      | .split front rest fate => .split { front with opf := { front.opf with nomerge := true } } rest fate
      | other => other

/-- The sector to split at that `bio_split_rw` computes. -/
def bioSplitRwAt (k : Helpers) (rasplitEnabled : Bool) (bio : Bio) (lim : QueueLimits) :
    Except Errno Nat × Bio :=
  bioSplitIoAt k bio lim (u32 (getMaxIoSize k rasplitEnabled bio lim * 512)) (k.lenAlignMask lim)

/-- `bio_split_rw`. -/
def bioSplitRw (k : Helpers) (env : Env) (rasplitEnabled : Bool) (bio : Bio) (lim : QueueLimits) :
    Submitted :=
  let (splitSectors, bio) := bioSplitRwAt k rasplitEnabled bio lim
  bioSubmitSplit env bio splitSectors

/-! ## What the walk takes -/

section Walk

variable {k : Helpers} {lim : QueueLimits} {maxBytes : Nat}

/-- The loop moves bytes from those offered to those taken. -/
theorem splitSegsLoop_sum (hk : k.Documented) (lim : QueueLimits) (bv : Bvec) (maxSegs fuel : Nat) :
    ∀ nsegs taken len, let r := splitSegsLoop k lim bv maxSegs fuel nsegs taken len
      r.2.1 + r.2.2 = taken + len := by
  induction fuel with
  | zero => intro nsegs taken len; rfl
  | succ fuel ih =>
      intro nsegs taken len
      unfold splitSegsLoop
      by_cases hgo : len ≠ 0 ∧ nsegs < maxSegs
      · have hle := hk.segment_le lim (bv.phys + taken) len (by omega)
        simp only [if_pos hgo]
        split_ifs
        · simp only
          omega
        · have := ih (nsegs + 1) (taken + k.maxSegmentSize lim (bv.phys + taken) len)
            (len - k.maxSegmentSize lim (bv.phys + taken) len)
          simp only at this ⊢
          omega
      · simp only [if_neg hgo]

/-- Since every round takes a byte, the loop does not run out of fuel. -/
theorem splitSegsLoop_fuel (hk : k.Documented) (bv : Bvec) (maxSegs : Nat) {fuel len : Nat}
    (hlen : len ≤ fuel) (nsegs taken : Nat) :
    splitSegsLoop k lim bv maxSegs (fuel + 1) nsegs taken len =
      splitSegsLoop k lim bv maxSegs fuel nsegs taken len := by
  induction fuel generalizing nsegs taken len with
  | zero =>
      have : len = 0 := by omega
      subst this
      simp [splitSegsLoop]
  | succ fuel ih =>
      rw [splitSegsLoop, splitSegsLoop]
      by_cases hgo : len ≠ 0 ∧ nsegs < maxSegs
      · have hpos := hk.segment_pos lim (bv.phys + taken) len (by omega)
        simp only [if_pos hgo]
        rw [ih (by omega)]
      · simp only [if_neg hgo]

/-- `bvec_split_segs` stays within the byte limit, and asks for a split exactly when it does not take the
    whole vector. -/
theorem bvecSplitSegs_spec (hk : k.Documented) (lim : QueueLimits) (bv : Bvec) (nsegs maxSegs : Nat)
    {bytes : Nat} (hbytes : bytes ≤ maxBytes) :
    let r := bvecSplitSegs k lim bv nsegs bytes maxSegs maxBytes
    r.2.2 ≤ maxBytes ∧ (r.1 = false → r.2.2 = bytes + bv.len) ∧ (r.1 = true → r.2.2 < bytes + bv.len) := by
  have hsum := splitSegsLoop_sum hk lim bv maxSegs (min bv.len (maxBytes - bytes)) nsegs 0
    (min bv.len (maxBytes - bytes))
  simp only [bvecSplitSegs] at hsum ⊢
  generalize splitSegsLoop k lim bv maxSegs (min bv.len (maxBytes - bytes)) nsegs 0
    (min bv.len (maxBytes - bytes)) = r at hsum ⊢
  obtain ⟨nsegs', taken, len⟩ := r
  simp only [decide_eq_false_iff_not, decide_eq_true_eq, not_or, Nat.not_lt] at hsum ⊢
  omega

/-- **What the walk takes.** It takes bytes up to the limit, all of them if it reaches the end of the bio,
    and not all of them if it stops for a split. -/
theorem walk_spec (hk : k.Documented) (lim : QueueLimits) (startMask lenMask : Nat) (vecs : List Bvec)
    {left bytes : Nat} (prev : Option Bvec) (nsegs : Nat) (hdata : left ≤ total vecs)
    (hlt : bytes + left < 2 ^ 32) (hbytes : bytes ≤ maxBytes) :
    match walk k lim maxBytes startMask lenMask vecs left prev nsegs bytes with
    | .misaligned => True
    | .full _ => bytes + left ≤ maxBytes
    | .cut _ taken => taken ≤ maxBytes ∧ taken < bytes + left := by
  induction vecs generalizing left bytes prev nsegs with
  | nil =>
      have : left = 0 := by simpa [total] using hdata
      simp only [walk]
      omega
  | cons bv vecs ih =>
      rw [total_cons] at hdata
      unfold walk
      by_cases hleft : left = 0
      · rw [if_pos hleft]
        show bytes + left ≤ maxBytes
        omega
      · rw [if_neg hleft]
        have hlen : min bv.len left ≤ left := Nat.min_le_right _ _
        have hsum : u32 (bytes + min bv.len left) = bytes + min bv.len left := u32_of_lt (by omega)
        have hrange : bytes + min bv.len left + (left - min bv.len left) = bytes + left := by omega
        have hdata' : left - min bv.len left ≤ total vecs := by omega
        simp only [hsum]
        by_cases halign : bv.offset &&& startMask ≠ 0 ∨ min bv.len left &&& lenMask ≠ 0
        · rw [if_pos halign]
          trivial
        rw [if_neg halign]
        by_cases hgap : (prev.any fun bvprv => k.gapToPrev lim bvprv bv.offset) = true
        · -- a gap in front of this vector: it is not taken, and it is not empty
          rw [if_pos hgap]
          exact ⟨hbytes, by omega⟩
        rw [if_neg hgap]
        by_cases hfast : nsegs < lim.maxSegments ∧ bytes + min bv.len left ≤ maxBytes ∧
            u32 (bv.offset + min bv.len left) ≤ lim.maxFastSegmentSize
        · rw [if_pos hfast]
          have hrest := ih (some { bv with len := min bv.len left }) (nsegs + 1) hdata'
            (by rw [hrange]; exact hlt) hfast.2.1
          rwa [hrange] at hrest
        rw [if_neg hfast]
        -- the vector is taken segment by segment, and the walk goes on only if it is taken whole
        have hsegs := bvecSplitSegs_spec hk lim { bv with len := min bv.len left } nsegs lim.maxSegments
          hbytes
        generalize bvecSplitSegs k lim { bv with len := min bv.len left } nsegs bytes lim.maxSegments
          maxBytes = r at hsegs
        obtain ⟨split, nsegs', bytes'⟩ := r
        obtain ⟨hle, hall, hpart⟩ := hsegs
        cases split with
        | true =>
            have hlt' : bytes' < bytes + min bv.len left := hpart rfl
            exact ⟨hle, Nat.lt_of_lt_of_le hlt' (by omega)⟩
        | false =>
            obtain rfl : bytes' = bytes + min bv.len left := hall rfl
            have hrest := ih (some { bv with len := min bv.len left }) nsegs' hdata'
              (by rw [hrange]; exact hlt) hle
            rwa [hrange] at hrest

/-- The walk over a whole bio. -/
theorem bioWalk_spec (hk : k.Documented) {bio : Bio} (hbio : bio.Valid lim) (maxBytes lenAlignMask : Nat) :
    match bioWalk k bio lim maxBytes lenAlignMask with
    | .misaligned => True
    | .full _ => bio.size ≤ maxBytes
    | .cut _ taken => taken ≤ maxBytes ∧ taken < bio.size := by
  have hsize := hbio.size_lt
  have hwalk := walk_spec hk lim
    (lim.dmaAlignment ||| match bio.dataUnitSize with
      | some unit => pred32 unit
      | none => 0)
    (lenAlignMask ||| match bio.dataUnitSize with
      | some unit => pred32 unit
      | none => 0)
    bio.vecs none 0 hbio.data (by omega) (Nat.zero_le maxBytes)
  simp only [Nat.zero_add] at hwalk
  exact hwalk

end Walk

end Block
end SystemsPlayground
