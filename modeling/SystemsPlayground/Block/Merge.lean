import SystemsPlayground.Block.Split

/-!
# `Block.Merge` — merging bios and requests

The merge functions of `blk-merge.c`: a bio can be added to the back or the front of a request, or to a
discard request, and two requests can be joined. All of them come together in four places: the last
request of the plug, the requests of a software queue, the proposal of the scheduler, and `attempt_merge`
between two requests.

What decides about a merge and comes from kernel headers is a parameter (`MergeHelpers`). The property that
all merges preserve is `Sealed`: a request with a bio stamped `REQ_NOMERGE` is itself stamped, and has no
other bio.
-/

namespace SystemsPlayground
namespace Block

open Word

/-! ## Requests -/

/-- `struct request`: its bios from `bio` to `biotail`, `__sector`, `__data_len` in bytes, and the flags
    `RQF_MIXED_MERGE` and `RQF_ZONE_WRITE_PLUGGING`. `queue` names the queue it belongs to. -/
structure Request where
  queue : Nat
  bios : List Bio
  cmdFlags : Opf
  sector : Nat
  dataLen : Nat
  nrPhysSegments : Nat
  mixedMerge : Bool
  zoneWritePlugging : Bool
deriving DecidableEq

/-- `blk_rq_sectors`. -/
def Request.sectors (rq : Request) : Nat := rq.dataLen / 512

/-- The helpers of the kernel headers that merging calls. -/
structure MergeHelpers where
  rqMergeable : Request → Bool
  bioMergeable : Bio → Bool
  blkDiscardMergable : Request → Bool
  blkCgroupMergeable : Request → Bio → Bool
  blkIntegrityMergeBio : Request → Bio → Bool
  blkIntegrityMergeRq : Request → Request → Bool
  /-- `blk_integrity_rq` and `integrity_req_gap_back_merge`. -/
  integrityGapBackMerge : Request → Bio → Bool
  /-- `blk_integrity_rq` and `integrity_req_gap_front_merge`. -/
  integrityGapFrontMerge : Request → Bio → Bool
  bioCryptRqCtxCompatible : Request → Bio → Bool
  bioCryptCtxBackMergeable : Request → Bio → Bool
  bioCryptCtxFrontMergeable : Request → Bio → Bool
  bioCryptCtxMergeRq : Request → Request → Bool
  bioHasData : Bio → Bool
  queueVirtBoundary : Nat
  biovecPhysMergeable : Bvec → Bvec → Bool
  bvecGapToPrev : Bvec → Nat → Bool
  blkRqIsPassthrough : Request → Bool
  maxHwSectors : Nat
  blkQueueGetMaxSectors : Request → Nat
  boundarySectorsLeft : Nat → Nat → Nat
  blkRqGetMaxSegments : Request → Nat
  queueMaxDiscardSegments : Nat
  blkRqNrDiscardSegments : Request → Nat
  blkMqSchedAllowMerge : Request → Bio → Bool

/-- What is assumed of them: neither a bio nor a request stamped `REQ_NOMERGE` is mergeable. -/
structure MergeHelpers.Documented (h : MergeHelpers) : Prop where
  bio_nomerge : ∀ bio, h.bioMergeable bio = true → bio.opf.nomerge = false
  rq_nomerge : ∀ rq, h.rqMergeable rq = true → rq.cmdFlags.nomerge = false

/-- `req_set_nomerge`. -/
def reqSetNomerge (rq : Request) : Request :=
  { rq with cmdFlags := { rq.cmdFlags with nomerge := true } }

/-! ## Whether a merge fits -/

/-- The vectors of a bio, cut to its size. -/
def clipVecs : List Bvec → Nat → List Bvec
  | [], _ => []
  | bv :: vecs, left =>
      if left = 0 then []
      else { bv with len := min bv.len left } :: clipVecs vecs (left - min bv.len left)

/-- `bio_get_first_bvec`. -/
def bioGetFirstBvec (bio : Bio) : Option Bvec := (clipVecs bio.vecs bio.size).head?

/-- `bio_get_last_bvec`. -/
def bioGetLastBvec (bio : Bio) : Option Bvec := (clipVecs bio.vecs bio.size).getLast?

/-- `bio_will_gap`. -/
def bioWillGap (h : MergeHelpers) (prevRq : Option Request) (prev next : Bio) : Bool :=
  if !h.bioHasData prev || h.queueVirtBoundary == 0 then false
  else
    let first := match prevRq with
      | some rq => (rq.bios.head?).bind bioGetFirstBvec
      | none    => bioGetFirstBvec prev
    if first.any fun pb => pb.offset &&& h.queueVirtBoundary != 0 then true
    else match bioGetLastBvec prev, bioGetFirstBvec next with
      | some pb, some nb => if h.biovecPhysMergeable pb nb then false else h.bvecGapToPrev pb nb.offset
      | _, _ => false

/-- `req_gap_back_merge`. -/
def reqGapBackMerge (h : MergeHelpers) (rq : Request) (bio : Bio) : Bool :=
  rq.bios.getLast?.any fun biotail => bioWillGap h (some rq) biotail bio

/-- `req_gap_front_merge`. -/
def reqGapFrontMerge (h : MergeHelpers) (rq : Request) (bio : Bio) : Bool :=
  rq.bios.head?.any fun first => bioWillGap h none bio first

/-- `blk_rq_get_max_sectors`. -/
def blkRqGetMaxSectors (h : MergeHelpers) (lim : QueueLimits) (rq : Request) (offset : Nat) : Nat :=
  if h.blkRqIsPassthrough rq then h.maxHwSectors
  else
    let boundarySectors := blkBoundarySectors lim rq.cmdFlags.atomic
    let maxSectors := h.blkQueueGetMaxSectors rq
    if boundarySectors = 0 ∨ rq.cmdFlags.op = .discard ∨ rq.cmdFlags.op = .secureErase then maxSectors
    else min maxSectors (h.boundarySectorsLeft offset boundarySectors)

/-- `ll_new_hw_segment`: whether the segments fit, and the request. -/
def llNewHwSegment (h : MergeHelpers) (rq : Request) (bio : Bio) (nrPhysSegs : Nat) : Bool × Request :=
  if !h.blkCgroupMergeable rq bio then (false, reqSetNomerge rq)
  else if !h.blkIntegrityMergeBio rq bio then (false, reqSetNomerge rq)
  else if rq.cmdFlags.op = .discard then (true, rq)
  else if rq.nrPhysSegments + nrPhysSegs > h.blkRqGetMaxSegments rq then (false, reqSetNomerge rq)
  else (true, { rq with nrPhysSegments := (rq.nrPhysSegments + nrPhysSegs) % 2 ^ 16 })

/-- `ll_back_merge_fn` and `ll_front_merge_fn`, which differ in the gaps and the encryption that they check
    and in the sector from which the size is limited. -/
def llMergeFn (h : MergeHelpers) (lim : QueueLimits) (gap integrityGap cryptOk : Bool) (offset : Nat)
    (rq : Request) (bio : Bio) (nrSegs : Nat) : Bool × Request :=
  if gap then (false, rq)
  else if integrityGap then (false, rq)
  else if !cryptOk then (false, rq)
  else if u32 (rq.sectors + bio.sectors) > blkRqGetMaxSectors h lim rq offset then
    (false, reqSetNomerge rq)
  else llNewHwSegment h rq bio nrSegs

/-- `ll_back_merge_fn`. -/
def llBackMergeFn (h : MergeHelpers) (lim : QueueLimits) (rq : Request) (bio : Bio) (nrSegs : Nat) :
    Bool × Request :=
  llMergeFn h lim (reqGapBackMerge h rq bio) (h.integrityGapBackMerge rq bio)
    (h.bioCryptCtxBackMergeable rq bio) rq.sector rq bio nrSegs

/-- `ll_front_merge_fn`. -/
def llFrontMergeFn (h : MergeHelpers) (lim : QueueLimits) (rq : Request) (bio : Bio) (nrSegs : Nat) :
    Bool × Request :=
  llMergeFn h lim (reqGapFrontMerge h rq bio) (h.integrityGapFrontMerge rq bio)
    (h.bioCryptCtxFrontMergeable rq bio) bio.sector rq bio nrSegs

/-! ## Mixed merges -/

/-- `bio_failfast`. -/
def bioFailfast (bio : Bio) : BitVec 3 :=
  if bio.opf.rahead then BitVec.allOnes 3 else bio.opf.failfast

/-- The bio with more failfast flags. -/
def Bio.addFailfast (bio : Bio) (ff : BitVec 3) : Bio :=
  { bio with opf := { bio.opf with failfast := bio.opf.failfast ||| ff } }

/-- `blk_rq_set_mixed_merge`. -/
def blkRqSetMixedMerge (rq : Request) : Request :=
  if rq.mixedMerge then rq
  else { rq with bios := rq.bios.map fun bio => bio.addFailfast rq.cmdFlags.failfast, mixedMerge := true }

/-- `blk_update_mixed_merge`: the request and the bio. -/
def blkUpdateMixedMerge (rq : Request) (bio : Bio) (frontMerge : Bool) : Request × Bio :=
  if rq.mixedMerge then
    let bio := if bio.opf.rahead then bio.addFailfast (BitVec.allOnes 3) else bio
    (if frontMerge then { rq with cmdFlags := { rq.cmdFlags with failfast := bio.opf.failfast } } else rq,
      bio)
  else (rq, bio)

/-! ## Adding a bio to a request -/

/-- `enum bio_merge_status`. -/
inductive MergeStatus where
  | ok | none | failed
deriving DecidableEq

/-- `bio_attempt_back_merge`. -/
def bioAttemptBackMerge (h : MergeHelpers) (lim : QueueLimits) (rq : Request) (bio : Bio) (nrSegs : Nat) :
    MergeStatus × Request :=
  let ff := bioFailfast bio
  match llBackMergeFn h lim rq bio nrSegs with
  | (false, rq) => (.failed, rq)
  | (true, rq) =>
      let rq := if rq.cmdFlags.failfast ≠ ff then blkRqSetMixedMerge rq else rq
      let (rq, bio) := blkUpdateMixedMerge rq bio false
      (.ok, { rq with bios := rq.bios ++ [bio], dataLen := u32 (rq.dataLen + bio.size) })

/-- `bio_attempt_front_merge`. -/
def bioAttemptFrontMerge (h : MergeHelpers) (lim : QueueLimits) (rq : Request) (bio : Bio) (nrSegs : Nat) :
    MergeStatus × Request :=
  let ff := bioFailfast bio
  if rq.zoneWritePlugging then (.failed, rq)
  else match llFrontMergeFn h lim rq bio nrSegs with
    | (false, rq) => (.failed, rq)
    | (true, rq) =>
        let rq := if rq.cmdFlags.failfast ≠ ff then blkRqSetMixedMerge rq else rq
        let (rq, bio) := blkUpdateMixedMerge rq bio true
        (.ok, { rq with bios := bio :: rq.bios, sector := bio.sector,
                        dataLen := u32 (rq.dataLen + bio.size) })

/-- `bio_attempt_discard_merge`. -/
def bioAttemptDiscardMerge (h : MergeHelpers) (lim : QueueLimits) (rq : Request) (bio : Bio) :
    MergeStatus × Request :=
  let segments := h.blkRqNrDiscardSegments rq
  if segments ≥ h.queueMaxDiscardSegments then (.failed, reqSetNomerge rq)
  else if u32 (rq.sectors + bio.sectors) > blkRqGetMaxSectors h lim rq rq.sector then
    (.failed, reqSetNomerge rq)
  else (.ok, { rq with bios := rq.bios ++ [bio], dataLen := u32 (rq.dataLen + bio.size),
                       nrPhysSegments := (segments + 1) % 2 ^ 16 })

/-- `blk_rq_merge_ok`. -/
def blkRqMergeOk (h : MergeHelpers) (rq : Request) (bio : Bio) : Bool :=
  h.rqMergeable rq && h.bioMergeable bio && rq.cmdFlags.op == bio.opf.op && h.blkCgroupMergeable rq bio &&
    h.blkIntegrityMergeBio rq bio && h.bioCryptRqCtxCompatible rq bio &&
    (rq.bios.head?.all fun first => first.writeHint == bio.writeHint &&
      first.writeStream == bio.writeStream && first.ioprio == bio.ioprio) &&
    rq.cmdFlags.atomic == bio.opf.atomic

/-- `enum elv_merge`. -/
inductive ElvMerge where
  | noMerge | frontMerge | backMerge | discardMerge
deriving DecidableEq

/-- `blk_try_merge`. -/
def blkTryMerge (h : MergeHelpers) (rq : Request) (bio : Bio) : ElvMerge :=
  if h.blkDiscardMergable rq then .discardMerge
  else if u64 (rq.sector + rq.sectors) = bio.sector then .backMerge
  else if u64 (rq.sector + (2 ^ 64 - bio.sectors)) = bio.sector then .frontMerge
  else .noMerge

/-- `blk_attempt_bio_merge`. -/
def blkAttemptBioMerge (h : MergeHelpers) (lim : QueueLimits) (rq : Request) (bio : Bio) (nrSegs : Nat)
    (schedAllowMerge : Bool) : MergeStatus × Request :=
  if !blkRqMergeOk h rq bio then (.none, rq)
  else match blkTryMerge h rq bio with
    | .backMerge =>
        if !schedAllowMerge || h.blkMqSchedAllowMerge rq bio then bioAttemptBackMerge h lim rq bio nrSegs
        else (.failed, rq)
    | .frontMerge =>
        if !schedAllowMerge || h.blkMqSchedAllowMerge rq bio then bioAttemptFrontMerge h lim rq bio nrSegs
        else (.failed, rq)
    | .discardMerge => bioAttemptDiscardMerge h lim rq bio
    | .noMerge => (.none, rq)

/-! ## Joining two requests -/

/-- `req_attempt_discard_merge`. -/
def reqAttemptDiscardMerge (h : MergeHelpers) (lim : QueueLimits) (rq next : Request) : Bool × Request :=
  let segments := h.blkRqNrDiscardSegments rq
  if segments ≥ h.queueMaxDiscardSegments then (false, reqSetNomerge rq)
  else if u32 (rq.sectors + (next.bios.head?.map Bio.sectors).getD 0) >
      blkRqGetMaxSectors h lim rq rq.sector then (false, reqSetNomerge rq)
  else (true, { rq with nrPhysSegments := (segments + h.blkRqNrDiscardSegments next) % 2 ^ 16 })

/-- `ll_merge_requests_fn`. -/
def llMergeRequestsFn (h : MergeHelpers) (lim : QueueLimits) (rq next : Request) : Bool × Request :=
  let totalPhysSegments := rq.nrPhysSegments + next.nrPhysSegments
  if (next.bios.head?.any fun bio => reqGapBackMerge h rq bio) then (false, rq)
  else if u32 (rq.sectors + next.sectors) > blkRqGetMaxSectors h lim rq rq.sector then (false, rq)
  else if totalPhysSegments > h.blkRqGetMaxSegments rq then (false, rq)
  else if !(next.bios.head?.all fun bio => h.blkCgroupMergeable rq bio) then (false, rq)
  else if !h.blkIntegrityMergeRq rq next then (false, rq)
  else if !h.bioCryptCtxMergeRq rq next then (false, rq)
  else (true, { rq with nrPhysSegments := totalPhysSegments % 2 ^ 16 })

/-- `blk_try_req_merge`. -/
def blkTryReqMerge (h : MergeHelpers) (rq next : Request) : ElvMerge :=
  if h.blkDiscardMergable rq then .discardMerge
  else if u64 (rq.sector + rq.sectors) = next.sector then .backMerge
  else .noMerge

/-- The checks of `attempt_merge` before it looks at the positions. -/
def attemptMergeOk (h : MergeHelpers) (rq next : Request) : Bool :=
  h.rqMergeable rq && h.rqMergeable next && rq.cmdFlags.op == next.cmdFlags.op &&
    (match rq.bios.head?, next.bios.head? with
      | some a, some b => a.writeHint == b.writeHint && a.writeStream == b.writeStream &&
          a.ioprio == b.ioprio
      | _, _ => true) &&
    rq.cmdFlags.atomic == next.cmdFlags.atomic

/-- The part of `attempt_merge` after the checks: the bios of `next` are appended to those of `rq`. -/
def joinRequests (rq next : Request) : Request :=
  let (rq, next) :=
    if rq.mixedMerge || next.mixedMerge || rq.cmdFlags.failfast != next.cmdFlags.failfast then
      (blkRqSetMixedMerge rq, blkRqSetMixedMerge next)
    else (rq, next)
  { rq with bios := rq.bios ++ next.bios, dataLen := u32 (rq.dataLen + next.dataLen) }

/-- The `switch` of `attempt_merge` over the positions: whether the requests fit, and the request `rq`. -/
def attemptMergeFits (h : MergeHelpers) (lim : QueueLimits) (rq next : Request) : Bool × Request :=
  match blkTryReqMerge h rq next with
  | .discardMerge => reqAttemptDiscardMerge h lim rq next
  | .backMerge => llMergeRequestsFn h lim rq next
  | _ => (false, rq)

/-- `attempt_merge`: whether `next` was merged into `rq` and is to be freed, and the request `rq`. -/
def attemptMerge (h : MergeHelpers) (lim : QueueLimits) (rq next : Request) : Bool × Request :=
  if !attemptMergeOk h rq next then (false, rq)
  else match attemptMergeFits h lim rq next with
    | (true, rq)  => (true, joinRequests rq next)
    | (false, rq) => (false, rq)

/-! ## Merges and `REQ_NOMERGE` -/

/-- No bio of the request is stamped. -/
def Request.Clean (rq : Request) : Prop := ∀ bio ∈ rq.bios, bio.opf.nomerge = false

/-- A stamped bio is alone in its request, and the request is stamped too. -/
def Request.Sealed (rq : Request) : Prop :=
  ∀ bio ∈ rq.bios, bio.opf.nomerge = true → rq.cmdFlags.nomerge = true ∧ rq.bios = [bio]

section Nomerge

variable {h : MergeHelpers} {lim : QueueLimits} {rq next : Request} {bio : Bio} {nrSegs : Nat}

/-- A request without any bio that must not be merged is sealed. -/
theorem Request.Clean.isSealed (hc : rq.Clean) : rq.Sealed := by
  intro bio hbio hstamp
  rw [hc bio hbio] at hstamp
  exact absurd hstamp (by simp)

/-- A sealed request that is not stamped has no stamped bio. -/
theorem Request.Sealed.clean (hs : rq.Sealed) (hflag : rq.cmdFlags.nomerge = false) : rq.Clean := by
  intro bio hbio
  cases hstamp : bio.opf.nomerge with
  | false => rfl
  | true =>
      have := (hs bio hbio hstamp).1
      rw [hflag] at this
      exact absurd this (by simp)

theorem llNewHwSegment_bios : (llNewHwSegment h rq bio nrSegs).2.bios = rq.bios := by
  unfold llNewHwSegment
  split_ifs <;> rfl

/-- The checks before a merge leave the bios alone. -/
theorem llMergeFn_bios {gap integrityGap cryptOk : Bool} {offset : Nat} :
    (llMergeFn h lim gap integrityGap cryptOk offset rq bio nrSegs).2.bios = rq.bios := by
  unfold llMergeFn
  split_ifs
  · rfl
  · rfl
  · rfl
  · rfl
  · exact llNewHwSegment_bios

theorem blkRqSetMixedMerge_clean (hc : rq.Clean) : (blkRqSetMixedMerge rq).Clean := by
  unfold blkRqSetMixedMerge
  split_ifs
  · exact hc
  · intro bio hbio
    obtain ⟨b, hb, rfl⟩ := List.mem_map.mp hbio
    exact hc b hb

theorem blkUpdateMixedMerge_bios {front : Bool} : (blkUpdateMixedMerge rq bio front).1.bios = rq.bios := by
  unfold blkUpdateMixedMerge
  split_ifs <;> rfl

theorem blkUpdateMixedMerge_nomerge {front : Bool} :
    (blkUpdateMixedMerge rq bio front).2.opf.nomerge = bio.opf.nomerge := by
  unfold blkUpdateMixedMerge
  split_ifs <;> rfl

/-- The bios of the request and the bio, as they are when the bio is linked in. -/
theorem mixed_clean (front : Bool) (ff : BitVec 3) (hc : rq.Clean) (hb : bio.opf.nomerge = false) :
    let r := blkUpdateMixedMerge (if rq.cmdFlags.failfast ≠ ff then blkRqSetMixedMerge rq else rq) bio front
    (∀ b ∈ r.1.bios, b.opf.nomerge = false) ∧ r.2.opf.nomerge = false := by
  simp only [blkUpdateMixedMerge_bios, blkUpdateMixedMerge_nomerge]
  refine ⟨?_, hb⟩
  split_ifs
  · exact blkRqSetMixedMerge_clean hc
  · exact hc

/-- A bio that may be merged keeps the request clean. -/
theorem bioAttemptBackMerge_clean (hc : rq.Clean) (hb : bio.opf.nomerge = false) :
    (bioAttemptBackMerge h lim rq bio nrSegs).2.Clean := by
  have hbios : (llBackMergeFn h lim rq bio nrSegs).2.bios = rq.bios := llMergeFn_bios
  unfold bioAttemptBackMerge
  generalize llBackMergeFn h lim rq bio nrSegs = r at hbios
  obtain ⟨ok, rq'⟩ := r
  have hc' : rq'.Clean := fun b hmem => hc b (hbios ▸ hmem)
  cases ok with
  | false => exact hc'
  | true =>
      obtain ⟨hrq, hbio⟩ := mixed_clean false (bioFailfast bio) hc' hb
      intro b hmem
      rcases List.mem_append.mp hmem with hmem | hmem
      · exact hrq b hmem
      · rw [List.mem_singleton.mp hmem]
        exact hbio

theorem bioAttemptFrontMerge_clean (hc : rq.Clean) (hb : bio.opf.nomerge = false) :
    (bioAttemptFrontMerge h lim rq bio nrSegs).2.Clean := by
  have hbios : (llFrontMergeFn h lim rq bio nrSegs).2.bios = rq.bios := llMergeFn_bios
  unfold bioAttemptFrontMerge
  split_ifs
  · exact hc
  generalize llFrontMergeFn h lim rq bio nrSegs = r at hbios
  obtain ⟨ok, rq'⟩ := r
  have hc' : rq'.Clean := fun b hmem => hc b (hbios ▸ hmem)
  cases ok with
  | false => exact hc'
  | true =>
      obtain ⟨hrq, hbio⟩ := mixed_clean true (bioFailfast bio) hc' hb
      intro b hmem
      rcases List.mem_cons.mp hmem with rfl | hmem
      · exact hbio
      · exact hrq b hmem

theorem bioAttemptDiscardMerge_clean (hc : rq.Clean) (hb : bio.opf.nomerge = false) :
    (bioAttemptDiscardMerge h lim rq bio).2.Clean := by
  unfold bioAttemptDiscardMerge
  simp only
  split_ifs
  · exact hc
  · exact hc
  · intro b hmem
    rcases List.mem_append.mp hmem with hmem | hmem
    · exact hc b hmem
    · rw [List.mem_singleton.mp hmem]
      exact hb

/-- `blk_rq_merge_ok` refuses everything that is stamped. -/
theorem blkRqMergeOk_clean (hh : h.Documented) (hs : rq.Sealed) (hok : blkRqMergeOk h rq bio = true) :
    rq.Clean ∧ bio.opf.nomerge = false := by
  simp only [blkRqMergeOk, Bool.and_eq_true] at hok
  obtain ⟨⟨⟨⟨⟨⟨⟨hrq, hbio⟩, -⟩, -⟩, -⟩, -⟩, -⟩, -⟩ := hok
  exact ⟨hs.clean (hh.rq_nomerge rq hrq), hh.bio_nomerge bio hbio⟩

/-- **Adding a bio keeps a request sealed**, whether the merge succeeds or not. -/
theorem blkAttemptBioMerge_sealed {allow : Bool} (hh : h.Documented) (hs : rq.Sealed) :
    (blkAttemptBioMerge h lim rq bio nrSegs allow).2.Sealed := by
  unfold blkAttemptBioMerge
  by_cases hok : blkRqMergeOk h rq bio = true
  · obtain ⟨hc, hb⟩ := blkRqMergeOk_clean hh hs hok
    simp only [hok, Bool.not_true, Bool.false_eq_true, if_false]
    cases blkTryMerge h rq bio with
    | noMerge => exact hs
    | frontMerge =>
        simp only
        split_ifs
        · exact (bioAttemptFrontMerge_clean hc hb).isSealed
        · exact hs
    | backMerge =>
        simp only
        split_ifs
        · exact (bioAttemptBackMerge_clean hc hb).isSealed
        · exact hs
    | discardMerge => exact (bioAttemptDiscardMerge_clean hc hb).isSealed
  · simp only [hok]
    exact hs

theorem joinRequests_clean (hc : rq.Clean) (hn : next.Clean) : (joinRequests rq next).Clean := by
  unfold joinRequests
  intro bio hbio
  split_ifs at hbio
  · rcases List.mem_append.mp hbio with hbio | hbio
    · exact blkRqSetMixedMerge_clean hc bio hbio
    · exact blkRqSetMixedMerge_clean hn bio hbio
  · rcases List.mem_append.mp hbio with hbio | hbio
    · exact hc bio hbio
    · exact hn bio hbio

/-- The checks on segments and sizes leave the bios of a request alone. -/
theorem attemptMergeFits_bios : (attemptMergeFits h lim rq next).2.bios = rq.bios := by
  unfold attemptMergeFits
  cases blkTryReqMerge h rq next with
  | noMerge => rfl
  | frontMerge => rfl
  | backMerge =>
      unfold llMergeRequestsFn
      simp only
      split_ifs <;> rfl
  | discardMerge =>
      unfold reqAttemptDiscardMerge
      simp only
      split_ifs <;> rfl

/-- **Joining requests keeps them sealed**, whether it succeeds or not. -/
theorem attemptMerge_sealed (hh : h.Documented) (hs : rq.Sealed) (hn : next.Sealed) :
    (attemptMerge h lim rq next).2.Sealed := by
  unfold attemptMerge
  by_cases hok : attemptMergeOk h rq next = true
  · have hmergeable : h.rqMergeable rq = true ∧ h.rqMergeable next = true := by
      simp only [attemptMergeOk, Bool.and_eq_true] at hok
      exact ⟨hok.1.1.1.1, hok.1.1.1.2⟩
    -- neither request is stamped, so neither has a stamped bio
    have hc := hs.clean (hh.rq_nomerge rq hmergeable.1)
    have hnc := hn.clean (hh.rq_nomerge next hmergeable.2)
    have hbios : (attemptMergeFits h lim rq next).2.bios = rq.bios := attemptMergeFits_bios
    simp only [hok, Bool.not_true, Bool.false_eq_true, if_false]
    generalize attemptMergeFits h lim rq next = r at hbios
    obtain ⟨fits, rq'⟩ := r
    have hc' : rq'.Clean := fun b hmem => hc b (hbios ▸ hmem)
    cases fits with
    | true => exact (joinRequests_clean hc' hnc).isSealed
    | false => exact hc'.isSealed
  · simp only [hok]
    exact hs

end Nomerge

end Block
end SystemsPlayground
