import SystemsPlayground.Block.Split

/-!
# `Block.Limits` — where `bio_split_rw` cuts, and whether the pieces obey the queue limits

`bioSplitRw_cases` says once what a call of `bio_split_rw` on a read bio can do. It is then used for the
question whether the pieces obey the limits of the queue: on every path of `get_max_io_size` but one they
do, and the exception is the read-around hook, whose answer of 128 sectors is returned before the limits
are looked at (`max_io_size_within_limits_iff`).
-/

namespace SystemsPlayground
namespace Block

open Word

variable {k : Helpers} {lim : QueueLimits} {bio : Bio} (env : Env) (rasplitEnabled : Bool)

/-- The bio with `REQ_POLLED` cleared. -/
def Bio.clearPolled (bio : Bio) : Bio := { bio with opf := { bio.opf with polled := false } }

/-- The front piece of `n` sectors that a split returns. -/
def Bio.front (bio : Bio) (n : Nat) : Bio :=
  { bio with size := n * 512, opf := { bio.opf with polled := false, nomerge := true } }

/-- The remainder of a split after `n` sectors. -/
def Bio.rest (bio : Bio) (n : Nat) : Bio := bio.clearPolled.advance (n * 512)

/-! ## Where the cut falls -/

/-- A number of bytes rounded down to the logical block is a number of sectors. -/
theorem alignDown_logical (hlim : lim.Valid) {bytes : Nat} (hbytes : bytes < 2 ^ 32) :
    lim.logicalBlockSize ∣ alignDown bytes lim.logicalBlockSize ∧
    alignDown bytes lim.logicalBlockSize / 512 * 512 = alignDown bytes lim.logicalBlockSize := by
  obtain ⟨j, hj, hlt, hlbs⟩ := hlim.logical
  have hdvd : lim.logicalBlockSize ∣ alignDown bytes lim.logicalBlockSize := by
    rw [hlbs, alignDown_two_pow hbytes hlt]
    exact Nat.dvd_mul_left _ _
  have h512 : 512 ∣ lim.logicalBlockSize := hlbs ▸ Nat.pow_dvd_pow 2 hj
  exact ⟨hdvd, Nat.div_mul_cancel (Nat.dvd_trans h512 hdvd)⟩

/-- **The split point.** An error; or no split, and the bio is as short as allowed; or a cut strictly inside
    the bio, after a whole number of logical blocks and not beyond the limit. -/
theorem bioSplitRwAt_cases (hk : k.Documented) (hlim : lim.Valid) (hbio : bio.Valid lim)
    (hop : bio.opf.op = .read) :
    (∃ e, bioSplitRwAt k rasplitEnabled bio lim = (.error e, bio) ∧
      (bio.opf.nowait = false → e = .einval)) ∨
    (bioSplitRwAt k rasplitEnabled bio lim = (.ok 0, bio) ∧
      bio.sectors ≤ getMaxIoSize k rasplitEnabled bio lim) ∨
    (∃ n, bioSplitRwAt k rasplitEnabled bio lim = (.ok n, bio.clearPolled) ∧ bio.opf.atomic = false ∧
      0 < n ∧ n < bio.sectors ∧ n ≤ getMaxIoSize k rasplitEnabled bio lim ∧
      lim.logicalBlockSize ∣ n * 512) := by
  have hmod := hbio.size_mod hlim
  have hsize := hbio.size_lt
  have hmax := u32_le (getMaxIoSize k rasplitEnabled bio lim * 512)
  have hsectors : bio.sectors * 512 = bio.size := by unfold Bio.sectors; omega
  unfold bioSplitRwAt bioSplitIoAt
  generalize u32 (getMaxIoSize k rasplitEnabled bio lim * 512) = maxBytes at hmax ⊢
  have hwalk := bioWalk_spec hk hbio maxBytes (k.lenAlignMask lim)
  cases hw : bioWalk k bio lim maxBytes (k.lenAlignMask lim) with
  | misaligned => exact Or.inl ⟨.einval, rfl, fun _ => rfl⟩
  | full nsegs =>
      rw [hw] at hwalk
      simp only at hwalk
      exact Or.inr (Or.inl ⟨rfl, by omega⟩)
  | cut nsegs bytes =>
      rw [hw] at hwalk
      obtain ⟨hle, hlt⟩ := hwalk
      have halign : bioSplitAlignment bio lim = lim.logicalBlockSize := by
        simp [bioSplitAlignment, hop, ReqOp.isWrite]
      simp only [halign]
      by_cases hatomic : bio.opf.atomic = true
      · rw [if_pos hatomic]
        exact Or.inl ⟨.einval, rfl, fun _ => rfl⟩
      rw [if_neg hatomic]
      by_cases hnowait : bio.opf.nowait = true
      · rw [if_pos hnowait]
        exact Or.inl ⟨.eagain, rfl, fun h => by simp [h] at hnowait⟩
      rw [if_neg hnowait]
      by_cases hzero : alignDown bytes lim.logicalBlockSize = 0
      · rw [if_pos hzero]
        exact Or.inl ⟨.einval, rfl, fun _ => rfl⟩
      · rw [if_neg hzero]
        -- rounding down keeps the cut below the bytes taken, which are not all of the bio
        have hdown := alignDown_le bytes lim.logicalBlockSize
        obtain ⟨hdvd, hmul⟩ := alignDown_logical hlim (show bytes < 2 ^ 32 by omega)
        refine Or.inr (Or.inr ⟨_, rfl, by simpa using hatomic, by omega, by omega, by omega, ?_⟩)
        rw [hmul]
        exact hdvd

/-- Submitting a cut strictly inside a bio that may be split. -/
theorem bioSubmitSplit_inside {n : Nat} (hbio : bio.size < 2 ^ 32) (hop : bio.opf.op = .read)
    (hatomic : bio.opf.atomic = false) (hpos : 0 < n) (hlt : n < bio.sectors) :
    bioSubmitSplit env bio.clearPolled (.ok n) =
      if env.alloc bio.clearPolled then .split (bio.front n) (bio.rest n) (env.fate (bio.rest n))
      else .error bio.clearPolled .enomem := by
  obtain ⟨m, rfl⟩ : ∃ m, n = m + 1 := ⟨n - 1, by omega⟩
  have hu32 : u32 ((m + 1) * 512) = (m + 1) * 512 := u32_of_lt (by unfold Bio.sectors at hlt; omega)
  have hcut : bioSplit (env.alloc bio.clearPolled) bio.clearPolled (m + 1) = _ :=
    bioSplit_inside _ hpos hlt (by simp [Bio.clearPolled, hop]) hatomic
  simp only [bioSubmitSplit, bioSubmitSplitBioset]
  rw [hcut, hu32]
  cases env.alloc bio.clearPolled <;> rfl

/-- **What `bio_split_rw` does to a read bio.** It ends the bio with an error (`-EINVAL`, unless the bio may
    not wait or the clone cannot be allocated), or returns it unchanged, or cuts it. -/
theorem bioSplitRw_cases (hk : k.Documented) (hlim : lim.Valid) (hbio : bio.Valid lim)
    (hop : bio.opf.op = .read) :
    (∃ b e, bioSplitRw k env rasplitEnabled bio lim = .error b e ∧ b.sector = bio.sector ∧
      b.size = bio.size ∧ (bio.opf.nowait = false → (∀ b, env.alloc b = true) → e = .einval)) ∨
    (bioSplitRw k env rasplitEnabled bio lim = .whole bio ∧
      bio.sectors ≤ getMaxIoSize k rasplitEnabled bio lim) ∨
    (∃ n, bioSplitRw k env rasplitEnabled bio lim =
        .split (bio.front n) (bio.rest n) (env.fate (bio.rest n)) ∧
      0 < n ∧ n < bio.sectors ∧ n ≤ getMaxIoSize k rasplitEnabled bio lim ∧
      lim.logicalBlockSize ∣ n * 512) := by
  unfold bioSplitRw
  rcases bioSplitRwAt_cases rasplitEnabled hk hlim hbio hop with
    ⟨e, heq, he⟩ | ⟨heq, hle⟩ | ⟨n, heq, hatomic, hpos, hlt, hle, hdvd⟩
  · rw [heq]
    exact Or.inl ⟨bio, e, rfl, rfl, rfl, fun hnowait _ => he hnowait⟩
  · rw [heq]
    exact Or.inr (Or.inl ⟨rfl, hle⟩)
  · rw [heq]
    show _ ∨ _ ∨ ∃ m, bioSubmitSplit env bio.clearPolled (.ok n) = _ ∧ _
    simp only [bioSubmitSplit_inside env hbio.size_lt hop hatomic hpos hlt]
    cases halloc : env.alloc bio.clearPolled with
    | true => exact Or.inr (Or.inr ⟨n, rfl, hpos, hlt, hle, hdvd⟩)
    | false =>
        refine Or.inl ⟨bio.clearPolled, .enomem, rfl, rfl, rfl, fun _ hall => ?_⟩
        rw [hall] at halloc
        exact absurd halloc (by simp)

/-! ## The limits on one request -/

/-- A request of `n` sectors from `sector` on has at most `max_sectors` of them and, if there are chunks,
    does not cross from one into the next. -/
def WithinLimits (lim : QueueLimits) (sector n : Nat) : Prop :=
  n ≤ lim.maxSectors ∧ (lim.chunkSectors ≠ 0 → sector % lim.chunkSectors + n ≤ lim.chunkSectors)

theorem WithinLimits.mono {sector m n : Nat} (h : WithinLimits lim sector n) (hle : m ≤ n) :
    WithinLimits lim sector m :=
  ⟨Nat.le_trans hle h.1, fun hc => Nat.le_trans (Nat.add_le_add_left hle _) (h.2 hc)⟩

/-- The limits are the bound that `get_max_io_size` starts from. -/
theorem withinLimits_iff (hk : k.Documented) (sector n : Nat) :
    WithinLimits lim sector n ↔ n ≤ (if lim.chunkSectors ≠ 0 then
      min lim.maxSectors (k.boundarySectorsLeft sector lim.chunkSectors) else lim.maxSectors) := by
  by_cases hc : lim.chunkSectors ≠ 0
  · rw [if_pos hc, hk.boundary _ _ (Nat.pos_of_ne_zero hc), Nat.le_min]
    have hmod := Nat.mod_lt sector (Nat.pos_of_ne_zero hc)
    constructor
    · intro h
      have := h.2 hc
      exact ⟨h.1, by omega⟩
    · rintro ⟨hle, hleft⟩
      exact ⟨hle, fun _ => by omega⟩
  · rw [if_neg hc]
    exact ⟨fun h => h.1, fun h => ⟨h, fun hc' => absurd hc' hc⟩⟩

/-- Outside the hook the answer of `get_max_io_size` is within the limits. -/
theorem getMaxIoSize_within (hk : k.Documented) (hop : bio.opf.op = .read)
    (hatomic : bio.opf.atomic = false) (hhook : rasplitHook rasplitEnabled bio = false) :
    WithinLimits lim bio.sector (getMaxIoSize k rasplitEnabled bio lim) := by
  have hboundary : blkBoundarySectors lim false = lim.chunkSectors := by simp [blkBoundarySectors]
  have hnozero : ¬ bio.opf.op = .writeZeroes := by simp [hop]
  simp only [getMaxIoSize, hhook, hboundary, if_neg hnozero, hatomic, Bool.false_eq_true, if_false]
  -- the limit that the alignment then rounds down
  generalize hm : (if lim.chunkSectors ≠ 0 then
      min lim.maxSectors (k.boundarySectorsLeft bio.sector lim.chunkSectors) else lim.maxSectors) = m
  have hlim : WithinLimits lim bio.sector m := (withinLimits_iff hk bio.sector m).mpr (Nat.le_of_eq hm.symm)
  apply hlim.mono
  generalize u32 (bio.sector &&& pred32 (lim.physicalBlockSize / 512)) = start
  have hdown := alignDown_le (u32 (start + m)) (lim.physicalBlockSize / 512)
  have hu32 := u32_le (start + m)
  split_ifs
  · omega
  · exact alignDown_le _ _

/-- Block sizes in sectors are powers of two. -/
theorem QueueLimits.Valid.block_sectors (hlim : lim.Valid) :
    (∃ i, i < 32 ∧ lim.logicalBlockSize = 2 ^ i * 512) ∧
      ∃ j, j < 23 ∧ lim.physicalBlockSize = 2 ^ j * 512 := by
  obtain ⟨i, hi, hi32, hlbs⟩ := hlim.logical
  obtain ⟨j, hj, hpbs⟩ := hlim.physical
  have hle := hlim.logical_le
  rw [hlbs, hpbs] at hle
  have hij : i ≤ j := (Nat.pow_le_pow_iff_right (by decide)).mp hle
  have hsplit : ∀ m, 9 ≤ m → 2 ^ m = 2 ^ (m - 9) * 512 := fun m hm => by
    rw [show (512 : Nat) = 2 ^ 9 from rfl, ← Nat.pow_add, Nat.sub_add_cancel hm]
  exact ⟨⟨i - 9, by omega, by rw [hlbs, hsplit i hi]⟩, ⟨j - 9, by omega, by rw [hpbs, hsplit j (by omega)]⟩⟩

/-- From `sector` on there is room for `n` sectors: they are within the limits, and if some request within
    the limits ends on a physical block, then one of at least `n` sectors does. -/
structure Room (lim : QueueLimits) (sector n : Nat) : Prop where
  within : WithinLimits lim sector n
  physical : ∀ m, 0 < m → WithinLimits lim sector m → lim.physicalBlockSize ∣ (sector + m) * 512 →
    ∃ m', n ≤ m' ∧ WithinLimits lim sector m' ∧ lim.physicalBlockSize ∣ (sector + m') * 512

/-- Outside the hook `get_max_io_size` uses the room that there is. -/
theorem Room.le_getMaxIoSize {n : Nat} (h : Room lim bio.sector n) (hk : k.Documented) (hlim : lim.Valid)
    (hop : bio.opf.op = .read) (hatomic : bio.opf.atomic = false)
    (hhook : rasplitHook rasplitEnabled bio = false) (hmax : lim.maxSectors * 512 < 2 ^ 32)
    (hdvd : lim.logicalBlockSize ∣ n * 512) : n ≤ getMaxIoSize k rasplitEnabled bio lim := by
  obtain ⟨⟨i, hi, hlbs⟩, ⟨j, hj, hpbs⟩⟩ := hlim.block_sectors
  have hboundary : blkBoundarySectors lim false = lim.chunkSectors := by simp [blkBoundarySectors]
  have hnozero : ¬ bio.opf.op = .writeZeroes := by simp [hop]
  have hiff : ∀ x, WithinLimits lim bio.sector x ↔ _ := withinLimits_iff hk bio.sector
  simp only [getMaxIoSize, hhook, hboundary, if_neg hnozero, hatomic, Bool.false_eq_true, if_false]
  generalize (if lim.chunkSectors ≠ 0 then
      min lim.maxSectors (k.boundarySectorsLeft bio.sector lim.chunkSectors) else lim.maxSectors) = m at hiff ⊢
  have hle : m ≤ lim.maxSectors := ((hiff m).mpr (Nat.le_refl m)).1
  have hblock : 2 ^ j < 2 ^ 23 := Nat.pow_lt_pow_right (by decide) hj
  have hstart := Nat.mod_lt bio.sector (Nat.two_pow_pos j)
  have hsum : bio.sector % 2 ^ j + m < 2 ^ 32 := by omega
  -- ending on a physical block, counted from the start of the block that `sector` is in
  have hlast : ∀ x, lim.physicalBlockSize ∣ (bio.sector + x) * 512 ↔ 2 ^ j ∣ bio.sector % 2 ^ j + x := by
    intro x
    rw [hpbs, Nat.mul_dvd_mul_iff_right (by decide), Nat.dvd_iff_mod_eq_zero, Nat.dvd_iff_mod_eq_zero,
      Nat.mod_add_mod]
  rw [hpbs, hlbs, Nat.mul_div_cancel _ (by decide), Nat.mul_div_cancel _ (by decide),
    u32_and_pred32 (by omega), u32_of_lt hsum]
  have hdown := alignDown_le (bio.sector % 2 ^ j + m) (2 ^ j)
  have hmul : 2 ^ j ∣ alignDown (bio.sector % 2 ^ j + m) (2 ^ j) := by
    rw [alignDown_two_pow hsum (by omega)]
    exact Nat.dvd_mul_left _ _
  split_ifs with hgt
  · obtain ⟨m', hnm, hm', hdvd'⟩ := h.physical
      (alignDown (bio.sector % 2 ^ j + m) (2 ^ j) - bio.sector % 2 ^ j) (by omega) ((hiff _).mpr (by omega))
      ((hlast _).mpr (by rw [Nat.add_sub_cancel' (Nat.le_of_lt hgt)]; exact hmul))
    have hm'le := (hiff m').mp hm'
    have hfar := le_alignDown hsum (by omega) ((hlast m').mp hdvd') (by omega)
    omega
  · rw [hlbs, Nat.mul_dvd_mul_iff_right (by decide)] at hdvd
    exact le_alignDown (by omega) hi hdvd ((hiff n).mp h.within)

/-- The bio that a submission hands back to be sent to the device. -/
def Submitted.sent : Submitted → Option Bio
  | .whole bio => some bio
  | .error _ _ => none
  | .split front _ _ => some front

/-- What `bio_split_rw` sends starts where the bio does and is as short as `get_max_io_size` says. -/
theorem sent_le {piece : Bio} (hk : k.Documented) (hlim : lim.Valid) (hbio : bio.Valid lim)
    (hop : bio.opf.op = .read) (hsent : (bioSplitRw k env rasplitEnabled bio lim).sent = some piece) :
    piece.sector = bio.sector ∧ piece.sectors ≤ getMaxIoSize k rasplitEnabled bio lim := by
  rcases bioSplitRw_cases env rasplitEnabled hk hlim hbio hop with
    ⟨b, e, heq, -⟩ | ⟨heq, hle⟩ | ⟨n, heq, -, -, hle, -⟩
  · rw [heq] at hsent
    exact absurd hsent (by simp [Submitted.sent])
  · rw [heq] at hsent
    obtain rfl := Option.some.inj hsent
    exact ⟨rfl, hle⟩
  · rw [heq] at hsent
    obtain rfl := Option.some.inj hsent
    refine ⟨rfl, ?_⟩
    show n * 512 / 512 ≤ _
    omega

/-- The hook takes over and 128 sectors from the start of the bio are not within the limits. -/
def HookExceeds (lim : QueueLimits) (bio : Bio) : Prop :=
  bio.opf.rahead = true ∧ bio.sectors = rasplitTargetSectors ∧
  (lim.maxSectors < 128 ∨
    lim.chunkSectors ≠ 0 ∧ lim.chunkSectors - bio.sector % lim.chunkSectors < 128)

/-- **When `get_max_io_size` respects the limits.** For a read bio that is not atomic, the answer and every
    piece sent obey `max_sectors` and the chunks exactly unless the hook takes over a bio whose first 128
    sectors do not. -/
theorem max_io_size_within_limits_iff (hk : k.Documented) (hlim : lim.Valid) (hbio : bio.Valid lim)
    (hop : bio.opf.op = .read) (hatomic : bio.opf.atomic = false) :
    (WithinLimits lim bio.sector (getMaxIoSize k true bio lim) ∧
      ∀ piece, (bioSplitRw k env true bio lim).sent = some piece →
        WithinLimits lim piece.sector piece.sectors) ↔
    ¬ HookExceeds lim bio := by
  have hpieces : WithinLimits lim bio.sector (getMaxIoSize k true bio lim) →
      ∀ piece, (bioSplitRw k env true bio lim).sent = some piece →
        WithinLimits lim piece.sector piece.sectors := by
    intro hmax piece hsent
    obtain ⟨hsector, hle⟩ := sent_le env true hk hlim hbio hop hsent
    rw [hsector]
    exact hmax.mono hle
  have hmax : WithinLimits lim bio.sector (getMaxIoSize k true bio lim) ↔ ¬ HookExceeds lim bio := by
    by_cases hhook : rasplitHook true bio = true
    · have hhalf : getMaxIoSize k true bio lim = 128 := by
        simp [getMaxIoSize, hhook, rasplitTargetSectors]
      have hcond : bio.opf.rahead = true ∧ bio.sectors = rasplitTargetSectors := by
        simpa [rasplitHook, hop] using hhook
      -- the answer is 128, whatever the limits are
      rw [hhalf]
      constructor
      · rintro ⟨hsec, hchunk⟩ ⟨-, -, hbad | ⟨hc, hbad⟩⟩
        · omega
        · have := hchunk hc
          omega
      · intro hfine
        refine ⟨?_, fun hc => ?_⟩
        · exact Nat.le_of_not_lt fun hbad => hfine ⟨hcond.1, hcond.2, Or.inl hbad⟩
        · have hleft := Nat.le_of_not_lt fun hbad => hfine ⟨hcond.1, hcond.2, Or.inr ⟨hc, hbad⟩⟩
          have := Nat.mod_lt bio.sector (Nat.pos_of_ne_zero hc)
          omega
    · refine iff_of_true ?_ ?_
      · exact getMaxIoSize_within true hk hop hatomic (by simpa using hhook)
      · rintro ⟨hrahead, hsectors, -⟩
        exact hhook (by simp [rasplitHook, hop, hrahead, hsectors])
  exact ⟨fun h => hmax.mp h.1, fun h => ⟨hmax.mpr h, hpieces (hmax.mpr h)⟩⟩

/-! ## A queue whose limit the hook overrides -/

/-- Helpers of a device without segment limits. -/
def plainHelpers : Helpers where
  boundarySectorsLeft offset b := b - offset % b
  maxSegmentSize _ _ len := len
  gapToPrev _ _ _ := false
  lenAlignMask lim := lim.dmaAlignment

theorem plainHelpers_documented : plainHelpers.Documented :=
  ⟨fun _ _ _ => rfl, fun _ _ _ h => h, fun _ _ len _ => Nat.le_refl len⟩

/-- Limits of a device with blocks of 512 bytes. -/
def plainLimits (maxSectors : Nat) : QueueLimits where
  logicalBlockSize := 512
  physicalBlockSize := 512
  maxSectors := maxSectors
  chunkSectors := 0
  maxWriteZeroesSectors := 0
  atomicWriteMaxSectors := 0
  atomicWriteBoundarySectors := 0
  maxSegments := 127
  maxFastSegmentSize := 4096
  dmaAlignment := 3
  virtBoundaryMask := 0
  zoneWriteGranularity := 0

theorem plainLimits_valid {maxSectors : Nat} (hpos : 0 < maxSectors) (hlt : maxSectors < 2 ^ 32) :
    (plainLimits maxSectors).Valid :=
  ⟨⟨9, by decide, by decide, rfl⟩, ⟨9, by decide, rfl⟩, Nat.le_refl _, hpos, hlt,
    Nat.dvd_mul_left _ _, Nat.two_pow_pos 32, Nat.dvd_mul_left _ _⟩

/-- A read-ahead bio of 128 KiB in pages of 4 KiB. -/
def readAroundBio : Bio where
  sector := 0
  size := 131072
  vecs := (List.range 32).map fun i => ⟨8192 * i, 0, 4096⟩
  opf := ⟨.read, 0, true, false, false, false, false⟩
  dataUnitSize := none
  writeHint := 0
  writeStream := 0
  ioprio := 0

theorem readAroundBio_valid (maxSectors : Nat) : readAroundBio.Valid (plainLimits maxSectors) where
  data := by decide
  size_lt := by decide
  sector_lt := by decide
  start_dvd := Nat.dvd_mul_left 512 0
  size_dvd := (by decide : 512 ∣ 131072)

/-- Surroundings in which nothing fails or is throttled. -/
def plainEnv : Env := ⟨fun _ => true, fun _ => false, fun _ => false⟩

theorem max_io_size_within_limits_iff_plain :
    ¬ HookExceeds (plainLimits 1024) readAroundBio ∧
    WithinLimits (plainLimits 1024) 0 (getMaxIoSize plainHelpers true readAroundBio (plainLimits 1024)) := by
  have hfine : ¬ HookExceeds (plainLimits 1024) readAroundBio := by
    rintro ⟨-, -, hbad | ⟨hc, -⟩⟩
    · exact absurd hbad (by decide)
    · exact hc rfl
  refine ⟨hfine, ?_⟩
  exact ((max_io_size_within_limits_iff plainEnv plainHelpers_documented
    (plainLimits_valid (by decide) (by decide)) (readAroundBio_valid 1024) rfl rfl).mpr hfine).1

/-- A queue that takes 64 sectors at a time is sent 128. -/
theorem hook_exceeds_max_sectors :
    (plainLimits 64).Valid ∧ readAroundBio.Valid (plainLimits 64) ∧ plainHelpers.Documented ∧
    readAroundBio.opf.op = .read ∧ readAroundBio.opf.atomic = false ∧
    getMaxIoSize plainHelpers true readAroundBio (plainLimits 64) = 128 ∧
    ¬ WithinLimits (plainLimits 64) readAroundBio.sector
        (getMaxIoSize plainHelpers true readAroundBio (plainLimits 64)) ∧
    ∃ piece, (bioSplitRw plainHelpers plainEnv true readAroundBio (plainLimits 64)).sent = some piece ∧
      piece.sectors = 128 ∧ ¬ WithinLimits (plainLimits 64) piece.sector piece.sectors := by
  have hbad : ∀ sector, ¬ WithinLimits (plainLimits 64) sector 128 := fun _ h =>
    absurd h.1 (by decide)
  refine ⟨plainLimits_valid (by decide) (by decide), readAroundBio_valid 64, plainHelpers_documented, rfl,
    rfl, by decide, hbad _, readAroundBio.front 128, ?_, by decide, hbad _⟩
  decide

end Block
end SystemsPlayground
