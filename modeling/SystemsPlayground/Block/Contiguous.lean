import SystemsPlayground.Block.Progress
import SystemsPlayground.Block.Submit
import SystemsPlayground.Block.Transfer

/-!
# `Block.Contiguous` — a request is one range of sectors

A driver is told the first sector of a request and its length; where the bios lie it does not ask. So merging
has to keep the bios of a request one behind the other, and `__sector` and `__data_len` in step with them.
`Request.Solid` says so of a request. Every merge keeps it, and `requests_contiguous` says that it holds of all
requests in every state that the submissions of `Block.Submit` reach. The laws of `Block.Progress` then apply to
every request that a driver gets.
-/

namespace SystemsPlayground
namespace Block

open Word Runs

/-! ## Solid requests -/

/-- The operations of ordinary I/O. -/
def ReqOp.Moves (op : ReqOp) : Prop := op = .read ∨ op = .write

/-- A read or write bio of whole sectors that is not empty. -/
structure Bio.Plain (bio : Bio) : Prop where
  op : bio.opf.op.Moves
  size_pos : 0 < bio.size
  sized : bio.Sized

/-- The bios of the request are one range of sectors, and the request says which. -/
structure Request.Solid (rq : Request) : Prop where
  op : rq.cmdFlags.op.Moves
  bios : ∀ bio ∈ rq.bios, bio.Plain
  ne_nil : rq.bios ≠ []
  dataLen : rq.dataLen = bytesOf rq.bios
  dataLen_lt : rq.dataLen < 2 ^ 32
  adjacent : Adjacent rq.sector rq.bios

/-- What is assumed of the helpers and the limits: only discards take the path for discards, and no request may
    grow to 4 GB. -/
structure MergeContext.Bounded (ctx : MergeContext) : Prop where
  discard : ∀ rq, ctx.helpers.blkDiscardMergable rq = true → rq.cmdFlags.op = .discard
  sectors : ∀ rq offset, blkRqGetMaxSectors ctx.helpers ctx.lim rq offset < 2 ^ 23

/-- Two bios that differ in their flags only, the operation apart. -/
def Bio.Alike (bio bio' : Bio) : Prop :=
  bio'.sector = bio.sector ∧ bio'.size = bio.size ∧ bio'.opf.op = bio.opf.op

theorem Bio.Plain.alike {bio bio' : Bio} (h : bio.Plain) (ha : bio.Alike bio') : bio'.Plain := by
  obtain ⟨h₁, h₂, h₃⟩ := ha
  have hs := h.sized
  refine ⟨h₃ ▸ h.op, by rw [h₂]; exact h.size_pos, ?_⟩
  unfold Bio.Sized Bio.sectors at hs ⊢
  rwa [h₁, h₂]

/-- Two ranges of which the second begins where the first ends. -/
theorem Adjacent.append {bios' : List Bio} :
    ∀ {bios sector}, Adjacent sector bios → (∀ bio ∈ bios, bio.Plain) → sector < 2 ^ 64 →
      Adjacent (u64 (sector + bytesOf bios / 512)) bios' → Adjacent sector (bios ++ bios') := by
  intro bios
  induction bios with
  | nil =>
      intro sector _ _ hlt h'
      rwa [bytesOf_nil, Nat.zero_div, Nat.add_zero, u64_of_lt hlt] at h'
  | cons bio bios ih =>
      intro sector h hp hlt h'
      obtain ⟨hmod, -, -⟩ := (hp bio (by simp)).sized
      refine ⟨h.1, ih h.2 (fun b hb => hp b (by simp [hb])) (u64_lt _) ?_⟩
      have hsum : u64 (u64 (sector + bio.sectors) + bytesOf bios / 512) =
          u64 (sector + bytesOf (bio :: bios) / 512) := by
        rw [bytesOf_cons]
        unfold Bio.sectors u64
        omega
      rwa [hsum]

theorem Adjacent.alike {f : Bio → Bio} (hf : ∀ bio : Bio, bio.Alike (f bio)) :
    ∀ {bios sector}, Adjacent sector bios → Adjacent sector (bios.map f) := by
  intro bios
  induction bios with
  | nil => exact fun h => h
  | cons bio bios ih =>
      intro sector h
      refine ⟨(hf bio).1.trans h.1, ?_⟩
      rw [Bio.sectors, (hf bio).2.1]
      exact ih h.2

theorem bytesOf_alike {f : Bio → Bio} (hf : ∀ bio : Bio, bio.Alike (f bio)) (bios : List Bio) :
    bytesOf (bios.map f) = bytesOf bios := by
  induction bios with
  | nil => rfl
  | cons bio bios ih => rw [List.map_cons, bytesOf_cons, bytesOf_cons, ih, (hf bio).2.1]

namespace Request.Solid

variable {rq rq' next : Request} {bio : Bio}

theorem sector_lt (h : rq.Solid) : rq.sector < 2 ^ 64 := by
  have hadj := h.adjacent
  have hp := h.bios
  cases hb : rq.bios with
  | nil => exact absurd hb h.ne_nil
  | cons bio bios =>
      rw [hb] at hadj
      have := (hp bio (by simp [hb])).sized.2.2
      rw [← hadj.1]
      omega

theorem op_ne_discard (h : rq.Solid) : rq.cmdFlags.op ≠ .discard := by
  rcases h.op with hop | hop <;> rw [hop] <;> decide

theorem dvd_dataLen (h : rq.Solid) : 512 ∣ rq.dataLen := by
  rw [h.dataLen]
  exact dvd_bytesOf fun bio hbio => Nat.dvd_of_mod_eq_zero (h.bios bio hbio).sized.1

/-- Only the bios, the sector, the length and the operation matter; the bios may change their flags. -/
theorem congr {f : Bio → Bio} (h : rq.Solid) (hf : ∀ bio : Bio, bio.Alike (f bio)) (hbios : rq'.bios = rq.bios.map f)
    (hsector : rq'.sector = rq.sector) (hlen : rq'.dataLen = rq.dataLen) (hop : rq'.cmdFlags.op = rq.cmdFlags.op) :
    rq'.Solid := by
  refine ⟨hop ▸ h.op, ?_, ?_, ?_, by rw [hlen]; exact h.dataLen_lt, ?_⟩
  · intro bio hbio
    rw [hbios] at hbio
    obtain ⟨b, hb, rfl⟩ := List.mem_map.mp hbio
    exact (h.bios b hb).alike (hf b)
  · rw [hbios]
    simpa using h.ne_nil
  · rw [hlen, hbios, bytesOf_alike hf]
    exact h.dataLen
  · rw [hsector, hbios]
    exact h.adjacent.alike hf

/-- The bios of another range of sectors are appended. -/
theorem append {bios : List Bio} (h : rq.Solid) (hp : ∀ bio ∈ bios, bio.Plain)
    (hadj : Adjacent (u64 (rq.sector + rq.sectors)) bios) (hfit : rq.dataLen + bytesOf bios < 2 ^ 32) :
    { rq with bios := rq.bios ++ bios, dataLen := u32 (rq.dataLen + bytesOf bios) }.Solid := by
  refine ⟨h.op, ?_, ?_, ?_, ?_, ?_⟩
  · intro bio hbio
    rcases List.mem_append.mp hbio with hbio | hbio
    · exact h.bios bio hbio
    · exact hp bio hbio
  · simp [h.ne_nil]
  · change u32 _ = bytesOf (rq.bios ++ bios)
    rw [u32_of_lt hfit, bytesOf_append, h.dataLen]
  · change u32 _ < _
    rwa [u32_of_lt hfit]
  · refine h.adjacent.append h.bios h.sector_lt ?_
    rwa [← h.dataLen]

/-- A bio is put before the others. -/
theorem cons (h : rq.Solid) (hp : bio.Plain) (hadj : u64 (bio.sector + bio.sectors) = rq.sector)
    (hfit : rq.dataLen + bio.size < 2 ^ 32) :
    { rq with bios := bio :: rq.bios, sector := bio.sector, dataLen := u32 (rq.dataLen + bio.size) }.Solid := by
  refine ⟨h.op, ?_, by simp, ?_, ?_, ⟨rfl, ?_⟩⟩
  · intro b hb
    rcases List.mem_cons.mp hb with rfl | hb
    · exact hp
    · exact h.bios b hb
  · change u32 _ = bytesOf (bio :: rq.bios)
    rw [u32_of_lt hfit, bytesOf_cons, h.dataLen, Nat.add_comm]
  · change u32 _ < _
    rwa [u32_of_lt hfit]
  · rw [hadj]
    exact h.adjacent

end Request.Solid

/-! ## One merge -/

section Merge

variable {ctx : MergeContext} {rq next : Request} {bio : Bio} {nrSegs : Nat}

/-- The flags of the request and its number of segments may have changed. -/
structure Request.Kept (rq rq' : Request) : Prop where
  bios : rq'.bios = rq.bios
  sector : rq'.sector = rq.sector
  dataLen : rq'.dataLen = rq.dataLen
  op : rq'.cmdFlags.op = rq.cmdFlags.op

/-- What a merge does before it adds the bio keeps a request solid. -/
theorem Request.Kept.solid {rq' : Request} (hk : rq.Kept rq') (h : rq.Solid) : rq'.Solid :=
  h.congr (f := id) (fun _ => ⟨rfl, rfl, rfl⟩) (by rw [List.map_id, hk.bios]) hk.sector hk.dataLen hk.op

theorem Request.kept_nomerge (rq : Request) : rq.Kept (reqSetNomerge rq) := ⟨rfl, rfl, rfl, rfl⟩

theorem Request.kept_self (rq : Request) : rq.Kept rq := ⟨rfl, rfl, rfl, rfl⟩

/-- `ll_back_merge_fn` and `ll_front_merge_fn` accept a bio only if the sum of the sizes is within the limit. -/
theorem llMergeFn_kept (hb : ctx.Bounded) (nrSegs : Nat) (gap integrityGap cryptOk : Bool) (offset : Nat) (h : rq.Solid)
    (hp : bio.Plain) {r : Bool × Request}
    (hr : r = llMergeFn ctx.helpers ctx.lim gap integrityGap cryptOk offset rq bio nrSegs) :
    rq.Kept r.2 ∧ (r.1 = true → rq.dataLen + bio.size < 2 ^ 32) := by
  have hseg : ∀ {r : Bool × Request}, r = llNewHwSegment ctx.helpers rq bio nrSegs → rq.Kept r.2 := by
    rintro r rfl
    unfold llNewHwSegment
    split_ifs
    · exact rq.kept_nomerge
    · exact rq.kept_nomerge
    · exact rq.kept_self
    · exact rq.kept_nomerge
    · exact ⟨rfl, rfl, rfl, rfl⟩
  unfold llMergeFn at hr
  split_ifs at hr with h₁ h₂ h₃ h₄
  · rw [hr]
    exact ⟨rq.kept_self, by simp⟩
  · rw [hr]
    exact ⟨rq.kept_self, by simp⟩
  · rw [hr]
    exact ⟨rq.kept_self, by simp⟩
  · rw [hr]
    exact ⟨rq.kept_nomerge, by simp⟩
  · refine ⟨hseg hr, fun _ => ?_⟩
    have hmax := hb.sectors rq offset
    have hlen := h.dataLen_lt
    have hdvd := h.dvd_dataLen
    obtain ⟨hmod, hsize, -⟩ := hp.sized
    rw [u32_of_lt (by unfold Request.sectors Bio.sectors; omega)] at h₄
    unfold Request.sectors Bio.sectors at h₄
    omega

/-- `blk_rq_set_mixed_merge` changes flags only. -/
theorem blkRqSetMixedMerge_solid (h : rq.Solid) :
    (blkRqSetMixedMerge rq).Solid ∧ (blkRqSetMixedMerge rq).sector = rq.sector ∧
      (blkRqSetMixedMerge rq).dataLen = rq.dataLen := by
  unfold blkRqSetMixedMerge
  split_ifs
  · exact ⟨h, rfl, rfl⟩
  · refine ⟨h.congr (f := fun bio => bio.addFailfast rq.cmdFlags.failfast) ?_ rfl rfl rfl rfl, rfl, rfl⟩
    exact fun _ => ⟨rfl, rfl, rfl⟩

/-- The bios of the request and the bio, as they are when the bio is linked in. -/
theorem mixed_solid (front : Bool) (ff : BitVec 3) (h : rq.Solid) (bio : Bio) {r : Request × Bio}
    (hr : r = blkUpdateMixedMerge (if rq.cmdFlags.failfast ≠ ff then blkRqSetMixedMerge rq else rq) bio front) :
    r.1.Solid ∧ r.1.sector = rq.sector ∧ r.1.dataLen = rq.dataLen ∧ bio.Alike r.2 := by
  have hmixed : ∀ rq' : Request, rq' = (if rq.cmdFlags.failfast ≠ ff then blkRqSetMixedMerge rq else rq) →
      rq'.Solid ∧ rq'.sector = rq.sector ∧ rq'.dataLen = rq.dataLen := by
    rintro rq' rfl
    split_ifs
    · exact blkRqSetMixedMerge_solid h
    · exact ⟨h, rfl, rfl⟩
  obtain ⟨hs, hsector, hlen⟩ := hmixed _ rfl
  generalize (if rq.cmdFlags.failfast ≠ ff then blkRqSetMixedMerge rq else rq) = rq' at hr hs hsector hlen
  have hkept : ∀ opf : Opf, opf.op = rq'.cmdFlags.op → Request.Solid { rq' with cmdFlags := opf } := fun opf hop =>
    have hsame : rq'.Kept { rq' with cmdFlags := opf } := ⟨rfl, rfl, rfl, hop⟩
    hsame.solid hs
  unfold blkUpdateMixedMerge at hr
  rw [hr]
  split_ifs
  · exact ⟨hkept _ rfl, hsector, hlen, ⟨rfl, rfl, rfl⟩⟩
  · exact ⟨hs, hsector, hlen, ⟨rfl, rfl, rfl⟩⟩
  · exact ⟨hkept _ rfl, hsector, hlen, ⟨rfl, rfl, rfl⟩⟩
  · exact ⟨hs, hsector, hlen, ⟨rfl, rfl, rfl⟩⟩
  · exact ⟨hs, hsector, hlen, ⟨rfl, rfl, rfl⟩⟩

/-- **Back merge**, of a bio that begins where the request ends. -/
theorem bioAttemptBackMerge_solid (hb : ctx.Bounded) (h : rq.Solid) (hp : bio.Plain)
    (hat : u64 (rq.sector + rq.sectors) = bio.sector) :
    (bioAttemptBackMerge ctx.helpers ctx.lim rq bio nrSegs).2.Solid := by
  have hll := llMergeFn_kept hb nrSegs (reqGapBackMerge ctx.helpers rq bio)
    (ctx.helpers.integrityGapBackMerge rq bio) (ctx.helpers.bioCryptCtxBackMergeable rq bio) rq.sector h hp rfl
  unfold bioAttemptBackMerge
  rw [llBackMergeFn]
  generalize llMergeFn ctx.helpers ctx.lim _ _ _ _ rq bio nrSegs = r at hll
  obtain ⟨ok, rq'⟩ := r
  obtain ⟨hkept, hfit⟩ := hll
  cases ok with
  | false => exact hkept.solid h
  | true =>
      obtain ⟨hs, hsector, hlen, halike⟩ := mixed_solid false (bioFailfast bio) (hkept.solid h) bio rfl
      dsimp only
      generalize blkUpdateMixedMerge _ bio false = r at hs hsector hlen halike
      obtain ⟨rq'', bio'⟩ := r
      dsimp only at hs hsector hlen halike ⊢
      have hadj : Adjacent (u64 (rq''.sector + rq''.sectors)) [bio'] := by
        refine ⟨?_, trivial⟩
        rw [halike.1, ← hat, Request.sectors, Request.sectors, hsector, hlen, hkept.sector, hkept.dataLen]
      have hlen' : bytesOf [bio'] = bio.size := by
        rw [bytesOf_cons, bytesOf_nil, halike.2.1, Nat.add_zero]
      have happend := hs.append (by simpa using hp.alike halike) hadj
        (by rw [hlen', hlen, hkept.dataLen]; exact hfit rfl)
      rwa [hlen', ← halike.2.1] at happend

/-- **Front merge**, of a bio that ends where the request begins. -/
theorem bioAttemptFrontMerge_solid (hb : ctx.Bounded) (h : rq.Solid) (hp : bio.Plain)
    (hat : u64 (rq.sector + (2 ^ 64 - bio.sectors)) = bio.sector) :
    (bioAttemptFrontMerge ctx.helpers ctx.lim rq bio nrSegs).2.Solid := by
  have hll := llMergeFn_kept hb nrSegs (reqGapFrontMerge ctx.helpers rq bio)
    (ctx.helpers.integrityGapFrontMerge rq bio) (ctx.helpers.bioCryptCtxFrontMergeable rq bio) bio.sector h hp rfl
  unfold bioAttemptFrontMerge
  rw [llFrontMergeFn]
  split_ifs
  · exact h
  generalize llMergeFn ctx.helpers ctx.lim _ _ _ _ rq bio nrSegs = r at hll
  obtain ⟨ok, rq'⟩ := r
  obtain ⟨hkept, hfit⟩ := hll
  cases ok with
  | false => exact hkept.solid h
  | true =>
      obtain ⟨hs, hsector, hlen, halike⟩ := mixed_solid true (bioFailfast bio) (hkept.solid h) bio rfl
      dsimp only
      generalize blkUpdateMixedMerge _ bio true = r at hs hsector hlen halike
      obtain ⟨rq'', bio'⟩ := r
      dsimp only at hs hsector hlen halike ⊢
      refine hs.cons (hp.alike halike) ?_ ?_
      · have hlt := h.sector_lt
        have hsz := hp.sized.2.1
        rw [Bio.sectors, halike.1, halike.2.1, hsector, hkept.sector]
        unfold Bio.sectors u64 at hat
        unfold u64
        omega
      · rw [hlen, hkept.dataLen, halike.2.1]
        exact hfit rfl

/-- The positions behind the answers of `blk_try_merge`. -/
theorem blkTryMerge_spec (hb : ctx.Bounded) (h : rq.Solid) {kind : ElvMerge}
    (hkind : blkTryMerge ctx.helpers rq bio = kind) :
    kind ≠ .discardMerge ∧ (kind = .backMerge → u64 (rq.sector + rq.sectors) = bio.sector) ∧
      (kind = .frontMerge → u64 (rq.sector + (2 ^ 64 - bio.sectors)) = bio.sector) := by
  rw [← hkind]
  unfold blkTryMerge
  split_ifs with h₁ h₂ h₃
  · exact absurd (hb.discard rq h₁) h.op_ne_discard
  · exact ⟨by simp, fun _ => h₂, by simp⟩
  · exact ⟨by simp, by simp, fun _ => h₃⟩
  · exact ⟨by simp, by simp, by simp⟩

/-- `blk_attempt_bio_merge` keeps a request solid, whatever comes of the attempt. -/
theorem blkAttemptBioMerge_solid (hb : ctx.Bounded) (allow : Bool) (h : rq.Solid) (hp : bio.Plain) :
    (blkAttemptBioMerge ctx.helpers ctx.lim rq bio nrSegs allow).2.Solid := by
  unfold blkAttemptBioMerge
  by_cases hok : (!blkRqMergeOk ctx.helpers rq bio) = true
  · rw [if_pos hok]
    exact h
  · rw [if_neg hok]
    split
    · rename_i hkind
      split_ifs
      · exact bioAttemptBackMerge_solid hb h hp ((blkTryMerge_spec hb h hkind).2.1 rfl)
      · exact h
    · rename_i hkind
      split_ifs
      · exact bioAttemptFrontMerge_solid hb h hp ((blkTryMerge_spec hb h hkind).2.2 rfl)
      · exact h
    · rename_i hkind
      exact absurd rfl (blkTryMerge_spec hb h hkind).1
    · exact h

/-- `attempt_merge` keeps the request that it merges into solid. -/
theorem attemptMerge_solid (hb : ctx.Bounded) (h : rq.Solid) (hn : next.Solid) :
    (attemptMerge ctx.helpers ctx.lim rq next).2.Solid := by
  have hfits : ∀ {r : Bool × Request}, r = attemptMergeFits ctx.helpers ctx.lim rq next →
      rq.Kept r.2 ∧ (r.1 = true → u64 (rq.sector + rq.sectors) = next.sector ∧ rq.dataLen + next.dataLen < 2 ^ 32) := by
    intro r hr
    unfold attemptMergeFits blkTryReqMerge at hr
    split_ifs at hr with h₁ h₂
    · exact absurd (hb.discard rq h₁) h.op_ne_discard
    · have hlen := h.dataLen_lt
      have hlen' := hn.dataLen_lt
      have hdvd := h.dvd_dataLen
      have hdvd' := hn.dvd_dataLen
      have hmax := hb.sectors rq rq.sector
      dsimp only at hr
      unfold llMergeRequestsFn at hr
      dsimp only at hr
      split_ifs at hr with h₃ h₄
      all_goals rw [hr]
      · exact ⟨rq.kept_self, by simp⟩
      · exact ⟨rq.kept_self, by simp⟩
      · exact ⟨rq.kept_self, by simp⟩
      · exact ⟨rq.kept_self, by simp⟩
      · exact ⟨rq.kept_self, by simp⟩
      · exact ⟨rq.kept_self, by simp⟩
      · refine ⟨⟨rfl, rfl, rfl, rfl⟩, fun _ => ⟨h₂, ?_⟩⟩
        rw [u32_of_lt (by unfold Request.sectors; omega)] at h₄
        unfold Request.sectors at h₄
        omega
    · rw [hr]
      exact ⟨rq.kept_self, by simp⟩
  unfold attemptMerge
  split_ifs
  · exact h
  · have hf := hfits rfl
    generalize attemptMergeFits ctx.helpers ctx.lim rq next = r at hf
    obtain ⟨ok, rq'⟩ := r
    obtain ⟨hkept, hat⟩ := hf
    cases ok with
    | false => exact hkept.solid h
    | true =>
        obtain ⟨hpos, hfit⟩ := hat rfl
        have hjoin : ∀ rq₁ next₁ : Request, rq₁.Solid → next₁.Solid → rq₁.sector = rq.sector →
            rq₁.dataLen = rq.dataLen → next₁.sector = next.sector → next₁.dataLen = next.dataLen →
            { rq₁ with bios := rq₁.bios ++ next₁.bios, dataLen := u32 (rq₁.dataLen + next₁.dataLen) }.Solid := by
          intro rq₁ next₁ h₁ h₂ hs₁ hl₁ hs₂ hl₂
          rw [h₂.dataLen]
          refine h₁.append h₂.bios ?_ ?_
          · rw [Request.sectors, hs₁, hl₁, ← Request.sectors, hpos, ← hs₂]
            exact h₂.adjacent
          · rw [← h₂.dataLen, hl₁, hl₂]
            exact hfit
        have hs := hkept.solid h
        dsimp only
        unfold joinRequests
        split_ifs
        · obtain ⟨h₁, h₂, h₃⟩ := blkRqSetMixedMerge_solid hs
          obtain ⟨h₄, h₅, h₆⟩ := blkRqSetMixedMerge_solid hn
          exact hjoin _ _ h₁ h₄ (h₂.trans hkept.sector) (h₃.trans hkept.dataLen) h₅ h₆
        · exact hjoin _ _ hs hn hkept.sector hkept.dataLen rfl rfl

end Merge

/-! ## Lists of requests -/

section Lists

variable {ctx : MergeContext} {bio : Bio} {nrSegs : Nat} {rqs : List Request}

/-- All ways in which a bio joins a request keep it solid. -/
theorem solid_adds (hb : ctx.Bounded) (hp : bio.Plain) : ctx.Adds bio Request.Solid :=
  fun h => blkAttemptBioMerge_solid hb _ h hp

/-- So do all ways in which two requests join. -/
theorem solid_joins (hb : ctx.Bounded) : ctx.Joins Request.Solid := fun h hn => attemptMerge_solid hb h hn

/-- The scheduler proposes the kind of merge that `blk_try_merge` finds, as `elv_merge` does. -/
def Proposal.Placed (ctx : MergeContext) (bio : Bio) (rqs : List Request) (p : Proposal) : Prop :=
  p.kind ≠ .noMerge → ∀ rq, rqs[p.index]? = some rq → blkTryMerge ctx.helpers rq bio = p.kind

/-- And so does the scheduler, if it proposes what `blk_try_merge` finds. -/
theorem blkMqSchedTryMerge_solid {p : Proposal} (hb : ctx.Bounded) (hp : bio.Plain) (h : Each Request.Solid rqs)
    (hplaced : p.Placed ctx bio rqs) : Each Request.Solid (blkMqSchedTryMerge ctx bio nrSegs rqs p).2 := by
  have hspec : ∀ rq, p.kind ≠ .noMerge → rqs[p.index]? = some rq → rq.Solid ∧ p.kind ≠ .discardMerge ∧
      (p.kind = .backMerge → u64 (rq.sector + rq.sectors) = bio.sector) ∧
      (p.kind = .frontMerge → u64 (rq.sector + (2 ^ 64 - bio.sectors)) = bio.sector) := by
    intro rq hkind hrq
    have hs := h rq (List.mem_of_getElem? hrq)
    exact ⟨hs, blkTryMerge_spec hb hs (hplaced hkind rq hrq)⟩
  refine h.schedTryMerge (solid_joins hb) ?_ ?_ ?_ <;> intro hkind rq hrq <;>
    obtain ⟨hs, hno, hback, hfront⟩ := hspec rq (by simp [hkind]) hrq
  · exact bioAttemptBackMerge_solid hb hs hp (hback hkind)
  · exact bioAttemptFrontMerge_solid hb hs hp (hfront hkind)
  · exact absurd hkind hno

end Lists

/-! ## Splitting -/

/-- A cut leaves two plain bios. -/
theorem bioSplit_plain {alloc : Bool} {bio front rest : Bio} {sectors : Nat} (hp : bio.Plain)
    (h : bioSplit alloc bio sectors = .ok (front, rest)) : front.Plain ∧ rest.Plain := by
  obtain ⟨hfront, hrest, -, -⟩ := bioSplit_ok hp.sized h
  have hsize := hp.sized.2.1
  unfold bioSplit at h
  split_ifs at h with h₁ h₂ h₃ h₄ h₅
  · obtain ⟨rfl, rfl⟩ := Prod.mk.inj (Except.ok.inj h)
    have hbytes : u32 (sectors * 512) = sectors * 512 := u32_of_lt (by unfold Bio.sectors at h₂; omega)
    refine ⟨⟨hp.op, ?_, hfront⟩, ⟨hp.op, ?_, hrest⟩⟩
    · change 0 < u32 (sectors * 512)
      omega
    · change 0 < bio.size - u32 (sectors * 512)
      unfold Bio.sectors at h₂
      omega

/-- Both parts of a split are not empty and of whole sectors. -/
theorem bioSubmitSplit_plain (env : Env) {bio : Bio} (hp : bio.Plain) (at' : Except Errno Nat) :
    (∀ b, bioSubmitSplit env bio at' = .whole b → b.Plain) ∧
      ∀ front rest fate, bioSubmitSplit env bio at' = .split front rest fate → front.Plain ∧ rest.Plain := by
  match at' with
  | .error e => simp [bioSubmitSplit]
  | .ok 0 =>
      refine ⟨fun b h => ?_, by simp [bioSubmitSplit]⟩
      obtain rfl := Submitted.whole.inj h
      exact hp
  | .ok (n + 1) =>
      rw [bioSubmitSplit, bioSubmitSplitBioset]
      cases hcut : bioSplit (env.alloc bio) bio (n + 1) with
      | error e => simp
      | ok parts =>
          obtain ⟨front, rest⟩ := parts
          obtain ⟨hf, hr⟩ := bioSplit_plain hp hcut
          refine ⟨by simp, fun front' rest' fate h => ?_⟩
          obtain ⟨rfl, rfl, -⟩ := Submitted.split.inj h
          exact ⟨hf.alike ⟨rfl, rfl, rfl⟩, hr⟩

/-- What `bio_split_rw` sends and what it leaves are plain bios. -/
theorem bioSplitToLimits_plain (c : SplitContext) {bio : Bio} (hp : bio.Plain) :
    (∀ x, (bioSplitToLimits c bio).1 = some x → x.1.Plain) ∧
      ∀ rest, (bioSplitToLimits c bio).2 = some rest → rest.Plain := by
  have hat : (bioSplitRwAt c.helpers c.rasplitEnabled bio c.lim).2.Plain := by
    unfold bioSplitRwAt bioSplitIoAt
    split
    · exact hp
    · exact hp
    · dsimp only
      split_ifs
      · exact hp
      · exact hp
      · exact hp
      · exact hp.alike ⟨rfl, rfl, rfl⟩
  obtain ⟨hwhole, hsplit⟩ := bioSubmitSplit_plain c.env hat
    (bioSplitRwAt c.helpers c.rasplitEnabled bio c.lim).1
  unfold bioSplitToLimits bioSplitRw
  split_ifs
  · refine ⟨fun x hx => ?_, by simp⟩
    obtain rfl := Option.some.inj hx
    exact hp
  · dsimp only
    generalize bioSubmitSplit c.env _ _ = res at hwhole hsplit
    cases res with
    | error b e => simp
    | whole b =>
        refine ⟨fun x hx => ?_, by simp⟩
        obtain rfl := Option.some.inj hx
        exact hwhole b rfl
    | split front rest fate =>
        obtain ⟨hf, hr⟩ := hsplit front rest fate rfl
        refine ⟨fun x hx => ?_, fun rest' hrest => ?_⟩
        · obtain rfl := Option.some.inj hx
          exact hf
        · dsimp only at hrest
          split_ifs at hrest
          obtain rfl := Option.some.inj hrest
          exact hr

/-! ## Runs -/

/-- All requests are solid wherever they stand, and all bios on their way are plain. -/
structure Whole (s : State) : Prop where
  plugs : ∀ task, Each Request.Solid (s.plugs task).mqList
  placed : ∀ p, Each Request.Solid (s.placed p)
  incoming : ∀ bio ∈ s.incoming, bio.Plain
  prepared : ∀ x ∈ s.prepared, x.1.Plain

namespace Whole

variable {s : State}

theorem empty : Whole State.empty := by
  constructor <;> simp [State.empty, Each]

theorem setPlug (h : Whole s) (task : Nat) {plug : Plug} (hplug : Each Request.Solid plug.mqList) :
    Whole (s.setPlug task plug) := by
  refine ⟨fun t => ?_, h.placed, h.incoming, h.prepared⟩
  change Each Request.Solid (Function.update s.plugs task plug t).mqList
  by_cases ht : t = task
  · rw [ht, Function.update_self]
    exact hplug
  · rw [Function.update_of_ne ht]
    exact h.plugs t

theorem setPlaced (h : Whole s) (p : Place) {rqs : List Request} (hrqs : Each Request.Solid rqs) :
    Whole (s.setPlaced p rqs) := by
  refine ⟨h.plugs, fun p' => ?_, h.incoming, h.prepared⟩
  change Each Request.Solid (Function.update s.placed p rqs p')
  by_cases hp : p' = p
  · rw [hp, Function.update_self]
    exact hrqs
  · rw [Function.update_of_ne hp]
    exact h.placed p'

theorem insert (h : Whole s) (slot : Place × Nat) {rq : Request} (hrq : rq.Solid) : Whole (s.insert slot rq) := by
  have hrqs := h.placed slot.1
  refine h.setPlaced _ (Each.append (hrqs.subset (List.take_subset _ _)) ?_)
  exact Each.cons hrq (hrqs.subset (List.drop_subset _ _))

theorem take (h : Whole s) (bio : Bio) : Whole (s.take bio) :=
  ⟨h.plugs, h.placed, fun b hb => h.incoming b (List.mem_of_mem_erase hb), h.prepared⟩

theorem receive (h : Whole s) {bio : Bio} (hp : bio.Plain) : Whole (s.receive bio) :=
  ⟨h.plugs, h.placed, List.forall_mem_cons.mpr ⟨hp, h.incoming⟩, h.prepared⟩

theorem hold (h : Whole s) {x : Bio × Nat} (hp : x.1.Plain) : Whole (s.hold x) :=
  ⟨h.plugs, h.placed, h.incoming, List.forall_mem_cons.mpr ⟨hp, h.prepared⟩⟩

theorem release (h : Whole s) (x : Bio × Nat) : Whole (s.release x) :=
  ⟨h.plugs, h.placed, h.incoming, fun y hy => h.prepared y (List.mem_of_mem_erase hy)⟩

theorem resubmit (h : Whole s) {again : Option Bio} (hp : ∀ bio, again = some bio → bio.Plain) :
    Whole (s.resubmit again) := by
  cases again with
  | none => exact h
  | some bio => exact h.receive (hp bio rfl)

/-- A bio that was not merged is held for the request that it will get. -/
theorem settle {x : Bio × Nat} {r : Bool × State} (h : Whole r.2) (hp : x.1.Plain) : Whole (Block.settle x r) := by
  unfold Block.settle
  split_ifs
  · exact h
  · exact h.hold hp

end Whole

/-- A new request is its one bio. -/
theorem makeRequest_solid (origin : Origin) (zoned : Bool) {x : Bio × Nat} (hp : x.1.Plain) :
    (makeRequest origin zoned x).Solid := by
  have hop : (origin.request x.1).cmdFlags.op.Moves := by cases origin <;> exact hp.op
  have hone : ∀ rq : Request, rq.cmdFlags.op.Moves → rq.bios = [x.1] → rq.sector = x.1.sector →
      rq.dataLen = x.1.size → rq.Solid := by
    intro rq h₁ h₂ h₃ h₄
    refine ⟨h₁, by simpa [h₂] using hp, by simp [h₂], by simp [h₂, h₄], by rw [h₄]; exact hp.sized.2.1, ?_⟩
    rw [h₂, h₃]
    exact ⟨rfl, trivial⟩
  unfold makeRequest blkMqBioToRequest
  dsimp only
  split_ifs <;> exact hone _ hop rfl rfl rfl

/-- What more is asked of an action: bios arrive with data, of whole sectors; the limits keep requests below
    4 GB; and the scheduler says what `blk_try_merge` says. -/
def Action.Careful (s : State) : Action → Prop
  | .arrive bio => bio.Plain
  | .merge ctx x attempt => ctx.Bounded ∧
      match attempt with
      | .sched p proposal => proposal.Placed ctx x.1 (s.placed p)
      | _ => True
  | .mergeRequests ctx _ _ _ => ctx.Bounded
  | _ => True

/-- **One action** keeps all requests solid. -/
theorem Whole.act {s : State} {a : Action} (h : Whole s) (ha : a.Legal s) (hc : a.Careful s) : Whole (s.act a) := by
  cases a with
  | arrive bio => exact h.receive hc
  | fail bio => exact h.take bio
  | prepare c bio =>
      obtain ⟨hfirst, hagain⟩ := bioSplitToLimits_plain c (h.incoming bio ha)
      unfold State.act
      dsimp only
      generalize bioSplitToLimits c bio = r at hfirst hagain
      obtain ⟨first, again⟩ := r
      have hnext : Whole ((s.take bio).resubmit again) := (h.take bio).resubmit hagain
      cases first with
      | none => exact hnext
      | some x => exact hnext.hold (hfirst x rfl)
  | prepared x => exact (h.take x.1).hold (h.incoming x.1 ha)
  | merge ctx x attempt =>
      obtain ⟨hx, -, -⟩ := ha
      obtain ⟨hb, hplaced⟩ := hc
      have hp := h.prepared x hx
      refine Whole.settle ?_ hp
      cases attempt with
      | plug task => exact (h.release x).setPlug task ((h.plugs task).attemptPlugMerge (solid_adds hb hp))
      | list p => exact (h.release x).setPlaced p ((h.placed p).bioListMerge (solid_adds hb hp))
      | sched p proposal =>
          exact (h.release x).setPlaced p (blkMqSchedTryMerge_solid hb hp (h.placed p) hplaced)
  | drop x => exact h.release x
  | plug origin zoned x task =>
      refine (h.release x).setPlug task (Each.append (h.plugs task) ?_)
      exact Each.cons (makeRequest_solid origin zoned (h.prepared x ha)) (List.forall_mem_nil _)
  | place origin zoned x slot => exact (h.release x).insert slot (makeRequest_solid origin zoned (h.prepared x ha))
  | mergeRequests ctx p i j => exact h.setPlaced p ((h.placed p).mergeAt (solid_joins hc) i j)
  | unplug task dispatch =>
      have hplug := h.plugs task
      unfold State.act State.unplug
      dsimp only
      split
      · exact h
      · rename_i rq rqs hlist
        rw [hlist] at hplug
        obtain ⟨hrq, hrqs⟩ := List.forall_mem_cons.mp hplug
        refine Whole.insert (h.setPlug task ?_) _ hrq
        exact hrqs
  | move p i slot =>
      unfold State.act
      dsimp only
      split
      · exact h
      · rename_i rq hrq
        refine Whole.insert (h.setPlaced p ?_) slot (h.placed p rq (List.mem_of_getElem? hrq))
        exact (h.placed p).subset (List.eraseIdx_subset ..)
  | complete p i => exact h.setPlaced p ((h.placed p).subset (List.eraseIdx_subset ..))

/-! ## `blk_mq_submit_bio` -/

/-- What more is asked of the surroundings of a submission. -/
structure Submission.Careful (sub : Submission) : Prop where
  bounded : sub.ctx.Bounded
  elevator : ∀ p elvMerge, sub.sched = .elevator p elvMerge → ∀ rqs bio, (elvMerge rqs bio).Placed sub.ctx bio rqs

section SubmitBio

variable {sub : Submission} {s : State} {x : Bio × Nat}

/-- An attempt to merge, of any kind. -/
theorem Whole.attempt {attempt : Attempt} (h : Whole s) (hb : sub.ctx.Bounded) (hp : x.1.Plain)
    (hplaced : ∀ p proposal, attempt = .sched p proposal → proposal.Placed sub.ctx x.1 (s.placed p)) :
    Whole (s.attempt sub.ctx x attempt).2 := by
  cases attempt with
  | plug task => exact h.setPlug task ((h.plugs task).attemptPlugMerge (solid_adds hb hp))
  | list p => exact h.setPlaced p ((h.placed p).bioListMerge (solid_adds hb hp))
  | sched p proposal => exact h.setPlaced p (blkMqSchedTryMerge_solid hb hp (h.placed p) (hplaced p proposal rfl))

/-- The plug is tried first, then the list or the scheduler. -/
theorem Whole.attemptBioMerge (h : Whole s) (hc : sub.Careful) (hp : x.1.Plain) :
    Whole (sub.blkMqAttemptBioMerge x s).2 := by
  have hplug : Whole (sub.plugMerge x s).2 := by
    unfold Submission.plugMerge
    split
    · exact h
    · exact h.attempt hc.bounded hp (by simp)
  unfold Submission.blkMqAttemptBioMerge
  split_ifs
  · generalize sub.plugMerge x s = r at hplug
    obtain ⟨merged, s'⟩ := r
    cases merged with
    | true => exact hplug
    | false =>
        dsimp only
        unfold Submission.blkMqSchedBioMerge
        split
        · exact hplug
        · exact Whole.attempt hplug hc.bounded hp (by simp)
        · rename_i p elvMerge hsched
          refine Whole.attempt hplug hc.bounded hp fun p' proposal heq => ?_
          obtain ⟨rfl, rfl⟩ := Attempt.sched.inj heq
          exact hc.elevator p elvMerge hsched _ _
  · exact h

theorem Whole.unplug (h : Whole s) (task : Nat) (dispatch : Request → Place × Nat) : Whole (s.unplug task dispatch) :=
  h.act (a := .unplug task dispatch) trivial trivial

/-- All the requests of a plug are moved, one at a time. -/
theorem Whole.flush (task : Nat) (dispatch : Request → Place × Nat) :
    ∀ n {s : State}, Whole s → Whole (flushLoop task dispatch n s) := by
  intro n
  induction n with
  | zero => exact fun h => h
  | succ n ih => exact fun h => ih (h.unplug task dispatch)

/-- A new request has one bio, so it is solid. -/
theorem Whole.newRequest (h : Whole s) (hp : x.1.Plain) : Whole (sub.newRequest x s) := by
  have hrq := makeRequest_solid sub.origin sub.zoned.isSome hp
  unfold Submission.newRequest
  split_ifs
  · exact h
  · exact h
  · exact h.insert sub.slot hrq
  · split
    · rename_i task _
      unfold Submission.blkAddRqToPlug
      dsimp only
      have hflushed : Whole (if sub.plugFull (s.plugs task) = true then blkMqFlushPlugList task sub.dispatch s
          else s) := by
        split_ifs
        · exact Whole.flush task sub.dispatch _ h
        · exact h
      refine hflushed.setPlug task (Each.append (hflushed.plugs task) ?_)
      exact Each.cons hrq (List.forall_mem_nil _)
    · exact h.insert sub.slot hrq

/-- **`blk_mq_submit_bio`** keeps all requests solid. -/
theorem Whole.submitBio {bio : Bio} (h : Whole s) (hc : sub.Careful) (hp : bio.Plain) :
    Whole (sub.blkMqSubmitBio bio s) := by
  obtain ⟨hfirst, hagain⟩ := bioSplitToLimits_plain sub.split hp
  unfold Submission.blkMqSubmitBio
  split
  · exact h.newRequest hp
  · split_ifs
    · exact h
    · exact h
    · exact h
    · generalize bioSplitToLimits sub.split bio = r at hfirst hagain
      obtain ⟨first, again⟩ := r
      have hnext : Whole (s.resubmit again) := h.resubmit hagain
      cases first with
      | none => exact hnext
      | some x =>
          have hx := hfirst x rfl
          have hmerge := hnext.attemptBioMerge hc hx
          dsimp only
          unfold Submission.submitPrepared
          generalize sub.blkMqAttemptBioMerge x (s.resubmit again) = r at hmerge
          obtain ⟨merged, s'⟩ := r
          cases merged with
          | true => exact hmerge
          | false =>
              dsimp only
              split_ifs
              · exact hmerge
              · exact Whole.newRequest hmerge hx

end SubmitBio

/-- What happens to the requests: a whole submission, or one of the actions of `Block.Submit`. -/
inductive Work where
  | submit (sub : Submission) (bio : Bio)
  | act (a : Action)

/-- The effect of it. -/
def State.work (s : State) : Work → State
  | .submit sub bio => sub.blkMqSubmitBio bio s
  | .act a => s.act a

/-- It happens as it may, and with care. -/
def Work.Careful (s : State) : Work → Prop
  | .submit sub bio => sub.Careful ∧ bio.Plain
  | .act a => a.Legal s ∧ a.Careful s

/-- The states that careful runs reach when there are no requests and no bios at first. -/
def State.CarefullyReachable (s : State) : Prop :=
  Reaches (fun s w t => Work.Careful s w ∧ t = s.work w) State.empty s

/-- **Every request is one range of sectors.** Whatever submissions, splits, merges and moves have come
    together, in every state that they reach, the bios of a request of a plug or a queue are one behind the
    other from `__sector` on, `__data_len` is the sum of their sizes, and each of them has data; so the laws of
    `Block.Progress` apply to the request. -/
theorem requests_contiguous {s : State} (hs : s.CarefullyReachable) {rq : Request} (hrq : s.Has rq) :
    Adjacent rq.sector rq.bios ∧ rq.bios ≠ [] ∧ rq.sector < 2 ^ 64 ∧ rq.Counted ∧
      ∀ bio ∈ rq.bios, 512 ∣ bio.size ∧ bio.sector < 2 ^ 64 := by
  have hw : Whole s := by
    refine Reaches.inv hs Whole.empty ?_
    rintro s w t h ⟨hc, rfl⟩
    cases w with
    | submit sub bio => exact h.submitBio hc.1 hc.2
    | act a => exact h.act hc.1 hc.2
  have h : rq.Solid := by
    rcases hrq with ⟨task, hrq⟩ | ⟨p, hrq⟩
    · exact hw.plugs task rq hrq
    · exact hw.placed p rq hrq
  refine ⟨h.adjacent, h.ne_nil, h.sector_lt, ⟨fun bio hbio => (h.bios bio hbio).size_pos, h.dataLen,
    h.dataLen_lt⟩, fun bio hbio => ?_⟩
  obtain ⟨hmod, -, hsector⟩ := (h.bios bio hbio).sized
  exact ⟨Nat.dvd_of_mod_eq_zero hmod, by omega⟩

/-- Two bios that lie one behind the other, submitted by one task. -/
def bothSubmitted : State :=
  (State.empty.work (.submit plainSubmission (readBio 8 1024))).work (.submit plainSubmission (readBio 10 512))

theorem plainSubmission_careful : plainSubmission.Careful where
  bounded := by
    refine ⟨fun rq h => by simp [plainSubmission, plainMergeHelpers] at h, fun rq offset => ?_⟩
    change (if _ ∨ _ ∨ _ then 1024 else min 1024 _) < 2 ^ 23
    split_ifs <;> omega
  elevator p elvMerge h := by simp [plainSubmission] at h

/-- Two bios that arrive one behind the other share a request. -/
theorem requests_contiguous_both :
    (bothSubmitted.plugs 0).mqList.map Request.bios = [[readBio 8 1024, readBio 10 512]] ∧
    ∀ rq ∈ (bothSubmitted.plugs 0).mqList, Adjacent rq.sector rq.bios := by
  have hplain : (readBio 8 1024).Plain ∧ (readBio 10 512).Plain :=
    ⟨⟨Or.inl rfl, by decide, by decide⟩, ⟨Or.inl rfl, by decide, by decide⟩⟩
  have hreach : bothSubmitted.CarefullyReachable :=
    (Reaches.refl.tail (a := Work.submit plainSubmission (readBio 8 1024))
      ⟨⟨plainSubmission_careful, hplain.1⟩, rfl⟩).tail (a := Work.submit plainSubmission (readBio 10 512))
      ⟨⟨plainSubmission_careful, hplain.2⟩, rfl⟩
  exact ⟨by decide, fun rq hrq => (requests_contiguous hreach (Or.inl ⟨0, hrq⟩)).1⟩

end Block
end SystemsPlayground
