import SystemsPlayground.Block.Split

/-!
# `Block.Segments` — vectors that one request can carry

What the walk of `bio_split_io_at` comes to, said of the vectors. A vector is divided into segments, each as
long as `get_max_segment_size` allows, and a segment inside it has to end on the virtual boundary
(`Segments`). The walk takes vectors without a gap between them as long as their segments are not too many
(`Carried`). If it is offered no more bytes than its limit it reaches the end of them (`walk_carried`);
otherwise it stops exactly at the limit (`walk_carried_cut`), in the middle of a vector if need be.
-/

namespace SystemsPlayground
namespace Block

open Word

/-- The vectors of the first `n` bytes; the last one is cut. -/
def takeVecs : Nat → List Bvec → List Bvec
  | 0, _ => []
  | _ + 1, [] => []
  | n + 1, bv :: vecs => { bv with len := min bv.len (n + 1) } :: takeVecs (n + 1 - bv.len) vecs

/-- The sizes of the segments of a vector from the byte `taken` on. Only the last one may end off the
    virtual boundary. -/
inductive Segments (k : Helpers) (lim : QueueLimits) (bv : Bvec) : Nat → List Nat → Prop
  | done : Segments k lim bv bv.len []
  | next {taken size : Nat} {sizes : List Nat} (hlt : taken < bv.len)
      (hsize : size = k.maxSegmentSize lim (bv.phys + taken) (bv.len - taken))
      (hend : taken + size = bv.len ∨ u32 (bv.offset + (taken + size)) &&& lim.virtBoundaryMask = 0)
      (hrest : Segments k lim bv (taken + size) sizes) : Segments k lim bv taken (size :: sizes)

/-- The vectors, after `prev`, have no gaps and make `n` segments. -/
inductive Carried (k : Helpers) (lim : QueueLimits) : Option Bvec → List Bvec → Nat → Prop
  | nil {prev : Option Bvec} : Carried k lim prev [] 0
  | cons {prev : Option Bvec} {bv : Bvec} {vecs : List Bvec} {sizes : List Nat} {n : Nat}
      (hgap : ∀ bvprv ∈ prev, k.gapToPrev lim bvprv bv.offset = false) (hsegs : Segments k lim bv 0 sizes)
      (hrest : Carried k lim (some bv) vecs n) : Carried k lim prev (bv :: vecs) (sizes.length + n)

/-- No vector is empty, and each starts and ends as the masks demand. -/
def AlignedVecs (startMask lenMask : Nat) (vecs : List Bvec) : Prop :=
  ∀ bv ∈ vecs, 0 < bv.len ∧ bv.offset &&& startMask = 0 ∧ bv.len &&& lenMask = 0

section Segments

variable {k : Helpers} {lim : QueueLimits} {bv : Bvec} {vecs : List Bvec} {sizes : List Nat}
  {prev : Option Bvec} {n taken nsegs bytes maxSegs maxBytes left startMask lenMask : Nat}

theorem takeVecs_cons (hn : n ≠ 0) :
    takeVecs n (bv :: vecs) = { bv with len := min bv.len n } :: takeVecs (n - bv.len) vecs := by
  obtain ⟨m, rfl⟩ := Nat.exists_eq_succ_of_ne_zero hn
  rfl

/-! ## One vector -/

theorem Segments.eq_nil (h : Segments k lim bv bv.len sizes) : sizes = [] := by
  generalize hlen : bv.len = len at h
  cases h with
  | done => rfl
  | next hlt => exact absurd hlt (by omega)

theorem Segments.length_pos (h : Segments k lim bv 0 sizes) (hpos : 0 < bv.len) : 0 < sizes.length := by
  cases sizes with
  | nil =>
      generalize hzero : 0 = taken at h
      cases h
      omega
  | cons size sizes => exact Nat.succ_pos _

/-- The loop of `bvec_split_segs` takes all the segments of the vector if the queue allows as many. -/
theorem Segments.loop (hk : k.Documented) (h : Segments k lim bv taken sizes) {fuel : Nat}
    (hfuel : bv.len - taken ≤ fuel) (hsegs : nsegs + sizes.length ≤ maxSegs) :
    splitSegsLoop k lim bv maxSegs fuel nsegs taken (bv.len - taken) = (nsegs + sizes.length, bv.len, 0) := by
  induction h generalizing fuel nsegs with
  | done => cases fuel <;> simp [splitSegsLoop]
  | @next taken size sizes hlt hsize hend hrest ih =>
      obtain ⟨fuel, rfl⟩ : ∃ m, fuel = m + 1 := ⟨fuel - 1, by omega⟩
      have hpos := hk.segment_pos lim (bv.phys + taken) (bv.len - taken) (by omega)
      have hle := hk.segment_le lim (bv.phys + taken) (bv.len - taken) (by omega)
      rw [← hsize] at hpos hle
      rw [List.length_cons] at hsegs ⊢
      have hgo : bv.len - taken ≠ 0 ∧ nsegs < maxSegs := ⟨by omega, by omega⟩
      have hleft : bv.len - taken - size = bv.len - (taken + size) := by omega
      unfold splitSegsLoop
      simp only [if_pos hgo, ← hsize, hleft]
      split_ifs with hstop
      · -- off the virtual boundary the vector is at its end
        have hall : taken + size = bv.len := hend.resolve_right hstop
        rw [hall] at hrest ⊢
        rw [hrest.eq_nil, Nat.sub_self]
        rfl
      · rw [ih (by omega) (by omega)]
        simp only [Prod.mk.injEq, and_true]
        omega

/-- The loop reads where the vector lies, not how long it is. -/
theorem splitSegsLoop_len (k : Helpers) (lim : QueueLimits) (bv : Bvec) (maxSegs len : Nat) :
    splitSegsLoop k lim { bv with len := len } maxSegs = splitSegsLoop k lim bv maxSegs := by
  funext fuel
  induction fuel with
  | zero => rfl
  | succ fuel ih =>
      funext nsegs taken left
      unfold splitSegsLoop
      rw [ih]
      rfl

/-- `bvec_split_segs` takes a vector for which the limit has room. -/
theorem Segments.whole (hk : k.Documented) (h : Segments k lim bv 0 sizes)
    (hsegs : nsegs + sizes.length ≤ maxSegs) (hroom : bytes + bv.len ≤ maxBytes) :
    bvecSplitSegs k lim bv nsegs bytes maxSegs maxBytes = (false, nsegs + sizes.length, bytes + bv.len) := by
  have hmin : min bv.len (maxBytes - bytes) = bv.len := by omega
  have hloop := h.loop hk (Nat.sub_le bv.len 0) hsegs
  rw [Nat.sub_zero] at hloop
  unfold bvecSplitSegs
  simp only [hmin, hloop, Prod.mk.injEq, and_true, decide_eq_false_iff_not]
  omega

/-- `bvec_split_segs` takes a vector that crosses the limit up to the limit. -/
theorem Segments.part (hk : k.Documented) (h : Segments k lim { bv with len := maxBytes - bytes } 0 sizes)
    (hsegs : nsegs + sizes.length ≤ maxSegs) (hle : bytes ≤ maxBytes) (hroom : maxBytes < bytes + bv.len) :
    bvecSplitSegs k lim bv nsegs bytes maxSegs maxBytes = (true, nsegs + sizes.length, maxBytes) := by
  have hmin : min bv.len (maxBytes - bytes) = maxBytes - bytes := by omega
  have hloop := h.loop hk (Nat.sub_le (maxBytes - bytes) 0) hsegs
  rw [Nat.sub_zero, splitSegsLoop_len] at hloop
  unfold bvecSplitSegs
  simp only [hmin, hloop, Prod.mk.injEq, decide_eq_true_eq, true_and]
  omega

/-! ## The walk -/

theorem Carried.no_gap (h : Carried k lim prev (bv :: vecs) n) :
    (prev.any fun bvprv => k.gapToPrev lim bvprv bv.offset) = false := by
  cases h with
  | cons hgap hsegs hrest =>
      cases prev with
      | none => rfl
      | some bvprv => exact hgap bvprv rfl

/-- A vector of the walk that is taken as a whole: the walk goes on behind it. -/
theorem walk_cons (hk : k.Documented) (vecs : List Bvec)
    (hsegs : Segments k lim { bv with len := min bv.len left } 0 sizes)
    (hmax : nsegs + sizes.length ≤ lim.maxSegments) (hroom : bytes + min bv.len left ≤ maxBytes)
    (hlt : maxBytes < 2 ^ 32) (hleft : left ≠ 0) (hlen : 0 < min bv.len left)
    (halign : bv.offset &&& startMask = 0 ∧ min bv.len left &&& lenMask = 0)
    (hgap : (prev.any fun bvprv => k.gapToPrev lim bvprv bv.offset) = false) :
    ∃ nsegs', nsegs' ≤ nsegs + sizes.length ∧
      walk k lim maxBytes startMask lenMask (bv :: vecs) left prev nsegs bytes =
        walk k lim maxBytes startMask lenMask vecs (left - min bv.len left)
          (some { bv with len := min bv.len left }) nsegs' (bytes + min bv.len left) := by
  have hpos := hsegs.length_pos hlen
  have hu32 : u32 (bytes + min bv.len left) = bytes + min bv.len left := u32_of_lt (by omega)
  rw [walk, if_neg hleft]
  simp only [hu32, hgap]
  rw [if_neg (by rw [halign.1, halign.2]; simp), if_neg (by simp)]
  by_cases hfast : nsegs < lim.maxSegments ∧ bytes + min bv.len left ≤ maxBytes ∧
      u32 (bv.offset + min bv.len left) ≤ lim.maxFastSegmentSize
  · exact ⟨nsegs + 1, by omega, if_pos hfast⟩
  · refine ⟨nsegs + sizes.length, Nat.le_refl _, ?_⟩
    rw [if_neg hfast, hsegs.whole hk hmax hroom]
    rfl

/-- **The walk reaches the end** of vectors that one request can carry. -/
theorem walk_carried (hk : k.Documented) (hlt : maxBytes < 2 ^ 32) (vecs : List Bvec)
    (hcarried : Carried k lim prev (takeVecs left vecs) n) (hmax : nsegs + n ≤ lim.maxSegments)
    (halign : AlignedVecs startMask lenMask (takeVecs left vecs)) (hroom : bytes + left ≤ maxBytes) :
    ∃ nsegs', walk k lim maxBytes startMask lenMask vecs left prev nsegs bytes = .full nsegs' := by
  induction vecs generalizing left prev n nsegs bytes with
  | nil => exact ⟨nsegs, rfl⟩
  | cons bv vecs ih =>
      by_cases hleft : left = 0
      · rw [walk, if_pos hleft]
        exact ⟨nsegs, rfl⟩
      rw [takeVecs_cons hleft] at hcarried halign
      obtain ⟨⟨hlen, hhead⟩, htail⟩ := List.forall_mem_cons.mp halign
      have hgap := hcarried.no_gap
      cases hcarried with
      | @cons _ _ _ sizes m _ hsegs hrest =>
          have hone : nsegs + sizes.length ≤ lim.maxSegments := by omega
          have hfit : bytes + min bv.len left ≤ maxBytes := by omega
          obtain ⟨nsegs', hle, hwalk⟩ := walk_cons hk vecs hsegs hone hfit hlt hleft hlen hhead hgap
          have hsub : left - min bv.len left = left - bv.len := by omega
          rw [hwalk, hsub]
          exact ih hrest (by omega) htail (by omega)

/-- A vector that crosses the limit, or starts at it: the walk stops at the limit. -/
theorem walk_crossing (hk : k.Documented) (vecs : List Bvec)
    (hsegs : Segments k lim { bv with len := maxBytes - bytes } 0 sizes)
    (hmax : nsegs + sizes.length ≤ lim.maxSegments) (hbytes : bytes ≤ maxBytes)
    (hmore : maxBytes < bytes + min bv.len left) (hlt : bytes + left < 2 ^ 32)
    (halign : bv.offset &&& startMask = 0 ∧ min bv.len left &&& lenMask = 0)
    (hgap : (prev.any fun bvprv => k.gapToPrev lim bvprv bv.offset) = false) :
    walk k lim maxBytes startMask lenMask (bv :: vecs) left prev nsegs bytes =
      .cut (nsegs + sizes.length) maxBytes := by
  have hu32 : u32 (bytes + min bv.len left) = bytes + min bv.len left := u32_of_lt (by omega)
  have hpart : bvecSplitSegs k lim { bv with len := min bv.len left } nsegs bytes lim.maxSegments maxBytes =
      (true, nsegs + sizes.length, maxBytes) := Segments.part hk hsegs hmax hbytes hmore
  rw [walk, if_neg (by omega)]
  simp only [hu32, hgap, hpart]
  rw [if_neg (by rw [halign.1, halign.2]; simp), if_neg (by simp), if_neg (by omega)]
  rfl

/-- **The walk stops at the limit** if there are bytes behind it and one request can carry those before. -/
theorem walk_carried_cut (hk : k.Documented) (vecs : List Bvec)
    (hcarried : Carried k lim prev (takeVecs (maxBytes - bytes) vecs) n)
    (hmax : nsegs + n ≤ lim.maxSegments) (halign : AlignedVecs startMask lenMask (takeVecs left vecs))
    (hdata : left ≤ total vecs) (hlt : bytes + left < 2 ^ 32) (hbytes : bytes ≤ maxBytes)
    (hmore : maxBytes < bytes + left) :
    ∃ nsegs', walk k lim maxBytes startMask lenMask vecs left prev nsegs bytes = .cut nsegs' maxBytes := by
  induction vecs generalizing left prev n nsegs bytes with
  | nil =>
      have hzero : left ≤ 0 := hdata
      omega
  | cons bv vecs ih =>
      have hleft : left ≠ 0 := by omega
      rw [takeVecs_cons hleft] at halign
      obtain ⟨⟨hlen, hhead⟩, htail⟩ := List.forall_mem_cons.mp halign
      change 0 < min bv.len left at hlen
      by_cases hroom : maxBytes - bytes = 0
      · -- the vector starts at the limit, and whether there is a gap before it does not matter
        by_cases hgap : (prev.any fun bvprv => k.gapToPrev lim bvprv bv.offset) = true
        · refine ⟨nsegs, ?_⟩
          rw [walk, if_neg hleft]
          simp only [hgap, if_true]
          rw [if_neg (by rw [hhead.1, hhead.2]; simp), show bytes = maxBytes by omega]
        · have hnone : Segments k lim { bv with len := maxBytes - bytes } 0 [] := by
            rw [hroom]
            exact .done
          exact ⟨_, walk_crossing hk vecs hnone (by simp; omega) hbytes (by omega) hlt hhead
            (Bool.eq_false_iff.mpr hgap)⟩
      rw [takeVecs_cons hroom] at hcarried
      have hgap := hcarried.no_gap
      cases hcarried with
      | @cons _ _ _ sizes m _ hsegs hrest =>
          have hone : nsegs + sizes.length ≤ lim.maxSegments := by omega
          by_cases hfit : bv.len ≤ maxBytes - bytes
          · have hbv : min bv.len left = bv.len := by omega
            have hmin : min bv.len (maxBytes - bytes) = min bv.len left := by omega
            have hin : bytes + min bv.len left ≤ maxBytes := by omega
            have hmax32 : maxBytes < 2 ^ 32 := by omega
            rw [hmin] at hsegs hrest
            obtain ⟨nsegs', hle, hwalk⟩ := walk_cons hk vecs hsegs hone hin hmax32 hleft hlen hhead hgap
            have hsub : maxBytes - bytes - bv.len = maxBytes - (bytes + bv.len) := by omega
            rw [hbv, hsub] at hrest
            rw [total_cons] at hdata
            rw [hwalk, hbv]
            exact ih hrest (by omega) htail (by omega) (by omega) (by omega) (by omega)
          · have hmin : min bv.len (maxBytes - bytes) = maxBytes - bytes := by omega
            rw [hmin] at hsegs
            exact ⟨_, walk_crossing hk vecs hsegs hone hbytes (by omega) hlt hhead hgap⟩

/-- The mask that an encryption context adds to the others. -/
def Bio.unitMask (bio : Bio) : Nat :=
  match bio.dataUnitSize with
  | some unit => pred32 unit
  | none      => 0

theorem bioWalk_eq (k : Helpers) (bio : Bio) (lim : QueueLimits) (maxBytes lenAlignMask : Nat) :
    bioWalk k bio lim maxBytes lenAlignMask =
      walk k lim maxBytes (lim.dmaAlignment ||| bio.unitMask) (lenAlignMask ||| bio.unitMask) bio.vecs bio.size
        none 0 0 := rfl

end Segments

end Block
end SystemsPlayground
