import SystemsPlayground.Block.Merge

/-!
# `Block.Update` — completing a request in parts

A driver reports the end of an I/O to `blk_update_request` (`blk-mq.c`), for the whole request or for some
bytes of it at a time; the bios of the request are ended one after the other as their last bytes come in.
`blk_complete_request` is the short cut for a request that has ended without an error.

The state of a request is a function of the calls so far: which bytes each of them was for, and with which
error (`Tracks`). `Tracks.update` is the step of one call; the results for all calls are in `Block.Progress`.
-/

namespace SystemsPlayground
namespace Block

open Word

/-! ## The code -/

/-- A bio of a request that is being completed: as it stands, its `bi_status` (0 is `BLK_STS_OK`), whether it
    is a zone append (`bio_is_zone_append`), and as it was issued. -/
structure Slot where
  bio : Bio
  status : Nat
  zoneAppend : Bool
  issued : Bio
deriving DecidableEq

/-- What completion reads of the queue and of the flags of the request. -/
structure UpdateContext where
  helpers : Helpers
  lim : QueueLimits
  /-- `queue_max_discard_segments`. -/
  queueMaxDiscardSegments : Nat
  /-- `BIO_MAX_SIZE`. -/
  bioMaxSize : Nat
  /-- `RQF_FLUSH_SEQ`. -/
  flushSeq : Bool
  /-- `RQF_SPECIAL_PAYLOAD`. -/
  specialPayload : Bool
  /-- `blk_rq_is_passthrough`. -/
  passthrough : Bool
  /-- `req->end_io` is set. -/
  endIo : Bool
  /-- `blk_zone_append_update_request_bio` of a request at this sector, if `blk_req_bio_is_zone_append`. -/
  zoneAppendUpdate : Nat → Bio → Bio

/-- A request that is being completed, and what has happened to it. -/
structure Serving where
  slots : List Slot
  cmdFlags : Opf
  sector : Nat
  dataLen : Nat
  nrPhysSegments : Nat
  mixedMerge : Bool
  /-- The bios for which `bio_endio` was called, in that order. -/
  ended : List Slot
  /-- `request botched` was printed. -/
  botched : Bool
deriving DecidableEq

/-- `BLK_STS_IOERR`. -/
def blkStsIoerr : Nat := 10

/-- The reading of a 32-bit pattern as an `int`. -/
def toInt32 (n : Nat) : Int := if n < 2 ^ 31 then n else (n : Int) - 2 ^ 32

/-- `bio_has_data`. -/
def bioHasData (bio : Bio) : Bool := bio.size != 0 && !bio.opf.op.noAdvance

/-- `blk_rq_cur_bytes`. -/
def blkRqCurBytes (slots : List Slot) : Nat :=
  match slots with
  | [] => 0
  | s :: _ => if bioHasData s.bio then ((bioGetFirstBvec s.bio).map Bvec.len).getD 0 else s.bio.size

/-- The loop of `blk_recalc_rq_segments` over the vectors of all bios. -/
def recalcLoop (c : UpdateContext) (vecs : List Bvec) : Nat × Nat :=
  vecs.foldl (fun acc bv => (bvecSplitSegs c.helpers c.lim bv acc.1 acc.2 (2 ^ 32 - 1) c.bioMaxSize).2) (0, 0)

/-- `blk_recalc_rq_segments`. -/
def blkRecalcRqSegments (c : UpdateContext) (slots : List Slot) : Nat :=
  match slots with
  | [] => 0
  | s :: _ =>
      if s.bio.opf.op = .discard ∨ s.bio.opf.op = .secureErase then
        if 1 < c.queueMaxDiscardSegments then slots.length else 1
      else if s.bio.opf.op = .writeZeroes then 0
      else (recalcLoop c (slots.flatMap fun s => clipVecs s.bio.vecs s.bio.size)).1

/-- The loop of `blk_update_request`: the bios that stay with the request, `total_bytes`, and the bios that are
    ended. -/
def updateLoop (c : UpdateContext) (sector error : Nat) : List Slot → Nat → List Slot × Nat × List Slot
  | [], _ => ([], 0, [])
  | s :: rest, nrBytes =>
      let bioBytes := min s.bio.size nrBytes
      let whole := bioBytes = s.bio.size
      let status := if error ≠ 0 then error else s.status
      let status := if ¬ whole ∧ s.zoneAppend = true ∧ error = 0 then blkStsIoerr else status
      let s := { s with bio := s.bio.advance bioBytes, status := status }
      let ended := if s.bio.size = 0 ∧ c.flushSeq = false then
        [{ s with bio := c.zoneAppendUpdate sector s.bio }] else []
      if whole then
        if nrBytes - bioBytes = 0 then (rest, bioBytes, ended)
        else
          let res := updateLoop c sector error rest (nrBytes - bioBytes)
          (res.1, bioBytes + res.2.1, ended ++ res.2.2)
      else
        -- the bio takes all that is left of `nr_bytes`
        (s :: rest, bioBytes, ended)

/-- The end of `blk_update_request`, for a request that has data left; `first` is its first bio. -/
def Serving.leftover (c : UpdateContext) (r : Serving) (first : Slot) (totalBytes : Int) : Serving :=
  let r := { r with dataLen := ((r.dataLen - totalBytes) % 2 ^ 32).toNat }
  let r := if c.passthrough then r else { r with sector := ofInt64 (r.sector + totalBytes / 512) }
  let r := if r.mixedMerge then
    { r with cmdFlags := { r.cmdFlags with failfast := first.bio.opf.failfast } } else r
  if c.specialPayload then r
  else
    let r := if r.dataLen < blkRqCurBytes r.slots then
      { r with dataLen := blkRqCurBytes r.slots, botched := true } else r
    { r with nrPhysSegments := blkRecalcRqSegments c r.slots % 2 ^ 16 }

/-- `blk_update_request`: whether the request has more data, and the request. -/
def blkUpdateRequest (c : UpdateContext) (r : Serving) (error nrBytes : Nat) : Bool × Serving :=
  if r.slots = [] then (false, r)
  else
    let res := updateLoop c r.sector error r.slots nrBytes
    let r := { r with slots := res.1, ended := r.ended ++ res.2.2 }
    match r.slots.head? with
    | none => (false, { r with dataLen := 0 })
    | some first => (true, r.leftover c first (toInt32 (u32 res.2.1)))

/-- `blk_complete_request`. -/
def blkCompleteRequest (c : UpdateContext) (r : Serving) : Serving :=
  if r.slots = [] then r
  else
    let ended := r.slots.map fun s => { s with bio := c.zoneAppendUpdate r.sector s.bio }
    let r := if c.flushSeq then r else { r with ended := r.ended ++ ended }
    if c.endIo then r else { r with slots := [], dataLen := 0 }

/-- A request when the driver starts on it. -/
def Request.issue (rq : Request) (zoneAppend : Bio → Bool) : Serving where
  slots := rq.bios.map fun bio => ⟨bio, 0, zoneAppend bio, bio⟩
  cmdFlags := rq.cmdFlags
  sector := rq.sector
  dataLen := rq.dataLen
  nrPhysSegments := rq.nrPhysSegments
  mixedMerge := rq.mixedMerge
  ended := []
  botched := false

/-- The request after some calls of `blk_update_request`, each with its error and its bytes. -/
def Serving.run (c : UpdateContext) (r : Serving) (calls : List (Nat × Nat)) : Serving :=
  calls.foldl (fun r call => (blkUpdateRequest c r call.1 call.2).2) r

/-! ## What the calls say about a range of bytes -/

/-- The bytes of some bios. -/
def bytesOf (bios : List Bio) : Nat := (bios.map Bio.size).sum

@[simp] theorem bytesOf_nil : bytesOf [] = 0 := rfl

@[simp] theorem bytesOf_cons (bio : Bio) (bios : List Bio) : bytesOf (bio :: bios) = bio.size + bytesOf bios := by
  simp [bytesOf]

@[simp] theorem bytesOf_append (bios bios' : List Bio) : bytesOf (bios ++ bios') = bytesOf bios + bytesOf bios' := by
  simp [bytesOf]

/-- A call of `blk_update_request`, with the number of bytes that were reported before it. -/
structure Call where
  pos : Nat
  error : Nat
  bytes : Nat

/-- The call is for some byte of the range, or, if it is for no bytes at all, for the place where it begins. -/
def Call.Touches (k : Call) (offset size : Nat) : Prop := k.pos < offset + size ∧ offset < k.pos + max k.bytes 1

instance (k : Call) (offset size : Nat) : Decidable (k.Touches offset size) := inferInstanceAs (Decidable (_ ∧ _))

/-- What a call makes of the status of a range of bytes, 0 if it leaves it as it is: the error that is reported,
    and `BLK_STS_IOERR` for a zone append within which it ends without one. -/
def Call.verdict (k : Call) (zone : Bool) (offset size : Nat) : Nat :=
  if k.Touches offset size then
    if k.error ≠ 0 then k.error
    else if zone = true ∧ k.pos + k.bytes < offset + size then blkStsIoerr
    else 0
  else 0

/-- The last error of a range of bytes. -/
def lastError (zone : Bool) (calls : List Call) (offset size : Nat) : Nat :=
  calls.foldl (fun status k => if k.verdict zone offset size ≠ 0 then k.verdict zone offset size else status) 0

/-- A later call has the last word, if it has anything to say. -/
theorem lastError_concat (zone : Bool) (calls : List Call) (k : Call) (offset size : Nat) :
    lastError zone (calls ++ [k]) offset size =
      if k.verdict zone offset size ≠ 0 then k.verdict zone offset size
      else lastError zone calls offset size := by
  simp only [lastError, List.foldl_append, List.foldl_cons, List.foldl_nil]

/-- A call that is not for the range says nothing about it. -/
theorem lastError_concat_of_not_touches {zone : Bool} {calls : List Call} {k : Call} {offset size : Nat}
    (h : ¬ k.Touches offset size) : lastError zone (calls ++ [k]) offset size = lastError zone calls offset size := by
  rw [lastError_concat, Call.verdict, if_neg h, if_neg (not_not.mpr rfl)]

/-- The calls with their positions. -/
def ledger : Nat → List (Nat × Nat) → List Call
  | _, [] => []
  | pos, call :: calls => ⟨pos, call.1, call.2⟩ :: ledger (pos + call.2) calls

/-- The bytes that some calls are for. -/
def reported (calls : List (Nat × Nat)) : Nat := (calls.map Prod.snd).sum

theorem ledger_concat (calls : List (Nat × Nat)) (call : Nat × Nat) (pos : Nat) :
    ledger pos (calls ++ [call]) = ledger pos calls ++ [⟨pos + reported calls, call.1, call.2⟩] := by
  induction calls generalizing pos with
  | nil => simp [ledger, reported]
  | cons call' calls ih =>
      rw [List.cons_append, ledger, ledger, ih]
      simp [reported, Nat.add_assoc]

/-! ## Advancing in parts -/

theorem advanceVecs_nil (n : Nat) : advanceVecs n [] = [] := by cases n <;> rfl

/-- To advance twice is to advance by the sum. -/
theorem advanceVecs_add (vecs : List Bvec) (m n : Nat) :
    advanceVecs n (advanceVecs m vecs) = advanceVecs (m + n) vecs := by
  induction vecs generalizing m n with
  | nil => simp only [advanceVecs_nil]
  | cons bv vecs ih =>
      cases m with
      | zero => rw [Nat.zero_add, advanceVecs]
      | succ m =>
          have hsum : m + 1 + n = (m + n) + 1 := by omega
          rw [hsum, advanceVecs, advanceVecs]
          by_cases hm : bv.len ≤ m + 1
          · rw [if_pos hm, if_pos (by omega), ih]
            congr 1
            omega
          · rw [if_neg hm]
            cases n with
            | zero => rw [Nat.add_zero, if_neg hm, advanceVecs]
            | succ n =>
                rw [advanceVecs]
                by_cases hn : bv.len - (m + 1) ≤ n + 1
                · rw [if_pos hn, if_pos (by omega)]
                  congr 1
                  dsimp only
                  omega
                · rw [if_neg hn, if_neg (by omega)]
                  congr 2
                  · dsimp only
                    omega
                  · dsimp only
                    omega

/-- A bio advanced by whole sectors and then further. -/
theorem Bio.advance_advance (bio : Bio) {m : Nat} (n : Nat) (hm : 512 ∣ m) :
    (bio.advance m).advance n = bio.advance (m + n) := by
  have hsector : u64 (u64 (bio.sector + m / 512) + n / 512) = u64 (bio.sector + (m + n) / 512) := by
    unfold u64
    omega
  unfold Bio.advance
  dsimp only
  rw [hsector, Nat.sub_sub]
  split_ifs
  · rfl
  · rw [advanceVecs_add]

theorem Bio.advance_zero {bio : Bio} (h : bio.sector < 2 ^ 64) : bio.advance 0 = bio := by
  unfold Bio.advance
  rw [Nat.zero_div, Nat.add_zero, u64_of_lt h, advanceVecs]
  simp

/-! ## The loop -/

/-- The bios that have left the request, from the offset on: each has the last error of its range. `z` says which
    are zone appends. -/
def Gone (z : Bio → Bool) (calls : List Call) : Nat → List Slot → List Bio → Prop
  | _, [], [] => True
  | offset, s :: slots, bio :: bios =>
      s.issued = bio ∧ s.status = lastError (z bio) calls offset bio.size ∧ Gone z calls (offset + bio.size) slots bios
  | _, _, _ => False

/-- A bio that is still with the request, and that began at the offset, when `pos` bytes were reported: it has
    some bytes left, and the last error of its range. If the calls are for whole sectors (`A`), it has been
    advanced by what was reported of it. -/
structure Pending (A : Prop) (z : Bio → Bool) (calls : List Call) (pos offset : Nat) (s : Slot) (bio : Bio) : Prop where
  issued : s.issued = bio
  zoneAppend : s.zoneAppend = z bio
  size : s.bio.size = offset + bio.size - max offset pos
  lt : pos < offset + bio.size
  status : s.status = lastError (z bio) calls offset bio.size
  bio : A → s.bio = bio.advance (pos - offset)

/-- The bios that are still with the request, from the offset on. -/
def Left (A : Prop) (z : Bio → Bool) (calls : List Call) (pos : Nat) : Nat → List Slot → List Bio → Prop
  | _, [], [] => True
  | offset, s :: slots, bio :: bios =>
      Pending A z calls pos offset s bio ∧ Left A z calls pos (offset + bio.size) slots bios
  | _, _, _ => False

variable {A : Prop} {z : Bio → Bool} {c : UpdateContext} {calls : List Call} {k : Call} {pos offset sector : Nat}

/-- Bios that were ended one after the other. -/
theorem Gone.append {slots slots' : List Slot} {bios bios' : List Bio} :
    ∀ {offset}, Gone z calls offset slots bios → Gone z calls (offset + bytesOf bios) slots' bios' →
      Gone z calls offset (slots ++ slots') (bios ++ bios') := by
  induction slots generalizing bios with
  | nil =>
      intro offset h h'
      cases bios with
      | nil => exact h'
      | cons bio bios => exact h.elim
  | cons s slots ih =>
      intro offset h h'
      cases bios with
      | nil => exact h.elim
      | cons bio bios =>
          obtain ⟨h₁, h₂, h₃⟩ := h
          refine ⟨h₁, h₂, ih h₃ ?_⟩
          rwa [bytesOf_cons, ← Nat.add_assoc] at h'

/-- A call that begins behind some bios says nothing about them. -/
theorem Gone.concat {slots : List Slot} {bios : List Bio} :
    ∀ {offset}, Gone z calls offset slots bios → offset + bytesOf bios ≤ k.pos →
      Gone z (calls ++ [k]) offset slots bios := by
  induction slots generalizing bios with
  | nil =>
      intro offset h _
      cases bios with
      | nil => trivial
      | cons bio bios => exact h.elim
  | cons s slots ih =>
      intro offset h hpos
      cases bios with
      | nil => exact h.elim
      | cons bio bios =>
          obtain ⟨h₁, h₂, h₃⟩ := h
          rw [bytesOf_cons] at hpos
          refine ⟨h₁, ?_, ih h₃ (by omega)⟩
          rw [lastError_concat_of_not_touches, h₂]
          rintro ⟨h₄, -⟩
          omega

/-- The bios behind the bytes that were reported do not depend on how many these were, nor on a call that ends
    before them. -/
theorem Left.move {slots : List Slot} {bios : List Bio} (calls' : List Call) (pos' : Nat)
    (hsize : ∀ bio ∈ bios, 0 < bio.size) :
    ∀ {offset}, Left A z calls pos offset slots bios → pos ≤ offset → pos' ≤ offset →
      (∀ zone o size, offset ≤ o → lastError zone calls' o size = lastError zone calls o size) →
      Left A z calls' pos' offset slots bios := by
  induction slots generalizing bios with
  | nil =>
      intro offset h _ _ _
      cases bios with
      | nil => trivial
      | cons bio bios => exact h.elim
  | cons s slots ih =>
      intro offset h hpos hpos' herr
      cases bios with
      | nil => exact h.elim
      | cons bio bios =>
          obtain ⟨hs, hrest⟩ := h
          have h₁ := hsize bio (by simp)
          have h₂ := hs.size
          refine ⟨⟨hs.issued, hs.zoneAppend, by omega, by omega, ?_, ?_⟩, ?_⟩
          · rw [herr _ _ _ (Nat.le_refl _), hs.status]
          · rw [Nat.sub_eq_zero_of_le hpos', ← Nat.sub_eq_zero_of_le hpos]
            exact hs.bio
          · exact ih (fun b hb => hsize b (by simp [hb])) hrest (by omega) (by omega)
              fun zone o size ho => herr zone o size (by omega)

/-- A call does not matter to the bios behind it. -/
theorem lastError_concat_of_le {zone : Bool} {size : Nat} (h : k.pos + max k.bytes 1 ≤ offset) :
    lastError zone (calls ++ [k]) offset size = lastError zone calls offset size := by
  refine lastError_concat_of_not_touches ?_
  rintro ⟨-, hlt⟩
  omega

/-- The status of a bio after a call that is for some of its bytes, and for all of the rest if `whole`. -/
theorem lastError_concat_of_touches {zone : Bool} {size status : Nat} {whole : Prop} [Decidable whole]
    (ht : k.Touches offset size) (hwhole : whole ↔ offset + size ≤ k.pos + k.bytes)
    (hstatus : status = lastError zone calls offset size) :
    (if ¬ whole ∧ zone = true ∧ k.error = 0 then blkStsIoerr else if k.error ≠ 0 then k.error else status) =
      lastError zone (calls ++ [k]) offset size := by
  rw [lastError_concat, Call.verdict, if_pos ht, hstatus]
  by_cases herr : k.error = 0
  · by_cases hcut : zone = true ∧ k.pos + k.bytes < offset + size
    · have hpart : ¬ whole := fun hw => absurd (hwhole.mp hw) (Nat.not_le.mpr hcut.2)
      rw [if_pos ⟨hpart, hcut.1, herr⟩, if_neg (not_not.mpr herr), if_pos hcut, if_pos (by decide)]
    · rw [if_neg, if_neg (not_not.mpr herr), if_neg (not_not.mpr herr), if_neg hcut, if_neg (not_not.mpr rfl)]
      rintro ⟨hpart, hz, -⟩
      exact hcut ⟨hz, Nat.lt_of_not_le fun hle => hpart (hwhole.mpr hle)⟩
  · rw [if_neg fun h => herr h.2.2, if_pos herr, if_pos herr, if_pos herr]

/-- What the loop of `blk_update_request` makes of the bios, for `nrBytes` bytes from `pos` on: it is through with
    those in `gone`, which it ends as `out`, and the others stay with the request. -/
structure Served (A : Prop) (z : Bio → Bool) (c : UpdateContext) (calls : List Call) (offset pos nrBytes : Nat)
    (bios gone rest : List Bio) (out : List Slot) (res : List Slot × Nat × List Slot) : Prop where
  split : bios = gone ++ rest
  ends : Gone z calls offset out gone
  stays : Left A z calls (pos + nrBytes) (offset + bytesOf gone) res.1 rest
  le : offset + bytesOf gone ≤ pos + nrBytes
  total : res.2.1 = min nrBytes (offset + bytesOf bios - pos)
  ended : res.2.2 = if c.flushSeq then [] else out

section Served

variable {nrBytes : Nat} {s : Slot} {slots out : List Slot} {bio : Bio} {bios gone rest : List Bio}
  {res : List Slot × Nat × List Slot}

/-- No bytes are left for these bios. -/
theorem Served.none (hleft : Left A z calls offset offset slots bios) :
    Served A z c calls offset offset 0 bios [] bios [] (slots, 0, []) where
  split := rfl
  ends := trivial
  stays := hleft
  le := Nat.le_refl _
  total := (Nat.zero_min _).symm
  ended := (ite_self _).symm

/-- The call ends within the first bio. -/
theorem Served.within (hs : Pending A z calls pos offset s bio)
    (hrest : Left A z calls pos (offset + bio.size) slots bios) (hsize : ∀ b ∈ bios, 0 < b.size)
    (hA : A → 512 ∣ pos - offset) (hoff : offset ≤ pos) (hk : k.pos ≤ pos)
    (hnr : pos + nrBytes = k.pos + k.bytes) (hshort : nrBytes < s.bio.size) {s' : Slot}
    (hs' : s' = { s with
      bio := s.bio.advance nrBytes
      status := lastError (z bio) (calls ++ [k]) offset bio.size
      zoneAppend := z bio }) :
    Served A z c (calls ++ [k]) offset pos nrBytes (bio :: bios) [] (bio :: bios) [] (s' :: slots, nrBytes, []) := by
  have hlt := hs.lt
  have hsize₀ := hs.size
  subst hs'
  refine ⟨rfl, trivial, ⟨⟨hs.issued, rfl, ?_, ?_, rfl, fun ha => ?_⟩, ?_⟩, ?_, ?_, (ite_self _).symm⟩
  · change s.bio.size - nrBytes = _
    rw [bytesOf_nil]
    omega
  · rw [bytesOf_nil]
    omega
  · dsimp only
    rw [hs.bio ha, Bio.advance_advance _ _ (hA ha), bytesOf_nil]
    congr 1
    omega
  · refine hrest.move _ _ hsize (by omega) (by omega) fun _ o size ho => lastError_concat_of_le ?_
    omega
  · rw [bytesOf_nil]
    omega
  · rw [bytesOf_cons]
    change nrBytes = _
    omega

/-- The first bio is completed, and the loop goes on with the others. -/
theorem Served.cons {first : Slot} (hsize : s.bio.size = offset + bio.size - pos) (hlt : pos < offset + bio.size)
    (hfull : s.bio.size ≤ nrBytes) (hissued : first.issued = bio)
    (hstatus : first.status = lastError (z bio) calls offset bio.size)
    (h : Served A z c calls (offset + bio.size) (offset + bio.size) (nrBytes - s.bio.size) bios gone rest out res) :
    Served A z c calls offset pos nrBytes (bio :: bios) (bio :: gone) rest (first :: out)
      (res.1, s.bio.size + res.2.1, (if c.flushSeq then [] else [first]) ++ res.2.2) := by
  have hend : offset + bio.size + (nrBytes - s.bio.size) = pos + nrBytes := by omega
  have hstays := h.stays
  have hle := h.le
  rw [hend] at hstays hle
  refine ⟨by rw [h.split]; rfl, ⟨hissued, hstatus, h.ends⟩, ?_, ?_, ?_, ?_⟩
  · rw [bytesOf_cons, ← Nat.add_assoc]
    exact hstays
  · rw [bytesOf_cons, ← Nat.add_assoc]
    exact hle
  · rw [bytesOf_cons]
    change s.bio.size + res.2.1 = _
    rw [h.total]
    omega
  · change _ ++ res.2.2 = _
    rw [h.ended]
    cases c.flushSeq <;> rfl

end Served

/-- **The loop of `blk_update_request`**: what it takes off the front of the bios. -/
theorem updateLoop_spec (c : UpdateContext) (sector : Nat) (k : Call) {slots : List Slot} {bios : List Bio} :
    ∀ {offset pos} nrBytes, Left A z calls pos offset slots bios → (∀ bio ∈ bios, 0 < bio.size) →
      (A → 512 ∣ pos - offset) → offset ≤ pos → k.pos ≤ pos → (k.pos < pos → 0 < nrBytes) →
      pos + nrBytes = k.pos + k.bytes →
      ∃ gone rest out, Served A z c (calls ++ [k]) offset pos nrBytes bios gone rest out
        (updateLoop c sector k.error slots nrBytes) := by
  induction slots generalizing bios with
  | nil =>
      intro offset pos nrBytes hleft hsize hA hoff hk hkp hnr
      cases bios with
      | nil =>
          refine ⟨[], [], [], rfl, trivial, trivial, by rw [bytesOf_nil]; omega, ?_, by simp [updateLoop]⟩
          change 0 = min nrBytes (offset + 0 - pos)
          omega
      | cons bio bios => exact hleft.elim
  | cons s slots ih =>
      intro offset pos nrBytes hleft hsize hA hoff hk hkp hnr
      cases bios with
      | nil => exact hleft.elim
      | cons bio bios =>
          obtain ⟨hs, hrest⟩ := hleft
          have hpos := hsize bio (by simp)
          have hlt := hs.lt
          have hsize₀ : s.bio.size = offset + bio.size - pos := by rw [hs.size, Nat.max_eq_right hoff]
          have hsize' : ∀ b ∈ bios, 0 < b.size := fun b hb => hsize b (by simp [hb])
          have hwhole : min s.bio.size nrBytes = s.bio.size ↔ offset + bio.size ≤ k.pos + k.bytes := by omega
          have hstatus' := lastError_concat_of_touches (k := k) ⟨by omega, by omega⟩ hwhole hs.status
          have hempty : ∀ n, (s.bio.advance n).size = s.bio.size - n := fun n => rfl
          rw [updateLoop]
          dsimp only
          simp only [hs.zoneAppend, hstatus', hempty]
          rcases Nat.lt_or_ge nrBytes s.bio.size with hshort | hfull
          · rw [Nat.min_eq_right (Nat.le_of_lt hshort), if_neg (by omega), if_neg (by omega)]
            exact ⟨_, _, _, Served.within hs hrest hsize' hA hoff hk hnr hshort rfl⟩
          · rw [Nat.min_eq_left hfull, if_pos rfl, Nat.sub_self]
            obtain ⟨first, hfirst⟩ : ∃ first : Slot, first = { s with
              bio := c.zoneAppendUpdate sector (s.bio.advance s.bio.size)
              status := lastError (z bio) (calls ++ [k]) offset bio.size
              zoneAppend := z bio } := ⟨_, rfl⟩
            have hissued : first.issued = bio := by
              rw [hfirst]
              exact hs.issued
            have hstatus : first.status = lastError (z bio) (calls ++ [k]) offset bio.size := by rw [hfirst]
            have hended : (if 0 = 0 ∧ c.flushSeq = false then [first] else []) =
                if c.flushSeq then [] else [first] := by
              cases c.flushSeq <;> rfl
            rw [← hfirst, hended]
            by_cases hdone : nrBytes - s.bio.size = 0
            · -- the call ends with the first bio
              rw [if_pos hdone]
              have hnext : Left A z (calls ++ [k]) (offset + bio.size) (offset + bio.size) slots bios := by
                refine hrest.move _ _ hsize' (by omega) (Nat.le_refl _) fun _ o size ho => lastError_concat_of_le ?_
                omega
              have hnone : Served A z c (calls ++ [k]) (offset + bio.size) (offset + bio.size) (nrBytes - s.bio.size)
                  bios [] bios [] (slots, 0, []) := by
                rw [hdone]
                exact Served.none hnext
              have hserved := Served.cons hsize₀ hlt hfull hissued hstatus hnone
              rw [List.append_nil] at hserved
              exact ⟨_, _, _, hserved⟩
            · rw [if_neg hdone]
              have hnext := hrest.move calls (offset + bio.size) hsize' (by omega) (Nat.le_refl _) fun _ _ _ _ => rfl
              obtain ⟨gone, rest, out, hserved⟩ := ih (nrBytes - s.bio.size) hnext hsize'
                (fun _ => by rw [Nat.sub_self]; exact Nat.dvd_zero _) (Nat.le_refl _) (by omega) (by omega) (by omega)
              exact ⟨_, _, _, Served.cons hsize₀ hlt hfull hissued hstatus hserved⟩

/-! ## One call -/

/-- `blk_rq_cur_bytes` is not more than what is left of the first bio. -/
theorem blkRqCurBytes_le (s : Slot) (slots : List Slot) : blkRqCurBytes (s :: slots) ≤ s.bio.size := by
  rw [blkRqCurBytes]
  split_ifs
  · rw [bioGetFirstBvec]
    cases s.bio.vecs with
    | nil => simp [clipVecs]
    | cons bv vecs =>
        rw [clipVecs]
        split_ifs
        · simp
        · exact Nat.min_le_right _ _
  · exact Nat.le_refl _

section Leftover

variable (c : UpdateContext)

/-- The end of `blk_update_request` leaves the bios alone. -/
theorem leftover_slots (r : Serving) (first : Slot) (totalBytes : Int) :
    (r.leftover c first totalBytes).slots = r.slots ∧ (r.leftover c first totalBytes).ended = r.ended := by
  unfold Serving.leftover
  dsimp only
  split_ifs <;> exact ⟨rfl, rfl⟩

/-- The request is not botched if enough data are left for its first bio. -/
theorem leftover_dataLen {r : Serving} {first : Slot} {slots : List Slot} (hs : r.slots = first :: slots)
    (total : Nat) (hlt : r.dataLen < 2 ^ 32)
    (hle : total + first.bio.size ≤ r.dataLen) :
    (r.leftover c first (toInt32 (u32 total))).dataLen = r.dataLen - total ∧
      (r.leftover c first (toInt32 (u32 total))).botched = r.botched := by
  have hmod : ((r.dataLen - toInt32 (u32 total) : Int) % 2 ^ 32).toNat = r.dataLen - total := by
    rw [u32_of_lt (by omega)]
    unfold toInt32
    split_ifs <;> omega
  have hcur : ¬ r.dataLen - total < blkRqCurBytes r.slots := by
    rw [hs]
    have := blkRqCurBytes_le first slots
    omega
  unfold Serving.leftover
  dsimp only
  rw [hmod]
  split_ifs <;> exact ⟨rfl, rfl⟩

/-- The sector moves on by the sectors that were completed, if their bytes fit an `int`. -/
theorem leftover_sector (hpass : c.passthrough = false) (r : Serving) (first : Slot) {total : Nat}
    (hlt : total < 2 ^ 31) : (r.leftover c first (toInt32 (u32 total))).sector = u64 (r.sector + total / 512) := by
  have hmove : ofInt64 (r.sector + toInt32 (u32 total) / 512) = u64 (r.sector + total / 512) := by
    rw [u32_of_lt (by omega), toInt32, if_pos hlt]
    unfold ofInt64 u64
    omega
  unfold Serving.leftover
  simp only [hpass, Bool.false_eq_true, if_false, hmove]
  split_ifs <;> rfl

end Leftover

/-- The request is where the calls have brought it. `A` is that the calls are for whole sectors and each for
    less than 2 GB. -/
structure Tracks (A : Prop) (z : Bio → Bool) (c : UpdateContext) (bios : List Bio) (sector : Nat) (calls : List Call) (pos : Nat)
    (r : Serving) : Prop where
  parts : ∃ gone rest out, bios = gone ++ rest ∧ Gone z calls 0 out gone ∧
    Left A z calls pos (bytesOf gone) r.slots rest ∧ bytesOf gone ≤ pos ∧ r.ended = if c.flushSeq then [] else out
  dataLen : r.dataLen = bytesOf bios - pos
  botched : r.botched = false
  aligned : A → 512 ∣ pos
  sector : A → c.passthrough = false → pos < bytesOf bios → r.sector = u64 (sector + pos / 512)

variable {bios : List Bio} {r : Serving}

theorem Left.eq_nil_iff {slots : List Slot} (h : Left A z calls pos offset slots bios) : slots = [] ↔ bios = [] := by
  cases slots with
  | nil =>
      cases bios with
      | nil => simp
      | cons bio bios => exact h.elim
  | cons s slots =>
      cases bios with
      | nil => exact h.elim
      | cons bio bios => simp

/-- The request has bios exactly as long as there are bytes to be reported. -/
theorem Tracks.slots_eq_nil (ht : Tracks A z c bios sector calls pos r) : r.slots = [] ↔ bytesOf bios ≤ pos := by
  obtain ⟨gone, rest, out, rfl, -, hleft, hle, -⟩ := ht.parts
  rw [hleft.eq_nil_iff, bytesOf_append]
  cases rest with
  | nil => simpa using hle
  | cons bio rest =>
      cases hs : r.slots with
      | nil =>
          rw [hs] at hleft
          exact hleft.elim
      | cons s slots =>
          rw [hs] at hleft
          have := hleft.1.lt
          simp only [reduceCtorEq, false_iff, bytesOf_cons]
          omega

theorem dvd_bytesOf (h : ∀ bio ∈ bios, 512 ∣ bio.size) : 512 ∣ bytesOf bios := by
  induction bios with
  | nil => exact Nat.dvd_zero _
  | cons bio bios ih =>
      rw [bytesOf_cons]
      exact Nat.dvd_add (h bio (by simp)) (ih fun b hb => h b (by simp [hb]))

section Update

variable {calls' : List Call} {nrBytes : Nat} {ended slots : List Slot} {first : Slot}

/-- No bios are left. -/
theorem Tracks.completed (ht : Tracks A z c bios sector calls pos r)
    (hparts : ∃ gone rest out, bios = gone ++ rest ∧ Gone z calls' 0 out gone ∧
      Left A z calls' (pos + nrBytes) (bytesOf gone) [] rest ∧ bytesOf gone ≤ pos + nrBytes ∧
      r.ended ++ ended = if c.flushSeq then [] else out)
    (haligned : A → 512 ∣ pos + nrBytes) :
    Tracks A z c bios sector calls' (pos + nrBytes)
        { r with slots := [], ended := r.ended ++ ended, dataLen := 0 } ∧
      bytesOf bios ≤ pos + nrBytes := by
  have hall : bytesOf bios ≤ pos + nrBytes := by
    obtain ⟨gone, rest, out, rfl, -, hleft, hle, -⟩ := hparts
    rw [hleft.eq_nil_iff.mp rfl, List.append_nil]
    exact hle
  refine ⟨⟨hparts, ?_, ht.botched, haligned, fun _ _ _ => ?_⟩, hall⟩
  · change 0 = _
    omega
  · omega

/-- Some are: the end of `blk_update_request` brings `__data_len` and `__sector` up to date. -/
theorem Tracks.leftover (ht : Tracks A z c bios sector calls pos r) (hlt : bytesOf bios < 2 ^ 32)
    (hA : A → 512 ∣ nrBytes ∧ nrBytes < 2 ^ 31)
    (hparts : ∃ gone rest out, bios = gone ++ rest ∧ Gone z calls' 0 out gone ∧
      Left A z calls' (pos + nrBytes) (bytesOf gone) (first :: slots) rest ∧ bytesOf gone ≤ pos + nrBytes ∧
      r.ended ++ ended = if c.flushSeq then [] else out)
    (haligned : A → 512 ∣ pos + nrBytes) :
    Tracks A z c bios sector calls' (pos + nrBytes)
        ({ r with slots := first :: slots, ended := r.ended ++ ended }.leftover c first (toInt32 (u32 nrBytes))) ∧
      pos + nrBytes < bytesOf bios := by
  have hlen := ht.dataLen
  have hsome : pos + nrBytes + first.bio.size ≤ bytesOf bios ∧ pos + nrBytes < bytesOf bios := by
    obtain ⟨gone, rest, out, rfl, -, hleft, hle, -⟩ := hparts
    cases rest with
    | nil => exact hleft.elim
    | cons bio rest =>
        have hsize := hleft.1.size
        have hafter := hleft.1.lt
        rw [bytesOf_append, bytesOf_cons]
        omega
  obtain ⟨r', hr'⟩ : ∃ r', r' = { r with slots := first :: slots, ended := r.ended ++ ended } := ⟨_, rfl⟩
  have hslots := leftover_slots c r' first (toInt32 (u32 nrBytes))
  have hdata := leftover_dataLen c (show r'.slots = first :: slots by rw [hr']) nrBytes
    (by rw [hr']; change r.dataLen < _; omega) (by rw [hr']; change _ ≤ r.dataLen; omega)
  rw [← hr']
  refine ⟨⟨?_, ?_, ?_, haligned, ?_⟩, hsome.2⟩
  · rw [hslots.1, hslots.2, hr']
    exact hparts
  · rw [hdata.1, hr']
    change r.dataLen - nrBytes = _
    omega
  · rw [hdata.2, hr']
    exact ht.botched
  · intro ha hpass _
    have h₁ := ht.aligned ha
    have h₂ := (hA ha).1
    rw [leftover_sector c hpass r' first (hA ha).2, hr']
    change u64 (r.sector + nrBytes / 512) = _
    rw [ht.sector ha hpass (by omega)]
    unfold u64
    omega

end Update

/-- **One call** of `blk_update_request`. It returns `true` exactly if there are bytes left. -/
theorem Tracks.update (ht : Tracks A z c bios sector calls pos r) (hsize : ∀ bio ∈ bios, 0 < bio.size)
    (hlt : bytesOf bios < 2 ^ 32) (hdvd : A → ∀ bio ∈ bios, 512 ∣ bio.size) (error nrBytes : Nat)
    (hA : A → 512 ∣ nrBytes ∧ nrBytes < 2 ^ 31) :
    Tracks A z c bios sector (calls ++ [⟨pos, error, nrBytes⟩]) (pos + nrBytes)
        (blkUpdateRequest c r error nrBytes).2 ∧
      ((blkUpdateRequest c r error nrBytes).1 = true ↔ pos + nrBytes < bytesOf bios) := by
  have hnil := ht.slots_eq_nil
  have haligned : A → 512 ∣ pos + nrBytes := fun ha => Nat.dvd_add (ht.aligned ha) (hA ha).1
  obtain ⟨gone, rest, out, heq, hgone, hleft, hle, hended⟩ := ht.parts
  have hlen := ht.dataLen
  have hold : Gone z (calls ++ [⟨pos, error, nrBytes⟩]) 0 out gone :=
    hgone.concat (by change 0 + bytesOf gone ≤ pos; omega)
  rw [blkUpdateRequest]
  by_cases hdone : r.slots = []
  · rw [if_pos hdone]
    have hover := hnil.mp hdone
    refine ⟨⟨⟨gone, rest, out, heq, hold, ?_, by omega, hended⟩, ?_, ht.botched, haligned, ?_⟩, ?_⟩
    · rw [hleft.eq_nil_iff.mp hdone, hdone]
      trivial
    · change r.dataLen = _
      omega
    · intro _ _ hshort
      omega
    · simp only [Bool.false_eq_true, false_iff]
      omega
  · rw [if_neg hdone]
    have hsize' : ∀ bio ∈ rest, 0 < bio.size := fun bio hbio => hsize bio (by rw [heq]; simp [hbio])
    have hdvd' : A → 512 ∣ pos - bytesOf gone := by
      intro ha
      refine Nat.dvd_sub (ht.aligned ha) (dvd_bytesOf fun bio hbio => hdvd ha bio ?_)
      rw [heq]
      simp [hbio]
    obtain ⟨gone', rest', out', hserved⟩ := updateLoop_spec c r.sector ⟨pos, error, nrBytes⟩ nrBytes hleft hsize'
      hdvd' hle (Nat.le_refl _) (fun h => absurd h (Nat.lt_irrefl _)) rfl
    dsimp only at hserved ⊢
    generalize updateLoop c r.sector error r.slots nrBytes = res at hserved
    obtain ⟨slots, total, ended⟩ := res
    -- the bios that have left so far, and those of this call
    have hparts : ∃ gone rest out, bios = gone ++ rest ∧ Gone z (calls ++ [⟨pos, error, nrBytes⟩]) 0 out gone ∧
        Left A z (calls ++ [⟨pos, error, nrBytes⟩]) (pos + nrBytes) (bytesOf gone) slots rest ∧
        bytesOf gone ≤ pos + nrBytes ∧ r.ended ++ ended = if c.flushSeq then [] else out := by
      refine ⟨gone ++ gone', rest', out ++ out', by rw [heq, hserved.split, List.append_assoc], hold.append ?_, ?_,
        ?_, ?_⟩
      · rw [Nat.zero_add]
        exact hserved.ends
      · rw [bytesOf_append]
        exact hserved.stays
      · rw [bytesOf_append]
        exact hserved.le
      · rw [hended, show ended = _ from hserved.ended]
        cases c.flushSeq <;> rfl
    cases slots with
    | nil =>
        obtain ⟨hdone, hall⟩ := ht.completed hparts haligned
        refine ⟨hdone, ?_⟩
        simp only [List.head?_nil, Bool.false_eq_true, false_iff]
        omega
    | cons first slots =>
        obtain ⟨hmore, hsome⟩ := ht.leftover hlt hA hparts haligned
        have htotal : total = nrBytes := by
          have := hserved.total
          dsimp only at this
          rw [this]
          rw [heq, bytesOf_append] at hsome
          omega
        rw [htotal]
        exact ⟨hmore, iff_of_true rfl hsome⟩

end Block
end SystemsPlayground
