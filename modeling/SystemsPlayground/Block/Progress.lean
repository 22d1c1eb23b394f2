import Mathlib.Data.List.Induction
import SystemsPlayground.Block.Update

/-!
# `Block.Progress` — a request from its first to its last byte

The results about all calls of `blk_update_request` for a request, over the step of `Block.Update`: which bios
are ended, when and with which status (`completion_law`), where the rest of the request stands
(`completion_rest`), and that `blk_complete_request` is the same as a call for all that is left
(`complete_agrees`).
-/

namespace SystemsPlayground
namespace Block

open Word

variable {A : Prop} {z : Bio → Bool} {c : UpdateContext} {calls : List Call} {k : Call} {pos offset sector : Nat}
  {bios : List Bio} {r : Serving}

/-! ## All calls -/

/-- **Run.** The state follows from the calls, by induction over them. -/
theorem Tracks.run (hsize : ∀ bio ∈ bios, 0 < bio.size) (hlt : bytesOf bios < 2 ^ 32)
    (hdvd : A → ∀ bio ∈ bios, 512 ∣ bio.size) {calls : List (Nat × Nat)} :
    ∀ (before : List (Nat × Nat)) {r : Serving}, Tracks A z c bios sector (ledger 0 before) (reported before) r →
      (A → ∀ call ∈ calls, 512 ∣ call.2 ∧ call.2 < 2 ^ 31) →
      Tracks A z c bios sector (ledger 0 (before ++ calls)) (reported (before ++ calls)) (r.run c calls) := by
  induction calls with
  | nil =>
      intro before r ht _
      rwa [List.append_nil]
  | cons call calls ih =>
      intro before r ht hA
      have hstep := (ht.update hsize hlt hdvd call.1 call.2 fun ha => hA ha call (by simp)).1
      rw [List.append_cons]
      refine ih _ ?_ fun ha call' hcall => hA ha call' (by simp [hcall])
      rw [ledger_concat, Nat.zero_add]
      convert hstep using 1
      simp [reported]

/-- A request with which nothing has been done yet. -/
theorem Request.tracks_issue (rq : Request) (z : Bio → Bool) (c : UpdateContext)
    (hsize : ∀ bio ∈ rq.bios, 0 < bio.size) (hlen : rq.dataLen = bytesOf rq.bios)
    (hA : A → rq.sector < 2 ^ 64 ∧ ∀ bio ∈ rq.bios, bio.sector < 2 ^ 64) :
    Tracks A z c rq.bios rq.sector [] 0 (rq.issue z) := by
  have hleft : ∀ (bios : List Bio) (offset : Nat), (∀ bio ∈ bios, 0 < bio.size) →
      (A → ∀ bio ∈ bios, bio.sector < 2 ^ 64) →
      Left A z [] 0 offset (bios.map fun bio => ⟨bio, 0, z bio, bio⟩) bios := by
    intro bios
    induction bios with
    | nil => exact fun _ _ _ => trivial
    | cons bio bios ih =>
        intro offset hs hb
        have hpos := hs bio (by simp)
        refine ⟨⟨rfl, rfl, ?_, by omega, rfl, fun ha => ?_⟩, ih _ (fun b h => hs b (by simp [h]))
          fun ha b h => hb ha b (by simp [h])⟩
        · change bio.size = _
          omega
        · rw [Nat.zero_sub]
          exact (Bio.advance_zero (hb ha bio (by simp))).symm
  refine ⟨⟨[], rq.bios, [], rfl, trivial, hleft _ _ hsize fun ha => (hA ha).2, Nat.le_refl _, ?_⟩, hlen, rfl,
    fun _ => Nat.dvd_zero _, fun ha _ _ => ?_⟩
  · split_ifs <;> rfl
  · rw [Nat.zero_div, Nat.add_zero, u64_of_lt (hA ha).1]
    rfl

/-- No bio is empty, and `__data_len` is the sum of their sizes. -/
structure Request.Counted (rq : Request) : Prop where
  size_pos : ∀ bio ∈ rq.bios, 0 < bio.size
  dataLen : rq.dataLen = bytesOf rq.bios
  dataLen_lt : rq.dataLen < 2 ^ 32

variable {rq : Request}

theorem Request.Counted.tracks (hq : rq.Counted) (z : Bio → Bool) (c : UpdateContext) (calls : List (Nat × Nat)) :
    Tracks False z c rq.bios rq.sector (ledger 0 calls) (reported calls) ((rq.issue z).run c calls) :=
  Tracks.run hq.size_pos (hq.dataLen ▸ hq.dataLen_lt) False.elim []
    (rq.tracks_issue z c hq.size_pos hq.dataLen False.elim) False.elim

/-- A read into a page at the physical address `4096 * sector`. -/
def readBio (sector size : Nat) : Bio :=
  ⟨sector, size, [⟨4096 * sector, 0, size⟩], ⟨.read, 0, false, false, false, false, false⟩, none, 0, 0, 0⟩

/-- A read of three sectors, made of two bios that lie one behind the other. -/
def twoBios : Request where
  queue := 0
  bios := [readBio 8 1024, readBio 10 512]
  cmdFlags := ⟨.read, 0, false, false, false, false, false⟩
  sector := 8
  dataLen := 1536
  nrPhysSegments := 2
  mixedMerge := false
  zoneWritePlugging := false

/-- An ordinary request of a queue without limits to speak of. -/
def UpdateContext.plain : UpdateContext where
  helpers := ⟨fun _ b => b, fun _ _ len => len, fun _ _ _ => false, fun _ => 511⟩
  lim := ⟨512, 512, 256, 0, 0, 0, 0, 128, 4096, 0, 0, 0⟩
  queueMaxDiscardSegments := 1
  bioMaxSize := 2 ^ 32 - 1
  flushSeq := false
  specialPayload := false
  passthrough := false
  endIo := false
  zoneAppendUpdate := fun _ bio => bio

theorem counted_twoBios : twoBios.Counted := by constructor <;> decide

/-- A zone append of three sectors. -/
def oneAppend : Request :=
  { twoBios with bios := [{ readBio 8 1536 with opf := ⟨.zoneAppend, 0, false, false, false, false, false⟩ }] }

theorem counted_oneAppend : oneAppend.Counted := by constructor <;> decide

/-- Some bios without their first `n` bytes. -/
def remaining : Nat → List Bio → List Bio
  | _, [] => []
  | n, bio :: bios => if bio.size ≤ n then remaining (n - bio.size) bios else bio.advance n :: bios

/-- The bios lie on the device one behind the other, from the sector on. -/
def Adjacent : Nat → List Bio → Prop
  | _, [] => True
  | sector, bio :: bios => bio.sector = sector ∧ Adjacent (u64 (sector + bio.sectors)) bios

theorem remaining_append (rest : List Bio) :
    ∀ {gone n}, bytesOf gone ≤ n → remaining n (gone ++ rest) = remaining (n - bytesOf gone) rest := by
  intro gone
  induction gone with
  | nil => simp
  | cons bio gone ih =>
      intro n hle
      rw [bytesOf_cons] at hle
      rw [List.cons_append, remaining, if_pos (by omega), ih (by omega), bytesOf_cons, Nat.sub_sub]

theorem Left.map_bio {slots : List Slot} (ha : A) (hsector : ∀ bio ∈ bios, bio.sector < 2 ^ 64) :
    ∀ {offset}, Left A z calls pos offset slots bios → pos ≤ offset → slots.map Slot.bio = bios := by
  induction slots generalizing bios with
  | nil =>
      intro offset h _
      exact (h.eq_nil_iff.mp rfl).symm
  | cons s slots ih =>
      intro offset h hle
      cases bios with
      | nil => exact h.elim
      | cons bio bios =>
          rw [List.map_cons, h.1.bio ha, Nat.sub_eq_zero_of_le hle, Bio.advance_zero (hsector bio (by simp)),
            ih (fun b hb => hsector b (by simp [hb])) h.2 (by omega)]

/-- The bios left are those of the request without the bytes reported. -/
theorem Left.remaining {slots : List Slot} (ha : A) (hsector : ∀ bio ∈ bios, bio.sector < 2 ^ 64)
    (h : Left A z calls pos offset slots bios) (hle : offset ≤ pos) :
    slots.map Slot.bio = Block.remaining (pos - offset) bios := by
  cases slots with
  | nil =>
      rw [h.eq_nil_iff.mp rfl]
      rfl
  | cons s slots =>
      cases bios with
      | nil => exact h.elim
      | cons bio bios =>
          have hlt := h.1.lt
          rw [Block.remaining, if_neg (by omega), List.map_cons, h.1.bio ha,
            h.2.map_bio ha (fun b hb => hsector b (by simp [hb])) (by omega)]

/-- The first of the bios that are left of adjacent ones. -/
theorem Adjacent.remaining {bio : Bio} {rest : List Bio} :
    ∀ {bios sector n}, Adjacent sector bios → (∀ bio ∈ bios, 512 ∣ bio.size) →
      remaining n bios = bio :: rest → bio.sector = u64 (sector + n / 512) := by
  intro bios
  induction bios with
  | nil =>
      intro sector n _ _ h
      simp [Block.remaining] at h
  | cons b bs ih =>
      intro sector n hadj hdvd h
      rw [Block.remaining] at h
      split_ifs at h with hle
      · have hb := hdvd b (by simp)
        rw [ih hadj.2 (fun b' hb' => hdvd b' (by simp [hb'])) h]
        unfold Bio.sectors u64
        omega
      · obtain rfl := (List.cons.inj h).1
        rw [← hadj.1]
        rfl

/-- **Where the rest of the request stands.** If all calls are for whole sectors, and each for less than 2 GB
    (`total_bytes` is an `int`), the bios that are left are those of the request without the bytes that were
    reported, down to the position in their vectors; `__sector` is that of the first byte that was not
    reported, and if the bios are adjacent it is the sector of the first bio that is left. -/
theorem completion_rest (hq : rq.Counted) (z : Bio → Bool) (c : UpdateContext) (hpass : c.passthrough = false)
    (hsector : rq.sector < 2 ^ 64) (hbios : ∀ bio ∈ rq.bios, 512 ∣ bio.size ∧ bio.sector < 2 ^ 64)
    (calls : List (Nat × Nat)) (hcalls : ∀ call ∈ calls, 512 ∣ call.2 ∧ call.2 < 2 ^ 31) {r : Serving}
    (hr : r = (rq.issue z).run c calls) :
    r.slots.map Slot.bio = remaining (reported calls) rq.bios ∧
      (reported calls < rq.dataLen → r.sector = u64 (rq.sector + reported calls / 512)) ∧
      (Adjacent rq.sector rq.bios → ∀ first rest, r.slots = first :: rest → first.bio.sector = r.sector) := by
  have ht : Tracks True z c rq.bios rq.sector (ledger 0 calls) (reported calls) r := by
    rw [hr]
    exact Tracks.run hq.size_pos (hq.dataLen ▸ hq.dataLen_lt) (fun _ bio hbio => (hbios bio hbio).1) []
      (rq.tracks_issue z c hq.size_pos hq.dataLen fun _ => ⟨hsector, fun bio hbio => (hbios bio hbio).2⟩)
      fun _ => hcalls
  have hrest : r.slots.map Slot.bio = remaining (reported calls) rq.bios := by
    obtain ⟨gone, rest, out, heq, -, hleft, hle, -⟩ := ht.parts
    rw [heq, remaining_append rest hle]
    refine hleft.remaining trivial (fun bio hbio => (hbios bio ?_).2) hle
    rw [heq]
    simp [hbio]
  have hat : reported calls < rq.dataLen → r.sector = u64 (rq.sector + reported calls / 512) := by
    rw [hq.dataLen]
    exact ht.sector trivial hpass
  refine ⟨hrest, hat, fun hadj first rest hfirst => ?_⟩
  have hshort : reported calls < rq.dataLen := by
    rw [hq.dataLen, ← Nat.not_le, ← ht.slots_eq_nil, hfirst]
    simp
  rw [hat hshort]
  rw [hfirst, List.map_cons] at hrest
  exact hadj.remaining (fun bio hbio => (hbios bio hbio).1) hrest.symm

/-- Two calls are for the first bio, which is then gone. -/
theorem completion_rest_twoBios :
    ((twoBios.issue fun _ => false).run .plain [(0, 512), (0, 512)]).sector = 10 ∧
    ((twoBios.issue fun _ => false).run .plain [(0, 512), (0, 512)]).slots.map Slot.bio =
      remaining 1024 twoBios.bios :=
  ⟨by decide, (completion_rest counted_twoBios (fun _ => false) .plain rfl (by decide) (by decide)
    [(0, 512), (0, 512)] (by decide) rfl).1⟩

/-! ## The short cut -/

/-- The bios from the offset on, each with the last error of its range. -/
def verdicts (z : Bio → Bool) (calls : List Call) : Nat → List Bio → List (Bio × Nat)
  | _, [] => []
  | offset, bio :: bios => (bio, lastError (z bio) calls offset bio.size) :: verdicts z calls (offset + bio.size) bios

/-- The verdicts over a list are those over its parts. -/
theorem verdicts_append (bios' : List Bio) :
    ∀ {bios offset}, verdicts z calls offset (bios ++ bios') =
      verdicts z calls offset bios ++ verdicts z calls (offset + bytesOf bios) bios' := by
  intro bios
  induction bios with
  | nil => simp [verdicts]
  | cons bio bios ih =>
      intro offset
      rw [List.cons_append, verdicts, verdicts, ih, List.cons_append, bytesOf_cons, Nat.add_assoc]

/-- A call without an error that ends behind some bios leaves their status as it is. -/
theorem verdicts_concat (herr : k.error = 0) :
    ∀ {bios offset}, offset + bytesOf bios ≤ k.pos + k.bytes →
      verdicts z (calls ++ [k]) offset bios = verdicts z calls offset bios := by
  intro bios
  induction bios with
  | nil => exact fun _ => rfl
  | cons bio bios ih =>
      intro offset hend
      rw [bytesOf_cons] at hend
      have hbehind : ¬ (z bio = true ∧ k.pos + k.bytes < offset + bio.size) :=
        fun hcut => absurd hcut.2 (by omega)
      have hnone : k.verdict (z bio) offset bio.size = 0 := by
        rw [Call.verdict, if_neg (not_not.mpr herr), if_neg hbehind, ite_self]
      rw [verdicts, verdicts, ih (by omega), lastError_concat, if_neg (not_not.mpr hnone)]

/-- The bios that were ended have their verdicts. -/
theorem Gone.map_status {slots : List Slot} :
    ∀ {offset}, Gone z calls offset slots bios →
      slots.map (fun s => (s.issued, s.status)) = verdicts z calls offset bios := by
  induction slots generalizing bios with
  | nil =>
      intro offset h
      cases bios with
      | nil => rfl
      | cons bio bios => exact h.elim
  | cons s slots ih =>
      intro offset h
      cases bios with
      | nil => exact h.elim
      | cons bio bios =>
          obtain ⟨h₁, h₂, h₃⟩ := h
          rw [List.map_cons, verdicts, ih h₃, h₁, h₂]

/-- Those that are left have theirs so far. -/
theorem Left.map_status {slots : List Slot} :
    ∀ {offset}, Left A z calls pos offset slots bios →
      slots.map (fun s => (s.issued, s.status)) = verdicts z calls offset bios := by
  induction slots generalizing bios with
  | nil =>
      intro offset h
      cases bios with
      | nil => rfl
      | cons bio bios => exact h.elim
  | cons s slots ih =>
      intro offset h
      cases bios with
      | nil => exact h.elim
      | cons bio bios => rw [List.map_cons, verdicts, ih h.2, h.1.issued, h.1.status]

theorem complete_ended (c : UpdateContext) (r : Serving) :
    (blkCompleteRequest c r).ended.map (fun s => (s.issued, s.status)) =
      r.ended.map (fun s => (s.issued, s.status)) ++
        if c.flushSeq then [] else r.slots.map fun s => (s.issued, s.status) := by
  rw [blkCompleteRequest]
  cases c.flushSeq with
  | true =>
      simp only [if_true, List.append_nil]
      split_ifs <;> rfl
  | false =>
      simp only [Bool.false_eq_true, if_false]
      split_ifs with hs
      · simp [hs]
      · simp [Function.comp_def]
      · simp [Function.comp_def]

/-- **The short cut agrees.** After any calls, `blk_complete_request` ends the same bios, in the same order and
    with the same status, as a call of `blk_update_request` without an error for all that is left; and if the
    request has no `end_io`, both leave it without bios and without bytes. -/
theorem complete_agrees (hq : rq.Counted) (z : Bio → Bool) (c : UpdateContext) (calls : List (Nat × Nat))
    {r r' : Serving} (hr : r = (rq.issue z).run c calls) (hr' : r' = (blkUpdateRequest c r 0 r.dataLen).2) :
    (blkCompleteRequest c r).ended.map (fun s => (s.issued, s.status)) = r'.ended.map (fun s => (s.issued, s.status)) ∧
      r'.slots = [] ∧ r'.dataLen = 0 ∧
      (c.endIo = false → (blkCompleteRequest c r).slots = [] ∧ (blkCompleteRequest c r).dataLen = 0) := by
  have ht := hq.tracks z c calls
  rw [← hr] at ht
  have hlen := ht.dataLen
  have ht' := (ht.update hq.size_pos (hq.dataLen ▸ hq.dataLen_lt) False.elim 0 r.dataLen False.elim).1
  rw [← hr'] at ht'
  have hnil : r'.slots = [] := ht'.slots_eq_nil.mpr (by omega)
  obtain ⟨gone, rest, out, heq, hgone, hleft, -, hended⟩ := ht.parts
  obtain ⟨gone', rest', out', heq', hgone', hleft', -, hended'⟩ := ht'.parts
  have hall : rq.bios = gone' := by
    rw [heq', hleft'.eq_nil_iff.mp hnil, List.append_nil]
  refine ⟨?_, hnil, by rw [ht'.dataLen]; omega, ?_⟩
  · rw [complete_ended, hended, hended']
    cases c.flushSeq with
    | true => rfl
    | false =>
        -- both lists are all bios of the request, and the last call ends behind them
        have hend : 0 + bytesOf rq.bios ≤ reported calls + r.dataLen := by omega
        calc out.map (fun s => (s.issued, s.status)) ++ r.slots.map (fun s => (s.issued, s.status))
            = verdicts z (ledger 0 calls) 0 rq.bios := by
              rw [hgone.map_status, hleft.map_status, heq, verdicts_append, Nat.zero_add]
          _ = verdicts z (ledger 0 calls ++ [⟨reported calls, 0, r.dataLen⟩]) 0 rq.bios :=
              (verdicts_concat (k := ⟨reported calls, 0, r.dataLen⟩) rfl hend).symm
          _ = out'.map (fun s => (s.issued, s.status)) := by rw [hgone'.map_status, ← hall]
  · intro hend
    rw [blkCompleteRequest]
    by_cases hs : r.slots = []
    · rw [if_pos hs]
      have := ht.slots_eq_nil.mp hs
      exact ⟨hs, by omega⟩
    · rw [if_neg hs]
      simp [hend]

/-- The zone append of which a part was completed ends with the same error both ways. -/
theorem complete_agrees_append :
    (blkCompleteRequest .plain ((oneAppend.issue fun bio => bio.opf.op = .zoneAppend).run .plain
        [(0, 512)])).ended.map Slot.status = [blkStsIoerr] ∧
    (blkCompleteRequest .plain ((oneAppend.issue fun bio => bio.opf.op = .zoneAppend).run .plain
        [(0, 512)])).ended.map (fun s => (s.issued, s.status)) =
      (blkUpdateRequest .plain ((oneAppend.issue fun bio => bio.opf.op = .zoneAppend).run .plain [(0, 512)])
        0 1024).2.ended.map fun s => (s.issued, s.status) :=
  ⟨by decide, (complete_agrees counted_oneAppend _ .plain [(0, 512)] rfl rfl).1⟩

end Block
end SystemsPlayground
