import Mathlib.Logic.Function.Basic
import SystemsPlayground.Block.Bio
import SystemsPlayground.Lib.Runs

/-!
# `Block.Endio` — chained bios and `bio_endio`

A split leaves a family of bios behind: the pieces are chained to the bio they were cut from (`bio_chain`),
and the owner hears of the end of the I/O only once, when all of them have been completed. `bio_endio` keeps
count with an atomic counter in each bio, and climbs from a finished piece to the bio that it is chained to.

Completions come from the device at any time and on any CPU. So a call of `bio_endio` is a sequence of
atomic steps (`Pc` is where it stands), and a run of the machine is any interleaving of the steps of any
number of calls with allocations, splits and completions.

The early return when `bio_integrity_endio` puts a read off until its data have been verified is not a step of
its own: the later call goes on where the first one stopped, so that both are one call that waits at `finish`.
Verification that fails, and changes `bi_status`, is left out.
-/

namespace SystemsPlayground
namespace Block

open Runs

/-! ## The machine -/

/-- Where `bi_end_io` leads: nowhere, to the parent in `bi_private` (`bio_chain_endio`), or to the owner. -/
inductive EndIo where
  | none
  | chain (parent : Nat)
  | owner
deriving DecidableEq

/-- The fields of `struct bio` that completion works on; `data` are the others. -/
structure BioState where
  data : Bio
  /-- `__bi_remaining`. -/
  remaining : Int
  /-- `BIO_CHAIN`. -/
  chained : Bool
  /-- `bi_status`; 0 is `BLK_STS_OK`. -/
  status : Nat
  endIo : EndIo
deriving DecidableEq

/-- An error is noted in the bio. -/
def BioState.note (s : BioState) (status : Nat) : BioState :=
  { s with status := if status = 0 then s.status else status }

/-- Where a call of `bio_endio` stands: at `again`; in `bio_remaining_done`, before the decrement and before
    the flag is cleared; behind it; in `__bio_chain_endio`, before the store to the status of the parent and
    before `bio_put`. -/
inductive Pc where
  | again (bio : Nat)
  | dec (bio : Nat)
  | clear (bio : Nat)
  | finish (bio : Nat)
  | store (bio parent : Nat)
  | put (bio parent : Nat)
deriving DecidableEq

/-- The bio that a call works on. -/
def Pc.bio : Pc → Nat
  | .again b | .dec b | .clear b | .finish b | .store b _ | .put b _ => b

/-- The parent that a call in `__bio_chain_endio` has read. -/
def Pc.parent : Pc → Option Nat
  | .store _ p | .put _ p => some p
  | _ => none

/-- The call is still to decrement the counter of `b`. -/
def Pc.holds (b : Nat) : Pc → Bool
  | .again b' | .dec b' => b' = b
  | _ => false

/-- The call has found `b` to be done. -/
def Pc.finishes (b : Nat) : Pc → Bool
  | .clear b' | .finish b' | .store b' _ | .put b' _ => b' = b
  | _ => false

/-- The bios, the running calls of `bio_endio`, and what has happened so far. Bios are numbered, and a number
    is used once. -/
structure Machine where
  bio : Nat → BioState
  /-- The bios that are allocated and whose `bi_end_io` has not been called. -/
  live : List Nat
  /-- Those of them that the device has not completed. -/
  outstanding : List Nat
  calls : List Pc
  /-- A `BUG_ON` was hit. -/
  bug : Bool
  /-- All bios so far, each as it was handed in, and the bio from which it was split. -/
  used : List Nat
  submitted : Nat → Bio
  source : Nat → Nat
  /-- The completions reported by the device. -/
  completed : List (Nat × Nat)
  /-- The calls of `bi_end_io` of an owner, with the status it finds. -/
  ended : List (Nat × Nat)

namespace Machine

/-- Change one bio. -/
def set (m : Machine) (b : Nat) (f : BioState → BioState) : Machine :=
  { m with bio := Function.update m.bio b (f (m.bio b)) }

/-- `bio_init` and the data of the bio. -/
def alloc (m : Machine) (b : Nat) (data : Bio) (endIo : EndIo) (source : Nat) : Machine :=
  { m with
    bio := Function.update m.bio b ⟨data, 1, false, 0, endIo⟩
    live := b :: m.live
    outstanding := b :: m.outstanding
    used := b :: m.used
    submitted := Function.update m.submitted b data
    source := Function.update m.source b source }

/-- `bio_inc_remaining`. -/
def bioIncRemaining (m : Machine) (b : Nat) : Machine :=
  m.set b fun s => { s with chained := true, remaining := s.remaining + 1 }

/-- `bio_chain`. -/
def bioChain (m : Machine) (b parent : Nat) : Machine :=
  (m.set b fun s => { s with endIo := .chain parent }).bioIncRemaining parent

/-- The device reports the end of `b`; an error is noted in the bio before `bio_endio` is called. -/
def complete (m : Machine) (b status : Nat) : Machine :=
  { m.set b (·.note status) with
    outstanding := m.outstanding.erase b
    calls := m.calls ++ [.again b]
    completed := m.completed ++ [(b, status)] }

/-- The next step of a call of `bio_endio`; `none` when the call returns. Where `bio_integrity_endio` makes it
    return early, the call counts as one that waits at `finish`. -/
def bioEndio (m : Machine) : Pc → Machine × Option Pc
  | .again b => if (m.bio b).chained then (m, some (.dec b)) else (m, some (.finish b))
  | .dec b =>
      if (m.bio b).remaining ≤ 0 then ({ m with bug := true }, none)
      else
        let m := m.set b fun s => { s with remaining := s.remaining - 1 }
        if (m.bio b).remaining = 0 then (m, some (.clear b)) else (m, none)
  | .clear b => (m.set b fun s => { s with chained := false }, some (.finish b))
  | .finish b =>
      match (m.bio b).endIo with
      | .chain p =>
          if (m.bio b).status ≠ 0 ∧ (m.bio p).status = 0 then (m, some (.store b p))
          else (m, some (.put b p))
      | .owner =>
          ({ m with live := m.live.erase b, ended := m.ended ++ [(b, (m.bio b).status)] }, none)
      | .none => ({ m with live := m.live.erase b }, none)
  | .store b p => (m.set p fun s => { s with status := (m.bio b).status }, some (.put b p))
  | .put b p => ({ m with live := m.live.erase b }, some (.again p))

end Machine

/-- The sizes of a bio are whole sectors and in the range of their types. -/
def Bio.Sized (bio : Bio) : Prop :=
  bio.size % 512 = 0 ∧ bio.size < 2 ^ 32 ∧ bio.sector + bio.sectors < 2 ^ 64

instance (bio : Bio) : Decidable bio.Sized := inferInstanceAs (Decidable (_ ∧ _ ∧ _))

/-- What can happen. -/
inductive Event where
  /-- A bio is allocated, with an owner or with `bi_end_io` not yet set. -/
  | alloc (b : Nat) (data : Bio) (owned : Bool)
  /-- The owner sets `bi_end_io`. -/
  | setEndIo (b : Nat)
  /-- `bio_submit_split_bioset` cuts `c` off the front of `b`. -/
  | split (b c sectors : Nat)
  /-- `blk_next_bio`: `b` is chained to a new bio. -/
  | nextBio (b new : Nat) (data : Bio)
  /-- The device completes `b`, or its submission fails, with a status. -/
  | complete (b status : Nat)
  /-- The call at position `n` takes its next step. -/
  | endio (n : Nat)
deriving DecidableEq

namespace Machine

/-- What an action does, where it is possible. -/
def act (m : Machine) : Event → Option Machine
  | .alloc b data owned =>
      if b ∉ m.used ∧ data.Sized then some (m.alloc b data (if owned then .owner else .none) b) else none
  | .setEndIo b =>
      if b ∈ m.outstanding ∧ (m.bio b).endIo = .none then some (m.set b fun s => { s with endIo := .owner })
      else none
  | .split b c sectors =>
      if b ∈ m.outstanding ∧ c ∉ m.used then
        match bioSplit true (m.bio b).data sectors with
        | .error _ => none
        | .ok (front, rest) =>
            some (((m.alloc c front .none (m.source b)).set b fun s => { s with data := rest }).bioChain c b)
      else none
  | .nextBio b new data =>
      if b ∈ m.outstanding ∧ (m.bio b).endIo = .none ∧ new ∉ m.used ∧ data.Sized then
        some ((m.alloc new data .none new).bioChain b new)
      else none
  | .complete b status =>
      if b ∈ m.outstanding then some (m.complete b status) else none
  | .endio n =>
      match m.calls[n]? with
      | none => none
      | some pc =>
          let r := m.bioEndio pc
          some { r.1 with calls := m.calls.take n ++ r.2.toList ++ m.calls.drop (n + 1) }

/-- One step of a run. -/
def Step (m : Machine) (a : Event) (m' : Machine) : Prop := m.act a = some m'

/-- No bios. -/
def start (junk : BioState) : Machine :=
  ⟨fun _ => junk, [], [], [], false, [], fun _ => junk.data, id, [], []⟩

/-- A state that some interleaving of actions leads to. -/
def Reachable (m : Machine) : Prop := ∃ junk, Reaches Step (start junk) m

/-- A sequence of actions. -/
def run (m : Machine) : List Event → Option Machine
  | [] => some m
  | a :: as => (m.act a).bind fun m' => m'.run as

end Machine

end Block
end SystemsPlayground
