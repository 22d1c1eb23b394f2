import Mathlib.Data.List.MinMax
import Mathlib.Order.Interval.Finset.Defs
import SystemsPlayground.Block.Completion

/-!
# `Block.Outcome` — what the owner of a bio is told

The results about chained bios. The owner of a bio is told of the end at most once, and only after the
device has completed the bio and everything chained to it (`endio_once`); when nothing is outstanding and no
call is running, every owner has been told (`endio_none_lost`). The status is an error exactly when one of
the completions was, and success means that each sector of the bio as it was handed in has been transferred
by exactly one successful completion (`endio_outcome`).
-/

namespace SystemsPlayground
namespace Block

open Runs

/-- A read of 256 sectors. -/
def sampleBio : Bio :=
  ⟨2048, 131072, [], ⟨.read, 0, true, false, false, false, false⟩, none, 0, 0, 0⟩

/-- What stands in bios that are not in use. -/
def sampleState : BioState := ⟨sampleBio, 0, false, 0, .none⟩

/-- The read is split in the middle; the device completes the front piece and then the rest, with a status.
    The calls of `bio_endio` for the two overlap. -/
def splitRun (status : Nat) : List Event :=
  [.alloc 0 sampleBio true, .split 0 1 128, .complete 1 0, .endio 0, .complete 0 status, .endio 1, .endio 1,
    .endio 0, .endio 0, .endio 0, .endio 0, .endio 0, .endio 0]

/-- How far a call still has to go with the bio it works on. -/
def Pc.work : Pc → Nat
  | .again _ => 6
  | .dec _ => 5
  | .clear _ => 4
  | .finish _ => 3
  | .store _ _ => 2
  | .put _ _ => 1

namespace Machine

variable {m m' : Machine} {b c p x : Nat}

/-! ## The family of a bio -/

/-- The bio `c` was chained to `p`. -/
def Chained (m : Machine) (c p : Nat) : Prop := c ∈ m.used ∧ m.parent c = some p

/-- The bio `c` is `b`, or chained to it directly or through others. -/
def Below (m : Machine) : Nat → Nat → Prop := Relation.ReflTransGen m.Chained

theorem Below.mono (h : m.Below c b) (hmono : ∀ c p, m.Chained c p → m'.Chained c p) : m'.Below c b :=
  Relation.ReflTransGen.mono (fun c p => hmono c p) c b h

/-! ## What the steps leave alone -/

/-- What no step of a call changes. -/
theorem bioEndio_frame (m : Machine) (pc : Pc) :
    (m.bioEndio pc).1.used = m.used ∧ (m.bioEndio pc).1.outstanding = m.outstanding ∧
    (m.bioEndio pc).1.completed = m.completed ∧ (m.bioEndio pc).1.submitted = m.submitted ∧
    (m.bioEndio pc).1.source = m.source ∧
    ∀ x, ((m.bioEndio pc).1.bio x).endIo = (m.bio x).endIo ∧ ((m.bioEndio pc).1.bio x).data = (m.bio x).data := by
  have hset : ∀ {b : Nat} {f : BioState → BioState}, (∀ s, (f s).endIo = s.endIo ∧ (f s).data = s.data) →
      ∀ x, ((m.set b f).bio x).endIo = (m.bio x).endIo ∧ ((m.set b f).bio x).data = (m.bio x).data :=
    fun hf x => ⟨set_bio_eq m _ x _ BioState.endIo fun s => (hf s).1,
      set_bio_eq m _ x _ BioState.data fun s => (hf s).2⟩
  cases pc with
  | again b => rw [bioEndio_again]; simp
  | dec b =>
      rw [bioEndio_dec]
      by_cases hbug : (m.bio b).remaining ≤ 0
      · rw [if_pos hbug]; simp
      · rw [if_neg hbug]
        exact ⟨rfl, rfl, rfl, rfl, rfl,
          hset (f := fun s => { s with remaining := s.remaining - 1 }) fun _ => ⟨rfl, rfl⟩⟩
  | clear b =>
      exact ⟨rfl, rfl, rfl, rfl, rfl, hset (f := fun s => { s with chained := false }) fun _ => ⟨rfl, rfl⟩⟩
  | finish b =>
      cases he : (m.bio b).endIo with
      | chain p => rw [bioEndio_chain he]; simp
      | owner => rw [bioEndio_owner he]; simp
      | none => rw [bioEndio_none he]; simp
  | store b p =>
      exact ⟨rfl, rfl, rfl, rfl, rfl,
        hset (f := fun s => { s with status := (m.bio b).status }) fun _ => ⟨rfl, rfl⟩⟩
  | put b p => exact ⟨rfl, rfl, rfl, rfl, rfl, fun _ => ⟨rfl, rfl⟩⟩

/-- A step of a call changes no status but that of the parent it stores to. -/
theorem bioEndio_status (m : Machine) (pc : Pc) (x : Nat) :
    ((m.bioEndio pc).1.bio x).status = (m.bio x).status ∨
    ∃ b, pc = .store b x ∧ ((m.bioEndio pc).1.bio x).status = (m.bio b).status := by
  have hset : ∀ {b : Nat} {f : BioState → BioState}, (∀ s, (f s).status = s.status) →
      ((m.set b f).bio x).status = (m.bio x).status := fun hf => set_bio_eq m _ x _ BioState.status hf
  cases pc with
  | again b => rw [bioEndio_again]; simp
  | dec b =>
      rw [bioEndio_dec]
      by_cases hbug : (m.bio b).remaining ≤ 0
      · rw [if_pos hbug]; simp
      · rw [if_neg hbug]
        exact Or.inl (hset (f := fun s => { s with remaining := s.remaining - 1 }) fun _ => rfl)
  | clear b => exact Or.inl (hset (f := fun s => { s with chained := false }) fun _ => rfl)
  | finish b =>
      cases he : (m.bio b).endIo with
      | chain p => rw [bioEndio_chain he]; simp
      | owner => rw [bioEndio_owner he]; simp
      | none => rw [bioEndio_none he]; simp
  | store b p =>
      by_cases hx : x = p
      · right
        exact ⟨b, by rw [hx], by simp only [bioEndio, set_bio, if_pos hx]⟩
      · left
        simp only [bioEndio, set_bio, if_neg hx]
  | put b p => exact Or.inl rfl

/-- A step of a call ends at most one bio, and tells the owner if there is one. -/
theorem bioEndio_live (m : Machine) (pc : Pc) :
    ((m.bioEndio pc).1.live = m.live ∧ (m.bioEndio pc).1.ended = m.ended) ∨
    ∃ b, pc.finishes b = true ∧ (m.bioEndio pc).1.live = m.live.erase b ∧
      ((m.bio b).endIo = .owner ∧ (m.bioEndio pc).1.ended = m.ended ++ [(b, (m.bio b).status)] ∨
        (m.bioEndio pc).1.ended = m.ended ∧ (pc = .finish b ∧ (m.bio b).endIo = .none ∨ ∃ p, pc = .put b p)) := by
  cases pc with
  | again b => rw [bioEndio_again]; simp
  | dec b =>
      rw [bioEndio_dec]
      split_ifs <;> exact Or.inl ⟨rfl, rfl⟩
  | clear b => exact Or.inl ⟨rfl, rfl⟩
  | finish b =>
      cases he : (m.bio b).endIo with
      | chain p =>
          rw [bioEndio_chain he]
          exact Or.inl ⟨rfl, rfl⟩
      | owner =>
          rw [bioEndio_owner he]
          exact Or.inr ⟨b, by simp [Pc.finishes], rfl, Or.inl ⟨he, rfl⟩⟩
      | none =>
          rw [bioEndio_none he]
          exact Or.inr ⟨b, by simp [Pc.finishes], rfl, Or.inr ⟨rfl, Or.inl ⟨rfl, he⟩⟩⟩
  | store b p => exact Or.inl ⟨rfl, rfl⟩
  | put b p => exact Or.inr ⟨b, by simp [Pc.finishes], rfl, Or.inr ⟨rfl, Or.inr ⟨p, rfl⟩⟩⟩

/-- What the allocation of a bio, by itself, by a split or in front of another, does to the rest. -/
structure Grows (m : Machine) (c : Nat) (m' : Machine) : Prop where
  fresh : c ∉ m.used
  used : m'.used = c :: m.used
  live : m'.live = c :: m.live
  outstanding : m'.outstanding = c :: m.outstanding
  calls : m'.calls = m.calls
  completed : m'.completed = m.completed
  ended : m'.ended = m.ended
  status : ∀ x, x ≠ c → (m'.bio x).status = (m.bio x).status
  status_self : (m'.bio c).status = 0
  /-- The new bio is chained to another, if at all, or another to it. -/
  parent : (∃ q, (∀ p, q = some p → p ∈ m.outstanding) ∧
      ∀ x, m'.parent x = if x = c then q else m.parent x) ∨
    ∃ b ∈ m.outstanding, m.parent b = none ∧ b ≠ c ∧
      ∀ x, m'.parent x = if x = b then some c else if x = c then none else m.parent x
  dead : ∀ x, x ∉ m.outstanding → x ≠ c → (m'.bio x).endIo = (m.bio x).endIo

/-- A bio that is older than the new one keeps its parent. -/
theorem Grows.parent_mono (hg : Grows m c m') (hx : x ≠ c) (hp : m.parent x = some p) :
    m'.parent x = some p := by
  rcases hg.parent with ⟨q, -, hq⟩ | ⟨b, -, hnone, -, hb⟩
  · rw [hq, if_neg hx, hp]
  · have hxb : x ≠ b := by
      rintro rfl
      rw [hnone] at hp
      cases hp
    rw [hb, if_neg hxb, if_neg hx, hp]

/-- The one new link is to or from the new bio. -/
theorem Grows.parent_cases (hg : Grows m c m') (hp : m'.parent x = some p) :
    x = c ∧ p ∈ m.outstanding ∨ x ∈ m.outstanding ∧ p = c ∨ x ≠ c ∧ m.parent x = some p := by
  rcases hg.parent with ⟨q, hq, hpar⟩ | ⟨b, hb, -, -, hpar⟩
  · rw [hpar] at hp
    split_ifs at hp with hx
    · exact Or.inl ⟨hx, hq p hp⟩
    · exact Or.inr (Or.inr ⟨hx, hp⟩)
  · rw [hpar] at hp
    split_ifs at hp with hxb hxc
    · cases hp
      exact Or.inr (Or.inl ⟨hxb ▸ hb, rfl⟩)
    · exact Or.inr (Or.inr ⟨hxc, hp⟩)

theorem Grows.chained_mono (hg : Grows m c m') (h : m.Chained x p) : m'.Chained x p := by
  obtain ⟨hx, hp⟩ := h
  refine ⟨hg.used ▸ List.mem_cons_of_mem _ hx, hg.parent_mono ?_ hp⟩
  rintro rfl
  exact hg.fresh hx

theorem bio_alloc (m : Machine) (b : Nat) (data : Bio) (e : EndIo) (source x : Nat) :
    (m.alloc b data e source).bio x = if x = b then ⟨data, 1, false, 0, e⟩ else m.bio x :=
  Function.update_apply ..

/-- The bios after a split. -/
theorem bio_split (m : Machine) (front rest : Bio) (source : Nat) (hne : c ≠ b) (x : Nat) :
    (((m.alloc c front .none source).set b fun s => { s with data := rest }).bioChain c b).bio x =
      if x = c then ⟨front, 1, false, 0, .chain b⟩
      else if x = b then { m.bio b with data := rest, chained := true, remaining := (m.bio b).remaining + 1 }
      else m.bio x := by
  have hne' : b ≠ c := fun h => hne h.symm
  rw [bio_bioChain _ hne]
  simp only [set_bio, bio_alloc, if_true, if_neg hne, if_neg hne']
  by_cases hxc : x = c
  · rw [if_pos hxc, if_pos hxc]
  · simp only [if_neg hxc]
    by_cases hxb : x = b
    · simp only [if_pos hxb]
    · simp only [if_neg hxb]

/-- The bios after `blk_next_bio`. -/
theorem bio_nextBio (m : Machine) {new : Nat} (data : Bio) (source : Nat) (hne : b ≠ new) (x : Nat) :
    ((m.alloc new data .none source).bioChain b new).bio x =
      if x = b then { m.bio b with endIo := .chain new }
      else if x = new then ⟨data, 2, true, 0, .none⟩ else m.bio x := by
  rw [bio_bioChain _ hne, bio_alloc, bio_alloc, bio_alloc, if_neg hne, if_pos rfl]
  by_cases hxb : x = b
  · rw [if_pos hxb, if_pos hxb]
  · rw [if_neg hxb, if_neg hxb]
    by_cases hxn : x = new
    · rw [if_pos hxn, if_pos hxn]
      rfl
    · rw [if_neg hxn, if_neg hxn, if_neg hxn]

theorem bio_complete (m : Machine) (b status x : Nat) :
    (m.complete b status).bio x = if x = b then (m.bio b).note status else m.bio x :=
  Function.update_apply ..

theorem parent_setEndIo (hnone : (m.bio b).endIo = .none) :
    (m.set b fun s => { s with endIo := .owner }).parent = m.parent := by
  funext x
  unfold parent
  rw [set_bio]
  split_ifs with hx
  · rw [hx, hnone]
    rfl
  · rfl

/-- No call of `bio_endio` changes who is chained to whom. -/
theorem parent_bioEndio (m : Machine) (pc : Pc) : (m.bioEndio pc).1.parent = m.parent := by
  funext x
  unfold parent
  rw [((bioEndio_frame m pc).2.2.2.2.2 x).1]

/-- An allocation makes one bio more. -/
theorem grows_alloc (hfresh : b ∉ m.used) (data : Bio) (owned : Bool) :
    Grows m b (m.alloc b data (if owned then .owner else .none) b) := by
  have hparent := parent_alloc m b data b (e := if owned then .owner else .none) (by cases owned <;> rfl)
  refine ⟨hfresh, rfl, rfl, rfl, rfl, rfl, rfl, ?_, ?_, Or.inl ⟨none, nofun, hparent⟩, ?_⟩
  · intro x hx
    rw [bio_alloc, if_neg hx]
  · rw [bio_alloc, if_pos rfl]
  · intro x _ hx
    rw [bio_alloc, if_neg hx]

/-- So does a split, which chains the piece to the rest. -/
theorem grows_split (front rest : Bio) (source : Nat) (hb : b ∈ m.outstanding) (hc : c ∉ m.used)
    (hne : c ≠ b) :
    Grows m c (((m.alloc c front .none source).set b fun s => { s with data := rest }).bioChain c b) := by
  have hbio := bio_split m front rest source hne
  have hparent : ∀ x, (((m.alloc c front .none source).set b fun s => { s with data := rest }).bioChain c b).parent
      x = if x = c then some b else m.parent x := by
    intro x
    unfold parent
    rw [hbio]
    split_ifs with hxc hxb
    · rfl
    · rw [hxb]
    · rfl
  refine ⟨hc, rfl, rfl, rfl, rfl, rfl, rfl, ?_, ?_, Or.inl ⟨some b, ?_, hparent⟩, ?_⟩
  · intro x hx
    rw [hbio, if_neg hx]
    split_ifs with hxb
    · rw [hxb]
    · rfl
  · rw [hbio, if_pos rfl]
  · rintro p ⟨⟩
    exact hb
  · intro x hx hxc
    rw [hbio, if_neg hxc, if_neg fun hxb : x = b => hx (hxb ▸ hb)]

/-- And so does `blk_next_bio`, which chains the old bio to the new one. -/
theorem grows_nextBio {new : Nat} {data : Bio} (hb : b ∈ m.outstanding) (hnone : (m.bio b).endIo = .none)
    (hfresh : new ∉ m.used) (hne : b ≠ new) :
    Grows m new ((m.alloc new data .none new).bioChain b new) := by
  have hbio := bio_nextBio m data new hne
  have hparent : ∀ x, ((m.alloc new data .none new).bioChain b new).parent x =
      if x = b then some new else if x = new then none else m.parent x := by
    intro x
    unfold parent
    rw [hbio]
    split_ifs <;> rfl
  refine ⟨hfresh, rfl, rfl, rfl, rfl, rfl, rfl, ?_, ?_, Or.inr ⟨b, hb, ?_, hne, hparent⟩, ?_⟩
  · intro x hx
    rw [hbio, if_neg hx]
    split_ifs with hxb
    · rw [hxb]
    · rfl
  · rw [hbio, if_neg fun h => hne h.symm, if_pos rfl]
  · rw [Machine.parent, hnone]
    rfl
  · intro x hx hxn
    rw [hbio, if_neg fun hxb : x = b => hx (hxb ▸ hb), if_neg hxn]

/-- The cases of a move that the results below distinguish. -/
theorem Move.cases (hi : m.Inv) (h : m.Move m') :
    (∃ c, Grows m c m') ∨
    (∃ b, b ∈ m.outstanding ∧ (m.bio b).endIo = .none ∧ m' = m.set b fun s => { s with endIo := .owner }) ∨
    (∃ b status, b ∈ m.outstanding ∧ m' = m.complete b status) ∨
    ∃ l₁ pc l₂, m.calls = l₁ ++ pc :: l₂ ∧ m' = stepped (m.bioEndio pc) l₁ l₂ := by
  cases h with
  | alloc owned hfresh _ => exact Or.inl ⟨_, grows_alloc hfresh _ owned⟩
  | @setEndIo b hb hnone => exact Or.inr (Or.inl ⟨b, hb, hnone, rfl⟩)
  | @split b c _ _ _ hb hc _ =>
      refine Or.inl ⟨c, grows_split _ _ _ hb hc ?_⟩
      rintro rfl
      exact hc (hi.live_used c (hi.outstanding_live c hb))
  | @nextBio b new _ hb hnone hfresh _ =>
      refine Or.inl ⟨new, grows_nextBio hb hnone hfresh ?_⟩
      rintro rfl
      exact hfresh (hi.live_used b (hi.outstanding_live b hb))
  | @complete b status hb => exact Or.inr (Or.inr (Or.inl ⟨b, status, hb, rfl⟩))
  | @endio l₁ l₂ pc hcalls => exact Or.inr (Or.inr (Or.inr ⟨l₁, pc, l₂, hcalls, rfl⟩))

/-! ## The ledger -/

/-- **Completions and ends are booked once.** -/
structure Ledger (m : Machine) : Prop where
  parent_used : ∀ c p, m.Chained c p → p ∈ m.used
  completed_iff : ∀ b, b ∈ m.completed.map Prod.fst ↔ b ∈ m.used ∧ b ∉ m.outstanding
  completed_nodup : (m.completed.map Prod.fst).Nodup
  ended_iff : ∀ b, b ∈ m.ended.map Prod.fst ↔ b ∈ m.used ∧ b ∉ m.live ∧ (m.bio b).endIo = .owner
  ended_nodup : (m.ended.map Prod.fst).Nodup
  ended_status : ∀ e ∈ m.ended, (m.bio e.1).status = e.2

/-- **Step.** A new bio has not been completed and has told nobody. -/
theorem Ledger.grow (hi : m.Inv) (h : m.Ledger) (hg : Grows m c m') : m'.Ledger := by
  have hlive : c ∉ m.live := fun hc => hg.fresh (hi.live_used c hc)
  have hout : ∀ x ∈ m.outstanding, x ∈ m.used := fun x hx => hi.live_used x (hi.outstanding_live x hx)
  refine ⟨?_, ?_, ?_, ?_, ?_, ?_⟩
  · rintro x p ⟨hx, hp⟩
    rw [hg.used] at hx ⊢
    rcases hg.parent_cases hp with ⟨-, hp⟩ | ⟨-, rfl⟩ | ⟨hxc, hp⟩
    · exact List.mem_cons_of_mem _ (hout p hp)
    · exact List.mem_cons_self
    · exact List.mem_cons_of_mem _ (h.parent_used x p ⟨(List.mem_cons.mp hx).resolve_left hxc, hp⟩)
  · intro x
    rw [hg.completed, h.completed_iff, hg.used, hg.outstanding]
    have hc : c ∉ m.used := hg.fresh
    by_cases hxc : x = c
    · simp [hxc, hc]
    · simp [hxc]
  · rw [hg.completed]
    exact h.completed_nodup
  · intro x
    rw [hg.ended, h.ended_iff, hg.used, hg.live]
    by_cases hxc : x = c
    · simp [hxc, hg.fresh]
    · by_cases hxl : x ∈ m.live
      · simp [hxl]
      · rw [hg.dead x (fun hx => hxl (hi.outstanding_live x hx)) hxc]
        simp [hxc]
  · rw [hg.ended]
    exact h.ended_nodup
  · intro e he
    rw [hg.ended] at he
    have hused := ((h.ended_iff e.1).mp (List.mem_map_of_mem he)).1
    rw [hg.status e.1 fun hec => hg.fresh (hec ▸ hused)]
    exact h.ended_status e he

theorem Ledger.setEndIo (hi : m.Inv) (h : m.Ledger) (hb : b ∈ m.outstanding) (hnone : (m.bio b).endIo = .none) :
    (m.set b fun s => { s with endIo := .owner }).Ledger := by
  have hbio : ∀ x, x ≠ b → (m.set b fun s => { s with endIo := .owner }).bio x = m.bio x := by
    intro x hx
    rw [set_bio, if_neg hx]
  have hparent := parent_setEndIo hnone
  refine ⟨?_, h.completed_iff, h.completed_nodup, ?_, h.ended_nodup, ?_⟩
  · rintro x p ⟨hx, hp⟩
    exact h.parent_used x p ⟨hx, hparent ▸ hp⟩
  · intro x
    show x ∈ m.ended.map Prod.fst ↔ x ∈ m.used ∧ x ∉ m.live ∧ _
    rw [h.ended_iff]
    by_cases hxb : x = b
    · have hl := hi.outstanding_live b hb
      simp [hxb, hl]
    · rw [hbio x hxb]
  · intro e he
    rw [set_bio_eq m b e.1 (fun s => { s with endIo := .owner }) BioState.status fun _ => rfl]
    exact h.ended_status e he

/-- **Step.** The device completes a bio once. -/
theorem Ledger.complete (hi : m.Inv) (h : m.Ledger) (hb : b ∈ m.outstanding) (status : Nat) :
    (m.complete b status).Ledger := by
  have hused := hi.live_used b (hi.outstanding_live b hb)
  have hend : ∀ x, ((m.complete b status).bio x).endIo = (m.bio x).endIo := fun x =>
    set_bio_eq m b x (·.note status) BioState.endIo fun _ => rfl
  have hnew : b ∉ m.completed.map Prod.fst := fun hc => ((h.completed_iff b).mp hc).2 hb
  refine ⟨?_, ?_, ?_, ?_, h.ended_nodup, ?_⟩
  · rintro x p ⟨hx, hp⟩
    exact h.parent_used x p ⟨hx, parent_complete m b status ▸ hp⟩
  · intro x
    show x ∈ (m.completed ++ [(b, status)]).map Prod.fst ↔ x ∈ m.used ∧ x ∉ m.outstanding.erase b
    rw [List.map_append, List.mem_append, h.completed_iff, hi.outstanding_nodup.mem_erase_iff]
    by_cases hxb : x = b
    · simp [hxb, hused]
    · simp [hxb]
  · show ((m.completed ++ [(b, status)]).map Prod.fst).Nodup
    rw [List.map_append, List.map_singleton, ← List.concat_eq_append]
    exact h.completed_nodup.concat hnew
  · intro x
    rw [hend]
    exact h.ended_iff x
  · intro e he
    have hne : e.1 ≠ b := by
      intro heb
      exact ((h.ended_iff e.1).mp (List.mem_map_of_mem he)).2.1 (heb ▸ hi.outstanding_live b hb)
    rw [bio_complete, if_neg hne]
    exact h.ended_status e he

/-- **Step.** The owner is told when the bio goes. -/
theorem Ledger.endio (hi : m.Inv) (h : m.Ledger) {l₁ l₂ : List Pc} {pc : Pc}
    (hcalls : m.calls = l₁ ++ pc :: l₂) : (stepped (m.bioEndio pc) l₁ l₂).Ledger := by
  obtain ⟨hused, hout, hcompleted, -, -, hbio⟩ := bioEndio_frame m pc
  have hpc : pc ∈ m.calls := by rw [hcalls]; simp
  have hparent := parent_bioEndio m pc
  -- a store goes to a live bio, whose owner has not been told
  have hstatus : ∀ e ∈ m.ended, ((m.bioEndio pc).1.bio e.1).status = e.2 := by
    intro e he
    rcases bioEndio_status m pc e.1 with hs | ⟨c, rfl, -⟩
    · rw [hs]
      exact h.ended_status e he
    · have hlive := hi.parent_live c (hi.calls_live _ hpc) e.1 (hi.calls_parent _ hpc e.1 rfl)
      exact absurd hlive ((h.ended_iff e.1).mp (List.mem_map_of_mem he)).2.1
  refine ⟨?_, ?_, hcompleted ▸ h.completed_nodup, ?_, ?_, ?_⟩
  · rintro x p ⟨hx, hp⟩
    show p ∈ (m.bioEndio pc).1.used
    rw [hused]
    exact h.parent_used x p ⟨hused ▸ hx, hparent ▸ hp⟩
  · intro x
    show x ∈ (m.bioEndio pc).1.completed.map Prod.fst ↔ x ∈ (m.bioEndio pc).1.used ∧
      x ∉ (m.bioEndio pc).1.outstanding
    rw [hcompleted, hused, hout]
    exact h.completed_iff x
  · intro x
    show x ∈ (m.bioEndio pc).1.ended.map Prod.fst ↔ x ∈ (m.bioEndio pc).1.used ∧
      x ∉ (m.bioEndio pc).1.live ∧ ((m.bioEndio pc).1.bio x).endIo = .owner
    rw [hused, (hbio x).1]
    rcases bioEndio_live m pc with ⟨hl, he⟩ | ⟨b, hfin, hl, ⟨hown, he⟩ | ⟨he, hnot⟩⟩
    · rw [hl, he]
      exact h.ended_iff x
    · have hb := (hi.finishing_call hpc hfin).1
      rw [hl, he, List.map_append, List.mem_append, h.ended_iff, hi.live_nodup.mem_erase_iff]
      by_cases hxb : x = b
      · simp [hxb, hi.live_used b hb, hown]
      · simp [hxb]
    · have hb := (hi.finishing_call hpc hfin).1
      have hnoown : (m.bio b).endIo ≠ .owner := by
        rcases hnot with ⟨-, hn⟩ | ⟨p, rfl⟩
        · rw [hn]
          decide
        · intro hown
          have hp := hi.calls_parent _ hpc p rfl
          rw [Pc.bio_of_finishes hfin, parent, hown] at hp
          cases hp
      rw [hl, he, h.ended_iff, hi.live_nodup.mem_erase_iff]
      by_cases hxb : x = b
      · simp [hxb, hnoown]
      · simp [hxb]
  · show ((m.bioEndio pc).1.ended.map Prod.fst).Nodup
    rcases bioEndio_live m pc with ⟨-, he⟩ | ⟨b, hfin, -, ⟨-, he⟩ | ⟨he, -⟩⟩
    · rw [he]
      exact h.ended_nodup
    · rw [he, List.map_append, List.map_singleton, ← List.concat_eq_append]
      exact h.ended_nodup.concat fun hb => ((h.ended_iff b).mp hb).2.1 (hi.finishing_call hpc hfin).1
    · rw [he]
      exact h.ended_nodup
  · intro e he
    have he : e ∈ (m.bioEndio pc).1.ended := he
    show ((m.bioEndio pc).1.bio e.1).status = e.2
    rcases bioEndio_live m pc with ⟨-, hl⟩ | ⟨b, hfin, -, ⟨hown, hl⟩ | ⟨hl, -⟩⟩
    · rw [hl] at he
      exact hstatus e he
    · rw [hl, List.mem_append, List.mem_singleton] at he
      rcases he with he | rfl
      · exact hstatus e he
      · rcases bioEndio_status m pc b with hs | ⟨c, rfl, -⟩
        · exact hs
        · -- a store to `b` comes from a bio chained to `b`, which would hold it up
          have hp := hi.calls_parent _ hpc b rfl
          exact absurd hp (hi.not_parent_of_finishing hpc hfin (hi.calls_live _ hpc))
    · rw [hl] at he
      exact hstatus e he

/-- **Step.** The books are kept right by every move. -/
theorem Ledger.step (hi : m.Inv) (h : m.Ledger) (hmove : m.Move m') : m'.Ledger := by
  rcases hmove.cases hi with ⟨c, hg⟩ | ⟨b, hb, hnone, rfl⟩ | ⟨b, status, hb, rfl⟩ | ⟨l₁, pc, l₂, hcalls, rfl⟩
  · exact h.grow hi hg
  · exact h.setEndIo hi hb hnone
  · exact h.complete hi hb status
  · exact h.endio hi hcalls

/-! ## No cycles -/

/-- The bios can be ranked so that each is below the one it is chained to. -/
def Ranked (m : Machine) : Prop := ∃ rank : Nat → Int, ∀ c p, m.Chained c p → rank c < rank p

theorem Ranked.congr (h : m.Ranked) (hused : m'.used = m.used) (hparent : m'.parent = m.parent) :
    m'.Ranked := by
  obtain ⟨rank, hrank⟩ := h
  refine ⟨rank, fun c p hc => hrank c p ?_⟩
  unfold Chained at hc ⊢
  rwa [hused, hparent] at hc

/-- A new bio has nothing below it, or nothing above it. -/
theorem Ranked.grow (hi : m.Inv) (hl : m.Ledger) (h : m.Ranked) (hg : Grows m c m') : m'.Ranked := by
  obtain ⟨rank, hrank⟩ := h
  have hout : ∀ x ∈ m.outstanding, x ≠ c := by
    rintro x hx rfl
    exact hg.fresh (hi.live_used x (hi.outstanding_live x hx))
  have hold : ∀ x p, x ∈ m'.used → x ≠ c → m.parent x = some p → p ≠ c ∧ rank x < rank p := by
    intro x p hx hxc hp
    have hch : m.Chained x p := ⟨(List.mem_cons.mp (hg.used ▸ hx)).resolve_left hxc, hp⟩
    refine ⟨?_, hrank x p hch⟩
    rintro rfl
    exact hg.fresh (hl.parent_used x p hch)
  rcases hg.parent with ⟨q, hq, hpar⟩ | ⟨b, hb, hnone, hbc, hpar⟩
  · refine ⟨Function.update rank c (rank (q.getD 0) - 1), ?_⟩
    rintro x p ⟨hx, hp⟩
    rw [hpar] at hp
    split_ifs at hp with hxc
    · rw [hxc, Function.update_self, Function.update_of_ne (hout p (hq p hp)), hp]
      exact Int.sub_one_lt_of_le (Int.le_refl _)
    · obtain ⟨hpc, hlt⟩ := hold x p hx hxc hp
      rwa [Function.update_of_ne hxc, Function.update_of_ne hpc]
  · refine ⟨Function.update rank c (rank b + 1), ?_⟩
    rintro x p ⟨hx, hp⟩
    rw [hpar] at hp
    split_ifs at hp with hxb hxc
    · cases hp
      rw [Function.update_self, hxb, Function.update_of_ne hbc]
      omega
    · obtain ⟨hpc, hlt⟩ := hold x p hx hxc hp
      rwa [Function.update_of_ne hxc, Function.update_of_ne hpc]

/-- **Step.** The chains stay without a circle. -/
theorem Ranked.step (hi : m.Inv) (hl : m.Ledger) (h : m.Ranked) (hmove : m.Move m') : m'.Ranked := by
  rcases hmove.cases hi with ⟨c, hg⟩ | ⟨b, -, hnone, rfl⟩ | ⟨b, status, -, rfl⟩ | ⟨l₁, pc, l₂, -, rfl⟩
  · exact h.grow hi hl hg
  · exact h.congr rfl (parent_setEndIo hnone)
  · exact h.congr rfl (parent_complete m b status)
  · exact h.congr (bioEndio_frame m pc).1 (parent_bioEndio m pc)

/-- When nothing is outstanding and no call is running, no bio is left. -/
theorem live_eq_nil (hi : m.Inv) (h : m.Ranked) (hout : m.outstanding = []) (hcalls : m.calls = []) :
    m.live = [] := by
  obtain ⟨rank, hrank⟩ := h
  by_contra hne
  -- a bio of the lowest rank has none below it to hold it up
  obtain ⟨b, hb, hmin⟩ : ∃ b ∈ m.live, ∀ c ∈ m.live, rank b ≤ rank c := by
    cases hl : m.live.argmin rank with
    | none => exact absurd (List.argmin_eq_none.mp hl) hne
    | some b => exact ⟨b, List.argmin_mem hl, fun c hc => List.le_of_mem_argmin hc hl⟩
  have hfin : m.finishing b = 0 := by
    unfold finishing
    rw [hcalls]
    rfl
  have htok : 1 ≤ m.tokens b := by
    rcases hi.phase b hb with ⟨-, ht, -⟩ | ⟨hf, -⟩
    · exact ht
    · omega
  unfold tokens at htok
  rw [hout, hcalls, List.count_nil, List.countP_nil, Nat.zero_add] at htok
  obtain ⟨c, hc, hp⟩ := List.countP_pos_iff.mp htok
  have hlt := hrank c b ⟨hi.live_used c hc, by simpa using hp⟩
  have hle := hmin c hc
  omega

/-! ## The status -/

/-- **An error is never lost, and never made up.** An error that the device reports is noted in the bio;
    when a bio is given up, the bio that it is chained to has an error if it has one; and every status that
    is noted was reported for a bio of the family. -/
structure Blame (m : Machine) : Prop where
  noted : ∀ e ∈ m.completed, e.2 ≠ 0 → (m.bio e.1).status ≠ 0
  passed : ∀ c p, m.Chained c p → c ∉ m.live → (m.bio c).status ≠ 0 → (m.bio p).status ≠ 0
  store : ∀ b p, Pc.store b p ∈ m.calls → (m.bio b).status ≠ 0
  put : ∀ b p, Pc.put b p ∈ m.calls → (m.bio b).status ≠ 0 → (m.bio p).status ≠ 0
  reported : ∀ b ∈ m.used, (m.bio b).status ≠ 0 → ∃ c, m.Below c b ∧ (c, (m.bio b).status) ∈ m.completed

/-- **Step.** A new bio has no error, and no error is passed to it yet. -/
theorem Blame.grow (hi : m.Inv) (hl : m.Ledger) (h : m.Blame) (hg : Grows m c m') : m'.Blame := by
  have hused : ∀ x ∈ m.used, x ≠ c := by
    rintro x hx rfl
    exact hg.fresh hx
  have hcalls : ∀ pc ∈ m.calls, pc.bio ≠ c := fun pc hpc => hused _ (hi.live_used _ (hi.calls_live pc hpc))
  have hparents : ∀ pc ∈ m.calls, ∀ p, pc.parent = some p → p ≠ c := fun pc hpc p hp =>
    hused _ (hl.parent_used _ p ⟨hi.live_used _ (hi.calls_live pc hpc), hi.calls_parent pc hpc p hp⟩)
  refine ⟨?_, ?_, ?_, ?_, ?_⟩
  · intro e he hne
    rw [hg.completed] at he
    rw [hg.status e.1 (hused _ ((hl.completed_iff e.1).mp (List.mem_map_of_mem he)).1)]
    exact h.noted e he hne
  · rintro x p ⟨hx, hp⟩ hdead hne
    rw [hg.live] at hdead
    have hxc : x ≠ c := fun hxc => hdead (hxc ▸ List.mem_cons_self)
    have hxl : x ∉ m.live := fun hx => hdead (List.mem_cons_of_mem _ hx)
    have hxu : x ∈ m.used := (List.mem_cons.mp (hg.used ▸ hx)).resolve_left hxc
    rcases hg.parent_cases hp with ⟨hc, -⟩ | ⟨ho, -⟩ | ⟨-, hp⟩
    · exact absurd hc hxc
    · exact absurd (hi.outstanding_live x ho) hxl
    · rw [hg.status x hxc] at hne
      rw [hg.status p (hused p (hl.parent_used x p ⟨hxu, hp⟩))]
      exact h.passed x p ⟨hxu, hp⟩ hxl hne
  · intro b p hb
    rw [hg.calls] at hb
    rw [hg.status b (hcalls _ hb)]
    exact h.store b p hb
  · intro b p hb
    rw [hg.calls] at hb
    rw [hg.status b (hcalls _ hb), hg.status p (hparents _ hb p rfl)]
    exact h.put b p hb
  · intro b hb hne
    by_cases hbc : b = c
    · rw [hbc, hg.status_self] at hne
      exact absurd rfl hne
    · have hbu : b ∈ m.used := (List.mem_cons.mp (hg.used ▸ hb)).resolve_left hbc
      rw [hg.status b hbc] at hne ⊢
      obtain ⟨d, hd, hmem⟩ := h.reported b hbu hne
      exact ⟨d, hd.mono fun _ _ => hg.chained_mono, hg.completed ▸ hmem⟩

theorem Blame.setEndIo (h : m.Blame) (hnone : (m.bio b).endIo = .none) :
    (m.set b fun s => { s with endIo := .owner }).Blame := by
  have hstatus : ∀ x, ((m.set b fun s => { s with endIo := .owner }).bio x).status = (m.bio x).status := fun x =>
    set_bio_eq m b x (fun s => { s with endIo := .owner }) BioState.status fun _ => rfl
  have hchained : ∀ c p, (m.set b fun s => { s with endIo := .owner }).Chained c p ↔ m.Chained c p := by
    intro c p
    unfold Chained
    rw [parent_setEndIo hnone]
    rfl
  refine ⟨?_, ?_, ?_, ?_, ?_⟩
  · intro e he
    rw [hstatus]
    exact h.noted e he
  · intro c p hc
    rw [hstatus, hstatus]
    exact h.passed c p ((hchained c p).mp hc)
  · intro b p hb
    rw [hstatus]
    exact h.store b p hb
  · intro b p hb
    rw [hstatus, hstatus]
    exact h.put b p hb
  · intro x hx hne
    rw [hstatus] at hne ⊢
    obtain ⟨d, hd, hmem⟩ := h.reported x hx hne
    exact ⟨d, hd.mono fun c p => (hchained c p).mpr, hmem⟩

/-- Noting an error does not remove one. -/
theorem note_status_ne_zero {s : BioState} {status : Nat} (h : s.status ≠ 0) : (s.note status).status ≠ 0 := by
  unfold BioState.note
  dsimp only
  split_ifs with hs
  · exact h
  · exact hs

/-- **Step.** The error that the device reports is noted in the bio. -/
theorem Blame.complete (hi : m.Inv) (h : m.Blame) (hb : b ∈ m.outstanding) (status : Nat) :
    (m.complete b status).Blame := by
  have hlive := hi.outstanding_live b hb
  have htok := tokens_pos_of_outstanding hb
  have hkeep : ∀ x, (m.bio x).status ≠ 0 → ((m.complete b status).bio x).status ≠ 0 := by
    intro x hx
    rw [bio_complete]
    split_ifs with hxb
    · exact note_status_ne_zero (hxb ▸ hx)
    · exact hx
  have hsame : ∀ x, x ≠ b → ((m.complete b status).bio x).status = (m.bio x).status := by
    intro x hx
    rw [bio_complete, if_neg hx]
  have hchained : ∀ c p, (m.complete b status).Chained c p ↔ m.Chained c p := by
    intro c p
    unfold Chained
    rw [parent_complete]
    rfl
  have hcalls : ∀ pc ∈ (m.complete b status).calls, pc ∈ m.calls ∨ pc = .again b := by
    intro pc hpc
    rcases List.mem_append.mp hpc with hpc | hpc
    · exact Or.inl hpc
    · exact Or.inr (List.mem_singleton.mp hpc)
  -- a call that finishes a bio does not work on `b`
  have hother : ∀ pc ∈ m.calls, ∀ x, pc.finishes x = true → x ≠ b := by
    rintro pc hpc x hx rfl
    have := (hi.finishing_call hpc hx).2.2
    omega
  refine ⟨?_, ?_, ?_, ?_, ?_⟩
  · intro e he hne
    rcases List.mem_append.mp he with he | he
    · exact hkeep _ (h.noted e he hne)
    · obtain rfl := List.mem_singleton.mp he
      rw [bio_complete, if_pos rfl]
      simp [BioState.note, hne]
  · intro c p hc hdead hne
    have hcb : c ≠ b := fun hcb => hdead (hcb ▸ hlive)
    rw [hsame c hcb] at hne
    exact hkeep p (h.passed c p ((hchained c p).mp hc) hdead hne)
  · intro x p hx
    rcases hcalls _ hx with hx | hx
    · exact hkeep x (h.store x p hx)
    · cases hx
  · intro x p hx hne
    rcases hcalls _ hx with hx | hx
    · rw [hsame x (hother _ hx x (by simp [Pc.finishes]))] at hne
      exact hkeep p (h.put x p hx hne)
    · cases hx
  · intro x hx hne
    have hold : (m.bio x).status ≠ 0 → ((m.complete b status).bio x).status = (m.bio x).status →
        ∃ c, (m.complete b status).Below c x ∧
          (c, ((m.complete b status).bio x).status) ∈ (m.complete b status).completed := by
      intro hne he
      obtain ⟨d, hd, hmem⟩ := h.reported x hx hne
      rw [he]
      exact ⟨d, hd.mono fun c p => (hchained c p).mpr, List.mem_append_left _ hmem⟩
    by_cases hxb : x = b
    · by_cases hs : status = 0
      · have he : ((m.complete b status).bio x).status = (m.bio x).status := by
          rw [bio_complete, if_pos hxb, hxb]
          simp [BioState.note, hs]
        exact hold (he ▸ hne) he
      · refine ⟨x, Relation.ReflTransGen.refl, ?_⟩
        have he : ((m.complete b status).bio x).status = status := by
          rw [bio_complete, if_pos hxb]
          simp [BioState.note, hs]
        rw [he, hxb]
        exact List.mem_append_right _ (List.mem_singleton.mpr rfl)
    · exact hold (hsame x hxb ▸ hne) (hsame x hxb)

/-- Which calls come to stand before the store, and before `bio_put`. -/
theorem bioEndio_next (m : Machine) (pc : Pc) :
    (∀ b p, (m.bioEndio pc).2 = some (.store b p) →
      pc = .finish b ∧ (m.bio b).status ≠ 0 ∧ (m.bioEndio pc).1 = m) ∧
    ∀ b p, (m.bioEndio pc).2 = some (.put b p) →
      pc = .finish b ∧ ((m.bio b).status ≠ 0 → (m.bio p).status ≠ 0) ∧ (m.bioEndio pc).1 = m ∨
      pc = .store b p := by
  cases pc with
  | again b =>
      rw [bioEndio_again]
      constructor <;> intro c p h <;> split_ifs at h <;> cases h
  | dec b =>
      rw [bioEndio_dec]
      constructor <;> intro c p h <;> split_ifs at h <;> cases h
  | clear b => constructor <;> intro c p h <;> cases h
  | finish b =>
      cases he : (m.bio b).endIo with
      | chain q =>
          rw [bioEndio_chain he]
          constructor <;> intro c p h <;> dsimp only at h <;> split_ifs at h with hs <;> cases h
          · exact ⟨rfl, hs.1, rfl⟩
          · exact Or.inl ⟨rfl, fun hb hp => hs ⟨hb, hp⟩, rfl⟩
      | owner =>
          rw [bioEndio_owner he]
          constructor <;> intro c p h <;> cases h
      | none =>
          rw [bioEndio_none he]
          constructor <;> intro c p h <;> cases h
  | store b q =>
      constructor <;> intro c p h <;> cases h
      exact Or.inr rfl
  | put b q => constructor <;> intro c p h <;> cases h

/-- **Step.** An error passes from a piece to the bio that it is chained to. -/
theorem Blame.endio (hi : m.Inv) (h : m.Blame) {l₁ l₂ : List Pc} {pc : Pc}
    (hcalls : m.calls = l₁ ++ pc :: l₂) : (stepped (m.bioEndio pc) l₁ l₂).Blame := by
  obtain ⟨hused, -, hcompleted, -, -, hbio⟩ := bioEndio_frame m pc
  obtain ⟨hstore, hput⟩ := bioEndio_next m pc
  have hpc : pc ∈ m.calls := by rw [hcalls]; simp
  have hstep : (stepped (m.bioEndio pc) l₁ l₂).bio = (m.bioEndio pc).1.bio := rfl
  have hchained : ∀ c p, (stepped (m.bioEndio pc) l₁ l₂).Chained c p ↔ m.Chained c p := by
    intro c p
    show c ∈ (m.bioEndio pc).1.used ∧ (m.bioEndio pc).1.parent c = some p ↔ _
    rw [hused, parent_bioEndio]
    rfl
  have hkeep : ∀ x, (m.bio x).status ≠ 0 → ((m.bioEndio pc).1.bio x).status ≠ 0 := by
    intro x hx
    rcases bioEndio_status m pc x with he | ⟨b, rfl, he⟩
    · rwa [he]
    · rw [he]
      exact h.store b x hpc
  -- a store goes to a bio that is held up by the bio it comes from
  have hsame : ∀ x, x ∉ m.live ∨ 1 ≤ m.finishing x →
      ((m.bioEndio pc).1.bio x).status = (m.bio x).status := by
    intro x hx
    rcases bioEndio_status m pc x with he | ⟨b, rfl, -⟩
    · exact he
    · have hb : b ∈ m.live := hi.calls_live _ hpc
      have hp : m.parent b = some x := hi.calls_parent _ hpc x rfl
      have hxl := hi.parent_live b hb x hp
      have hfin := hi.not_finishing hxl (tokens_pos_of_child hb hp)
      rcases hx with hx | hx
      · exact absurd hxl hx
      · omega
  refine ⟨?_, ?_, ?_, ?_, ?_⟩
  · intro e he hne
    have he : e ∈ (m.bioEndio pc).1.completed := he
    rw [hcompleted] at he
    exact hkeep _ (h.noted e he hne)
  · intro c p hc hdead hne
    rw [hstep] at hne ⊢
    have hc := (hchained c p).mp hc
    by_cases hcl : c ∈ m.live
    · -- the bio leaves in this step
      have hdead : c ∉ (m.bioEndio pc).1.live := hdead
      rcases bioEndio_live m pc with ⟨hl, -⟩ | ⟨b, hfin, hl, hcase⟩
      · exact absurd (hl ▸ hcl) hdead
      · have hcb : c = b := by
          by_contra hcb
          exact hdead (hl ▸ hi.live_nodup.mem_erase_iff.mpr ⟨hcb, hcl⟩)
        rw [hsame c (Or.inr (hcb ▸ (hi.finishing_call hpc hfin).2.1.ge))] at hne
        have hp := hc.2
        rw [hcb, Machine.parent] at hp
        rcases hcase with ⟨hown, -⟩ | ⟨-, ⟨-, hnone⟩ | ⟨q, rfl⟩⟩
        · rw [hown] at hp
          cases hp
        · rw [hnone] at hp
          cases hp
        · have hq := hi.calls_parent _ hpc q rfl
          rw [Pc.bio_of_finishes hfin, Machine.parent, hp] at hq
          cases hq
          exact hkeep p (h.put b p hpc (hcb ▸ hne))
    · rw [hsame c (Or.inl hcl)] at hne
      exact hkeep p (h.passed c p hc hcl hne)
  · intro b p hb
    rcases mem_calls_stepped hcalls hb with hold | hnew
    · exact hkeep b (h.store b p hold)
    · exact hkeep b (hstore b p hnew).2.1
  · intro b p hb hne
    rw [hstep] at hne ⊢
    rcases mem_calls_stepped hcalls hb with hold | hnew
    · have hfin := (hi.finishing_call (b := b) hold (by simp [Pc.finishes])).2.1
      rw [hsame b (Or.inr hfin.ge)] at hne
      exact hkeep p (h.put b p hold hne)
    · rcases hput b p hnew with ⟨-, himp, he⟩ | rfl
      · rw [he] at hne ⊢
        exact himp hne
      · have hs := h.store b p hpc
        simp only [bioEndio, set_bio, if_true]
        exact hs
  · intro x hx hne
    rw [hstep] at hne ⊢
    have hx : x ∈ m.used := hused ▸ hx
    show ∃ c, _ ∧ _ ∈ (m.bioEndio pc).1.completed
    rw [hcompleted]
    rcases bioEndio_status m pc x with he | ⟨b, rfl, he⟩
    · rw [he] at hne ⊢
      obtain ⟨d, hd, hmem⟩ := h.reported x hx hne
      exact ⟨d, hd.mono fun c p => (hchained c p).mpr, hmem⟩
    · rw [he]
      have hb : b ∈ m.used := hi.live_used b (hi.calls_live _ hpc)
      obtain ⟨d, hd, hmem⟩ := h.reported b hb (h.store b x hpc)
      refine ⟨d, ?_, hmem⟩
      exact (hd.mono fun c p => (hchained c p).mpr).tail
        ((hchained b x).mpr ⟨hb, hi.calls_parent _ hpc x rfl⟩)

/-- **Step.** Every move keeps each error traced to the bio that it came from. -/
theorem Blame.step (hi : m.Inv) (hl : m.Ledger) (h : m.Blame) (hmove : m.Move m') : m'.Blame := by
  rcases hmove.cases hi with ⟨c, hg⟩ | ⟨b, hb, hnone, rfl⟩ | ⟨b, status, hb, rfl⟩ | ⟨l₁, pc, l₂, hcalls, rfl⟩
  · exact h.grow hi hl hg
  · exact h.setEndIo hnone
  · exact h.complete hi hb status
  · exact h.endio hi hcalls

/-! ## Every run -/

/-- What holds in every state that can be reached. -/
structure Sound (m : Machine) : Prop where
  inv : m.Inv
  ledger : m.Ledger
  ranked : m.Ranked
  blame : m.Blame

theorem start_sound (junk : BioState) : (start junk).Sound := by
  refine ⟨start_inv junk, ⟨?_, ?_, ?_, ?_, ?_, ?_⟩, ⟨fun _ => 0, ?_⟩, ⟨?_, ?_, ?_, ?_, ?_⟩⟩ <;>
    simp [start, Chained]

/-- **Run.** All three invariants hold in every state that is reached. -/
theorem Reachable.sound (h : m.Reachable) : m.Sound := by
  obtain ⟨junk, h⟩ := h
  refine h.inv (start_sound junk) ?_
  rintro m a m' ⟨hi, hl, hr, hb⟩ hstep
  exact ⟨hi.step hstep.move, hl.step hi hstep.move, hr.step hi hl hstep.move, hb.step hi hl hstep.move⟩

/-- What is below a bio that has been given up has been given up before. -/
theorem Inv.below_dead (hi : m.Inv) (h : m.Below c b) (hb : b ∉ m.live) : c ∉ m.live := by
  induction h with
  | refl => exact hb
  | @tail d p _ hch ih =>
      refine ih fun hd => hb ?_
      exact hi.parent_live d hd p hch.2

theorem Below.mem_used (h : m.Below c b) (hb : b ∈ m.used) : c ∈ m.used := by
  cases Relation.ReflTransGen.cases_head h with
  | inl he => exact he ▸ hb
  | inr he =>
      obtain ⟨d, hch, -⟩ := he
      exact hch.1

/-- A bio that is gone was completed. -/
theorem Ledger.completed_of_dead (hi : m.Inv) (hl : m.Ledger) (hu : c ∈ m.used) (hc : c ∉ m.live) :
    ∃ status, (c, status) ∈ m.completed := by
  have hmem := (hl.completed_iff c).mpr ⟨hu, fun ho => hc (hi.outstanding_live c ho)⟩
  obtain ⟨⟨c', status⟩, he, rfl⟩ := List.mem_map.mp hmem
  exact ⟨status, he⟩

/-- **The owner is told once, and last.** In every interleaving: no `BUG_ON` is hit, and no call touches a
    bio that has been given up; `bi_end_io` of a bio is called at most once, and when it has been called the
    device has completed the bio and everything that was ever chained to it, and all of these have been given
    up. -/
theorem endio_once (h : m.Reachable) :
    m.bug = false ∧
    (∀ pc ∈ m.calls, pc.bio ∈ m.live ∧ ∀ p, pc.parent = some p → p ∈ m.live) ∧
    (m.ended.map Prod.fst).Nodup ∧
    ∀ e ∈ m.ended, ∀ c, m.Below c e.1 → c ∉ m.live ∧ ∃ status, (c, status) ∈ m.completed := by
  obtain ⟨hi, hl, -, -⟩ := h.sound
  refine ⟨hi.no_bug, ?_, hl.ended_nodup, ?_⟩
  · intro pc hpc
    refine ⟨hi.calls_live pc hpc, fun p hp => ?_⟩
    exact hi.parent_live _ (hi.calls_live pc hpc) p (hi.calls_parent pc hpc p hp)
  · intro e he c hc
    obtain ⟨hused, hdead, -⟩ := (hl.ended_iff e.1).mp (List.mem_map_of_mem he)
    have hcdead := hi.below_dead hc hdead
    exact ⟨hcdead, hl.completed_of_dead hi (hc.mem_used hused) hcdead⟩

/-- The split read. -/
theorem endio_once_split :
    ∃ m, (start sampleState).run (splitRun 5) = some m ∧ m.ended = [(0, 5)] ∧ m.bug = false ∧
      ∃ status, (0, status) ∈ m.completed := by
  obtain ⟨m, hrun, hended⟩ : ∃ m, (start sampleState).run (splitRun 5) = some m ∧ m.ended = [(0, 5)] :=
    Option.map_eq_some_iff.mp (by decide : ((start sampleState).run (splitRun 5)).map ended = some [(0, 5)])
  obtain ⟨hbug, -, -, htold⟩ := endio_once (reachable_of_run hrun)
  exact ⟨m, hrun, hended, hbug, (htold (0, 5) (by simp [hended]) 0 Relation.ReflTransGen.refl).2⟩

/-- The work that is left to the running calls: each bio is climbed over once. -/
def work (m : Machine) : Nat := 6 * m.live.length + (m.calls.map Pc.work).sum

/-- Every step of a call leaves less to do, so that all calls come to their end. -/
theorem work_stepped {l₁ l₂ : List Pc} {pc : Pc} (hi : m.Inv) (hcalls : m.calls = l₁ ++ pc :: l₂) :
    (stepped (m.bioEndio pc) l₁ l₂).work < m.work := by
  have hpc : pc ∈ m.calls := by rw [hcalls]; simp
  have hsum : m.work = 6 * m.live.length + ((l₁.map Pc.work).sum + (pc.work + (l₂.map Pc.work).sum)) := by
    unfold work
    rw [hcalls, List.map_append, List.sum_append, List.map_cons, List.sum_cons]
  have hsum' : (stepped (m.bioEndio pc) l₁ l₂).work = 6 * (m.bioEndio pc).1.live.length +
      ((l₁.map Pc.work).sum + (((m.bioEndio pc).2.toList.map Pc.work).sum + (l₂.map Pc.work).sum)) := by
    unfold work stepped
    dsimp only
    rw [List.map_append, List.map_append, List.sum_append, List.sum_append]
    omega
  suffices 6 * (m.bioEndio pc).1.live.length + ((m.bioEndio pc).2.toList.map Pc.work).sum <
      6 * m.live.length + pc.work by omega
  cases pc with
  | again b =>
      rw [bioEndio_again]
      split_ifs <;> simp [Pc.work]
  | dec b =>
      rw [bioEndio_dec]
      split_ifs <;> simp [Pc.work]
  | clear b => simp [bioEndio, Pc.work]
  | finish b =>
      cases he : (m.bio b).endIo with
      | chain p =>
          rw [bioEndio_chain he]
          split_ifs <;> simp [Pc.work]
      | owner =>
          rw [bioEndio_owner he]
          have := List.length_erase_le (a := b) (l := m.live)
          simp [Pc.work]
          omega
      | none =>
          rw [bioEndio_none he]
          have := List.length_erase_le (a := b) (l := m.live)
          simp [Pc.work]
          omega
  | store b p => simp [bioEndio, Pc.work]
  | put b p =>
      have hb : b ∈ m.live := hi.calls_live _ hpc
      have := List.length_erase_of_mem hb
      have := List.length_pos_of_mem hb
      simp [bioEndio, Pc.work]
      omega

/-- **No completion is lost.** When the device has nothing outstanding and no call of `bio_endio` is running,
    every owner has been told, exactly once. A running call can always take its next step, and with every
    step the work that is left to the running calls gets less, so that they come to an end in any order. -/
theorem endio_none_lost (h : m.Reachable) :
    (m.outstanding = [] → m.calls = [] → ∀ b ∈ m.used, (m.bio b).endIo = .owner →
      ∃! status, (b, status) ∈ m.ended) ∧
    (∀ n < m.calls.length, ∃ m', m.Step (.endio n) m') ∧
    ∀ n m', m.Step (.endio n) m' → m'.work < m.work := by
  obtain ⟨hi, hl, hr, -⟩ := h.sound
  refine ⟨?_, ?_, ?_⟩
  · intro hout hcalls b hb hown
    have hlive := live_eq_nil hi hr hout hcalls
    have hmem := (hl.ended_iff b).mpr ⟨hb, by rw [hlive]; exact List.not_mem_nil, hown⟩
    obtain ⟨⟨b', status⟩, he, rfl⟩ := List.mem_map.mp hmem
    refine ⟨status, he, fun status' he' => ?_⟩
    exact (hl.ended_status _ he').symm.trans (hl.ended_status _ he)
  · intro n hn
    refine ⟨_, step_endio_iff.mpr ⟨m.calls.take n, m.calls[n], m.calls.drop (n + 1), ?_, ?_, rfl⟩⟩
    · rw [← List.drop_eq_getElem_cons hn, List.take_append_drop]
    · rw [List.length_take]
      omega
  · intro n m' hstep
    obtain ⟨l₁, pc, l₂, hcalls, -, rfl⟩ := step_endio_iff.mp hstep
    exact work_stepped hi hcalls

/-- A bio that was split in two, both of whose parts came back. -/
theorem endio_none_lost_split :
    ∃ m, (start sampleState).run (splitRun 0) = some m ∧ m.outstanding = [] ∧ m.calls = [] ∧
      ∃! status, (0, status) ∈ m.ended := by
  obtain ⟨m, hrun, he⟩ : ∃ m, (start sampleState).run (splitRun 0) = some m ∧
      (m.outstanding, m.calls, m.used, (m.bio 0).endIo) = ([], [], [1, 0], .owner) :=
    Option.map_eq_some_iff.mp (by decide :
      ((start sampleState).run (splitRun 0)).map (fun m => (m.outstanding, m.calls, m.used, (m.bio 0).endIo)) =
        some ([], [], [1, 0], .owner))
  simp only [Prod.mk.injEq] at he
  obtain ⟨hout, hcalls, hused, hown⟩ := he
  exact ⟨m, hrun, hout, hcalls,
    (endio_none_lost (reachable_of_run hrun)).1 hout hcalls 0 (by simp [hused]) hown⟩

/-- An error climbs with the completion. -/
theorem Sound.status_ne_zero (h : m.Sound) {st : Nat} (hc : m.Below c b) (hb : b ∉ m.live)
    (hmem : (c, st) ∈ m.completed) (hne : st ≠ 0) : (m.bio b).status ≠ 0 := by
  induction hc with
  | refl => exact h.blame.noted _ hmem hne
  | @tail d p hcd hch ih =>
      have hd : d ∉ m.live := fun hd => hb (h.inv.parent_live d hd p hch.2)
      exact h.blame.passed d p hch hd (ih hd)

/-- **The status is that of the family.** The owner finds success exactly when every completion of the bio
    and of what was chained to it was a success, and an error that he finds is one that the device reported
    for one of them. -/
theorem endio_status (h : m.Reachable) {b status : Nat} (he : (b, status) ∈ m.ended) :
    (status = 0 ↔ ∀ c, m.Below c b → ∀ st, (c, st) ∈ m.completed → st = 0) ∧
    (status ≠ 0 → ∃ c, m.Below c b ∧ (c, status) ∈ m.completed) := by
  have hs := h.sound
  obtain ⟨hused, hdead, -⟩ := (hs.ledger.ended_iff b).mp (List.mem_map_of_mem he)
  have hst : (m.bio b).status = status := hs.ledger.ended_status _ he
  have hreported : status ≠ 0 → ∃ c, m.Below c b ∧ (c, status) ∈ m.completed := by
    intro hne
    obtain ⟨c, hc, hmem⟩ := hs.blame.reported b hused (hst ▸ hne)
    exact ⟨c, hc, hst ▸ hmem⟩
  refine ⟨⟨?_, ?_⟩, hreported⟩
  · intro hzero c hc st hmem
    by_contra hne
    exact hs.status_ne_zero hc hdead hmem hne (hst.trans hzero)
  · intro hall
    by_contra hne
    obtain ⟨c, hc, hmem⟩ := hreported hne
    exact hne (hall c hc status hmem)

/-- The same bio, with an error in the rest of it. -/
theorem endio_status_split :
    ∃ m, (start sampleState).run (splitRun 5) = some m ∧ (0, 5) ∈ m.ended ∧
      ∃ c, m.Below c 0 ∧ (c, 5) ∈ m.completed := by
  obtain ⟨m, hrun, hended⟩ : ∃ m, (start sampleState).run (splitRun 5) = some m ∧ m.ended = [(0, 5)] :=
    Option.map_eq_some_iff.mp (by decide : ((start sampleState).run (splitRun 5)).map ended = some [(0, 5)])
  have hmem : (0, 5) ∈ m.ended := by simp [hended]
  exact ⟨m, hrun, hmem, (endio_status (reachable_of_run hrun) hmem).2 (by decide)⟩

end Machine
end Block
end SystemsPlayground
