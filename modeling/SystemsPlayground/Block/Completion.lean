import Mathlib.Data.List.Count
import SystemsPlayground.Block.Endio

/-!
# `Block.Completion` — who holds a bio up

The invariant behind all results about chained bios (`Machine.Inv`): the counter of a chained bio is the
number of those who still hold it up, which are the device, the calls of `bio_endio` that are about to
decrement it, and the bios that are chained to it. A bio that nobody holds up is being finished by exactly
one call, and nothing else refers to it any more. So the counter is never decremented below zero, and no call
ever touches a bio that has been given up.
-/

namespace SystemsPlayground
namespace Block

open Runs

/-! ## What the changes touch -/

section Pc

variable {pc : Pc} {b x : Nat}

theorem Pc.bio_of_holds (h : pc.holds b = true) : pc.bio = b := by
  cases pc <;> simp_all [Pc.holds, Pc.bio]

theorem Pc.bio_of_finishes (h : pc.finishes b = true) : pc.bio = b := by
  cases pc <;> simp_all [Pc.finishes, Pc.bio]

theorem Pc.holds_or_finishes (pc : Pc) : pc.holds pc.bio = true ∨ pc.finishes pc.bio = true := by
  cases pc <;> simp [Pc.holds, Pc.finishes, Pc.bio]

theorem Pc.not_holds_of_finishes (h : pc.finishes b = true) : pc.holds x = false := by
  cases pc <;> simp_all [Pc.finishes, Pc.holds]

theorem Pc.not_finishes_of_ne (h : pc.finishes b = true) (hx : x ≠ b) : pc.finishes x = false := by
  by_contra hc
  exact hx ((Pc.bio_of_finishes (by simpa using hc)).symm.trans (Pc.bio_of_finishes h))

end Pc

/-- The bio that `bio_endio` goes on to. -/
def EndIo.parent : EndIo → Option Nat
  | .chain p => some p
  | _ => Option.none

namespace Machine

/-- The bio that `c` is chained to. -/
def parent (m : Machine) (c : Nat) : Option Nat := (m.bio c).endIo.parent

section Fields

variable (m : Machine) (b x : Nat) (f : BioState → BioState)

@[simp] theorem set_live : (m.set b f).live = m.live := rfl
@[simp] theorem set_outstanding : (m.set b f).outstanding = m.outstanding := rfl
@[simp] theorem set_calls : (m.set b f).calls = m.calls := rfl
@[simp] theorem set_bug : (m.set b f).bug = m.bug := rfl
@[simp] theorem set_used : (m.set b f).used = m.used := rfl
@[simp] theorem set_submitted : (m.set b f).submitted = m.submitted := rfl
@[simp] theorem set_source : (m.set b f).source = m.source := rfl
@[simp] theorem set_completed : (m.set b f).completed = m.completed := rfl
@[simp] theorem set_ended : (m.set b f).ended = m.ended := rfl

theorem set_bio : (m.set b f).bio x = if x = b then f (m.bio b) else m.bio x := Function.update_apply ..

/-- A change of other fields of a bio does not show. -/
theorem set_bio_eq {α : Type} (g : BioState → α) (hf : ∀ s, g (f s) = g s) :
    g ((m.set b f).bio x) = g (m.bio x) := by
  rw [set_bio]
  split_ifs with h
  · rw [hf, h]
  · rfl

end Fields

/-! ## Who holds a bio up -/

/-- Those who hold up the completion of `b`: the device, the calls that will decrement its counter, and the
    bios chained to it. -/
def tokens (m : Machine) (b : Nat) : Nat :=
  m.outstanding.count b + m.calls.countP (Pc.holds b) + m.live.countP (m.parent · = some b)

/-- The calls that have found `b` to be done. -/
def finishing (m : Machine) (b : Nat) : Nat := m.calls.countP (Pc.finishes b)

/-- A bio is held up, and if it is not chained then by exactly one; or one call is finishing it. -/
def Phase (m : Machine) (b : Nat) : Prop :=
  (m.finishing b = 0 ∧ 1 ≤ m.tokens b ∧
    ((m.bio b).chained = false → m.tokens b = 1 ∧ (m.bio b).remaining = 1)) ∨
  (m.finishing b = 1 ∧ m.tokens b = 0)

/-- **The invariant.** -/
structure Inv (m : Machine) : Prop where
  live_nodup : m.live.Nodup
  outstanding_nodup : m.outstanding.Nodup
  live_used : ∀ b ∈ m.live, b ∈ m.used
  outstanding_live : ∀ b ∈ m.outstanding, b ∈ m.live
  parent_live : ∀ c ∈ m.live, ∀ p, m.parent c = some p → p ∈ m.live
  calls_live : ∀ pc ∈ m.calls, pc.bio ∈ m.live
  calls_parent : ∀ pc ∈ m.calls, ∀ p, pc.parent = some p → m.parent pc.bio = some p
  calls_chained : ∀ b, Pc.dec b ∈ m.calls → (m.bio b).chained = true
  counted : ∀ b ∈ m.live, (m.bio b).chained = true → (m.bio b).remaining = m.tokens b
  phase : ∀ b ∈ m.live, m.Phase b
  no_bug : m.bug = false

section Counting

variable {m : Machine} {b c : Nat} {pc : Pc}

/-- The device has a token of every bio it has been given. -/
theorem tokens_pos_of_outstanding (h : b ∈ m.outstanding) : 1 ≤ m.tokens b := by
  have := List.count_pos_iff.mpr h
  unfold tokens
  omega

/-- So has a call that has not counted its bio down yet. -/
theorem tokens_pos_of_call (h : pc ∈ m.calls) (hb : pc.holds b = true) : 1 ≤ m.tokens b := by
  have : 0 < m.calls.countP (Pc.holds b) := List.countP_pos_iff.mpr ⟨pc, h, hb⟩
  unfold tokens
  omega

/-- And so has every piece of it that is still there. -/
theorem tokens_pos_of_child (h : c ∈ m.live) (hc : m.parent c = some b) : 1 ≤ m.tokens b := by
  have : 0 < m.live.countP (m.parent · = some b) := List.countP_pos_iff.mpr ⟨c, h, by simpa using hc⟩
  unfold tokens
  omega

/-- A bio that is held up is not being finished. -/
theorem Inv.not_finishing (h : m.Inv) (hb : b ∈ m.live) (ht : 1 ≤ m.tokens b) : m.finishing b = 0 := by
  rcases h.phase b hb with ⟨hf, -, -⟩ | ⟨-, h0⟩
  · exact hf
  · omega

/-- A bio is finished by one call only, and when nobody holds a token of it any more. -/
theorem Inv.finishing_call (h : m.Inv) (hpc : pc ∈ m.calls) (hb : pc.finishes b = true) :
    b ∈ m.live ∧ m.finishing b = 1 ∧ m.tokens b = 0 := by
  have hpos : 0 < m.finishing b := List.countP_pos_iff.mpr ⟨pc, hpc, hb⟩
  have hlive : b ∈ m.live := Pc.bio_of_finishes hb ▸ h.calls_live pc hpc
  rcases h.phase b hlive with ⟨hf, -, -⟩ | hf
  · omega
  · exact ⟨hlive, hf⟩

/-- Nothing but its own call refers to a bio that is being finished. -/
theorem Inv.not_parent_of_finishing (h : m.Inv) (hpc : pc ∈ m.calls) (hb : pc.finishes b = true)
    (hc : c ∈ m.live) : m.parent c ≠ some b := by
  intro hp
  have := tokens_pos_of_child hc hp
  have := (h.finishing_call hpc hb).2.2
  omega

end Counting

/-! ## The steps of a call keep the invariant -/

section Calls

variable {m : Machine} {b : Nat} {l₁ l₂ : List Pc} {pc pc' : Pc} {r : Machine × Option Pc}

theorem countP_replace (q : Pc → Bool) (l₁ l₂ : List Pc) (pc : Pc) (next : Option Pc) :
    (l₁ ++ next.toList ++ l₂).countP q + (if q pc then 1 else 0) =
      (l₁ ++ pc :: l₂).countP q + next.toList.countP q := by
  simp only [List.countP_append, List.countP_cons]
  omega

/-- The state after a step of the call between `l₁` and `l₂`. -/
def stepped (r : Machine × Option Pc) (l₁ l₂ : List Pc) : Machine :=
  { r.1 with calls := l₁ ++ r.2.toList ++ l₂ }

/-- The calls that finish a bio, after a step of one call. -/
theorem finishing_stepped (hcalls : m.calls = l₁ ++ pc :: l₂) (r : Machine × Option Pc) (x : Nat) :
    (stepped r l₁ l₂).finishing x + (if pc.finishes x then 1 else 0) =
      m.finishing x + r.2.toList.countP (Pc.finishes x) := by
  unfold finishing
  rw [hcalls]
  exact countP_replace _ l₁ l₂ pc r.2

/-- The tokens of a bio, after a step of one call that neither takes nor frees a bio. -/
theorem tokens_stepped (hcalls : m.calls = l₁ ++ pc :: l₂) (hout : r.1.outstanding = m.outstanding)
    (hlive : r.1.live = m.live) (hparent : r.1.parent = m.parent) (x : Nat) :
    (stepped r l₁ l₂).tokens x + (if pc.holds x then 1 else 0) =
      m.tokens x + r.2.toList.countP (Pc.holds x) := by
  have hcount := countP_replace (Pc.holds x) l₁ l₂ pc r.2
  unfold tokens
  show r.1.outstanding.count x + (l₁ ++ r.2.toList ++ l₂).countP _ + r.1.live.countP (r.1.parent · = some x) +
    _ = _
  rw [hout, hlive, hparent, hcalls]
  omega

/-- A call other than the one that takes the step was running before. -/
theorem mem_calls_stepped (hcalls : m.calls = l₁ ++ pc :: l₂) (h : pc' ∈ (stepped r l₁ l₂).calls) :
    pc' ∈ m.calls ∨ r.2 = some pc' := by
  rw [hcalls]
  simp only [stepped, List.mem_append, Option.mem_toList, List.mem_cons] at h ⊢
  tauto

theorem eq_false_of_bio_ne {q : Nat → Pc → Bool} (hq : ∀ {pc : Pc} {x}, q x pc = true → pc.bio = x)
    {x : Nat} (hx : pc.bio ≠ x) : q x pc = false := by
  by_contra hc
  exact hx (hq (by simpa using hc))

/-- **A call moves on.** No list of bios and no `bi_end_io` changes, and only the bio that the call works on
    can be counted differently: what is left to show is that its counts are right. -/
theorem Inv.move (h : m.Inv) (hcalls : m.calls = l₁ ++ pc :: l₂) (hpc : pc.bio = b)
    (hlive : r.1.live = m.live) (hout : r.1.outstanding = m.outstanding) (hused : r.1.used = m.used)
    (hbug : r.1.bug = false) (hparent : r.1.parent = m.parent)
    (hother : ∀ x, x ≠ b → (r.1.bio x).chained = (m.bio x).chained ∧
      (r.1.bio x).remaining = (m.bio x).remaining)
    (hnext : ∀ pc', r.2 = some pc' → pc'.bio = b ∧ ∀ p, pc'.parent = some p → m.parent b = some p)
    (hchained : Pc.dec b ∈ (stepped r l₁ l₂).calls → (r.1.bio b).chained = true)
    (hcounted : (r.1.bio b).chained = true → (r.1.bio b).remaining = (stepped r l₁ l₂).tokens b)
    (hphase : (stepped r l₁ l₂).Phase b) : (stepped r l₁ l₂).Inv := by
  have hb : b ∈ m.live := hpc ▸ h.calls_live pc (by rw [hcalls]; simp)
  have hnone : ∀ {q : Nat → Pc → Bool}, (∀ {pc : Pc} {x}, q x pc = true → pc.bio = x) → ∀ x, x ≠ b →
      q x pc = false ∧ r.2.toList.countP (q x) = 0 := by
    intro q hq x hx
    refine ⟨eq_false_of_bio_ne hq fun he => hx (he.symm.trans hpc), ?_⟩
    cases hr : r.2 with
    | none => rfl
    | some pc' =>
        have hpc' := (hnext pc' hr).1
        simp [eq_false_of_bio_ne hq fun he => hx (he.symm.trans hpc')]
  have htokens : ∀ x, x ≠ b → (stepped r l₁ l₂).tokens x = m.tokens x := by
    intro x hx
    obtain ⟨h₁, h₂⟩ := hnone Pc.bio_of_holds x hx
    have ht := tokens_stepped hcalls hout hlive hparent x
    rw [h₁, h₂] at ht
    simpa using ht
  have hfinishing : ∀ x, x ≠ b → (stepped r l₁ l₂).finishing x = m.finishing x := by
    intro x hx
    obtain ⟨h₁, h₂⟩ := hnone Pc.bio_of_finishes x hx
    have hf := finishing_stepped hcalls r x
    rw [h₁, h₂] at hf
    simpa using hf
  refine ⟨hlive ▸ h.live_nodup, hout ▸ h.outstanding_nodup, ?_, ?_, ?_, ?_, ?_, ?_, ?_, ?_, hbug⟩
  · show ∀ b ∈ r.1.live, b ∈ r.1.used
    rw [hlive, hused]
    exact h.live_used
  · show ∀ b ∈ r.1.outstanding, b ∈ r.1.live
    rw [hlive, hout]
    exact h.outstanding_live
  · show ∀ c ∈ r.1.live, ∀ p, r.1.parent c = some p → p ∈ r.1.live
    rw [hlive, hparent]
    exact h.parent_live
  · intro pc' hpc'
    show pc'.bio ∈ r.1.live
    rw [hlive]
    rcases mem_calls_stepped hcalls hpc' with hold | hnew
    · exact h.calls_live pc' hold
    · exact (hnext pc' hnew).1 ▸ hb
  · intro pc' hpc' p hp
    show r.1.parent pc'.bio = some p
    rw [hparent]
    rcases mem_calls_stepped hcalls hpc' with hold | hnew
    · exact h.calls_parent pc' hold p hp
    · obtain ⟨he, hnew⟩ := hnext pc' hnew
      exact he ▸ hnew p hp
  · intro x hx
    by_cases hxb : x = b
    · exact hxb ▸ hchained (hxb ▸ hx)
    · show (r.1.bio x).chained = true
      rw [(hother x hxb).1]
      rcases mem_calls_stepped hcalls hx with hold | hnew
      · exact h.calls_chained x hold
      · exact absurd (hnext _ hnew).1 hxb
  · intro x hx
    show (r.1.bio x).chained = true → (r.1.bio x).remaining = _
    by_cases hxb : x = b
    · exact hxb ▸ hcounted
    · rw [(hother x hxb).1, (hother x hxb).2, htokens x hxb]
      exact h.counted x (hlive ▸ hx)
  · intro x hx
    by_cases hxb : x = b
    · exact hxb ▸ hphase
    · unfold Phase
      rw [htokens x hxb, hfinishing x hxb]
      show _ ∧ _ ∧ ((r.1.bio x).chained = false → _ ∧ (r.1.bio x).remaining = 1) ∨ _
      rw [(hother x hxb).1, (hother x hxb).2]
      exact h.phase x (hlive ▸ hx)

/-- When a bio leaves, the bio that it is chained to is held up by the call in its place. -/
theorem tokens_leave (hcalls : m.calls = l₁ ++ pc :: l₂) (hpc : pc.finishes b = true) (hb : b ∈ m.live)
    (hlive : r.1.live = m.live.erase b) (hout : r.1.outstanding = m.outstanding)
    (hparent : r.1.parent = m.parent) (hnext : r.2 = (m.parent b).map .again) (x : Nat) :
    (stepped r l₁ l₂).tokens x = m.tokens x := by
  have hcount := countP_replace (Pc.holds x) l₁ l₂ pc r.2
  have hnot : pc.holds x = false := Pc.not_holds_of_finishes hpc
  have hcall : r.2.toList.countP (Pc.holds x) = if m.parent b = some x then 1 else 0 := by
    rw [hnext]
    cases m.parent b <;> simp [Pc.holds, List.countP_cons]
  have hpos : m.parent b = some x → 0 < m.live.countP (m.parent · = some x) := fun hp =>
    List.countP_pos_iff.mpr ⟨b, hb, by simpa using hp⟩
  unfold tokens
  show r.1.outstanding.count x + (l₁ ++ r.2.toList ++ l₂).countP _ + r.1.live.countP (r.1.parent · = some x) = _
  rw [hout, hlive, hparent, hcalls, List.countP_erase]
  rw [hnot, hcall] at hcount
  simp only [Bool.false_eq_true, if_false, hb, true_and, decide_eq_true_eq] at hcount ⊢
  split_ifs at hcount ⊢ with hp
  · have := hpos hp
    omega
  · omega

/-- When a bio is gone its call climbs to the parent, and finishes nothing for now. -/
theorem finishing_leave (hcalls : m.calls = l₁ ++ pc :: l₂) (hnext : r.2 = (m.parent b).map .again) (x : Nat) :
    (stepped r l₁ l₂).finishing x + (if pc.finishes x then 1 else 0) = m.finishing x := by
  rw [finishing_stepped hcalls r x, hnext]
  cases m.parent b <;> simp [Pc.finishes]

/-- **A bio leaves.** The call that finishes `b` gives it up, and goes on to the bio that `b` is chained to,
    if there is one. -/
theorem Inv.leave (h : m.Inv) (hcalls : m.calls = l₁ ++ pc :: l₂) (hpc : pc.finishes b = true)
    (hlive : r.1.live = m.live.erase b) (hout : r.1.outstanding = m.outstanding)
    (hused : r.1.used = m.used) (hbug : r.1.bug = false) (hbio : r.1.bio = m.bio)
    (hnext : r.2 = (m.parent b).map .again) : (stepped r l₁ l₂).Inv := by
  have hpcmem : pc ∈ m.calls := by rw [hcalls]; simp
  obtain ⟨hb, hfin, htok⟩ := h.finishing_call hpcmem hpc
  have hparent : r.1.parent = m.parent := by
    funext c
    simp only [parent, hbio]
  have htokens := tokens_leave hcalls hpc hb hlive hout hparent hnext
  have hfinishing := finishing_leave hcalls hnext
  have hmem : ∀ x, x ∈ (stepped r l₁ l₂).live ↔ x ≠ b ∧ x ∈ m.live := by
    intro x
    show x ∈ r.1.live ↔ _
    rw [hlive]
    exact h.live_nodup.mem_erase_iff
  have hnew : ∀ pc', r.2 = some pc' → ∃ p, m.parent b = some p ∧ pc' = .again p := by
    intro pc' he
    rw [hnext, Option.map_eq_some_iff] at he
    obtain ⟨p, hp, rfl⟩ := he
    exact ⟨p, hp, rfl⟩
  refine ⟨hlive ▸ h.live_nodup.erase b, hout ▸ h.outstanding_nodup, ?_, ?_, ?_, ?_, ?_, ?_, ?_, ?_, hbug⟩
  · intro x hx
    show x ∈ r.1.used
    rw [hused]
    exact h.live_used x ((hmem x).mp hx).2
  · show ∀ x ∈ r.1.outstanding, x ∈ (stepped r l₁ l₂).live
    rw [hout]
    intro x hx
    refine (hmem x).mpr ⟨?_, h.outstanding_live x hx⟩
    rintro rfl
    have := tokens_pos_of_outstanding hx
    omega
  · intro c hc p hp
    obtain ⟨-, hc⟩ := (hmem c).mp hc
    have hp : m.parent c = some p := hparent ▸ hp
    refine (hmem p).mpr ⟨?_, h.parent_live c hc p hp⟩
    rintro rfl
    exact h.not_parent_of_finishing hpcmem hpc hc hp
  · intro pc' hpc'
    refine (hmem _).mpr ⟨?_, ?_⟩
    · -- another call at `b` would hold it up or finish it as well
      rintro rfl
      rcases pc'.holds_or_finishes with hh | hf
      · have := tokens_pos_of_call hpc' hh
        have := htokens pc'.bio
        omega
      · have : 0 < (stepped r l₁ l₂).finishing pc'.bio := List.countP_pos_iff.mpr ⟨pc', hpc', hf⟩
        have := hfinishing pc'.bio
        rw [if_pos hpc] at this
        omega
    · rcases mem_calls_stepped hcalls hpc' with hold | he
      · exact h.calls_live pc' hold
      · obtain ⟨p, hp, rfl⟩ := hnew pc' he
        exact h.parent_live b hb p hp
  · intro pc' hpc' p hp
    show r.1.parent pc'.bio = some p
    rw [hparent]
    rcases mem_calls_stepped hcalls hpc' with hold | he
    · exact h.calls_parent pc' hold p hp
    · obtain ⟨q, -, rfl⟩ := hnew pc' he
      cases hp
  · intro x hx
    show (r.1.bio x).chained = true
    rw [hbio]
    rcases mem_calls_stepped hcalls hx with hold | he
    · exact h.calls_chained x hold
    · obtain ⟨q, -, he⟩ := hnew _ he
      cases he
  · intro x hx
    show (r.1.bio x).chained = true → (r.1.bio x).remaining = _
    rw [hbio, htokens x]
    exact h.counted x ((hmem x).mp hx).2
  · intro x hx
    obtain ⟨hne, hx⟩ := (hmem x).mp hx
    have hfin' := hfinishing x
    rw [Pc.not_finishes_of_ne hpc hne] at hfin'
    unfold Phase
    rw [htokens x, show (stepped r l₁ l₂).finishing x = m.finishing x by simpa using hfin',
      show (stepped r l₁ l₂).bio = m.bio from hbio]
    exact h.phase x hx

theorem parent_set {f : BioState → BioState} (hf : ∀ s, (f s).endIo = s.endIo) :
    (m.set b f).parent = m.parent := by
  funext c
  exact congrArg EndIo.parent (set_bio_eq m b c f BioState.endIo hf)

/-! ### What each step is -/

theorem bioEndio_again (m : Machine) (b : Nat) :
    m.bioEndio (.again b) = (m, some (if (m.bio b).chained then .dec b else .finish b)) := by
  simp only [bioEndio]
  split_ifs <;> rfl

theorem bioEndio_dec (m : Machine) (b : Nat) :
    m.bioEndio (.dec b) =
      if (m.bio b).remaining ≤ 0 then ({ m with bug := true }, none)
      else (m.set b fun s => { s with remaining := s.remaining - 1 },
        if (m.bio b).remaining - 1 = 0 then some (.clear b) else none) := by
  simp only [bioEndio, set_bio, if_true]
  split_ifs <;> rfl

/-- A finished bio is put aside, or the status is passed on to the bio it is chained to. -/
theorem bioEndio_chain {p : Nat} (he : (m.bio b).endIo = .chain p) :
    m.bioEndio (.finish b) =
      (m, some (if (m.bio b).status ≠ 0 ∧ (m.bio p).status = 0 then .store b p else .put b p)) := by
  simp only [bioEndio, he]
  split_ifs <;> rfl

theorem bioEndio_owner (he : (m.bio b).endIo = .owner) :
    m.bioEndio (.finish b) =
      ({ m with live := m.live.erase b, ended := m.ended ++ [(b, (m.bio b).status)] }, none) := by
  simp only [bioEndio, he]

theorem bioEndio_none (he : (m.bio b).endIo = .none) :
    m.bioEndio (.finish b) = ({ m with live := m.live.erase b }, none) := by
  simp only [bioEndio, he]

/-! ### Each step keeps the invariant -/

/-- **Step.** The call looks at `BIO_CHAIN`. -/
theorem Inv.again (h : m.Inv) (hcalls : m.calls = l₁ ++ .again b :: l₂) :
    (stepped (m.bioEndio (.again b)) l₁ l₂).Inv := by
  have hmem : Pc.again b ∈ m.calls := by rw [hcalls]; simp
  have hb : b ∈ m.live := h.calls_live _ hmem
  have htok : 1 ≤ m.tokens b := tokens_pos_of_call hmem (by simp [Pc.holds])
  have hfin := h.not_finishing hb htok
  by_cases hch : (m.bio b).chained = true
  · have hr : m.bioEndio (.again b) = (m, some (.dec b)) := by rw [bioEndio_again, if_pos hch]
    have ht : (stepped (m, some (.dec b)) l₁ l₂).tokens b = m.tokens b := by
      have := tokens_stepped (r := (m, some (.dec b))) hcalls rfl rfl rfl b
      simpa [Pc.holds, List.countP_cons] using this
    have hf : (stepped (m, some (.dec b)) l₁ l₂).finishing b = m.finishing b := by
      simpa [Pc.finishes] using finishing_stepped hcalls (m, some (.dec b)) b
    rw [hr]
    refine h.move (b := b) hcalls rfl rfl rfl rfl h.no_bug rfl (fun _ _ => ⟨rfl, rfl⟩) ?_ (fun _ => hch) ?_ ?_
    · rintro pc' ⟨⟩
      exact ⟨rfl, nofun⟩
    · rw [ht]
      exact h.counted b hb
    · unfold Phase
      rw [ht, hf]
      exact h.phase b hb
  · have hr : m.bioEndio (.again b) = (m, some (.finish b)) := by rw [bioEndio_again, if_neg hch]
    have hone : m.tokens b = 1 := by
      rcases h.phase b hb with ⟨-, -, hone⟩ | ⟨-, h0⟩
      · exact (hone (by simpa using hch)).1
      · omega
    have ht : (stepped (m, some (.finish b)) l₁ l₂).tokens b + 1 = m.tokens b := by
      have := tokens_stepped (r := (m, some (.finish b))) hcalls rfl rfl rfl b
      simpa [Pc.holds, List.countP_cons] using this
    have hf : (stepped (m, some (.finish b)) l₁ l₂).finishing b = m.finishing b + 1 := by
      simpa [Pc.finishes, List.countP_cons] using finishing_stepped hcalls (m, some (.finish b)) b
    rw [hr]
    refine h.move (b := b) hcalls rfl rfl rfl rfl h.no_bug rfl (fun _ _ => ⟨rfl, rfl⟩) ?_ ?_ (fun hc => absurd hc hch)
      (Or.inr ⟨by omega, by omega⟩)
    · rintro pc' ⟨⟩
      exact ⟨rfl, nofun⟩
    · intro hdec
      rcases mem_calls_stepped hcalls hdec with hold | he
      · exact h.calls_chained b hold
      · cases he

/-- **Step.** The call counts its bio down. The invariant gives the token that it counts, so that the count is
    positive, and the one that finds 0 is the last. -/
theorem Inv.dec (h : m.Inv) (hcalls : m.calls = l₁ ++ .dec b :: l₂) :
    (stepped (m.bioEndio (.dec b)) l₁ l₂).Inv := by
  have hmem : Pc.dec b ∈ m.calls := by rw [hcalls]; simp
  have hb : b ∈ m.live := h.calls_live _ hmem
  have htok : 1 ≤ m.tokens b := tokens_pos_of_call hmem (by simp [Pc.holds])
  have hfin := h.not_finishing hb htok
  have hch := h.calls_chained b hmem
  have hcount := h.counted b hb hch
  let m₁ := m.set b fun s => { s with remaining := s.remaining - 1 }
  have hself : m₁.bio b = { m.bio b with remaining := (m.bio b).remaining - 1 } := Function.update_self ..
  have hother : ∀ x, x ≠ b → (m₁.bio x).chained = (m.bio x).chained ∧
      (m₁.bio x).remaining = (m.bio x).remaining := by
    intro x hx
    rw [show m₁.bio x = m.bio x from Function.update_of_ne hx ..]
    exact ⟨rfl, rfl⟩
  have hparent : m₁.parent = m.parent := parent_set fun _ => rfl
  have hchained : (m₁.bio b).chained = true := by rw [hself]; exact hch
  -- the counter is positive because this call itself is counted
  have hr : m.bioEndio (.dec b) =
      (m₁, if (m.bio b).remaining - 1 = 0 then some (.clear b) else none) := by
    rw [bioEndio_dec, if_neg (by omega)]
  have ht : ∀ next : Option Pc, next.toList.countP (Pc.holds b) = 0 →
      (stepped (m₁, next) l₁ l₂).tokens b + 1 = m.tokens b := by
    intro next hn
    have := tokens_stepped (r := (m₁, next)) hcalls rfl rfl hparent b
    simpa [Pc.holds, hn] using this
  rw [hr]
  by_cases hzero : (m.bio b).remaining - 1 = 0
  · rw [if_pos hzero]
    have htb := ht (some (.clear b)) rfl
    have hf : (stepped (m₁, some (.clear b)) l₁ l₂).finishing b = m.finishing b + 1 := by
      simpa [Pc.finishes, List.countP_cons] using finishing_stepped hcalls (m₁, some (.clear b)) b
    refine h.move (b := b) hcalls rfl rfl rfl rfl h.no_bug hparent hother ?_ (fun _ => hchained) (fun _ => ?_)
      (Or.inr ⟨by omega, by omega⟩)
    · rintro pc' ⟨⟩
      exact ⟨rfl, nofun⟩
    · rw [hself]
      dsimp only
      omega
  · rw [if_neg hzero]
    have htb := ht none rfl
    have hf : (stepped (m₁, none) l₁ l₂).finishing b = m.finishing b := by
      simpa [Pc.finishes] using finishing_stepped hcalls (m₁, none) b
    refine h.move (b := b) hcalls rfl rfl rfl rfl h.no_bug hparent hother nofun (fun _ => hchained) (fun _ => ?_)
      (Or.inl ⟨by omega, by omega, fun hc => ?_⟩)
    · rw [hself]
      dsimp only
      omega
    · exact absurd hchained (by rw [show (m₁.bio b).chained = false from hc]; decide)

/-- **Step.** The call that found the count at 0 clears `BIO_CHAIN`; no other one is left to look at it. -/
theorem Inv.clear (h : m.Inv) (hcalls : m.calls = l₁ ++ .clear b :: l₂) :
    (stepped (m.bioEndio (.clear b)) l₁ l₂).Inv := by
  have hmem : Pc.clear b ∈ m.calls := by rw [hcalls]; simp
  obtain ⟨hb, hfin, htok⟩ := h.finishing_call (b := b) hmem (by simp [Pc.finishes])
  let m₁ := m.set b fun s => { s with chained := false }
  have hself : m₁.bio b = { m.bio b with chained := false } := Function.update_self ..
  have hother : ∀ x, x ≠ b → (m₁.bio x).chained = (m.bio x).chained ∧
      (m₁.bio x).remaining = (m.bio x).remaining := by
    intro x hx
    rw [show m₁.bio x = m.bio x from Function.update_of_ne hx ..]
    exact ⟨rfl, rfl⟩
  have hparent : m₁.parent = m.parent := parent_set fun _ => rfl
  have ht : (stepped (m₁, some (.finish b)) l₁ l₂).tokens b = m.tokens b := by
    have := tokens_stepped (r := (m₁, some (.finish b))) hcalls rfl rfl hparent b
    simpa [Pc.holds, List.countP_cons] using this
  have hf : (stepped (m₁, some (.finish b)) l₁ l₂).finishing b = m.finishing b := by
    simpa [Pc.finishes, List.countP_cons] using finishing_stepped hcalls (m₁, some (.finish b)) b
  refine h.move (b := b) (r := (m₁, some (.finish b))) hcalls rfl rfl rfl rfl h.no_bug hparent hother ?_ ?_ ?_
    (Or.inr ⟨by omega, by omega⟩)
  · rintro pc' ⟨⟩
    exact ⟨rfl, nofun⟩
  · -- no call is about to decrement the counter of a bio that is done
    intro hdec
    have := tokens_pos_of_call hdec (b := b) (by simp [Pc.holds])
    omega
  · rw [hself]
    nofun

/-- A call that is finishing a bio moves on without a change of the counts. -/
theorem Inv.finishing_move (h : m.Inv) (hcalls : m.calls = l₁ ++ pc :: l₂) (hpc : pc.finishes b = true)
    {m₁ : Machine} (hpc' : pc'.finishes b = true) (hparent' : ∀ p, pc'.parent = some p → m.parent b = some p)
    (hlive : m₁.live = m.live) (hout : m₁.outstanding = m.outstanding) (hused : m₁.used = m.used)
    (hbug : m₁.bug = false) (hparent : m₁.parent = m.parent)
    (hbio : ∀ x, (m₁.bio x).chained = (m.bio x).chained ∧ (m₁.bio x).remaining = (m.bio x).remaining) :
    (stepped (m₁, some pc') l₁ l₂).Inv := by
  have hmem : pc ∈ m.calls := by rw [hcalls]; simp
  obtain ⟨hb, hfin, htok⟩ := h.finishing_call hmem hpc
  have ht : (stepped (m₁, some pc') l₁ l₂).tokens b = m.tokens b := by
    have := tokens_stepped (r := (m₁, some pc')) hcalls hout hlive hparent b
    simpa [Pc.not_holds_of_finishes hpc, Pc.not_holds_of_finishes hpc', List.countP_cons] using this
  have hf : (stepped (m₁, some pc') l₁ l₂).finishing b = m.finishing b := by
    simpa [hpc, hpc', List.countP_cons] using finishing_stepped hcalls (m₁, some pc') b
  refine h.move hcalls (Pc.bio_of_finishes hpc) hlive hout hused hbug hparent (fun x _ => hbio x) ?_ ?_ ?_
    (Or.inr ⟨by omega, by omega⟩)
  · rintro pc'' ⟨⟩
    exact ⟨Pc.bio_of_finishes hpc', hparent'⟩
  · intro hdec
    have := tokens_pos_of_call hdec (b := b) (by simp [Pc.holds])
    omega
  · rw [ht]
    show (m₁.bio b).chained = true → (m₁.bio b).remaining = _
    rw [(hbio b).1, (hbio b).2]
    exact h.counted b hb

/-- **Step.** The owner is told, or the call turns to the parent. -/
theorem Inv.finish (h : m.Inv) (hcalls : m.calls = l₁ ++ .finish b :: l₂) :
    (stepped (m.bioEndio (.finish b)) l₁ l₂).Inv := by
  have hpc : (Pc.finish b).finishes b = true := by simp [Pc.finishes]
  cases he : (m.bio b).endIo with
  | chain p =>
      have hp : m.parent b = some p := by rw [parent, he]; rfl
      rw [bioEndio_chain he]
      refine h.finishing_move hcalls hpc ?_ ?_ rfl rfl rfl h.no_bug rfl fun _ => ⟨rfl, rfl⟩
      · split_ifs <;> simp [Pc.finishes]
      · intro q hq
        have : q = p := by split_ifs at hq <;> simpa [Pc.parent, eq_comm] using hq
        exact this ▸ hp
  | owner =>
      rw [bioEndio_owner he]
      exact h.leave hcalls hpc rfl rfl rfl h.no_bug rfl (by rw [parent, he]; rfl)
  | none =>
      rw [bioEndio_none he]
      exact h.leave hcalls hpc rfl rfl rfl h.no_bug rfl (by rw [parent, he]; rfl)

/-- **Step.** The error is stored in the parent; no count changes. -/
theorem Inv.store {p : Nat} (h : m.Inv) (hcalls : m.calls = l₁ ++ .store b p :: l₂) :
    (stepped (m.bioEndio (.store b p)) l₁ l₂).Inv := by
  have hmem : Pc.store b p ∈ m.calls := by rw [hcalls]; simp
  have hput : (Pc.put b p).finishes b = true := by simp [Pc.finishes]
  refine h.finishing_move hcalls (b := b) (by simp [Pc.finishes]) hput ?_
    rfl rfl rfl h.no_bug (parent_set fun _ => rfl) fun x => ⟨?_, ?_⟩
  · rintro q ⟨⟩
    exact h.calls_parent _ hmem p rfl
  · exact set_bio_eq m p x _ BioState.chained fun _ => rfl
  · exact set_bio_eq m p x _ BioState.remaining fun _ => rfl

/-- **Step.** The bio is gone, and its token of the parent passes to the call. -/
theorem Inv.put {p : Nat} (h : m.Inv) (hcalls : m.calls = l₁ ++ .put b p :: l₂) :
    (stepped (m.bioEndio (.put b p)) l₁ l₂).Inv := by
  have hmem : Pc.put b p ∈ m.calls := by rw [hcalls]; simp
  have hp : m.parent b = some p := h.calls_parent _ hmem p rfl
  exact h.leave hcalls (by simp [Pc.finishes]) rfl rfl rfl h.no_bug rfl (by rw [hp]; rfl)

/-- **Every step of a call keeps the invariant.** -/
theorem Inv.endio (h : m.Inv) (hcalls : m.calls = l₁ ++ pc :: l₂) :
    (stepped (m.bioEndio pc) l₁ l₂).Inv := by
  cases pc with
  | again b => exact h.again hcalls
  | dec b => exact h.dec hcalls
  | clear b => exact h.clear hcalls
  | finish b => exact h.finish hcalls
  | store b p => exact h.store hcalls
  | put b p => exact h.put hcalls

end Calls

/-! ## The other actions keep the invariant -/

section Actions

variable {m m' : Machine} {b c p : Nat}

/-- The invariant does not depend on the data, on the statuses and on what happened before. -/
theorem Inv.congr (h : m.Inv) (hlive : m'.live = m.live) (hout : m'.outstanding = m.outstanding)
    (hcalls : m'.calls = m.calls) (hused : m'.used = m.used) (hbug : m'.bug = m.bug)
    (hparent : m'.parent = m.parent)
    (hbio : ∀ x, (m'.bio x).chained = (m.bio x).chained ∧ (m'.bio x).remaining = (m.bio x).remaining) :
    m'.Inv := by
  have htokens : ∀ x, m'.tokens x = m.tokens x := by
    intro x
    unfold tokens
    rw [hout, hcalls, hlive, hparent]
  refine ⟨hlive ▸ h.live_nodup, hout ▸ h.outstanding_nodup, ?_, ?_, ?_, ?_, ?_, ?_, ?_, ?_, hbug ▸ h.no_bug⟩
  · rw [hlive, hused]
    exact h.live_used
  · rw [hlive, hout]
    exact h.outstanding_live
  · rw [hlive, hparent]
    exact h.parent_live
  · rw [hlive, hcalls]
    exact h.calls_live
  · rw [hcalls, hparent]
    exact h.calls_parent
  · intro x hx
    rw [(hbio x).1]
    exact h.calls_chained x (hcalls ▸ hx)
  · intro x hx
    rw [(hbio x).1, (hbio x).2, htokens x]
    exact h.counted x (hlive ▸ hx)
  · intro x hx
    unfold Phase finishing
    rw [htokens x, hcalls, (hbio x).1, (hbio x).2]
    exact h.phase x (hlive ▸ hx)

theorem parent_alloc (m : Machine) (b : Nat) (data : Bio) {e : EndIo} (source : Nat)
    (he : e.parent = none) (x : Nat) :
    (m.alloc b data e source).parent x = if x = b then none else m.parent x := by
  unfold parent alloc
  by_cases hx : x = b
  · rw [if_pos hx, hx]
    simp only [Function.update_self]
    exact he
  · rw [if_neg hx]
    simp only [Function.update_of_ne hx]

/-- **Step.** A new bio is with the device, which has its token. -/
theorem Inv.alloc (h : m.Inv) (hfresh : b ∉ m.used) (data : Bio) {e : EndIo} (source : Nat)
    (he : e.parent = none) : (m.alloc b data e source).Inv := by
  have hlive : b ∉ m.live := fun hb => hfresh (h.live_used b hb)
  have hout : b ∉ m.outstanding := fun hb => hlive (h.outstanding_live b hb)
  have hparent := parent_alloc m b data source he
  have hbio : ∀ x, x ≠ b → (m.alloc b data e source).bio x = m.bio x := fun x hx => Function.update_of_ne hx ..
  have hself : (m.alloc b data e source).bio b = ⟨data, 1, false, 0, e⟩ := Function.update_self ..
  have hchildren : ∀ x, m.live.countP ((m.alloc b data e source).parent · = some x) =
      m.live.countP (m.parent · = some x) := by
    intro x
    refine List.countP_congr fun c hc => ?_
    rw [hparent, if_neg fun hcb : c = b => hlive (hcb ▸ hc)]
  have htokens : ∀ x, (m.alloc b data e source).tokens x = m.tokens x + if x = b then 1 else 0 := by
    intro x
    unfold tokens
    show (b :: m.outstanding).count x + _ + (b :: m.live).countP _ = _
    rw [List.count_cons, List.countP_cons, hchildren, hparent, if_pos rfl]
    simp only [beq_iff_eq, eq_comm (a := b), reduceCtorEq, decide_false, Bool.false_eq_true, if_false]
    show _ + m.calls.countP _ + _ = _
    omega
  have hnew : m.tokens b = 0 ∧ m.finishing b = 0 := by
    constructor
    · unfold tokens
      rw [List.count_eq_zero_of_not_mem hout, List.countP_eq_zero.mpr ?_, List.countP_eq_zero.mpr ?_]
      · intro c hc hp
        exact hlive (h.parent_live c hc b (by simpa using hp))
      · intro pc hpc hh
        exact hlive (Pc.bio_of_holds hh ▸ h.calls_live pc hpc)
    · refine List.countP_eq_zero.mpr fun pc hpc hf => ?_
      exact hlive (Pc.bio_of_finishes hf ▸ h.calls_live pc hpc)
  refine ⟨List.nodup_cons.mpr ⟨hlive, h.live_nodup⟩, List.nodup_cons.mpr ⟨hout, h.outstanding_nodup⟩,
    ?_, ?_, ?_, ?_, ?_, ?_, ?_, ?_, h.no_bug⟩
  · intro x hx
    rcases List.mem_cons.mp hx with rfl | hx
    · exact List.mem_cons_self
    · exact List.mem_cons_of_mem _ (h.live_used x hx)
  · intro x hx
    rcases List.mem_cons.mp hx with rfl | hx
    · exact List.mem_cons_self
    · exact List.mem_cons_of_mem _ (h.outstanding_live x hx)
  · intro c hc p hp
    rw [hparent] at hp
    split_ifs at hp with hcb
    · refine List.mem_cons_of_mem _ (h.parent_live c ?_ p hp)
      exact (List.mem_cons.mp hc).resolve_left hcb
  · intro pc hpc
    exact List.mem_cons_of_mem _ (h.calls_live pc hpc)
  · intro pc hpc p hp
    rw [hparent, if_neg fun hcb : pc.bio = b => hlive (hcb ▸ h.calls_live pc hpc)]
    exact h.calls_parent pc hpc p hp
  · intro x hx
    rw [hbio x fun hxb => hlive (hxb ▸ h.calls_live _ hx)]
    exact h.calls_chained x hx
  · intro x hx hch
    by_cases hxb : x = b
    · rw [hxb, hself] at hch
      cases hch
    · rw [hbio x hxb] at hch ⊢
      rw [htokens x, if_neg hxb]
      exact h.counted x ((List.mem_cons.mp hx).resolve_left hxb) hch
  · intro x hx
    unfold Phase
    rw [htokens x]
    by_cases hxb : x = b
    · rw [hxb, hself, if_pos rfl, hnew.1]
      exact Or.inl ⟨hnew.2, by omega, fun _ => ⟨by omega, rfl⟩⟩
    · rw [hbio x hxb, if_neg hxb]
      exact h.phase x ((List.mem_cons.mp hx).resolve_left hxb)

theorem bio_bioChain (m : Machine) (hne : c ≠ p) (x : Nat) :
    (m.bioChain c p).bio x =
      if x = c then { m.bio c with endIo := .chain p }
      else if x = p then { m.bio p with chained := true, remaining := (m.bio p).remaining + 1 }
      else m.bio x := by
  unfold bioChain bioIncRemaining
  rw [set_bio, set_bio, set_bio]
  by_cases hxc : x = c
  · rw [if_neg (hxc ▸ hne), if_pos hxc, if_pos hxc]
  · by_cases hxp : x = p
    · rw [if_pos hxp, if_neg hxc, if_pos hxp, if_neg fun h => hne h.symm]
    · rw [if_neg hxp, if_neg hxc, if_neg hxc, if_neg hxp]

theorem parent_bioChain (m : Machine) (hne : c ≠ p) (x : Nat) :
    (m.bioChain c p).parent x = if x = c then some p else m.parent x := by
  unfold parent
  rw [bio_bioChain m hne]
  split_ifs with hxc hxp
  · rfl
  · rw [hxp]
  · rfl

/-- **Chaining.** The child now holds up its parent. -/
theorem Inv.bioChain (h : m.Inv) (hne : c ≠ p) (hc : c ∈ m.outstanding) (hp : p ∈ m.outstanding)
    (hnone : m.parent c = none) : (m.bioChain c p).Inv := by
  have hclive := h.outstanding_live c hc
  have hplive := h.outstanding_live p hp
  have hparent := parent_bioChain m hne
  have hbio := bio_bioChain m hne
  have hfinc := h.not_finishing hclive (tokens_pos_of_outstanding hc)
  have hchildren : ∀ x, m.live.countP ((m.bioChain c p).parent · = some x) =
      m.live.countP (m.parent · = some x) + if x = p then 1 else 0 := by
    intro x
    have hperm := List.perm_cons_erase hclive
    rw [hperm.countP_eq, hperm.countP_eq, List.countP_cons, List.countP_cons, hparent, if_pos rfl, hnone]
    have hrest : (m.live.erase c).countP ((m.bioChain c p).parent · = some x) =
        (m.live.erase c).countP (m.parent · = some x) := by
      refine List.countP_congr fun y hy => ?_
      rw [hparent, if_neg (h.live_nodup.mem_erase_iff.mp hy).1]
    rw [hrest]
    simp only [Option.some.injEq, decide_eq_true_eq, reduceCtorEq, decide_false, Bool.false_eq_true, if_false,
      eq_comm (a := p)]
    omega
  have htokens : ∀ x, (m.bioChain c p).tokens x = m.tokens x + if x = p then 1 else 0 := by
    intro x
    unfold tokens
    show m.outstanding.count x + m.calls.countP _ + m.live.countP _ = _
    rw [hchildren]
    omega
  have hflags : ∀ x, x ≠ p → ((m.bioChain c p).bio x).chained = (m.bio x).chained ∧
      ((m.bioChain c p).bio x).remaining = (m.bio x).remaining := by
    intro x hx
    rw [hbio, if_neg hx]
    split_ifs with hxc
    · rw [hxc]
      exact ⟨rfl, rfl⟩
    · exact ⟨rfl, rfl⟩
  have hself : (m.bioChain c p).bio p =
      { m.bio p with chained := true, remaining := (m.bio p).remaining + 1 } := by
    rw [hbio, if_neg fun h => hne h.symm, if_pos rfl]
  have hcount : (m.bio p).remaining = m.tokens p := by
    by_cases hch : (m.bio p).chained = true
    · exact h.counted p hplive hch
    · rcases h.phase p hplive with ⟨-, -, hone⟩ | ⟨-, h0⟩
      · obtain ⟨ht, hr⟩ := hone (by simpa using hch)
        rw [ht, hr]
        rfl
      · have := tokens_pos_of_outstanding hp
        omega
  refine ⟨h.live_nodup, h.outstanding_nodup, h.live_used, h.outstanding_live, ?_, h.calls_live, ?_, ?_, ?_, ?_,
    h.no_bug⟩
  · intro x hx q hq
    rw [hparent] at hq
    split_ifs at hq with hxc
    · cases hq
      exact hplive
    · exact h.parent_live x hx q hq
  · intro pc hpc q hq
    rw [hparent, if_neg]
    · exact h.calls_parent pc hpc q hq
    · -- a call that has read the parent of `c` would be finishing it
      intro hpcc
      have hfin : 0 < m.finishing c := by
        refine List.countP_pos_iff.mpr ⟨pc, hpc, ?_⟩
        cases pc <;> simp_all [Pc.parent, Pc.finishes, Pc.bio]
      omega
  · intro x hx
    by_cases hxp : x = p
    · rw [hxp, hself]
    · rw [(hflags x hxp).1]
      exact h.calls_chained x hx
  · intro x hx hch
    by_cases hxp : x = p
    · rw [hxp, hself, htokens, if_pos rfl]
      show (m.bio p).remaining + 1 = _
      rw [hcount]
      rfl
    · rw [(hflags x hxp).1] at hch
      rw [(hflags x hxp).2, htokens, if_neg hxp]
      exact h.counted x hx hch
  · intro x hx
    unfold Phase
    rw [htokens]
    show m.finishing x = 0 ∧ _ ∨ m.finishing x = 1 ∧ _
    by_cases hxp : x = p
    · refine Or.inl ⟨hxp ▸ h.not_finishing hplive (tokens_pos_of_outstanding hp), ?_, ?_⟩
      · rw [if_pos hxp]
        omega
      · rw [hxp, hself]
        nofun
    · rw [(hflags x hxp).1, (hflags x hxp).2, if_neg hxp]
      exact h.phase x hx

theorem parent_complete (m : Machine) (b status : Nat) : (m.complete b status).parent = m.parent :=
  parent_set (m := m) (b := b) (f := (·.note status)) fun _ => rfl

/-- **Completion.** The call of `bio_endio` holds the bio up in the place of the device. -/
theorem Inv.complete (h : m.Inv) (hb : b ∈ m.outstanding) (status : Nat) : (m.complete b status).Inv := by
  have hlive := h.outstanding_live b hb
  have hparent := parent_complete m b status
  have hbio : ∀ x, ((m.complete b status).bio x).chained = (m.bio x).chained ∧
      ((m.complete b status).bio x).remaining = (m.bio x).remaining := fun x =>
    ⟨set_bio_eq m b x (·.note status) BioState.chained fun _ => rfl,
      set_bio_eq m b x (·.note status) BioState.remaining fun _ => rfl⟩
  have htokens : ∀ x, (m.complete b status).tokens x = m.tokens x := by
    intro x
    unfold tokens
    show (m.outstanding.erase b).count x + (m.calls ++ [Pc.again b]).countP (Pc.holds x) +
      m.live.countP ((m.complete b status).parent · = some x) = _
    rw [hparent, List.countP_append, List.countP_singleton]
    by_cases hx : x = b
    · have := List.count_pos_iff.mpr hb
      rw [hx, List.count_erase_self]
      simp only [Pc.holds, decide_true, if_true]
      omega
    · rw [List.count_erase_of_ne hx]
      simp only [Pc.holds, decide_eq_true_eq, if_neg fun he : b = x => hx he.symm]
      omega
  have hfinishing : ∀ x, (m.complete b status).finishing x = m.finishing x := by
    intro x
    show (m.calls ++ [Pc.again b]).countP (Pc.finishes x) = _
    rw [List.countP_append]
    rfl
  have hmem : ∀ pc ∈ (m.complete b status).calls, pc ∈ m.calls ∨ pc = .again b := by
    intro pc hpc
    rcases List.mem_append.mp hpc with hpc | hpc
    · exact Or.inl hpc
    · exact Or.inr (List.mem_singleton.mp hpc)
  refine ⟨h.live_nodup, h.outstanding_nodup.erase b, h.live_used, ?_, ?_, ?_, ?_, ?_, ?_, ?_, h.no_bug⟩
  · intro x hx
    exact h.outstanding_live x (List.mem_of_mem_erase hx)
  · rw [hparent]
    exact h.parent_live
  · intro pc hpc
    rcases hmem pc hpc with hpc | rfl
    · exact h.calls_live pc hpc
    · exact hlive
  · intro pc hpc p hp
    rw [hparent]
    rcases hmem pc hpc with hpc | rfl
    · exact h.calls_parent pc hpc p hp
    · cases hp
  · intro x hx
    rw [(hbio x).1]
    rcases hmem _ hx with hx | hx
    · exact h.calls_chained x hx
    · cases hx
  · intro x hx
    rw [(hbio x).1, (hbio x).2, htokens x]
    exact h.counted x hx
  · intro x hx
    unfold Phase
    rw [(hbio x).1, (hbio x).2, htokens x, hfinishing x]
    exact h.phase x hx

/-! ## Runs -/

/-- What each action does, with the condition under which it is possible. -/
inductive Move (m : Machine) : Machine → Prop where
  | alloc {b : Nat} {data : Bio} (owned : Bool) (hfresh : b ∉ m.used) (hsized : data.Sized) :
      Move m (m.alloc b data (if owned then .owner else .none) b)
  | setEndIo {b : Nat} (hb : b ∈ m.outstanding) (hnone : (m.bio b).endIo = .none) :
      Move m (m.set b fun s => { s with endIo := .owner })
  | split {b c sectors : Nat} {front rest : Bio} (hb : b ∈ m.outstanding) (hc : c ∉ m.used)
      (hsplit : bioSplit true (m.bio b).data sectors = .ok (front, rest)) :
      Move m (((m.alloc c front .none (m.source b)).set b fun s => { s with data := rest }).bioChain c b)
  | nextBio {b new : Nat} {data : Bio} (hb : b ∈ m.outstanding) (hnone : (m.bio b).endIo = .none)
      (hfresh : new ∉ m.used) (hsized : data.Sized) :
      Move m ((m.alloc new data .none new).bioChain b new)
  | complete {b status : Nat} (hb : b ∈ m.outstanding) :
      Move m (m.complete b status)
  | endio {l₁ l₂ : List Pc} {pc : Pc} (hcalls : m.calls = l₁ ++ pc :: l₂) :
      Move m (stepped (m.bioEndio pc) l₁ l₂)

/-- A step of some call, as a list that is taken apart at that call. -/
theorem step_endio_iff {n : Nat} :
    m.Step (.endio n) m' ↔ ∃ l₁ pc l₂, m.calls = l₁ ++ pc :: l₂ ∧ l₁.length = n ∧
      m' = stepped (m.bioEndio pc) l₁ l₂ := by
  unfold Step
  constructor
  · intro h
    cases hn : m.calls[n]? with
    | none =>
        simp only [act, hn] at h
        cases h
    | some pc =>
        simp only [act, hn, Option.some.injEq] at h
        obtain ⟨hlt, rfl⟩ := List.getElem?_eq_some_iff.mp hn
        refine ⟨m.calls.take n, _, m.calls.drop (n + 1), ?_, ?_, h.symm⟩
        · rw [← List.drop_eq_getElem_cons hlt, List.take_append_drop]
        · rw [List.length_take]
          omega
  · rintro ⟨l₁, pc, l₂, hcalls, rfl, rfl⟩
    simp [act, hcalls, stepped]

/-- Every action is one of the moves for which the invariants are proved. -/
theorem Step.move {a : Event} (h : m.Step a m') : m.Move m' := by
  unfold Step at h
  cases a with
  | alloc b data owned =>
      simp only [act, Option.ite_none_right_eq_some, Option.some.injEq] at h
      obtain ⟨hc, rfl⟩ := h
      exact .alloc owned hc.1 hc.2
  | setEndIo b =>
      simp only [act, Option.ite_none_right_eq_some, Option.some.injEq] at h
      obtain ⟨hc, rfl⟩ := h
      exact .setEndIo hc.1 hc.2
  | split b c sectors =>
      simp only [act, Option.ite_none_right_eq_some] at h
      obtain ⟨hc, h⟩ := h
      cases hs : bioSplit true (m.bio b).data sectors with
      | error e =>
          rw [hs] at h
          cases h
      | ok pair =>
          obtain ⟨front, rest⟩ := pair
          rw [hs] at h
          cases h
          exact .split hc.1 hc.2 hs
  | nextBio b new data =>
      simp only [act, Option.ite_none_right_eq_some, Option.some.injEq] at h
      obtain ⟨hc, rfl⟩ := h
      exact .nextBio hc.1 hc.2.1 hc.2.2.1 hc.2.2.2
  | complete b status =>
      simp only [act, Option.ite_none_right_eq_some, Option.some.injEq] at h
      obtain ⟨hc, rfl⟩ := h
      exact .complete hc
  | endio n =>
      obtain ⟨l₁, pc, l₂, hcalls, -, rfl⟩ := step_endio_iff.mp h
      exact .endio hcalls

/-- **The invariant is kept by every action.** -/
theorem Inv.step (h : m.Inv) (hmove : m.Move m') : m'.Inv := by
  cases hmove with
  | alloc owned hfresh _ => exact h.alloc hfresh _ _ (by cases owned <;> rfl)
  | @setEndIo b hb hnone =>
      refine h.congr rfl rfl rfl rfl rfl ?_ fun x =>
        ⟨set_bio_eq m b x _ BioState.chained fun _ => rfl, set_bio_eq m b x _ BioState.remaining fun _ => rfl⟩
      funext x
      unfold parent
      rw [set_bio]
      split_ifs with hx
      · rw [hx, hnone]
        rfl
      · rfl
  | @split b c sectors front rest hb hc hsplit =>
      have hne : c ≠ b := by
        rintro rfl
        exact hc (h.live_used c (h.outstanding_live c hb))
      have halloc := h.alloc hc front (e := .none) (m.source b) rfl
      have hparent : ((m.alloc c front .none (m.source b)).set b fun s => { s with data := rest }).parent =
          (m.alloc c front .none (m.source b)).parent := parent_set fun _ => rfl
      have hdata : ((m.alloc c front .none (m.source b)).set b fun s => { s with data := rest }).Inv :=
        halloc.congr rfl rfl rfl rfl rfl hparent fun x =>
          ⟨set_bio_eq _ b x _ BioState.chained fun _ => rfl, set_bio_eq _ b x _ BioState.remaining fun _ => rfl⟩
      refine hdata.bioChain hne List.mem_cons_self (List.mem_cons_of_mem _ hb) ?_
      rw [hparent, parent_alloc _ _ _ _ rfl, if_pos rfl]
  | @nextBio b new data hb hnone hfresh _ =>
      have hne : b ≠ new := by
        rintro rfl
        exact hfresh (h.live_used b (h.outstanding_live b hb))
      have halloc := h.alloc hfresh data (e := .none) new rfl
      refine halloc.bioChain hne (List.mem_cons_of_mem _ hb) List.mem_cons_self ?_
      rw [parent_alloc _ _ _ _ rfl, if_neg hne, parent, hnone]
      rfl
  | complete hb => exact h.complete hb _
  | endio hcalls => exact h.endio hcalls

theorem start_inv (junk : BioState) : (start junk).Inv := by
  refine ⟨List.nodup_nil, List.nodup_nil, ?_, ?_, ?_, ?_, ?_, ?_, ?_, ?_, rfl⟩ <;> simp [start]

/-- **Run.** The counts are right in every state that is reached. -/
theorem Reachable.inv (h : m.Reachable) : m.Inv := by
  obtain ⟨junk, h⟩ := h
  exact h.inv (start_inv junk) fun hi hstep => hi.step hstep.move

theorem reachable_of_run {junk : BioState} {as : List Event} (h : (start junk).run as = some m) :
    m.Reachable := by
  refine ⟨junk, ?_⟩
  suffices ∀ m₀, m₀.run as = some m → Reaches Step m₀ m from this _ h
  clear h
  induction as with
  | nil =>
      rintro m₀ ⟨⟩
      exact Reaches.refl
  | cons a as ih =>
      intro m₀ h
      obtain ⟨m₁, hact, hrun⟩ := Option.bind_eq_some_iff.mp h
      exact (Reaches.tail Reaches.refl hact).trans (ih m₁ hrun)

end Actions

end Machine

end Block
end SystemsPlayground
