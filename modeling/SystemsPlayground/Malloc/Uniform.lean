import Mathlib.Order.Bounds.Basic
import SystemsPlayground.Malloc.Correctness

/-!
# `Malloc.Uniform` — requests of one size do not leak

When all requests are of one size, every block on the free list fits every request. So the heap grows only
when the list is empty, that is, when every block ever obtained is live; and the number of blocks is the
largest number of allocations that were live at one time (`uniform_no_leak`). The bookkeeping behind it is
that every block is either live or on the list, never both and never neither (`UniformInv.account`).
-/

namespace SystemsPlayground
namespace Malloc

open Word Runs

/-- `my_malloc(n)`, with a `sbrk` that returns a fresh region and that succeeds if it is called, that is, if
    no block of the free list fits; `my_free` of `NULL` or of a pointer returned before, whether it is live or
    free. -/
def UniformCall (n : Nat) (s : Sys) : Call → Prop
  | .malloc size os => size = n ∧ FreshRegion s.heap os n ∧
      ((∃ fuel, findFreeBlock fuel n s.heap = some null) →
        (os s.heap.brk (toInt64 (u64 (sizeofBlock + n)))).isSome = true)
  | .free ptr       => ptr = null ∨ ptr ∈ s.issued

/-- Runs of such calls, with the state before each of them. -/
def UniformRun (n : Nat) : Sys → List (Sys × Call) → Sys → Prop :=
  Run fun s c t => UniformCall n s c ∧ s.Step c t

/-- The invariant of these runs, with the free list `F`: every block has `n` bytes, the live pointers are
    distinct, and a block that is in use is live. -/
structure UniformInv (n : Nat) (s : Sys) (F : List Nat) : Prop where
  inv : Inv s F
  size : ∀ a ∈ s.heap.blocks, (s.heap.mem a).size = n
  distinct : (s.live.map Prod.fst).Nodup
  used : ∀ a ∈ s.heap.blocks, (s.heap.mem a).free = 0 → a + sizeofBlock ∈ s.live.map Prod.fst

/-! ## Every block is accounted for -/

section Account

variable {n : Nat} {s t : Sys} {F : List Nat}

/-- A live pointer is the payload of a block in use. -/
theorem Inv.of_live (hi : Inv s F) {p : Nat} (hp : p ∈ s.live.map Prod.fst) :
    sizeofBlock ≤ p ∧ p - sizeofBlock ∈ s.heap.blocks ∧ (s.heap.mem (p - sizeofBlock)).free = 0 := by
  obtain ⟨e, he, rfl⟩ := List.mem_map.mp hp
  obtain ⟨hissued, hfree, -⟩ := hi.live e he
  exact ⟨(hi.issued _ hissued).1, (hi.issued _ hissued).2, hfree⟩

/-- **The blocks are the live ones and those on the free list.** -/
theorem UniformInv.account (h : UniformInv n s F) :
    (((s.live.map Prod.fst).map (· - sizeofBlock)) ++ F).Perm s.heap.blocks := by
  have hinj : ((s.live.map Prod.fst).map (· - sizeofBlock)).Nodup := by
    refine List.Nodup.map_on ?_ h.distinct
    intro p hp q hq he
    have := (h.inv.of_live hp).1
    have := (h.inv.of_live hq).1
    omega
  have hdisj : ∀ a ∈ (s.live.map Prod.fst).map (· - sizeofBlock), ∀ b ∈ F, a ≠ b := by
    rintro a ha b hb rfl
    obtain ⟨p, hp, rfl⟩ := List.mem_map.mp ha
    exact h.inv.heap.free_ne_zero _ hb (h.inv.of_live hp).2.2
  refine (List.perm_ext_iff_of_nodup (List.nodup_append.mpr ⟨hinj, h.inv.heap.rep.nodup, hdisj⟩)
    h.inv.heap.nodup).mpr ?_
  intro a
  rw [List.mem_append]
  constructor
  · rintro (ha | ha)
    · obtain ⟨p, hp, rfl⟩ := List.mem_map.mp ha
      exact (h.inv.of_live hp).2.1
    · exact ((h.inv.heap.listed a).mp ha).1
  · intro ha
    rcases h.inv.heap.flag a ha with hflag | hflag
    · exact Or.inl (List.mem_map.mpr ⟨_, h.used a ha hflag, Nat.add_sub_cancel a sizeofBlock⟩)
    · exact Or.inr ((h.inv.heap.listed a).mpr ⟨ha, hflag⟩)

theorem UniformInv.length (h : UniformInv n s F) :
    s.heap.blocks.length = s.live.length + F.length := by
  rw [← h.account.length_eq, List.length_append, List.length_map, List.length_map]

end Account

/-! ## One call -/

section Step

variable {n : Nat} {s t : Sys} {F : List Nat} {c : Call}

theorem UniformCall.allowed (hn : n ≤ 2 ^ 62) (hc : UniformCall n s c) : Allowed s c := by
  cases c with
  | free ptr => exact hc
  | malloc size os =>
      obtain ⟨rfl, hfresh, -⟩ := hc
      exact ⟨hn.trans (by decide), hfresh⟩

theorem UniformInv.step_free {ptr : Nat} (h : UniformInv n s F) (hc : UniformCall n s (.free ptr))
    (hs : s.Step (.free ptr) t) : ∃ F', UniformInv n t F' ∧ t.heap.blocks = s.heap.blocks := by
  have hallowed : Allowed s (.free ptr) := hc
  obtain ⟨F', hF'⟩ := step_inv h.inv hallowed hs
  obtain ⟨fuel, ⟨⟩⟩ := hs
  have hbl : (myFree ptr s.heap).blocks = s.heap.blocks := blocks_congr myFree_calls
  refine ⟨F', ⟨hF', ?_, ?_, ?_⟩, hbl⟩
  · intro a ha
    exact (myFree_size a).trans (h.size a (hbl ▸ ha))
  · exact h.distinct.sublist (List.filter_sublist.map _)
  · intro a ha hflag
    -- a block that is in use after the call was in use before, and is not the freed one
    obtain ⟨hbefore, hother⟩ : (s.heap.mem a).free = 0 ∧ a + sizeofBlock ≠ ptr := by
      rcases myFree_guard ptr s.heap with hn | ⟨hp, hf⟩
      · have hflag' : (s.heap.mem a).free = 0 := by
          rwa [show (myFree ptr s.heap) = s.heap from myFree_noop hn] at hflag
        refine ⟨hflag', fun he => ?_⟩
        rcases hn with hn | hn
        · rw [hn] at he
          simp [sizeofBlock, null] at he
        · exact hn (by rw [← he, Nat.add_sub_cancel]; exact hflag')
      · have hle := (h.inv.issued ptr (hc.resolve_left hp)).1
        have hfree : ((myFree ptr s.heap).mem a).free = 0 := hflag
        by_cases he : a = ptr - sizeofBlock
        · rw [myFree_free hp hf, if_pos he] at hfree
          cases hfree
        · rw [myFree_free hp hf, if_neg he] at hfree
          exact ⟨hfree, by omega⟩
    obtain ⟨e, he, hea⟩ := List.mem_map.mp (h.used a (hbl ▸ ha) hbefore)
    exact List.mem_map.mpr ⟨e, List.mem_filter.mpr ⟨he, by simpa [hea] using hother⟩, hea⟩

/-- A new block, or one that is free, is handed out. -/
theorem UniformInv.hand_out {F' : List Nat} {b : Nat} {h' : Heap} (h : UniformInv n s F)
    (hinv : Inv ⟨h', (b + sizeofBlock) :: s.issued, (b + sizeofBlock, n) :: s.live⟩ F')
    (hext : Extends s.heap h') (hsize : b ∉ s.heap.blocks → (h'.mem b).size = n)
    (hdead : b ∈ s.heap.blocks → (s.heap.mem b).free ≠ 0)
    (hflag : ∀ a ∈ h'.blocks, a ≠ b → a ∈ s.heap.blocks ∧ (h'.mem a).free = (s.heap.mem a).free) :
    UniformInv n ⟨h', (b + sizeofBlock) :: s.issued, (b + sizeofBlock, n) :: s.live⟩ F' := by
  refine ⟨hinv, fun a ha => ?_, List.nodup_cons.mpr ⟨fun hlive => ?_, h.distinct⟩, fun a ha hfree => ?_⟩
  · by_cases hold : a ∈ s.heap.blocks
    · exact (hext.size a hold).trans (h.size a hold)
    · by_cases hb : a = b
      · rw [hb] at hold ⊢
        exact hsize hold
      · exact absurd (hflag a ha hb).1 hold
  · obtain ⟨-, hmem, hzero⟩ := h.inv.of_live hlive
    rw [Nat.add_sub_cancel] at hmem hzero
    exact hdead hmem hzero
  · by_cases hb : a = b
    · rw [hb]
      exact List.mem_cons_self
    · obtain ⟨hold, hsame⟩ := hflag a ha hb
      exact List.mem_cons_of_mem _ (h.used a hold (hsame ▸ hfree))

theorem UniformInv.step_malloc {size : Nat} {os : Os} (h : UniformInv n s F) (hpos : 0 < n)
    (hn : n ≤ 2 ^ 62) (hc : UniformCall n s (.malloc size os)) (hs : s.Step (.malloc size os) t) :
    ∃ F', UniformInv n t F' ∧ (t.heap.blocks = s.heap.blocks ∨ F' = []) := by
  have hallowed := hc.allowed hn
  obtain ⟨F', hF'⟩ := step_inv h.inv hallowed hs
  have hext := step_extends h.inv hallowed hs
  obtain ⟨p, h', ho, -, ht⟩ := step_malloc_outcome h.inv hallowed hs
  obtain ⟨rfl, hfresh, hsome⟩ := hc
  have hmax : sizeMax = 2 ^ 64 - 1 := rfl
  have h32 : sizeofBlock = 32 := rfl
  cases ho with
  | refused hbad => omega
  | failed _ _ hnone hans =>
      have hcalled := hsome ((findFreeBlock_null_iff h.inv.heap).mpr hnone)
      rw [hans] at hcalled
      cases hcalled
  | @reused l₁ l₂ b _ _ hFl _ _ =>
      rw [if_neg (by simp [sizeofBlock, null])] at ht
      subst ht
      have hbl := blocks_reused s.heap b
      obtain ⟨hb, hfree⟩ := (h.inv.heap.listed b).mp (by rw [hFl]; simp)
      have hused : (s.heap.mem b).free ≠ 0 := by
        rw [hfree]
        decide
      refine ⟨F', h.hand_out hF' hext (fun hnew => absurd hb hnew) (fun _ => hused) ?_, Or.inl hbl⟩
      intro a ha hne
      rw [hbl] at ha
      rw [setFree_free, removeFreeBlock_free, if_neg hne]
      exact ⟨ha, rfl⟩
  | @grown q brk' _ hle hnone hans hq =>
      rw [if_neg (by simp [sizeofBlock, null])] at ht
      -- every block of the list would have fitted
      have hempty : F = [] := by
        refine List.eq_nil_iff_forall_not_mem.mpr fun a ha => ?_
        have := hnone a ha
        have := h.size a ((h.inv.heap.listed a).mp ha).1
        omega
      have hnew : q ∉ s.heap.blocks := hfresh.not_mem hle hans
      have hrep := (h.inv.heap.grow (toInt64 (u64 (sizeofBlock + size))) brk' size hq
        (hfresh hle q brk' hans).1 hnew).rep
      have hbl := blocks_grown s.heap (toInt64 (u64 (sizeofBlock + size))) brk' size hq
      subst ht
      refine ⟨F', h.hand_out hF' hext (fun _ => by simp) (fun hold => absurd hold hnew) ?_,
        Or.inr ((hF'.heap.rep.unique hrep).trans hempty)⟩
      intro a ha hne
      rw [hbl, List.mem_append, List.mem_singleton] at ha
      rw [setFree_free, setSize_free, record_mem, if_neg hne]
      exact ⟨ha.resolve_right hne, rfl⟩

/-- **One call.** Either no block is added, or no block is left on the list. -/
theorem UniformInv.step (h : UniformInv n s F) (hpos : 0 < n) (hn : n ≤ 2 ^ 62) (hc : UniformCall n s c)
    (hs : s.Step c t) : ∃ F', UniformInv n t F' ∧ (t.heap.blocks = s.heap.blocks ∨ F' = []) := by
  cases c with
  | malloc size os => exact h.step_malloc hpos hn hc hs
  | free ptr =>
      obtain ⟨F', hF', hbl⟩ := h.step_free hc hs
      exact ⟨F', hF', Or.inl hbl⟩

end Step

/-! ## Runs -/

section Run

variable {n base : Nat} {mem : Nat → Block} {t : Sys} {tr : List (Sys × Call)}

theorem start_uniform_inv (n : Nat) (mem : Nat → Block) (base : Nat) :
    UniformInv n (Sys.start mem base) [] :=
  ⟨start_inv mem base, by simp [Sys.start, Heap.blocks], List.nodup_nil, by simp [Sys.start, Heap.blocks]⟩

theorem uniform_run_inv (hpos : 0 < n) (hn : n ≤ 2 ^ 62) (hr : UniformRun n (Sys.start mem base) tr t) :
    (∀ x ∈ tr, ∃ F, UniformInv n x.1 F) ∧ ∃ F, UniformInv n t F := by
  refine Run.inv (I := fun s => ∃ F, UniformInv n s F) (C := fun _ _ => True) hr
    ⟨[], start_uniform_inv n mem base⟩ ?_ fun _ _ => trivial
  rintro s c u ⟨F, hF⟩ - ⟨hc, hs⟩
  obtain ⟨F', hF', -⟩ := hF.step hpos hn hc hs
  exact ⟨F', hF'⟩

/-- The blocks are as many as were live at the time when the last of them was obtained. -/
theorem uniform_run_peak (hpos : 0 < n) (hn : n ≤ 2 ^ 62) (hr : UniformRun n (Sys.start mem base) tr t) :
    (∃ x ∈ tr.map Prod.fst ++ [t], x.live.length = t.heap.blocks.length) ∧
    ∀ x ∈ tr.map Prod.fst ++ [t], x.live.length ≤ t.heap.blocks.length := by
  induction hr with
  | nil => simp [Sys.start, Heap.blocks]
  | @snoc t u c tr hpre hstep ih =>
      obtain ⟨⟨x, hx, hpeak⟩, hbound⟩ := ih
      obtain ⟨F, hF⟩ := (uniform_run_inv hpos hn hpre).2
      obtain ⟨hc, hs⟩ := hstep
      obtain ⟨F', hF', hcase⟩ := hF.step hpos hn hc hs
      have hgrow : t.heap.blocks.length ≤ u.heap.blocks.length :=
        (step_extends hF.inv (hc.allowed hn) hs).blocks.length_le
      have hlast := hF'.length
      rw [List.map_append, List.map_singleton]
      constructor
      · rcases hcase with hbl | hempty
        · exact ⟨x, List.mem_append_left _ hx, by rw [hpeak, hbl]⟩
        · refine ⟨u, List.mem_append_right _ (List.mem_singleton.mpr rfl), ?_⟩
          rw [hlast, hempty, List.length_nil, Nat.add_zero]
      · intro y hy
        rcases List.mem_append.mp hy with hy | hy
        · exact (hbound y hy).trans hgrow
        · rw [List.mem_singleton.mp hy]
          omega

/-- **No leak under uniform requests.** The blocks ever obtained from `sbrk` are as many as the most
    allocations that were live at one time; and in every state of the run they are as many as the live
    allocations and the blocks of the free list. -/
theorem uniform_no_leak (hpos : 0 < n) (hn : n ≤ 2 ^ 62) (hr : UniformRun n (Sys.start mem base) tr t) :
    IsGreatest {k | ∃ x ∈ tr.map Prod.fst ++ [t], x.live.length = k} t.heap.blocks.length ∧
    ∀ x ∈ tr.map Prod.fst ++ [t], ∃ F, Represents x.heap F ∧
      x.heap.blocks.length = x.live.length + F.length := by
  obtain ⟨hpeak, hbound⟩ := uniform_run_peak hpos hn hr
  obtain ⟨htr, ht⟩ := uniform_run_inv hpos hn hr
  refine ⟨⟨hpeak, ?_⟩, ?_⟩
  · rintro k ⟨x, hx, rfl⟩
    exact hbound x hx
  · intro x hx
    have hinv : ∃ F, UniformInv n x F := by
      rcases List.mem_append.mp hx with hx | hx
      · obtain ⟨y, hy, rfl⟩ := List.mem_map.mp hx
        exact htr y hy
      · rw [List.mem_singleton.mp hx]
        exact ht
    obtain ⟨F, hF⟩ := hinv
    exact ⟨F, hF.inv.heap.rep, hF.length⟩

/-- Three blocks of 16 bytes, of which the second one is reused, and two are free in the end. -/
def reusing : List Granted :=
  [.malloc 16, .malloc 16, .free 4176, .malloc 16, .malloc 16, .free 4128, .free 4128, .free 4224]

/-- The peak of three live allocations is in the middle of the run. -/
theorem uniform_no_leak_reusing :
    (reusing.foldl Sys.grant zeroed).live.length = 1 ∧ (reusing.foldl Sys.grant zeroed).heap.blocks.length = 3 ∧
    IsGreatest {k | ∃ x ∈ ((plays Sys.grant zeroed reusing).map (Prod.map id Granted.toCall)).map Prod.fst ++
      [reusing.foldl Sys.grant zeroed], x.live.length = k} 3 ∧
    ∃ F, Represents (reusing.foldl Sys.grant zeroed).heap F ∧ 3 = 1 + F.length := by
  have hfine : ∀ x ∈ plays Sys.grant zeroed reusing, x.2.Fine x.1 := by decide
  have hsize : ∀ x ∈ plays Sys.grant zeroed reusing, ∀ n, x.2 = .malloc n → n = 16 := by
    simp [plays, reusing]
  have hrun : UniformRun 16 zeroed ((plays Sys.grant zeroed reusing).map (Prod.map id Granted.toCall))
      (reusing.foldl Sys.grant zeroed) := by
    have hgranted : Run (fun s (c : Granted) t => (c.Fine s ∧ ∀ n, c = .malloc n → n = 16) ∧ t = s.grant c) zeroed
        (plays Sys.grant zeroed reusing) (reusing.foldl Sys.grant zeroed) :=
      Run.play reusing fun x hx => ⟨⟨hfine x hx, hsize x hx⟩, rfl⟩
    refine Run.map Granted.toCall (fun {s c t} hstep => ?_) hgranted
    obtain ⟨⟨hf, hn⟩, rfl⟩ := hstep
    refine ⟨?_, 4, hf.step.2⟩
    cases c with
    | free ptr => exact hf.step.1
    | malloc size =>
        obtain rfl := hn size rfl
        exact ⟨rfl, hf.step.1.2, fun _ => rfl⟩
  obtain ⟨hpeak, hstates⟩ := uniform_no_leak (by decide) (by decide) hrun
  exact ⟨rfl, rfl, hpeak, hstates _ (List.mem_append_right _ List.mem_cons_self)⟩

end Run

end Malloc
end SystemsPlayground
