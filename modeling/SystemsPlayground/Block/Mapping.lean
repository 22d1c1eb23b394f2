import Mathlib.Data.List.Nodup
import SystemsPlayground.Block.Conservation

/-!
# `Block.Mapping` — software queues are mapped to hardware queues

`blk_mq_map_swqueue` gives every software queue, one for each CPU, a hardware queue of each type, and the two
indices by which they find each other: `hctx->ctxs` and `ctx->index_hw`. The marks of pending software
queues rest on their agreement.

They agree if a hardware queue has one type for all its CPUs (`TagSet.Uniform`): if a CPU comes to it
through any type, then through that one first (`map_swqueue_sound`). One map is of this kind, and so are
maps whose hardware queues are apart, as long as tags can be allocated; a CPU that is remapped to `hctx[0]`
can change the type of it under the others.
-/

namespace SystemsPlayground
namespace Block
namespace Dispatch

/-! ## `blk_mq_map_swqueue` -/

/-- `HCTX_MAX_TYPES`. -/
def hctxMaxTypes : Nat := 3

/-- `struct blk_mq_tag_set`, as far as the mapping reads it. `blk_mq_alloc_tag_set` sees to the number of
    maps, and the driver to a default map. -/
structure TagSet where
  nrMaps : Nat
  /-- `set->map[j].nr_queues`. -/
  nrQueues : Nat → Nat
  /-- `set->map[j].mq_map[i]`. -/
  mqMap : Nat → Nat → Nat
  /-- `set->tags[hctx_idx]` is there, or can be allocated, when the CPU `i` comes to it for the type `j`. -/
  alloc : Nat → Nat → Bool
  nrMaps_pos : 0 < nrMaps
  nrMaps_le : nrMaps ≤ hctxMaxTypes
  hasDefault : nrQueues 0 ≠ 0

/-- What `blk_mq_map_swqueue` writes; `nr_ctx` is the length of `ctxs`. -/
structure Layout where
  mqMap : Nat → Nat → Nat
  cpumask : Nat → Nat → Bool
  type : Nat → Nat
  ctxs : Nat → List Nat
  indexHw : Nat → Nat → Nat
  hctxs : Nat → Nat → Nat

/-- An entry of a table replaced. -/
def setEntry {α : Type} (f : Nat → Nat → α) (a b : Nat) (x : α) : Nat → Nat → α :=
  Function.update f a (Function.update (f a) b x)

/-- The CPU `i` gets the hardware queue `h` for the type `j`. It has been mapped there already if the maps
    share the hardware queue. The `BUG_ON` on an overflow of `nr_ctx` is left out. -/
def mapHctx (i j h : Nat) (l : Layout) : Layout :=
  let l := { l with hctxs := setEntry l.hctxs i j h }
  if l.cpumask h i then l
  else { l with
    cpumask := setEntry l.cpumask h i true
    type := Function.update l.type h j
    indexHw := setEntry l.indexHw i j (l.ctxs h).length
    ctxs := Function.update l.ctxs h (l.ctxs h ++ [i]) }

/-- The body of the inner loop of `blk_mq_map_swqueue`, for the CPU `i` and the type `j`. -/
def mapOne (set : TagSet) (i : Nat) (l : Layout) (j : Nat) : Layout :=
  if set.nrQueues j = 0 then { l with hctxs := setEntry l.hctxs i j (l.mqMap 0 i) }
  else
    -- without tags the software queue is remapped to the first hardware queue
    let l := if set.alloc j i then l else { l with mqMap := setEntry l.mqMap j i 0 }
    mapHctx i j (l.mqMap j i) l

/-- The body of the outer loop. The types that the driver does not have, up to `HCTX_MAX_TYPES`, are those of
    the default map. -/
def mapCtx (set : TagSet) (l : Layout) (i : Nat) : Layout :=
  let l := (List.range set.nrMaps).foldl (mapOne set i) l
  { l with hctxs := fun i' j =>
    if i' = i ∧ set.nrMaps ≤ j ∧ j < hctxMaxTypes then l.mqMap 0 i else l.hctxs i' j }

/-- `blk_mq_map_swqueue` of `cpus` CPUs, over what was there before. Its last loop, which resizes the bitmaps
    and takes isolated CPUs out of the masks, is left out. -/
def blkMqMapSwqueue (set : TagSet) (cpus : Nat) (old : Layout) : Layout :=
  (List.range cpus).foldl (mapCtx set)
    { old with mqMap := set.mqMap, cpumask := fun _ _ => false, ctxs := fun _ => [] }

/-! ## Types of hardware queues -/

/-- The hardware queue that a map gives a CPU. -/
def TagSet.mapped (set : TagSet) (j i : Nat) : Nat := if set.alloc j i then set.mqMap j i else 0

/-- The driver has hardware queues for the type. -/
def TagSet.Used (set : TagSet) (j : Nat) : Prop := j < set.nrMaps ∧ set.nrQueues j ≠ 0

instance (set : TagSet) (j : Nat) : Decidable (set.Used j) :=
  inferInstanceAs (Decidable (j < set.nrMaps ∧ set.nrQueues j ≠ 0))

/-- The hardware queue that a CPU gets for a type. -/
def TagSet.target (set : TagSet) (j i : Nat) : Nat := if set.Used j then set.mapped j i else set.mapped 0 i

/-- `τ` is the type of each hardware queue: a CPU that comes to it through some type comes to it through that
    one, and no earlier one. -/
def TagSet.Uniform (set : TagSet) (cpus : Nat) (τ : Nat → Nat) : Prop :=
  ∀ i, i < cpus → ∀ j, set.Used j →
    τ (set.mapped j i) ≤ j ∧ set.Used (τ (set.mapped j i)) ∧
      set.mapped (τ (set.mapped j i)) i = set.mapped j i

/-- What the dispatch may rely on. -/
structure Layout.Sound (set : TagSet) (cpus : Nat) (l : Layout) : Prop where
  members : ∀ h c, c ∈ l.ctxs h ↔ c < cpus ∧ ∃ j, set.Used j ∧ set.mapped j c = h
  nodup : ∀ h, (l.ctxs h).Nodup
  index : ∀ h c, c ∈ l.ctxs h → (l.ctxs h)[l.indexHw c (l.type h)]? = some c
  apart : ∀ h h' c, c ∈ l.ctxs h → c ∈ l.ctxs h' → l.type h = l.type h' → h = h'
  hctxs : ∀ c j, c < cpus → j < hctxMaxTypes → l.hctxs c j = set.target j c ∧ c ∈ l.ctxs (l.hctxs c j)

/-! ## The loops -/

/-- The pairs of a CPU and a type before that of `i` and `j`. -/
def Before (i j : Nat) (i' j' : Nat) : Prop := i' < i ∨ (i' = i ∧ j' < j)

/-- The state of the loops when they come to the CPU `i` and the type `j`. -/
structure Mapping (set : TagSet) (τ : Nat → Nat) (i j : Nat) (l : Layout) : Prop where
  map : ∀ i' j', ¬ Before i j i' j' → l.mqMap j' i' = set.mqMap j' i'
  default : ∀ i', Before i j i' 0 → l.mqMap 0 i' = set.mapped 0 i'
  mask : ∀ h i', l.cpumask h i' = true ↔ i' ∈ l.ctxs h
  reached : ∀ h i', i' ∈ l.ctxs h ↔ ∃ j', Before i j i' j' ∧ set.Used j' ∧ set.mapped j' i' = h
  nodup : ∀ h, (l.ctxs h).Nodup
  index : ∀ h i', i' ∈ l.ctxs h → l.type h = τ h ∧ (l.ctxs h)[l.indexHw i' (τ h)]? = some i'
  hctxs : ∀ i' j', Before i j i' j' → j' < hctxMaxTypes → l.hctxs i' j' = set.target j' i'

section Loops

variable {set : TagSet} {τ : Nat → Nat} {cpus i j : Nat} {l : Layout}

theorem setEntry_self {α : Type} (f : Nat → Nat → α) (a b : Nat) (x : α) : setEntry f a b x a b = x := by
  rw [setEntry, Function.update_self, Function.update_self]

theorem setEntry_of_ne {α : Type} (f : Nat → Nat → α) {a b a' b' : Nat} (x : α) (h : ¬ (a' = a ∧ b' = b)) :
    setEntry f a b x a' b' = f a' b' := by
  rw [setEntry, Function.update_apply]
  split_ifs with ha
  · rw [Function.update_of_ne fun hb => h ⟨ha, hb⟩, ha]
  · rfl

theorem TagSet.used_default (set : TagSet) : set.Used 0 := ⟨set.nrMaps_pos, set.hasDefault⟩

theorem TagSet.target_of_used (hj : set.Used j) : set.target j i = set.mapped j i := if_pos hj

theorem TagSet.target_of_unused (hj : ¬ set.Used j) : set.target j i = set.mapped 0 i := if_neg hj

theorem not_before : ¬ Before i j i j := by
  unfold Before
  omega

theorem before_succ {i' j' : Nat} : Before i (j + 1) i' j' ↔ Before i j i' j' ∨ (i' = i ∧ j' = j) := by
  unfold Before
  omega

theorem Before.ne {i' j' : Nat} (hb : Before i j i' j') : ¬ (i' = i ∧ j' = j) := by
  rintro ⟨rfl, rfl⟩
  exact not_before hb

/-- The end of the inner loop is the start of the next one. -/
theorem before_next {i' j' : Nat} (hj : j' < set.nrMaps) : Before (i + 1) 0 i' j' ↔ Before i set.nrMaps i' j' := by
  unfold Before
  omega

/-- What the pair of `i` and `j` writes to `ctx->hctxs`. -/
theorem Mapping.hctxs_succ (hm : Mapping set τ i j l) {i' j' : Nat} (hb : Before i (j + 1) i' j')
    (hj' : j' < hctxMaxTypes) : setEntry l.hctxs i j (set.target j i) i' j' = set.target j' i' := by
  rcases before_succ.mp hb with hb | ⟨rfl, rfl⟩
  · rw [setEntry_of_ne _ _ hb.ne]
    exact hm.hctxs i' j' hb hj'
  · exact setEntry_self _ _ _ _

/-- The map after the pair, if it has changed at the pair only. -/
theorem Mapping.map_succ (hm : Mapping set τ i j l) {mqMap : Nat → Nat → Nat}
    (hmap : ∀ i' j', ¬ (i' = i ∧ j' = j) → mqMap j' i' = l.mqMap j' i') {i' j' : Nat}
    (hb : ¬ Before i (j + 1) i' j') : mqMap j' i' = set.mqMap j' i' := by
  obtain ⟨hb, hne⟩ := not_or.mp (before_succ.not.mp hb)
  exact (hmap i' j' hne).trans (hm.map i' j' hb)

theorem Mapping.default_succ (hm : Mapping set τ i j l) {mqMap : Nat → Nat → Nat}
    (hmap : ∀ i' j', ¬ (i' = i ∧ j' = j) → mqMap j' i' = l.mqMap j' i') (hself : mqMap j i = set.mapped j i)
    {i' : Nat} (hb : Before i (j + 1) i' 0) : mqMap 0 i' = set.mapped 0 i' := by
  rcases before_succ.mp hb with hb | ⟨rfl, rfl⟩
  · exact (hmap i' 0 hb.ne).trans (hm.default i' hb)
  · exact hself

/-- With one more pair the CPU has reached its hardware queue, and nothing else is new. -/
theorem reached_succ (hj : set.Used j) (h i' : Nat) :
    (∃ j', Before i (j + 1) i' j' ∧ set.Used j' ∧ set.mapped j' i' = h) ↔
      (∃ j', Before i j i' j' ∧ set.Used j' ∧ set.mapped j' i' = h) ∨ (i' = i ∧ h = set.mapped j i) := by
  constructor
  · rintro ⟨j', hb, hu, heq⟩
    rcases before_succ.mp hb with hb | ⟨rfl, rfl⟩
    · exact Or.inl ⟨j', hb, hu, heq⟩
    · exact Or.inr ⟨rfl, heq.symm⟩
  · rintro (⟨j', hb, hrest⟩ | ⟨rfl, rfl⟩)
    · exact ⟨j', before_succ.mpr (Or.inl hb), hrest⟩
    · exact ⟨j, before_succ.mpr (Or.inr ⟨rfl, rfl⟩), hj, rfl⟩

/-- A type without hardware queues. -/
theorem Mapping.unused (hm : Mapping set τ i j l) (hj : ¬ set.Used j) :
    Mapping set τ i (j + 1) { l with hctxs := setEntry l.hctxs i j (l.mqMap 0 i) } := by
  have hpos : j ≠ 0 := fun h0 => hj (h0 ▸ set.used_default)
  have hdefault : l.mqMap 0 i = set.target j i := by
    rw [TagSet.target_of_unused hj]
    exact hm.default i (Or.inr ⟨rfl, Nat.pos_of_ne_zero hpos⟩)
  refine ⟨fun i' j' hb => hm.map_succ (fun _ _ _ => rfl) hb, ?_, hm.mask, ?_, hm.nodup, hm.index, ?_⟩
  · intro i' hb
    exact hm.default i' ((before_succ.mp hb).resolve_right fun hc => hpos hc.2.symm)
  · intro h i'
    rw [hm.reached h i']
    constructor
    · rintro ⟨j', hb, hrest⟩
      exact ⟨j', before_succ.mpr (Or.inl hb), hrest⟩
    · rintro ⟨j', hb, hu, heq⟩
      exact ⟨j', (before_succ.mp hb).resolve_right fun hc => hj (hc.2 ▸ hu), hu, heq⟩
  · intro i' j' hb hj'
    rw [hdefault]
    exact hm.hctxs_succ hb hj'

/-- A CPU that the hardware queue has already. -/
theorem Mapping.again (hm : Mapping set τ i j l) (hj : set.Used j) {mqMap : Nat → Nat → Nat}
    (hmap : ∀ i' j', ¬ (i' = i ∧ j' = j) → mqMap j' i' = l.mqMap j' i') (hself : mqMap j i = set.mapped j i)
    (hmem : i ∈ l.ctxs (set.mapped j i)) :
    Mapping set τ i (j + 1) { l with mqMap := mqMap, hctxs := setEntry l.hctxs i j (set.mapped j i) } := by
  refine ⟨fun i' j' => hm.map_succ hmap, fun i' => hm.default_succ hmap hself, hm.mask, ?_, hm.nodup,
    hm.index, ?_⟩
  · intro h i'
    rw [reached_succ hj, ← hm.reached h i']
    constructor
    · exact Or.inl
    · rintro (hmem' | ⟨rfl, rfl⟩)
      · exact hmem'
      · exact hmem
  · intro i' j' hb hj'
    rw [← TagSet.target_of_used hj]
    exact hm.hctxs_succ hb hj'

/-- A CPU that is new to a hardware queue comes through the type of it. -/
theorem Mapping.type_of_new (hm : Mapping set τ i j l) (hu : set.Uniform cpus τ) (hi : i < cpus)
    (hj : set.Used j) (hnew : i ∉ l.ctxs (set.mapped j i)) : τ (set.mapped j i) = j := by
  obtain ⟨hle, hused, hsame⟩ := hu i hi j hj
  by_contra hne
  have hlt := Nat.lt_of_le_of_ne hle hne
  exact hnew ((hm.reached _ i).mpr ⟨τ (set.mapped j i), Or.inr ⟨rfl, hlt⟩, hused, hsame⟩)

/-- The indices after a CPU is added to a hardware queue: the CPU has one hardware queue of a type, so its
    new index is in the place of no other one. -/
theorem Mapping.index_succ (hm : Mapping set τ i j l) (hu : set.Uniform cpus τ) (hi : i < cpus)
    (hj : set.Used j) (hnew : i ∉ l.ctxs (set.mapped j i)) {h i' : Nat}
    (hmem : i' ∈ l.ctxs h ∨ (i' = i ∧ h = set.mapped j i)) :
    Function.update l.type (set.mapped j i) j h = τ h ∧
      (Function.update l.ctxs (set.mapped j i) (l.ctxs (set.mapped j i) ++ [i]) h)[
        setEntry l.indexHw i j (l.ctxs (set.mapped j i)).length i' (τ h)]? = some i' := by
  have hτ := hm.type_of_new hu hi hj hnew
  by_cases hh : h = set.mapped j i
  · subst hh
    rw [Function.update_self, Function.update_self, hτ]
    refine ⟨rfl, ?_⟩
    rcases hmem with hold | ⟨rfl, -⟩
    · have hidx := (hm.index _ i' hold).2
      have hne : i' ≠ i := fun heq => hnew (heq ▸ hold)
      rw [hτ] at hidx
      rw [setEntry_of_ne _ _ fun hc => hne hc.1,
        List.getElem?_append_left (List.getElem?_eq_some_iff.mp hidx).1]
      exact hidx
    · rw [setEntry_self]
      exact List.getElem?_concat_length
  · have hold : i' ∈ l.ctxs h := hmem.resolve_right fun hc => hh hc.2
    rw [Function.update_of_ne hh, Function.update_of_ne hh, setEntry_of_ne]
    · exact hm.index h i' hold
    · rintro ⟨rfl, hj'⟩
      obtain ⟨j', -, hused, rfl⟩ := (hm.reached h i').mp hold
      obtain ⟨-, -, hsame⟩ := hu i' hi j' hused
      rw [hj'] at hsame
      exact hh hsame.symm

/-- A CPU that is new to its hardware queue. -/
theorem Mapping.first (hm : Mapping set τ i j l) (hu : set.Uniform cpus τ) (hi : i < cpus) (hj : set.Used j)
    {mqMap : Nat → Nat → Nat} (hmap : ∀ i' j', ¬ (i' = i ∧ j' = j) → mqMap j' i' = l.mqMap j' i')
    (hself : mqMap j i = set.mapped j i) (hnew : i ∉ l.ctxs (set.mapped j i)) :
    Mapping set τ i (j + 1)
      { l with
        mqMap := mqMap
        hctxs := setEntry l.hctxs i j (set.mapped j i)
        cpumask := setEntry l.cpumask (set.mapped j i) i true
        type := Function.update l.type (set.mapped j i) j
        indexHw := setEntry l.indexHw i j (l.ctxs (set.mapped j i)).length
        ctxs := Function.update l.ctxs (set.mapped j i) (l.ctxs (set.mapped j i) ++ [i]) } := by
  -- the CPUs of a hardware queue are those of before, and the new one
  have hctxs : ∀ h i', i' ∈ Function.update l.ctxs (set.mapped j i) (l.ctxs (set.mapped j i) ++ [i]) h ↔
      i' ∈ l.ctxs h ∨ (i' = i ∧ h = set.mapped j i) := by
    intro h i'
    rw [Function.update_apply]
    split_ifs with heq
    · rw [List.mem_append, List.mem_singleton, heq, and_iff_left rfl]
    · exact ⟨Or.inl, fun hor => hor.resolve_right fun hc => heq hc.2⟩
  refine ⟨fun i' j' => hm.map_succ hmap, fun i' => hm.default_succ hmap hself, ?_, ?_, ?_, ?_, ?_⟩
  · intro h i'
    rw [hctxs h i', ← hm.mask]
    change setEntry l.cpumask (set.mapped j i) i true h i' = true ↔ _
    by_cases heq : h = set.mapped j i ∧ i' = i
    · obtain ⟨rfl, rfl⟩ := heq
      rw [setEntry_self]
      exact iff_of_true rfl (Or.inr ⟨rfl, rfl⟩)
    · rw [setEntry_of_ne _ _ heq]
      exact ⟨Or.inl, fun hor => hor.resolve_right fun hh => heq ⟨hh.2, hh.1⟩⟩
  · intro h i'
    rw [hctxs h i', reached_succ hj, ← hm.reached h i']
  · intro h
    change (Function.update l.ctxs _ _ h).Nodup
    rw [Function.update_apply]
    split_ifs
    · exact List.nodup_append'.mpr ⟨hm.nodup _, List.nodup_singleton i, List.disjoint_singleton.mpr hnew⟩
    · exact hm.nodup h
  · intro h i' hi'
    exact hm.index_succ hu hi hj hnew ((hctxs h i').mp hi')
  · intro i' j' hb hj'
    rw [← TagSet.target_of_used hj]
    exact hm.hctxs_succ hb hj'

/-- **Step.** The body of the inner loop. -/
theorem Mapping.mapOne (hm : Mapping set τ i j l) (hu : set.Uniform cpus τ) (hi : i < cpus)
    (hj : j < set.nrMaps) : Mapping set τ i (j + 1) (mapOne set i l j) := by
  unfold Dispatch.mapOne
  by_cases hzero : set.nrQueues j = 0
  · rw [if_pos hzero]
    exact hm.unused fun hused => hused.2 hzero
  · rw [if_neg hzero]
    have hused : set.Used j := ⟨hj, hzero⟩
    have hmap : l.mqMap j i = set.mqMap j i := hm.map i j not_before
    -- with or without tags, the hardware queue is that of `mapped`
    obtain ⟨mqMap, hl, hself, hrest⟩ : ∃ mqMap : Nat → Nat → Nat,
        (if set.alloc j i then l else { l with mqMap := setEntry l.mqMap j i 0 }) = { l with mqMap := mqMap } ∧
          mqMap j i = set.mapped j i ∧ ∀ i' j', ¬ (i' = i ∧ j' = j) → mqMap j' i' = l.mqMap j' i' := by
      unfold TagSet.mapped
      split_ifs
      · exact ⟨l.mqMap, rfl, hmap, fun _ _ _ => rfl⟩
      · refine ⟨setEntry l.mqMap j i 0, rfl, setEntry_self _ _ _ _, fun i' j' hne => ?_⟩
        exact setEntry_of_ne _ _ fun hc => hne hc.symm
    rw [hl]
    change Mapping set τ i (j + 1) (mapHctx i j (mqMap j i) { l with mqMap := mqMap })
    rw [hself]
    unfold mapHctx
    dsimp only
    split_ifs with hmask
    · exact hm.again hused hrest hself ((hm.mask _ i).mp hmask)
    · exact hm.first hu hi hused hrest hself fun hmem => hmask ((hm.mask _ i).mpr hmem)

/-- **Run.** The inner loop. -/
theorem Mapping.inner (hm : Mapping set τ i 0 l) (hu : set.Uniform cpus τ) (hi : i < cpus) (n : Nat)
    (hn : n ≤ set.nrMaps) : Mapping set τ i n ((List.range n).foldl (Dispatch.mapOne set i) l) := by
  induction n with
  | zero => exact hm
  | succ n ih =>
    rw [List.range_succ, List.foldl_append]
    exact (ih (Nat.le_of_succ_le hn)).mapOne hu hi hn

/-- **Step.** The body of the outer loop. -/
theorem Mapping.mapCtx (hm : Mapping set τ i 0 l) (hu : set.Uniform cpus τ) (hi : i < cpus) :
    Mapping set τ (i + 1) 0 (mapCtx set l i) := by
  have hin := hm.inner hu hi set.nrMaps (Nat.le_refl _)
  unfold Dispatch.mapCtx
  generalize (List.range set.nrMaps).foldl (Dispatch.mapOne set i) l = l at hin
  refine ⟨?_, ?_, hin.mask, ?_, hin.nodup, hin.index, ?_⟩
  · intro i' j' hb
    refine hin.map i' j' fun hb' => hb ?_
    unfold Before at hb' ⊢
    omega
  · exact fun i' hb => hin.default i' ((before_next set.nrMaps_pos).mp hb)
  · intro h i'
    rw [hin.reached h i']
    constructor
    · rintro ⟨j', hb, hused, heq⟩
      exact ⟨j', (before_next hused.1).mpr hb, hused, heq⟩
    · rintro ⟨j', hb, hused, heq⟩
      exact ⟨j', (before_next hused.1).mp hb, hused, heq⟩
  · intro i' j' hb hj'
    dsimp only
    split_ifs with hrest
    · obtain ⟨rfl, hge, -⟩ := hrest
      rw [TagSet.target_of_unused fun hused => absurd hused.1 (Nat.not_lt.mpr hge)]
      exact hin.default i' (Or.inr ⟨rfl, set.nrMaps_pos⟩)
    · refine hin.hctxs i' j' ?_ hj'
      unfold Before at hb ⊢
      omega

theorem mapping_start (set : TagSet) (τ : Nat → Nat) (old : Layout) :
    Mapping set τ 0 0 { old with mqMap := set.mqMap, cpumask := fun _ _ => false, ctxs := fun _ => [] } := by
  have hnone : ∀ {i' j'}, ¬ Before 0 0 i' j' := by
    unfold Before
    omega
  refine ⟨fun _ _ _ => rfl, fun _ hb => absurd hb hnone, ?_, ?_, fun _ => List.nodup_nil, ?_, ?_⟩
  · exact fun _ _ => iff_of_false Bool.false_ne_true List.not_mem_nil
  · exact fun _ _ => iff_of_false List.not_mem_nil fun ⟨_, hb, _⟩ => hnone hb
  · exact fun _ _ hmem => absurd hmem List.not_mem_nil
  · exact fun _ _ hb => absurd hb hnone

/-- **Run.** The outer loop. -/
theorem Mapping.outer {old : Layout} (hu : set.Uniform cpus τ) (n : Nat) (hn : n ≤ cpus) :
    Mapping set τ n 0 (blkMqMapSwqueue set n old) := by
  unfold blkMqMapSwqueue
  induction n with
  | zero => exact mapping_start set τ old
  | succ n ih =>
    rw [List.range_succ, List.foldl_append]
    exact (ih (Nat.le_of_succ_le hn)).mapCtx hu hn

theorem before_end {i' j' : Nat} : Before cpus 0 i' j' ↔ i' < cpus := by
  unfold Before
  omega

/-- In the end the queues find each other. -/
theorem Mapping.sound (hm : Mapping set τ cpus 0 l) (hu : set.Uniform cpus τ) : l.Sound set cpus where
  members := by
    intro h c
    rw [hm.reached h c]
    constructor
    · rintro ⟨j, hb, hrest⟩
      exact ⟨before_end.mp hb, j, hrest⟩
    · rintro ⟨hc, j, hrest⟩
      exact ⟨j, before_end.mpr hc, hrest⟩
  nodup := hm.nodup
  index := by
    intro h c hc
    obtain ⟨htype, hidx⟩ := hm.index h c hc
    rw [htype]
    exact hidx
  apart := by
    intro h h' c hc hc' htype
    rw [(hm.index h c hc).1, (hm.index h' c hc').1] at htype
    -- either one is what the map of their type gives the CPU
    have hone : ∀ h, c ∈ l.ctxs h → set.mapped (τ h) c = h := by
      intro h hc
      obtain ⟨j, hb, hused, rfl⟩ := (hm.reached h c).mp hc
      exact (hu c (before_end.mp hb) j hused).2.2
    rw [← hone h hc, ← hone h' hc', htype]
  hctxs := by
    intro c j hc hj
    have heq := hm.hctxs c j (before_end.mpr hc) hj
    refine ⟨heq, ?_⟩
    rw [heq, hm.reached]
    by_cases hused : set.Used j
    · exact ⟨j, before_end.mpr hc, hused, (TagSet.target_of_used hused).symm⟩
    · exact ⟨0, before_end.mpr hc, set.used_default, (TagSet.target_of_unused hused).symm⟩

end Loops

/-! ## The layout -/

/-- **`blk_mq_map_swqueue` is sound.** Over any earlier layout, and whatever allocations fail, each hardware
    queue of a uniform tag set has its CPUs once, each at the index that it keeps for the type of the
    hardware queue, and no two hardware queues of a type share one; and every CPU has for every type a
    hardware queue that has it. -/
theorem map_swqueue_sound (set : TagSet) (cpus : Nat) (old : Layout) (τ : Nat → Nat)
    (hu : set.Uniform cpus τ) : (blkMqMapSwqueue set cpus old).Sound set cpus :=
  (Mapping.outer hu cpus (Nat.le_refl _)).sound hu

/-- A default queue and one for reads, which the two CPUs share. -/
def readQueue : TagSet where
  nrMaps := 2
  nrQueues := fun _ => 1
  mqMap := fun j _ => j
  alloc := fun _ _ => true
  nrMaps_pos := by decide
  nrMaps_le := by decide
  hasDefault := by decide

/-- Queues as they are allocated. -/
def Layout.zero : Layout where
  mqMap := fun _ _ => 0
  cpumask := fun _ _ => false
  type := fun _ => 0
  ctxs := fun _ => []
  indexHw := fun _ _ => 0
  hctxs := fun _ _ => 0

theorem readQueue_uniform : readQueue.Uniform 2 id := fun _ _ _ hj => ⟨Nat.le_refl _, hj, rfl⟩

theorem map_swqueue_sound_read :
    readQueue.Uniform 2 id ∧ (blkMqMapSwqueue readQueue 2 Layout.zero).Sound readQueue 2 :=
  ⟨readQueue_uniform, map_swqueue_sound readQueue 2 Layout.zero id readQueue_uniform⟩

/-- A tag set with one map is uniform. -/
theorem TagSet.uniform_of_one (set : TagSet) (cpus : Nat) (h : set.nrMaps = 1) :
    set.Uniform cpus fun _ => 0 := by
  intro i _ j hj
  have hzero : j = 0 := by
    have hlt := hj.1
    omega
  subst hzero
  exact ⟨Nat.le_refl 0, hj, rfl⟩

/-- Two default queues, and one for reads that has no tags: the third CPU is remapped to the first queue,
    which then has the type of reads. -/
def withoutTags : TagSet where
  nrMaps := 2
  nrQueues := fun _ => 1
  mqMap := fun j i => if j = 1 then 2 else i / 2
  alloc := fun j _ => j == 0
  nrMaps_pos := by decide
  nrMaps_le := by decide
  hasDefault := by decide

-- without uniformity: the second CPU is at another index than the one it has for reads
example : (blkMqMapSwqueue withoutTags 3 Layout.zero).ctxs 0 = [0, 1, 2] ∧
    (blkMqMapSwqueue withoutTags 3 Layout.zero).type 0 = 1 ∧
    (blkMqMapSwqueue withoutTags 3 Layout.zero).indexHw 1 1 = 0 := by
  decide

/-! ## The hardware of a queue -/

section Hardware

variable {set : TagSet} {cpus : Nat} {l : Layout}

/-- The queue `q` with its hardware queues as they are laid out. -/
def Layout.hardware (l : Layout) (hl : l.Sound set cpus) (q : Nat)
    (elevator single queueRqs commitRqs : Bool) : Hardware where
  queue := fun _ => q
  type := l.type
  ctxs := l.ctxs
  indexHw := l.indexHw
  elevator := fun _ => elevator
  single := fun _ => single
  queueRqs := fun _ => queueRqs
  commitRqs := fun _ => commitRqs
  nodup := hl.nodup
  index := fun {h c} => hl.index h c
  apart := fun {h h' c} => hl.apart h h' c

/-- A request of a CPU, with the hardware queue that the CPU has for its type, is one that the dispatch
    takes. -/
theorem Layout.Sound.mapped (hl : l.Sound set cpus) {q j : Nat} {elevator single queueRqs commitRqs : Bool}
    {rq : Rq} (hq : rq.q = q) (hcpu : rq.mqCtx < cpus) (hj : j < hctxMaxTypes)
    (hhctx : rq.mqHctx = l.hctxs rq.mqCtx j) (htag : elevator = true → rq.schedTags = true) :
    rq.Mapped (l.hardware hl q elevator single queueRqs commitRqs) where
  queue := hq.symm
  ctx := by
    change rq.mqCtx ∈ l.ctxs rq.mqHctx
    rw [hhctx]
    exact (hl.hctxs rq.mqCtx j hcpu hj).2
  tag := htag

end Hardware

end Dispatch
end Block
end SystemsPlayground
