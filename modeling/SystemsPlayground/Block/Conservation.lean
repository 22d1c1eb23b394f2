import Mathlib.Data.List.Nodup
import SystemsPlayground.Lib.Custody
import SystemsPlayground.Lib.Runs
import SystemsPlayground.Block.Dispatch

/-!
# `Block.Conservation` — no request is lost between the plug and the driver

One invariant for the whole of `Block.Dispatch`, with the requests that a function has in hand: every
request is in hand or on exactly one list, and on one where it belongs; the bit of a software queue is set
exactly when there is a request in it; and a request with a tag of the scheduler has a driver tag only with
the driver or on the list that is dispatched next. Each list operation keeps it (`Inv.put`, `Inv.take` and
their like), and so each function does, whatever the answers are.
-/

namespace SystemsPlayground
namespace Block
namespace Dispatch

open Custody Runs

/-! ## The invariant -/

/-- Where a request may be: a software queue has those of its CPU and type, `hctx->dispatch` those of the
    hardware queue, and neither a software queue nor the scheduler ever sees a passthrough request. -/
def Belongs (hw : Hardware) : Spot → Rq → Prop
  | .sw c type, rq  => rq.mqCtx = c ∧ hw.type rq.mqHctx = type ∧ rq.passthrough = false
  | .dispatch h, rq => rq.mqHctx = h
  | .sched q, rq    => rq.q = q ∧ rq.passthrough = false
  | .requeue q, rq  => rq.q = q
  | .flush q, rq    => rq.q = q
  | _, _            => True

/-- A request as `blk_mq_rq_ctx_init` makes it: its software queue is mapped to its hardware queue, and with
    a scheduler it has a tag of it. -/
structure Rq.Mapped (hw : Hardware) (rq : Rq) : Prop where
  queue : hw.queue rq.mqHctx = rq.q
  ctx : rq.mqCtx ∈ hw.ctxs rq.mqHctx
  tag : hw.elevator rq.q = true → rq.schedTags = true

/-- `rq_count` counts the list, `multiple_queues` is set if there are requests of different queues, and
    `has_elevator` if one has a tag of the scheduler. -/
structure PlugInfo.Describes (info : PlugInfo) (rqs : List Rq) : Prop where
  count : info.rqCount = rqs.length
  oneQueue : info.multipleQueues = false → ∀ rq ∈ rqs, ∀ rq' ∈ rqs, rq.q = rq'.q
  noElevator : info.hasElevator = false → ∀ rq ∈ rqs, rq.schedTags = false

/-- The spots where a request with a tag of the scheduler has no driver tag. On `hctx->dispatch` it may still
    have the one that it was given out with. -/
def Spot.Tagless : Spot → Prop
  | .driver     => False
  | .dispatch _ => False
  | _           => True

/-- The invariant, with the plugs as they are, `f`, and with the requests in hand: those for which a driver
    tag may have been got already, and the others. -/
structure Inv (host : Host) (f : Nat → PlugInfo × List Rq) (s : Mq) (armed hand : List Rq) : Prop where
  kept : Kept (Belongs host.hw) s.list (armed ++ hand) s.all
  mapped : ∀ rq ∈ s.all, rq.Mapped host.hw
  ids : ∀ rq ∈ s.all, ∀ rq' ∈ s.all, rq.id = rq'.id → rq = rq'
  pending : ∀ {h c}, c ∈ host.hw.ctxs h →
    (s.ctxMap h (host.hw.indexHw c (host.hw.type h)) = true ↔ s.list (.sw c (host.hw.type h)) ≠ [])
  untagged : ∀ {p : Spot} {rq : Rq}, p.Tagless → rq ∈ s.list p → rq.schedTags = true → s.tagged rq.id = false
  hand_untagged : ∀ rq ∈ hand, rq.schedTags = true → s.tagged rq.id = false
  told : ∀ q rqs, Event.queueRqs q rqs ∈ s.log → ∀ rq ∈ rqs, rq.q = q ∧ rq.schedTags = false
  plugs : ∀ t, s.plug t = (f t).1 ∧ s.list (.plug t) = (f t).2
  described : ∀ t, (f t).1.Describes (f t).2
  sane : s.bug = false ∧ s.warned = false

/-- The spots that neither a bit nor a plug goes with. -/
def Spot.Plain : Spot → Prop
  | .sw _ _ => False
  | .plug _ => False
  | _       => True

section Primitives

variable {host : Host} {f : Nat → PlugInfo × List Rq} {s : Mq} {armed hand hand' xs rest l : List Rq}
  {rq : Rq} {p : Spot} {h c : Nat}

@[simp] theorem list_setList (s : Mq) (p : Spot) (l : List Rq) :
    (s.setList p l).list = Function.update s.list p l := rfl

theorem list_setList_of_ne {q : Spot} (hq : q ≠ p) (l : List Rq) : (s.setList p l).list q = s.list q :=
  Function.update_of_ne hq _ _

theorem Inv.perm (hi : Inv host f s armed hand) (hp : hand'.Perm hand) : Inv host f s armed hand' :=
  ⟨hi.kept.perm (hp.append_left armed), hi.mapped, hi.ids, hi.pending, hi.untagged,
    fun rq hrq => hi.hand_untagged rq (hp.mem_iff.mp hrq), hi.told, hi.plugs, hi.described, hi.sane⟩

theorem Inv.mapped_of_hand (hi : Inv host f s armed hand) (hrq : rq ∈ hand) : rq.Mapped host.hw :=
  hi.mapped rq (hi.kept.mem_of_hand (List.mem_append_right _ hrq))

theorem Inv.next (hi : Inv host f s armed hand) : Inv host f s.next armed hand :=
  ⟨hi.kept, hi.mapped, hi.ids, hi.pending, hi.untagged, hi.hand_untagged, hi.told, hi.plugs, hi.described,
    hi.sane⟩

theorem Inv.turn (hi : Inv host f s armed hand) (turns : Bool) : Inv host f (s.turn turns) armed hand :=
  ⟨hi.kept, hi.mapped, hi.ids, hi.pending, hi.untagged, hi.hand_untagged, hi.told, hi.plugs, hi.described,
    hi.sane⟩

theorem Inv.updateDispatchBusy (hi : Inv host f s armed hand) (busy : Bool) :
    Inv host f (blkMqUpdateDispatchBusy h busy s) armed hand := by
  unfold blkMqUpdateDispatchBusy
  dsimp only
  split_ifs
  · exact hi
  · exact ⟨hi.kept, hi.mapped, hi.ids, hi.pending, hi.untagged, hi.hand_untagged, hi.told, hi.plugs,
      hi.described, hi.sane⟩
  · exact ⟨hi.kept, hi.mapped, hi.ids, hi.pending, hi.untagged, hi.hand_untagged, hi.told, hi.plugs,
      hi.described, hi.sane⟩

theorem Inv.warnOn {b : Bool} (hi : Inv host f s armed hand) (hb : b = false) :
    Inv host f (s.warnOn b) armed hand :=
  ⟨hi.kept, hi.mapped, hi.ids, hi.pending, hi.untagged, hi.hand_untagged, hi.told, hi.plugs, hi.described,
    hi.sane.1, by rw [Mq.warnOn, hi.sane.2, hb]; rfl⟩

theorem Inv.bugOn {b : Bool} (hi : Inv host f s armed hand) (hb : b = false) :
    Inv host f (s.bugOn b) armed hand :=
  ⟨hi.kept, hi.mapped, hi.ids, hi.pending, hi.untagged, hi.hand_untagged, hi.told, hi.plugs,
    hi.described, by rw [Mq.bugOn, hi.sane.1, hb]; rfl, hi.sane.2⟩

/-- The driver is told something; a batch must be of one queue and without tags of the scheduler. -/
theorem Inv.tell {e : Event} (hi : Inv host f s armed hand)
    (he : ∀ q rqs, e = .queueRqs q rqs → ∀ rq ∈ rqs, rq.q = q ∧ rq.schedTags = false) :
    Inv host f (s.tell e) armed hand where
  kept := hi.kept
  mapped := hi.mapped
  ids := hi.ids
  pending := hi.pending
  untagged := hi.untagged
  hand_untagged := hi.hand_untagged
  told := fun q rqs hm => by
    rcases List.mem_append.mp hm with hm | hm
    · exact hi.told q rqs hm
    · exact he q rqs (List.mem_singleton.mp hm).symm
  plugs := hi.plugs
  described := hi.described
  sane := hi.sane

theorem Inv.commitRqs (hi : Inv host f s armed hand) (queued : Nat) :
    Inv host f (blkMqCommitRqs host h queued s) armed hand := by
  unfold blkMqCommitRqs
  split_ifs
  · exact hi.tell fun q rqs he => by simp at he
  · exact hi

/-! ### Tags -/

/-- Requests may be considered as such that have got a tag. -/
theorem Inv.arm (xs : List Rq) (hi : Inv host f s armed (xs ++ hand)) : Inv host f s (xs ++ armed) hand where
  kept := hi.kept.perm (by rw [List.append_assoc]; exact List.perm_append_comm_assoc ..)
  mapped := hi.mapped
  ids := hi.ids
  pending := hi.pending
  untagged := hi.untagged
  hand_untagged := fun rq hrq => hi.hand_untagged rq (List.mem_append_right _ hrq)
  told := hi.told
  plugs := hi.plugs
  described := hi.described
  sane := hi.sane

/-- Requests in hand may be given driver tags from now on. -/
theorem Inv.armAll (hi : Inv host f s [] (xs ++ hand)) : Inv host f s xs hand := by
  have harmed := hi.arm xs
  rwa [List.append_nil] at harmed

/-- Those that have no driver tag may be put anywhere again. -/
theorem Inv.disarm (xs : List Rq) (hi : Inv host f s (xs ++ armed) hand)
    (hxs : ∀ rq ∈ xs, rq.schedTags = true → s.tagged rq.id = false) : Inv host f s armed (xs ++ hand) where
  kept := hi.kept.perm (by rw [List.append_assoc]; exact List.perm_append_comm_assoc ..)
  mapped := hi.mapped
  ids := hi.ids
  pending := hi.pending
  untagged := hi.untagged
  hand_untagged := fun rq hrq => (List.mem_append.mp hrq).elim (hxs rq) (hi.hand_untagged rq)
  told := hi.told
  plugs := hi.plugs
  described := hi.described
  sane := hi.sane

/-- The tag of such a request changes nothing for the others. -/
theorem Inv.setTagged (hi : Inv host f s armed hand) (hmem : rq ∈ armed) (b : Bool) :
    Inv host f (s.setTagged rq b) armed hand := by
  have hheld : rq ∈ armed ++ hand := List.mem_append_left _ hmem
  have hrq : rq ∈ s.all := hi.kept.mem_of_hand hheld
  refine ⟨hi.kept, hi.mapped, hi.ids, hi.pending, ?_, ?_, hi.told, hi.plugs, hi.described, hi.sane⟩
  · intro p r hp hr htag
    have hne : r.id ≠ rq.id := by
      intro heq
      obtain rfl := hi.ids r (hi.kept.mem_of_place hr) rq hrq heq
      exact hi.kept.apart hr hheld
    exact (Function.update_of_ne hne _ _).trans (hi.untagged hp hr htag)
  · intro r hr htag
    have hne : r.id ≠ rq.id := by
      intro heq
      obtain rfl := hi.ids r (hi.kept.mem_of_hand (List.mem_append_right _ hr)) rq hrq heq
      exact (List.nodup_append'.mp hi.kept.hand_nodup).2.2 hmem hr
    exact (Function.update_of_ne hne _ _).trans (hi.hand_untagged r hr htag)

/-- `blk_mq_put_driver_tag` makes it a request like those that wait. -/
theorem Inv.putDriverTag (hi : Inv host f s (rq :: armed) hand) :
    Inv host f (blkMqPutDriverTag rq s) armed (rq :: hand) := by
  unfold blkMqPutDriverTag
  split_ifs with htag
  · refine (hi.setTagged List.mem_cons_self false).disarm [rq] fun r hr _ => ?_
    rw [List.mem_singleton.mp hr]
    exact Function.update_self _ _ _
  · refine hi.disarm [rq] fun r hr hr' => absurd hr' ?_
    rw [List.mem_singleton.mp hr]
    exact htag

/-! ### Lists -/

/-- **Put.** Requests in hand go to a list where they belong, and to one that tags may come to unless they
    have none. -/
theorem Inv.park (xs : List Rq) (hi : Inv host f s (xs ++ armed) hand) (hl : l.Perm (xs ++ s.list p))
    (hb : ∀ rq ∈ xs, Belongs host.hw p rq) (hp : p.Plain)
    (hxs : p.Tagless → ∀ rq ∈ xs, rq.schedTags = true → s.tagged rq.id = false) :
    Inv host f (s.setList p l) armed hand where
  kept := (hi.kept.perm (List.Perm.of_eq (List.append_assoc xs armed hand).symm)).put xs hl hb
  mapped := hi.mapped
  ids := hi.ids
  pending := by
    intro h c hc
    rw [list_setList_of_ne (by rintro rfl; exact hp)]
    exact hi.pending hc
  untagged := by
    intro p' rq hp' hrq htag
    rw [list_setList, Function.update_apply] at hrq
    split_ifs at hrq with heq
    · rcases List.mem_append.mp (hl.mem_iff.mp hrq) with hrq | hrq
      · exact hxs (heq ▸ hp') rq hrq htag
      · exact hi.untagged (heq ▸ hp') hrq htag
    · exact hi.untagged hp' hrq htag
  hand_untagged := hi.hand_untagged
  told := hi.told
  plugs := by
    intro t
    rw [list_setList_of_ne (by rintro rfl; exact hp)]
    exact hi.plugs t
  described := hi.described
  sane := hi.sane

/-- Requests in hand are put into a list where they belong. -/
theorem Inv.put (xs : List Rq) (hi : Inv host f s armed (xs ++ hand)) (hl : l.Perm (xs ++ s.list p))
    (hb : ∀ rq ∈ xs, Belongs host.hw p rq) (hp : p.Plain) : Inv host f (s.setList p l) armed hand :=
  (hi.arm xs).park xs hl hb hp fun _ rq hrq => hi.hand_untagged rq (List.mem_append_left _ hrq)

theorem Inv.addTail (xs : List Rq) (hi : Inv host f s armed (xs ++ hand)) (hb : ∀ rq ∈ xs, Belongs host.hw p rq)
    (hp : p.Plain) : Inv host f (s.addTail p xs) armed hand :=
  hi.put xs List.perm_append_comm hb hp

/-- The driver accepts the request. -/
theorem Inv.accept (hi : Inv host f s (rq :: armed) hand) : Inv host f (s.addTail .driver [rq]) armed hand :=
  hi.park [rq] List.perm_append_comm (fun _ _ => trivial) trivial fun hp => hp.elim

/-- **Take.** Requests on a list go into the hand, with the tags that they may have there. -/
theorem Inv.draw (xs rest : List Rq) (hi : Inv host f s armed hand) (hl : (s.list p).Perm (xs ++ rest))
    (hp : p.Plain) : Inv host f (s.setList p rest) (xs ++ armed) hand where
  kept := (hi.kept.take xs rest hl).perm (List.Perm.of_eq (List.append_assoc xs armed hand))
  mapped := hi.mapped
  ids := hi.ids
  pending := by
    intro h c hc
    rw [list_setList_of_ne (by rintro rfl; exact hp)]
    exact hi.pending hc
  untagged := by
    intro p' rq hp' hrq htag
    rw [list_setList, Function.update_apply] at hrq
    split_ifs at hrq with heq
    · exact hi.untagged (heq ▸ hp') (hl.mem_iff.mpr (List.mem_append_right _ hrq)) htag
    · exact hi.untagged hp' hrq htag
  hand_untagged := hi.hand_untagged
  told := hi.told
  plugs := by
    intro t
    rw [list_setList_of_ne (by rintro rfl; exact hp)]
    exact hi.plugs t
  described := hi.described
  sane := hi.sane

/-- Requests are taken out of a list where they have no driver tags. -/
theorem Inv.take (xs rest : List Rq) (hi : Inv host f s armed hand) (hl : (s.list p).Perm (xs ++ rest))
    (hp : p.Plain) (hd : p.Tagless) : Inv host f (s.setList p rest) armed (xs ++ hand) :=
  (hi.draw xs rest hl hp).disarm xs fun _ hrq => hi.untagged hd (hl.mem_iff.mpr (List.mem_append_left _ hrq))

/-- A request comes back from the driver. -/
theorem Inv.takeBack (hi : Inv host f s [] hand) (hrq : rq ∈ s.list .driver) :
    Inv host f (s.setList .driver ((s.list .driver).erase rq)) [rq] hand :=
  hi.draw [rq] _ (List.perm_cons_erase hrq) trivial

/-! ### Software queues -/

/-- The bit of a software queue and its list change together. -/
theorem Inv.pending_setBit (s' : Mq) (hi : Inv host f s armed hand) (hc : c ∈ host.hw.ctxs h) {b : Bool}
    (hb : b = true ↔ l ≠ []) (hlist : s'.list = Function.update s.list (.sw c (host.hw.type h)) l)
    (hmap : s'.ctxMap = (s.setBit h (host.hw.indexHw c (host.hw.type h)) b).ctxMap) {h' c' : Nat}
    (hc' : c' ∈ host.hw.ctxs h') :
    (s'.ctxMap h' (host.hw.indexHw c' (host.hw.type h')) = true ↔
      s'.list (.sw c' (host.hw.type h')) ≠ []) := by
  rw [hlist, hmap, Mq.setBit]
  dsimp only
  by_cases hh : h' = h
  · subst hh
    rw [Function.update_self]
    by_cases hcc : c' = c
    · subst hcc
      rw [Function.update_self, Function.update_self]
      exact hb
    · -- another software queue of the same hardware queue has another index
      have hne : host.hw.indexHw c' (host.hw.type h') ≠ host.hw.indexHw c (host.hw.type h') := by
        intro heq
        have hat := host.hw.index hc'
        rw [heq, host.hw.index hc] at hat
        exact hcc (Option.some.inj hat).symm
      rw [Function.update_of_ne hne, Function.update_of_ne (by simp [hcc])]
      exact hi.pending hc'
  · -- and a software queue has only one hardware queue of a type
    have hne : Spot.sw c' (host.hw.type h') ≠ Spot.sw c (host.hw.type h) := by
      intro heq
      obtain ⟨rfl, htype⟩ := Spot.sw.inj heq
      exact hh (host.hw.apart hc' hc htype)
    rw [Function.update_of_ne hh, Function.update_of_ne hne]
    exact hi.pending hc'

/-- Requests in hand go into a software queue, which is marked. -/
theorem Inv.putSw (xs : List Rq) (hi : Inv host f s armed (xs ++ hand)) (hc : c ∈ host.hw.ctxs h) (hne : xs ≠ [])
    (hl : l.Perm (xs ++ s.list (.sw c (host.hw.type h))))
    (hb : ∀ rq ∈ xs, Belongs host.hw (.sw c (host.hw.type h)) rq) :
    Inv host f (blkMqHctxMarkPending host h c (s.setList (.sw c (host.hw.type h)) l)) armed hand where
  kept := (hi.kept.perm (List.perm_append_comm_assoc xs armed hand)).put xs hl hb
  mapped := hi.mapped
  ids := hi.ids
  pending := by
    intro h' c' hc'
    refine Inv.pending_setBit (blkMqHctxMarkPending host h c (s.setList (.sw c (host.hw.type h)) l)) hi hc
      (b := true) ⟨fun _ hnil => hne ?_, fun _ => rfl⟩ rfl rfl hc'
    rw [hnil] at hl
    exact (List.append_eq_nil_iff.mp hl.nil_eq.symm).1
  untagged := by
    intro p' rq hp' hrq htag
    change rq ∈ Function.update s.list _ l p' at hrq
    rw [Function.update_apply] at hrq
    split_ifs at hrq with heq
    · rcases List.mem_append.mp (hl.mem_iff.mp hrq) with hrq | hrq
      · exact hi.hand_untagged rq (List.mem_append_left _ hrq) htag
      · exact hi.untagged (heq ▸ hp') hrq htag
    · exact hi.untagged hp' hrq htag
  hand_untagged := fun rq hrq => hi.hand_untagged rq (List.mem_append_right _ hrq)
  told := hi.told
  plugs := by
    intro t
    change s.plug t = _ ∧ Function.update s.list (.sw c (host.hw.type h)) l (.plug t) = _
    rw [Function.update_of_ne (by simp)]
    exact hi.plugs t
  described := hi.described
  sane := hi.sane

/-- Requests of a software queue go into the hand; its bit is then set if there are others. -/
theorem Inv.takeSw (xs rest : List Rq) (hi : Inv host f s armed hand) (hc : c ∈ host.hw.ctxs h) {s' : Mq} {b : Bool}
    (hl : (s.list (.sw c (host.hw.type h))).Perm (xs ++ rest)) (hb : b = true ↔ rest ≠ [])
    (hs : s' = (s.setList (.sw c (host.hw.type h)) rest).setBit h (host.hw.indexHw c (host.hw.type h)) b) :
    Inv host f s' armed (xs ++ hand) := by
  subst hs
  refine ⟨(hi.kept.take xs rest hl).perm (List.perm_append_comm_assoc armed xs hand), hi.mapped, hi.ids, ?_, ?_, ?_,
    hi.told, ?_, hi.described, hi.sane⟩
  · intro h' c' hc'
    exact Inv.pending_setBit ((s.setList _ rest).setBit h _ b) hi hc hb rfl rfl hc'
  · intro p' rq hp' hrq htag
    change rq ∈ Function.update s.list _ rest p' at hrq
    rw [Function.update_apply] at hrq
    split_ifs at hrq with heq
    · exact hi.untagged (p := .sw c (host.hw.type h)) trivial (hl.mem_iff.mpr (List.mem_append_right _ hrq)) htag
    · exact hi.untagged hp' hrq htag
  · intro rq hrq htag
    rcases List.mem_append.mp hrq with hrq | hrq
    · exact hi.untagged (p := .sw c (host.hw.type h)) trivial (hl.mem_iff.mpr (List.mem_append_left _ hrq)) htag
    · exact hi.hand_untagged rq hrq htag
  · intro t
    change s.plug t = _ ∧ Function.update s.list (.sw c (host.hw.type h)) rest (.plug t) = _
    rw [Function.update_of_ne (by simp)]
    exact hi.plugs t

end Primitives

/-! ## The functions keep it -/

section Functions

variable {host : Host} {f : Nat → PlugInfo × List Rq} {s : Mq} {armed hand rqs : List Rq} {rq : Rq} {h : Nat}

/-- After an attempt to get a tag for a request. -/
def Armed (host : Host) (f : Nat → PlugInfo × List Rq) (rq : Rq) (hand : List Rq) : Bool × Mq → Prop
  | (true, s)  => Inv host f s [rq] hand
  | (false, s) => Inv host f s [] (rq :: hand)

/-- `blk_mq_get_driver_tag` that fails leaves the request without a tag. -/
theorem Inv.getDriverTag (hi : Inv host f s [] (rq :: hand)) :
    Armed host f rq hand (blkMqGetDriverTag host rq s) := by
  unfold blkMqGetDriverTag
  split_ifs
  · exact hi.arm [rq]
  · exact ((hi.arm [rq]).setTagged List.mem_cons_self true).next
  · exact hi.next

/-- The attempt for one of the requests that may have a tag. -/
theorem Inv.tryDriverTag (hi : Inv host f s armed hand) (hmem : rq ∈ armed) :
    Inv host f (blkMqGetDriverTag host rq s).2 armed hand := by
  unfold blkMqGetDriverTag
  split_ifs
  · exact hi
  · exact (hi.setTagged hmem true).next
  · exact hi.next

/-- The scheduler gets driver tags for what it gives out, as far as there are any. -/
theorem Inv.getDriverTags (rqs : List Rq) (hi : Inv host f s armed hand) (hsub : rqs ⊆ armed) :
    Inv host f (getDriverTags host rqs s) armed hand := by
  unfold Dispatch.getDriverTags
  induction rqs generalizing s with
  | nil => exact hi
  | cons rq rqs ih =>
      obtain ⟨hmem, hsub⟩ := List.cons_subset.mp hsub
      exact ih (hi.tryDriverTag hmem) hsub

/-- Without a budget or a tag the request stays in hand. -/
theorem Inv.prepDispatchRq (hi : Inv host f s (rq :: armed) hand) (needBudget : Bool) :
    Inv host f (blkMqPrepDispatchRq host rq needBudget s).2 (rq :: armed) hand := by
  unfold blkMqPrepDispatchRq
  split_ifs
  · exact (hi.putDriverTag.arm [rq]).next
  · have htag := hi.next.tryDriverTag List.mem_cons_self
    generalize blkMqGetDriverTag host rq s.next = r at htag ⊢
    obtain ⟨got, s'⟩ := r
    cases got with
    | true => exact htag
    | false =>
        dsimp only [blkMqMarkTagWait]
        split_ifs
        · exact (Inv.setTagged htag List.mem_cons_self true).next
        · exact Inv.next htag

/-- The tag comes last, so that a failed call leaves none behind. -/
theorem Inv.getBudgetAndTag (hi : Inv host f s [] (rq :: hand)) :
    Armed host f rq hand (blkMqGetBudgetAndTag host rq s) := by
  unfold blkMqGetBudgetAndTag
  split_ifs
  · exact hi.next.getDriverTag
  · exact hi.next

theorem Inv.endRequest (hi : Inv host f s (rq :: armed) hand) : Inv host f (blkMqEndRequest rq s) armed hand := by
  refine (hi.setTagged List.mem_cons_self false).park [rq] List.perm_append_comm (fun _ _ => trivial) trivial ?_
  intro _ r hr _
  rw [List.mem_singleton.mp hr]
  exact Function.update_self _ _ _

/-- After `queue_rq`. -/
def Answered (host : Host) (f : Nat → PlugInfo × List Rq) (rq : Rq) (armed hand : List Rq) : BlkStatus × Mq → Prop
  | (.ok, s) => Inv host f s armed hand
  | (_, s)   => Inv host f s (rq :: armed) hand

/-- The driver has the request if it takes it; otherwise it is still in hand, with its tag. -/
theorem Inv.queueRq (hi : Inv host f s (rq :: armed) hand) (last : Bool) :
    Answered host f rq armed hand (queueRq host h rq last s) := by
  have htold : Inv host f ((s.turn (host.answer s.tick).turns).tell
      (.queueRq h rq last (host.answer s.tick).ret)) (rq :: armed) hand :=
    (hi.turn _).tell fun q rqs he => by simp at he
  unfold Dispatch.queueRq
  dsimp only
  generalize (host.answer s.tick).ret = ret at htold ⊢
  cases ret with
  | ok          => exact htold.accept
  | resource    => exact htold
  | devResource => exact htold
  | error e     => exact htold

/-! ### `blk_mq_dispatch_rq_list` -/

/-- **Step of `blk_mq_dispatch_rq_list`.** The loop hands over requests from the front. What it leaves is a last
    part of the list, which may still have driver tags. -/
theorem Inv.dispatchLoop (getBudget : Bool) (queued : Nat) (ret : BlkStatus)
    (hi : Inv host f s rqs hand) (hh : ∀ rq ∈ rqs, rq.mqHctx = h) :
    Inv host f (dispatchLoop host h getBudget rqs queued ret s).2.2.2
        (dispatchLoop host h getBudget rqs queued ret s).1 hand ∧
      (dispatchLoop host h getBudget rqs queued ret s).1 <:+ rqs := by
  induction rqs generalizing queued ret s with
  | nil => exact ⟨hi, List.suffix_rfl⟩
  | cons rq rqs ih =>
      have hwarn : (h != rq.mqHctx) = false := by
        rw [hh rq List.mem_cons_self]
        exact bne_self_eq_false h
      have hrest : ∀ rq ∈ rqs, rq.mqHctx = h := fun rq hrq => hh rq (List.mem_cons_of_mem _ hrq)
      have hprep := (hi.warnOn hwarn).prepDispatchRq getBudget
      unfold Dispatch.dispatchLoop
      generalize blkMqPrepDispatchRq host rq getBudget (s.warnOn (h != rq.mqHctx)) = r at hprep ⊢
      obtain ⟨ready, s₁⟩ := r
      cases ready with
      | false => exact ⟨hprep, List.suffix_rfl⟩
      | true =>
          have hq := Inv.queueRq (h := h) hprep rqs.isEmpty
          dsimp only
          generalize Dispatch.queueRq host h rq rqs.isEmpty s₁ = r at hq ⊢
          obtain ⟨verdict, s₂⟩ := r
          cases verdict with
          | ok =>
              obtain ⟨hi', hsuf⟩ := ih (queued + 1) .ok hq hrest
              exact ⟨hi', hsuf.trans (List.suffix_cons _ _)⟩
          | resource => exact ⟨(Inv.putDriverTag hq).arm [rq], List.suffix_rfl⟩
          | devResource => exact ⟨(Inv.putDriverTag hq).arm [rq], List.suffix_rfl⟩
          | error e =>
              obtain ⟨hi', hsuf⟩ := ih queued (.error e) (Inv.endRequest hq) hrest
              exact ⟨hi', hsuf.trans (List.suffix_cons _ _)⟩

/-- `blk_mq_dispatch_rq_list` puts what is left onto `hctx->dispatch`, so that nothing stays in hand. -/
theorem Inv.dispatchRqList (rqs : List Rq) (getBudget : Bool) (hi : Inv host f s rqs hand)
    (hh : ∀ rq ∈ rqs, rq.mqHctx = h) : Inv host f (blkMqDispatchRqList host h rqs getBudget s).2 [] hand := by
  unfold blkMqDispatchRqList
  split_ifs with hnil
  · rw [hnil] at hi
    exact hi
  · obtain ⟨hloop, hsuf⟩ := Inv.dispatchLoop getBudget 0 .ok hi hh
    generalize Dispatch.dispatchLoop host h getBudget rqs 0 .ok s = r at hloop hsuf
    obtain ⟨left, queued, ret, s'⟩ := r
    dsimp only at hloop hsuf ⊢
    have hcommit : Inv host f (if left ≠ [] ∨ ret ≠ .ok then blkMqCommitRqs host h queued s' else s') left
        hand := by
      split_ifs
      · exact hloop.commitRqs queued
      · exact hloop
    generalize (if left ≠ [] ∨ ret ≠ .ok then blkMqCommitRqs host h queued s' else s') = s'' at hcommit ⊢
    by_cases hleft : left = []
    · subst hleft
      exact hcommit.updateDispatchBusy false
    · rw [if_pos hleft]
      -- the requests behind the refused one keep their tags
      have hparked : Inv host f (s''.addTail (.dispatch h) left) [] hand :=
        Inv.park left (by rwa [List.append_nil]) List.perm_append_comm (fun rq hrq => hh rq (hsuf.subset hrq))
          trivial fun hp => hp.elim
      exact hparked.updateDispatchBusy true

/-! ### Running a hardware queue -/

/-- A software queue of the hardware queue has only requests of it. -/
theorem Inv.mqHctx_of_sw {c : Nat} (hi : Inv host f s armed hand) (hc : c ∈ host.hw.ctxs h)
    (hrq : rq ∈ s.list (.sw c (host.hw.type h))) : rq.mqHctx = h := by
  obtain ⟨hctx, htype, -⟩ := hi.kept.home hrq
  have hm := (hi.mapped rq (hi.kept.mem_of_place hrq)).ctx
  rw [hctx] at hm
  exact host.hw.apart hm hc htype

/-- The bit of a software queue is that of its index. -/
theorem Hardware.indexHw_eq (hw : Hardware) {h bit c : Nat} (hc : (hw.ctxs h)[bit]? = some c) :
    c ∈ hw.ctxs h ∧ hw.indexHw c (hw.type h) = bit := by
  have hmem := List.mem_of_getElem? hc
  refine ⟨hmem, ?_⟩
  have hat := hw.index hmem
  obtain ⟨hlt, hbit⟩ := List.getElem?_eq_some_iff.mp hc
  obtain ⟨hlt', hidx⟩ := List.getElem?_eq_some_iff.mp hat
  exact (hw.nodup h).getElem_inj_iff.mp (hidx.trans hbit.symm)

/-- A software queue is emptied and its bit is cleared; all it had is of the hardware queue. -/
theorem Inv.flushBusyCtx (bit : Nat) (hi : Inv host f s [] (rqs ++ hand)) (hh : ∀ rq ∈ rqs, rq.mqHctx = h) :
    Inv host f (flushBusyCtx host h (rqs, s) bit).2 [] ((flushBusyCtx host h (rqs, s) bit).1 ++ hand) ∧
      ∀ rq ∈ (flushBusyCtx host h (rqs, s) bit).1, rq.mqHctx = h := by
  unfold Dispatch.flushBusyCtx
  dsimp only
  split_ifs
  · cases hc : (host.hw.ctxs h)[bit]? with
    | none => exact ⟨hi, hh⟩
    | some c =>
        obtain ⟨hmem, hbit⟩ := host.hw.indexHw_eq hc
        dsimp only
        constructor
        · have htaken := hi.takeSw (s.list (.sw c (host.hw.type h))) [] (b := false) hmem
            (by rw [List.append_nil]) (by simp) rfl
          rw [hbit] at htaken
          refine htaken.perm ?_
          rw [List.append_assoc]
          exact List.perm_append_comm_assoc ..
        · intro rq hrq
          rcases List.mem_append.mp hrq with hrq | hrq
          · exact hh rq hrq
          · exact hi.mqHctx_of_sw hmem hrq
  · exact ⟨hi, hh⟩

theorem Inv.flushBits (rqs : List Rq) (bits : List Nat) (hi : Inv host f s [] (rqs ++ hand))
    (hh : ∀ rq ∈ rqs, rq.mqHctx = h) :
    Inv host f (bits.foldl (Dispatch.flushBusyCtx host h) (rqs, s)).2 []
        ((bits.foldl (Dispatch.flushBusyCtx host h) (rqs, s)).1 ++ hand) ∧
      ∀ rq ∈ (bits.foldl (Dispatch.flushBusyCtx host h) (rqs, s)).1, rq.mqHctx = h := by
  induction bits generalizing rqs s with
  | nil => exact ⟨hi, hh⟩
  | cons bit bits ih =>
      obtain ⟨hi', hh'⟩ := hi.flushBusyCtx bit hh
      exact ih _ hi' hh'

/-- After `blk_mq_dequeue_from_ctx`. -/
def Dequeued (host : Host) (f : Nat → PlugInfo × List Rq) (h : Nat) (hand : List Rq) : Option Rq × Mq → Prop
  | (none, s)    => Inv host f s [] hand
  | (some rq, s) => Inv host f s [] (rq :: hand) ∧ rq.mqHctx = h

/-- One request is taken out of the first software queue that is marked. -/
theorem Inv.dispatchRqFromCtx (bits : List Nat) (hi : Inv host f s [] hand) :
    Dequeued host f h hand (dispatchRqFromCtx host h bits s) := by
  induction bits with
  | nil => exact hi
  | cons bit bits ih =>
      unfold Dispatch.dispatchRqFromCtx
      split_ifs with hset
      · cases hc : (host.hw.ctxs h)[bit]? with
        | none => exact ih
        | some c =>
            obtain ⟨hmem, hbit⟩ := host.hw.indexHw_eq hc
            dsimp only
            cases hl : s.list (.sw c (host.hw.type h)) with
            | nil => exact ih
            | cons rq rqs =>
                have hhctx := hi.mqHctx_of_sw hmem (hl ▸ List.mem_cons_self : rq ∈ _)
                refine ⟨?_, hhctx⟩
                refine hi.takeSw [rq] rqs (b := decide (rqs ≠ [])) hmem (hl ▸ List.Perm.refl _)
                  decide_eq_true_iff ?_
                rw [hbit]
                split_ifs with hnil
                · rw [hnil]
                  rfl
                · -- the bit is set, and stays so
                  have hsame : Function.update (s.ctxMap h) bit true = s.ctxMap h :=
                    Function.update_eq_self_iff.mpr hset.symm
                  simp only [decide_eq_true hnil, Mq.setBit, Mq.setList, hsame, Function.update_eq_self]
      · exact ih

/-- **One step of a run of a hardware queue**, whatever the scheduler does. -/
theorem Inv.runStep (step : RunStep) (hi : Inv host f s [] hand) : Inv host f (runStep host h s step) [] hand := by
  cases step with
  | dispatched =>
      have hdrawn := hi.draw (s.list (.dispatch h)) [] (p := .dispatch h) (by rw [List.append_nil]) trivial
      rw [List.append_nil] at hdrawn
      exact hdrawn.dispatchRqList _ true fun rq hrq => hi.kept.home hrq
  | busy =>
      obtain ⟨hi', hh⟩ := Inv.flushBits [] (List.range (host.hw.ctxs h).length) hi (by simp)
      exact hi'.armAll.dispatchRqList _ true hh
  | dequeue start =>
      have hd := Inv.dispatchRqFromCtx (h := h)
        ((List.range (host.hw.ctxs h).length).rotate
          (if (start.map fun c => host.hw.indexHw c (host.hw.type h)).getD 0 < (host.hw.ctxs h).length
            then (start.map fun c => host.hw.indexHw c (host.hw.type h)).getD 0 else 0)) hi
      unfold Dispatch.runStep blkMqDequeueFromCtx
      dsimp only
      generalize Dispatch.dispatchRqFromCtx host h _ s = r at hd ⊢
      obtain ⟨found, s'⟩ := r
      cases found with
      | none => exact hd
      | some rq =>
          refine Inv.dispatchRqList [rq] false (hd.1.arm [rq]) ?_
          intro r hr
          rw [List.mem_singleton.mp hr]
          exact hd.2
  | sched hctx rqs getBudget =>
      unfold Dispatch.runStep
      dsimp only
      split_ifs with hok
      · obtain ⟨hnodup, hrqs⟩ := hok
        refine Inv.dispatchRqList _ getBudget (Inv.getDriverTags rqs (Inv.armAll (hi.take rqs _
          (p := .sched (host.hw.queue h)) ?_ trivial trivial)) (List.Subset.refl _)) fun rq hrq => (hrqs rq hrq).2
        refine (List.filter_append_perm (fun rq => rq ∈ rqs) _).symm.trans ?_
        refine List.Perm.append ?_ (List.Perm.of_eq ?_)
        · refine (List.perm_ext_iff_of_nodup ((hi.kept.nodup _).filter _) hnodup).mpr fun rq => ?_
          rw [List.mem_filter, decide_eq_true_iff]
          exact ⟨fun hm => hm.2, fun hm => ⟨(hrqs rq hm).1, hm⟩⟩
        · refine List.filter_congr fun rq _ => ?_
          simp
      · exact hi

theorem Inv.schedDispatchRequests (hi : Inv host f s [] hand) :
    Inv host f (blkMqSchedDispatchRequests host h s) [] hand := by
  have hrun : ∀ (steps : List RunStep) {s : Mq}, Inv host f s [] hand →
      Inv host f (steps.foldl (Dispatch.runStep host h) s) [] hand := by
    intro steps
    induction steps with
    | nil => exact fun hi => hi
    | cons step steps ih => exact fun hi => ih (hi.runStep step)
  exact hrun _ hi.next

theorem Inv.runHwQueue (async : Bool) (hi : Inv host f s [] hand) :
    Inv host f (blkMqRunHwQueue host h async s) [] hand := by
  unfold blkMqRunHwQueue
  split_ifs
  · exact hi.next
  · exact hi.next
  · exact hi.next.schedDispatchRequests

/-! ### Inserting and issuing -/

/-- `hctx->dispatch` takes every request of its hardware queue, passthrough ones too. -/
theorem Inv.bypassInsert (atHead : Bool) (hi : Inv host f s [] (rq :: hand)) :
    Inv host f (blkMqRequestBypassInsert rq atHead s) [] hand := by
  have hb : ∀ r ∈ [rq], Belongs host.hw (.dispatch rq.mqHctx) r := by
    intro r hr
    rw [List.mem_singleton.mp hr]
    rfl
  unfold blkMqRequestBypassInsert
  split_ifs
  · exact hi.put [rq] (List.Perm.refl _) hb trivial
  · exact hi.addTail [rq] hb trivial

/-- Where `blk_mq_insert_request` puts a request: `hctx->dispatch`, the flush list, the scheduler or the
    software queue, whose bit it sets. -/
theorem Inv.insertRequest (atHead : Bool) (hi : Inv host f s [] (rq :: hand)) :
    Inv host f (blkMqInsertRequest host rq atHead s) [] hand := by
  have hm := hi.mapped_of_hand List.mem_cons_self
  unfold blkMqInsertRequest
  split_ifs with hpass hflush helv hat
  · exact hi.bypassInsert atHead
  · exact hi.bypassInsert true
  · -- with a scheduler the request has no driver tag yet
    have huntagged := hi.hand_untagged rq List.mem_cons_self (hm.tag helv)
    refine Inv.addTail [rq] (hi.warnOn huntagged) ?_ trivial
    intro r hr
    rw [List.mem_singleton.mp hr]
    exact ⟨rfl, Bool.eq_false_iff.mpr hpass⟩
  all_goals
    have hb : ∀ r ∈ [rq], Belongs host.hw (.sw rq.mqCtx (host.hw.type rq.mqHctx)) r := by
      intro r hr
      rw [List.mem_singleton.mp hr]
      exact ⟨rfl, rfl, Bool.eq_false_iff.mpr hpass⟩
  · exact hi.putSw [rq] hm.ctx (List.cons_ne_nil _ _) (List.Perm.refl _) hb
  · exact hi.putSw [rq] hm.ctx (List.cons_ne_nil _ _) List.perm_append_comm hb

/-- After `__blk_mq_issue_directly`: the driver has the request, refused it, or failed. -/
def Issued (host : Host) (f : Nat → PlugInfo × List Rq) (rq : Rq) (hand : List Rq) : BlkStatus × Mq → Prop
  | (.ok, s)      => Inv host f s [] hand
  | (.error _, s) => Inv host f s [rq] hand
  | (_, s)        => Inv host f s [] (rq :: hand)

/-- The driver is asked at once, and the caller learns whether it still has the request. -/
theorem Inv.issueDirectly (last : Bool) (hi : Inv host f s [rq] hand) :
    Issued host f rq hand (blkMqIssueDirectly host h rq last s) := by
  have hq := Inv.queueRq (h := h) hi last
  unfold blkMqIssueDirectly
  generalize Dispatch.queueRq host h rq last s = r at hq ⊢
  obtain ⟨ret, s'⟩ := r
  cases ret with
  | ok          => exact Inv.updateDispatchBusy hq false
  | resource    => exact (Inv.updateDispatchBusy hq true).putDriverTag
  | devResource => exact (Inv.updateDispatchBusy hq true).putDriverTag
  | error e     => exact Inv.updateDispatchBusy hq false

/-- A request that the driver does not take now is inserted, or bypasses the queues, or is ended. -/
theorem Inv.tryIssueDirectly (hi : Inv host f s [] (rq :: hand)) :
    Inv host f (blkMqTryIssueDirectly host h rq s) [] hand := by
  unfold blkMqTryIssueDirectly
  split_ifs
  · exact (hi.insertRequest false).runHwQueue false
  · exact (hi.insertRequest false).runHwQueue rq.nowait
  · have htag := hi.getBudgetAndTag
    generalize blkMqGetBudgetAndTag host rq s = r at htag ⊢
    obtain ⟨got, s₁⟩ := r
    cases got with
    | false => exact (Inv.insertRequest false htag).runHwQueue rq.nowait
    | true =>
        have hissued := Inv.issueDirectly (h := h) true htag
        dsimp only
        generalize blkMqIssueDirectly host h rq true s₁ = r at hissued ⊢
        obtain ⟨ret, s₂⟩ := r
        cases ret with
        | ok          => exact hissued
        | resource    => exact (Inv.bypassInsert false hissued).runHwQueue false
        | devResource => exact (Inv.bypassInsert false hissued).runHwQueue false
        | error e     => exact Inv.endRequest hissued

theorem Inv.requestIssueDirectly (last : Bool) (hi : Inv host f s [] (rq :: hand)) :
    Issued host f rq hand (blkMqRequestIssueDirectly host rq last s) := by
  unfold blkMqRequestIssueDirectly
  split_ifs
  · exact (hi.insertRequest false).runHwQueue false
  · have htag := hi.getBudgetAndTag
    generalize blkMqGetBudgetAndTag host rq s = r at htag ⊢
    obtain ⟨got, s₁⟩ := r
    cases got with
    | false => exact htag
    | true  => exact Inv.issueDirectly last htag

theorem Inv.switchHctx (hctx : Option Nat) (queued : Nat) (hi : Inv host f s armed hand) :
    Inv host f (switchHctx host hctx h queued s).2 armed hand := by
  unfold Dispatch.switchHctx
  cases hctx with
  | none => exact hi
  | some h' =>
      dsimp only
      split_ifs
      · exact hi
      · exact hi.commitRqs queued

/-- The loop over a list of several hardware queues leaves a last part of it. -/
theorem Inv.issueLoop (hctx : Option Nat) (queued : Nat) (ret : BlkStatus)
    (hi : Inv host f s [] (rqs ++ hand)) :
    Inv host f (issueLoop host rqs hctx queued ret s).2.2.2.2 []
        ((issueLoop host rqs hctx queued ret s).1 ++ hand) ∧
      (issueLoop host rqs hctx queued ret s).1 <:+ rqs := by
  induction rqs generalizing hctx queued ret s with
  | nil => exact ⟨hi, List.suffix_rfl⟩
  | cons rq rqs ih =>
      unfold Dispatch.issueLoop
      dsimp only
      have hswitch := Inv.switchHctx (h := rq.mqHctx) hctx queued hi
      generalize Dispatch.switchHctx host hctx rq.mqHctx queued s = r at hswitch ⊢
      have hissued := hswitch.requestIssueDirectly rqs.isEmpty
      generalize blkMqRequestIssueDirectly host rq rqs.isEmpty r.2 = r' at hissued ⊢
      obtain ⟨verdict, s'⟩ := r'
      cases verdict with
      | ok =>
          obtain ⟨hi', hsuf⟩ := ih (some rq.mqHctx) (r.1 + 1) .ok hissued
          exact ⟨hi', hsuf.trans (List.suffix_cons _ _)⟩
      | resource => exact ⟨(Inv.bypassInsert false hissued).runHwQueue false, List.suffix_cons _ _⟩
      | devResource => exact ⟨(Inv.bypassInsert false hissued).runHwQueue false, List.suffix_cons _ _⟩
      | error e =>
          obtain ⟨hi', hsuf⟩ := ih (some rq.mqHctx) r.1 (.error e) (Inv.endRequest hissued)
          exact ⟨hi', hsuf.trans (List.suffix_cons _ _)⟩

theorem Inv.issueDirect (hi : Inv host f s [] (rqs ++ hand)) :
    Inv host f (blkMqIssueDirect host rqs s).2 [] ((blkMqIssueDirect host rqs s).1 ++ hand) ∧
      (blkMqIssueDirect host rqs s).1 <:+ rqs := by
  have hloop := hi.issueLoop none 0 .ok
  unfold blkMqIssueDirect
  generalize Dispatch.issueLoop host rqs none 0 .ok s = r at hloop ⊢
  obtain ⟨left, hctx, queued, ret, s'⟩ := r
  cases hctx with
  | none => exact hloop
  | some h =>
      refine ⟨?_, hloop.2⟩
      dsimp only
      split_ifs
      · exact hloop.1.commitRqs queued
      · exact hloop.1

theorem Inv.issueListLoop (queued : Nat) (ret : BlkStatus) (hi : Inv host f s [] (rqs ++ hand)) :
    Inv host f (issueListLoop host h rqs queued ret s).2.2.2 []
        ((issueListLoop host h rqs queued ret s).1 ++ hand) ∧
      (issueListLoop host h rqs queued ret s).1 <:+ rqs := by
  induction rqs generalizing queued ret s with
  | nil => exact ⟨hi, List.suffix_rfl⟩
  | cons rq rqs ih =>
      have hissued := Inv.requestIssueDirectly rqs.isEmpty (show Inv host f s [] (rq :: (rqs ++ hand)) from hi)
      unfold Dispatch.issueListLoop
      generalize blkMqRequestIssueDirectly host rq rqs.isEmpty s = r at hissued ⊢
      obtain ⟨verdict, s'⟩ := r
      have hbusy : ∀ {s}, Inv host f s [] (rq :: (rqs ++ hand)) →
          Inv host f (if rqs = [] then blkMqRunHwQueue host h false (blkMqRequestBypassInsert rq false s)
            else blkMqRequestBypassInsert rq false s) [] (rqs ++ hand) := by
        intro s hs
        split_ifs
        · exact (hs.bypassInsert false).runHwQueue false
        · exact hs.bypassInsert false
      cases verdict with
      | ok =>
          obtain ⟨hi', hsuf⟩ := ih (queued + 1) .ok hissued
          exact ⟨hi', hsuf.trans (List.suffix_cons _ _)⟩
      | resource => exact ⟨hbusy hissued, List.suffix_cons _ _⟩
      | devResource => exact ⟨hbusy hissued, List.suffix_cons _ _⟩
      | error e =>
          obtain ⟨hi', hsuf⟩ := ih queued (.error e) (Inv.endRequest hissued)
          exact ⟨hi', hsuf.trans (List.suffix_cons _ _)⟩

theorem Inv.tryIssueListDirectly (hi : Inv host f s [] (rqs ++ hand)) :
    Inv host f (blkMqTryIssueListDirectly host h rqs s).2 [] ((blkMqTryIssueListDirectly host h rqs s).1 ++ hand) ∧
      (blkMqTryIssueListDirectly host h rqs s).1 <:+ rqs := by
  have hloop := Inv.issueListLoop (h := h) 0 .ok hi
  unfold blkMqTryIssueListDirectly
  generalize Dispatch.issueListLoop host h rqs 0 .ok s = r at hloop ⊢
  obtain ⟨left, queued, ret, s'⟩ := r
  refine ⟨?_, hloop.2⟩
  dsimp only
  split_ifs
  · exact hloop.1.commitRqs queued
  · exact hloop.1

/-- Here `BUG_ON(rq->mq_ctx != ctx)` is checked: all requests are of the one CPU. -/
theorem Inv.insertRequests {c : Nat} (rqs : List Rq) (async : Bool) (hi : Inv host f s [] (rqs ++ hand))
    (hh : ∀ rq ∈ rqs, rq.mqHctx = h ∧ rq.mqCtx = c ∧ rq.passthrough = false) :
    Inv host f (blkMqInsertRequests host h c rqs async s) [] hand := by
  unfold blkMqInsertRequests
  have htried : ∀ r, r = (if s.dispatchBusy h = 0 ∧ async = false then blkMqTryIssueListDirectly host h rqs s
      else (rqs, s)) → Inv host f r.2 [] (r.1 ++ hand) ∧ r.1 <:+ rqs := by
    rintro r rfl
    split_ifs
    · exact hi.tryIssueListDirectly
    · exact ⟨hi, List.suffix_rfl⟩
  obtain ⟨hi', hsuf⟩ := htried _ rfl
  generalize (if s.dispatchBusy h = 0 ∧ async = false then blkMqTryIssueListDirectly host h rqs s
    else (rqs, s)) = r at hi' hsuf ⊢
  obtain ⟨left, s'⟩ := r
  dsimp only at hi' hsuf ⊢
  have hleft : ∀ rq ∈ left, rq.mqHctx = h ∧ rq.mqCtx = c ∧ rq.passthrough = false :=
    fun rq hrq => hh rq (hsuf.subset hrq)
  split_ifs with hnil
  · subst hnil
    exact hi'.runHwQueue async
  · -- what is left has the software queue of the list, so the `BUG_ON` does not fire
    have hbug : (left.any fun rq => rq.mqCtx != c) = false := by
      rw [List.any_eq_false]
      intro rq hrq
      rw [(hleft rq hrq).2.1]
      simp
    obtain ⟨rq, hrq⟩ := List.exists_mem_of_ne_nil left hnil
    have hc : c ∈ host.hw.ctxs h := by
      obtain ⟨hctx, hc, -⟩ := hleft rq hrq
      have hm := (hi'.mapped_of_hand (List.mem_append_left _ hrq)).ctx
      rwa [hctx, hc] at hm
    refine Inv.runHwQueue _ ((hi'.bugOn hbug).putSw left hc hnil List.perm_append_comm ?_)
    intro rq hrq
    obtain ⟨hctx, hc, hpass⟩ := hleft rq hrq
    exact ⟨hc, by rw [hctx], hpass⟩

/-! ### Flushing a plug -/

/-- A list in hand, parted in two. -/
theorem filter_append_perm_append (p : Rq → Bool) (rqs hand : List Rq) :
    (rqs.filter p ++ (rqs.filter (fun rq => !p rq) ++ hand)).Perm (rqs ++ hand) := by
  rw [← List.append_assoc]
  exact (List.filter_append_perm p rqs).append_right hand

theorem alike_iff {rq' : Rq} : alike rq rq' = true ↔
    rq.mqHctx = rq'.mqHctx ∧ rq.mqCtx = rq'.mqCtx ∧ rq.passthrough = rq'.passthrough := by
  simp [alike, and_assoc]

/-- `blk_mq_dispatch_list` takes out what is like the first request, so that the list gets shorter. -/
theorem Inv.dispatchList (fromSched : Bool) (hi : Inv host f s [] (rq :: rqs ++ hand)) :
    Inv host f (blkMqDispatchList host fromSched (rq :: rqs) s).2 []
        ((blkMqDispatchList host fromSched (rq :: rqs) s).1 ++ hand) ∧
      (blkMqDispatchList host fromSched (rq :: rqs) s).1.length ≤ rqs.length := by
  unfold blkMqDispatchList
  dsimp only
  rw [List.partition_eq_filter_filter]
  dsimp only
  refine ⟨?_, List.length_filter_le _ _⟩
  have hm := hi.mapped_of_hand (List.mem_cons_self)
  have hall : ∀ r ∈ rq :: rqs.filter (alike rq),
      r.mqHctx = rq.mqHctx ∧ r.mqCtx = rq.mqCtx ∧ r.passthrough = rq.passthrough := by
    intro r hr
    rcases List.mem_cons.mp hr with rfl | hr
    · exact ⟨rfl, rfl, rfl⟩
    · obtain ⟨h₁, h₂, h₃⟩ := alike_iff.mp (List.mem_filter.mp hr).2
      exact ⟨h₁.symm, h₂.symm, h₃.symm⟩
  have hparts : Inv host f s [] ((rq :: rqs.filter (alike rq)) ++
      (rqs.filter (fun r => !alike rq r) ++ hand)) :=
    hi.perm ((filter_append_perm_append (alike rq) rqs hand).cons rq)
  split_ifs with hpass helv
  · exact (hparts.addTail _ (p := .dispatch rq.mqHctx) (fun r hr => (hall r hr).1) trivial).runHwQueue _
  · refine (hparts.addTail _ (p := .sched (host.hw.queue rq.mqHctx)) (fun r hr => ?_) trivial).runHwQueue _
    have hr' := hparts.mapped_of_hand (List.mem_append_left _ hr)
    exact ⟨by rw [← hr'.queue, (hall r hr).1], by rw [(hall r hr).2.2]; exact Bool.eq_false_iff.mpr hpass⟩
  · refine hparts.insertRequests _ fromSched fun r hr => ?_
    obtain ⟨h₁, h₂, h₃⟩ := hall r hr
    exact ⟨h₁, h₂, h₃.trans (Bool.eq_false_iff.mpr hpass)⟩

theorem Inv.dispatchLists (fromSched : Bool) (fuel : Nat) (hfuel : rqs.length ≤ fuel)
    (hi : Inv host f s [] (rqs ++ hand)) : Inv host f (dispatchLists host fromSched fuel rqs s) [] hand := by
  induction fuel generalizing rqs s with
  | zero =>
      rw [List.eq_nil_of_length_eq_zero (Nat.le_zero.mp hfuel)] at hi
      exact hi
  | succ fuel ih =>
      unfold Dispatch.dispatchLists
      cases rqs with
      | nil => exact hi
      | cons rq rqs =>
          obtain ⟨hi', hlen⟩ := hi.dispatchList fromSched
          rw [if_neg (List.cons_ne_nil _ _)]
          exact ih (Nat.le_trans hlen (Nat.le_of_succ_le_succ hfuel)) hi'

theorem Inv.flushList {q : Nat} (hi : Inv host f s [] (rqs ++ hand))
    (hq : ∀ rq ∈ rqs, rq.q = q ∧ rq.schedTags = false) :
    Inv host f (blkMqFlushList host q rqs s).2 [] ((blkMqFlushList host q rqs s).1 ++ hand) := by
  unfold blkMqFlushList
  split_ifs
  · exact hi
  · rw [List.partition_eq_filter_filter]
    have htold := hi.next.tell (e := .queueRqs q rqs) fun q' rqs' he => by
      obtain ⟨rfl, rfl⟩ := Event.queueRqs.inj he
      exact hq
    exact (htold.perm (filter_append_perm_append _ rqs hand)).addTail _ (p := .driver) (fun _ _ => trivial) trivial

theorem Inv.dispatchQueueRequests (rqs : List Rq) (hi : Inv host f s [] (rqs ++ hand))
    (hq : ∀ rq ∈ rqs, ∀ rq' ∈ rqs, rq.q = rq'.q) (htags : ∀ rq ∈ rqs, rq.schedTags = false) :
    Inv host f (blkMqDispatchQueueRequests host rqs s).2 []
      ((blkMqDispatchQueueRequests host rqs s).1 ++ hand) := by
  cases rqs with
  | nil => exact hi
  | cons rq rqs =>
      unfold blkMqDispatchQueueRequests
      dsimp only
      split_ifs
      · refine (Inv.issueDirect (hi.flushList fun r hr => ⟨?_, htags r hr⟩)).1
        exact hq r hr rq List.mem_cons_self
      · exact (Inv.issueDirect hi).1

/-- Each round is for the queue of the first request, which it takes out. -/
theorem Inv.dispatchMultiple (fuel : Nat) (hfuel : rqs.length ≤ fuel) (hi : Inv host f s [] (rqs ++ hand))
    (htags : ∀ rq ∈ rqs, rq.schedTags = false) :
    Inv host f (blkMqDispatchMultipleQueueRequests host fuel rqs s) [] hand := by
  induction fuel generalizing rqs s with
  | zero =>
      rw [List.eq_nil_of_length_eq_zero (Nat.le_zero.mp hfuel)] at hi
      exact hi
  | succ fuel ih =>
      cases rqs with
      | nil => exact hi
      | cons rq rqs =>
          unfold blkMqDispatchMultipleQueueRequests
          rw [List.partition_eq_filter_filter]
          dsimp only
          have hone : ∀ r ∈ rq :: rqs.filter (fun rq' => rq'.q == rq.q), r.q = rq.q := by
            intro r hr
            rcases List.mem_cons.mp hr with rfl | hr
            · rfl
            · exact beq_iff_eq.mp (List.mem_filter.mp hr).2
          have hsub : rq :: rqs.filter (fun rq' => rq'.q == rq.q) ⊆ rq :: rqs :=
            List.cons_subset_cons _ (List.filter_subset_self _)
          have hparts : Inv host f s [] ((rq :: rqs.filter (fun rq' => rq'.q == rq.q)) ++
              (rqs.filter (fun rq' => !(rq'.q == rq.q)) ++ hand)) :=
            hi.perm ((filter_append_perm_append _ rqs hand).cons rq)
          have hissued := hparts.dispatchQueueRequests _
            (fun r hr r' hr' => (hone r hr).trans (hone r' hr').symm) fun r hr => htags r (hsub hr)
          refine ih ?_ (hissued.dispatchLists false _ (Nat.le_refl _)) ?_
          · exact Nat.le_trans (List.length_filter_le _ _) (Nat.le_of_succ_le_succ hfuel)
          · exact fun r hr => htags r (List.mem_cons_of_mem _ (List.filter_subset_self _ hr))

/-- The list of a plug goes into the hand. -/
theorem Inv.takePlug (t : Nat) (hi : Inv host f s [] hand) :
    Inv host (Function.update f t ({ s.plug t with rqCount := 0 }, []))
      { s.setList (.plug t) [] with plug := Function.update s.plug t { s.plug t with rqCount := 0 } } []
      (s.list (.plug t) ++ hand) where
  kept := hi.kept.take (s.list (.plug t)) [] (by rw [List.append_nil])
  mapped := hi.mapped
  ids := hi.ids
  pending := by
    intro h c hc
    change s.ctxMap h _ = true ↔ Function.update s.list (.plug t) [] (.sw c (host.hw.type h)) ≠ []
    rw [Function.update_of_ne (by simp)]
    exact hi.pending hc
  untagged := by
    intro p rq hp hrq htag
    change rq ∈ Function.update s.list (.plug t) [] p at hrq
    rw [Function.update_apply] at hrq
    split_ifs at hrq
    · exact absurd hrq List.not_mem_nil
    · exact hi.untagged hp hrq htag
  hand_untagged := by
    intro rq hrq htag
    rcases List.mem_append.mp hrq with hrq | hrq
    · exact hi.untagged (p := .plug t) trivial hrq htag
    · exact hi.hand_untagged rq hrq htag
  told := hi.told
  plugs := by
    intro t'
    change Function.update s.plug t _ t' = _ ∧ Function.update s.list (.plug t) [] (.plug t') = _
    by_cases ht : t' = t
    · subst ht
      rw [Function.update_self, Function.update_self, Function.update_self]
      exact ⟨rfl, rfl⟩
    · rw [Function.update_of_ne ht, Function.update_of_ne ht, Function.update_of_ne (by simp [ht])]
      exact hi.plugs t'
  described := by
    intro t'
    by_cases ht : t' = t
    · subst ht
      rw [Function.update_self]
      exact ⟨rfl, fun _ _ hrq => absurd hrq List.not_mem_nil, fun _ _ hrq => absurd hrq List.not_mem_nil⟩
    · rw [Function.update_of_ne ht]
      exact hi.described t'
  sane := hi.sane

theorem Inv.describes (t : Nat) (hi : Inv host f s [] hand) : (s.plug t).Describes (s.list (.plug t)) := by
  rw [(hi.plugs t).1, (hi.plugs t).2]
  exact hi.described t

/-- A flushed plug is empty. -/
theorem Inv.flushPlugList (t : Nat) (fromSchedule : Bool) (hi : Inv host f s [] hand) :
    ∃ f', Inv host f' (blkMqFlushPlugList host t fromSchedule s) [] hand ∧ (f' t).2 = [] := by
  have hd := hi.describes t
  unfold blkMqFlushPlugList
  dsimp only
  by_cases hcount : (s.plug t).rqCount = 0
  · rw [if_pos hcount]
    refine ⟨f, hi, ?_⟩
    rw [← (hi.plugs t).2]
    exact List.eq_nil_of_length_eq_zero (hd.count.symm.trans hcount)
  · rw [if_neg hcount]
    have htaken := hi.takePlug t
    refine ⟨Function.update f t ({ s.plug t with rqCount := 0 }, []), ?_, by rw [Function.update_self]⟩
    split_ifs with hdirect hmulti
    · exact htaken.dispatchMultiple _ (Nat.le_refl _) (hd.noElevator hdirect.1)
    · exact (htaken.dispatchQueueRequests _ (hd.oneQueue (Bool.eq_false_iff.mpr hmulti))
        (hd.noElevator hdirect.1)).dispatchLists false _ (Nat.le_refl _)
    · exact htaken.dispatchLists fromSchedule _ (Nat.le_refl _)

/-! ### Where requests come from -/

/-- A request is added to a plug whose record is changed accordingly. -/
theorem Inv.plugged {t : Nat} {info : PlugInfo} (hi : Inv host f s [] (rq :: hand))
    (hd : info.Describes (s.list (.plug t) ++ [rq])) :
    Inv host (Function.update f t (info, s.list (.plug t) ++ [rq]))
      { s.addTail (.plug t) [rq] with plug := Function.update s.plug t info } [] hand where
  kept := hi.kept.put [rq] (p := Spot.plug t) List.perm_append_comm fun _ _ => trivial
  mapped := hi.mapped
  ids := hi.ids
  pending := by
    intro h c hc
    change s.ctxMap h _ = true ↔
      Function.update s.list (.plug t) (s.list (.plug t) ++ [rq]) (.sw c (host.hw.type h)) ≠ []
    rw [Function.update_of_ne (by simp)]
    exact hi.pending hc
  untagged := by
    intro p r hp hr htag
    change r ∈ Function.update s.list (.plug t) (s.list (.plug t) ++ [rq]) p at hr
    rw [Function.update_apply] at hr
    split_ifs at hr with heq
    · rcases List.mem_append.mp hr with hr | hr
      · exact hi.untagged (p := .plug t) trivial hr htag
      · rw [List.mem_singleton.mp hr] at htag ⊢
        exact hi.hand_untagged rq List.mem_cons_self htag
    · exact hi.untagged hp hr htag
  hand_untagged := fun r hr => hi.hand_untagged r (List.mem_cons_of_mem _ hr)
  told := hi.told
  plugs := by
    intro t'
    change Function.update s.plug t _ t' = _ ∧
      Function.update s.list (.plug t) (s.list (.plug t) ++ [rq]) (.plug t') = _
    by_cases ht : t' = t
    · subst ht
      rw [Function.update_self, Function.update_self, Function.update_self]
      exact ⟨rfl, rfl⟩
    · rw [Function.update_of_ne ht, Function.update_of_ne ht, Function.update_of_ne (by simp [ht])]
      exact hi.plugs t'
  described := by
    intro t'
    by_cases ht : t' = t
    · subst ht
      rw [Function.update_self]
      exact hd
    · rw [Function.update_of_ne ht]
      exact hi.described t'
  sane := hi.sane

/-- The record after one more request; `last` is the first one of the list, if any. -/
theorem PlugInfo.Describes.add {info : PlugInfo} (hd : info.Describes rqs) :
    PlugInfo.Describes
      { rqCount := info.rqCount + 1
        multipleQueues := info.multipleQueues || rqs.head?.any fun last => last.q != rq.q
        hasElevator := info.hasElevator || rq.schedTags } (rqs ++ [rq]) where
  count := by simp [hd.count]
  oneQueue := by
    intro hone
    obtain ⟨hmulti, hlast⟩ := Bool.or_eq_false_iff.mp hone
    -- all requests have the queue of the new one
    have hall : ∀ r ∈ rqs ++ [rq], r.q = rq.q := by
      intro r hr
      rcases List.mem_append.mp hr with hr | hr
      · cases rqs with
        | nil => exact absurd hr List.not_mem_nil
        | cons first rqs =>
            have hfirst : first.q = rq.q := by simpa using hlast
            exact (hd.oneQueue hmulti r hr first List.mem_cons_self).trans hfirst
      · rw [List.mem_singleton.mp hr]
    exact fun r hr r' hr' => (hall r hr).trans (hall r' hr').symm
  noElevator := by
    intro helv r hr
    obtain ⟨helv, htag⟩ := Bool.or_eq_false_iff.mp helv
    rcases List.mem_append.mp hr with hr | hr
    · exact hd.noElevator helv r hr
    · rw [List.mem_singleton.mp hr]
      exact htag

/-- A plug that is full is flushed first; the flags then follow the list. -/
theorem Inv.addRqToPlug (t : Nat) (hi : Inv host f s [] (rq :: hand)) :
    ∃ f', Inv host f' (blkAddRqToPlug host t rq s) [] hand := by
  unfold blkAddRqToPlug
  dsimp only
  split_ifs with hfull
  · obtain ⟨f', hi', hnil⟩ := hi.next.flushPlugList t false
    have hlist : (blkMqFlushPlugList host t false s.next).list (.plug t) = [] := (hi'.plugs t).2.trans hnil
    have hd := hi'.describes t
    refine ⟨_, hi'.plugged ?_⟩
    rw [hlist] at hd ⊢
    exact hd.add
  · exact ⟨_, hi.next.plugged (hi.describes t).add⟩

/-- **`blk_mq_submit_bio`**, from the new request on. -/
theorem Inv.submit (plug : Option Nat) (isSync : Bool) (hi : Inv host f s [] (rq :: hand)) :
    ∃ f', Inv host f' (submit host plug rq isSync s) [] hand := by
  unfold Dispatch.submit
  cases plug with
  | some t => exact hi.addRqToPlug t
  | none =>
      dsimp only
      split_ifs
      · exact ⟨f, (hi.insertRequest false).runHwQueue true⟩
      · exact ⟨f, hi.tryIssueDirectly⟩

theorem Inv.executeRqNowait (plug : Option Nat) (atHead blocking : Bool) (hi : Inv host f s [] (rq :: hand)) :
    ∃ f', Inv host f' (blkExecuteRqNowait host plug rq atHead blocking s) [] hand := by
  unfold blkExecuteRqNowait
  split
  · exact hi.addRqToPlug _
  · exact ⟨f, (hi.insertRequest atHead).runHwQueue blocking⟩

/-- The driver gives a request back, and the tag with it. -/
theorem Inv.requeueRequest (hi : Inv host f s [] hand) (hrq : rq ∈ s.list .driver) :
    Inv host f (blkMqRequeueRequest rq s) [] hand := by
  refine (hi.takeBack hrq).putDriverTag.addTail [rq] ?_ trivial
  intro r hr
  rw [List.mem_singleton.mp hr]
  rfl

theorem Inv.requeueLoop (hi : Inv host f s [] (rqs ++ hand)) : Inv host f (requeueLoop host rqs s) [] hand := by
  induction rqs generalizing s with
  | nil => exact hi
  | cons rq rqs ih =>
      unfold Dispatch.requeueLoop
      refine ih ?_
      split_ifs
      · exact Inv.bypassInsert false (show Inv host f s.next [] (rq :: (rqs ++ hand)) from hi.next)
      · exact Inv.insertRequest true (show Inv host f s.next [] (rq :: (rqs ++ hand)) from hi.next)

theorem Inv.reflushLoop (hi : Inv host f s [] (rqs ++ hand)) : Inv host f (reflushLoop host rqs s) [] hand := by
  induction rqs generalizing s with
  | nil => exact hi
  | cons rq rqs ih =>
      unfold Dispatch.reflushLoop
      exact ih (Inv.insertRequest false (show Inv host f s [] (rq :: (rqs ++ hand)) from hi))

theorem Inv.runHwQueues (hctxs : List Nat) (async : Bool) (hi : Inv host f s [] hand) :
    Inv host f (blkMqRunHwQueues host hctxs async s) [] hand := by
  unfold blkMqRunHwQueues
  induction hctxs generalizing s with
  | nil => exact hi
  | cons h hctxs ih =>
      refine ih ?_
      dsimp only
      split_ifs
      · exact hi
      · exact hi.runHwQueue async

/-- The requeue list and the flush list are taken as a whole and inserted again. -/
theorem Inv.requeueWork (q : Nat) (hctxs : List Nat) (hi : Inv host f s [] hand) :
    Inv host f (blkMqRequeueWork host q hctxs s) [] hand := by
  have hrqs := hi.take (s.list (.requeue q)) [] (p := .requeue q) (by rw [List.append_nil])
    trivial trivial
  have hboth := hrqs.take (s.list (.flush q)) [] (p := .flush q)
    (by rw [list_setList_of_ne (by simp), List.append_nil]) trivial trivial
  have hrest := Inv.requeueLoop (hboth.perm (List.perm_append_comm_assoc ..))
  exact (Inv.reflushLoop hrest).runHwQueues hctxs false

/-- The requests of a dead CPU go to `hctx->dispatch`, and its bit is cleared. -/
theorem Inv.notifyDead (c : Nat) (hi : Inv host f s [] hand) :
    Inv host f (blkMqHctxNotifyDead host h c s) [] hand := by
  unfold blkMqHctxNotifyDead
  dsimp only
  by_cases hc : c ∈ host.hw.ctxs h
  · rw [if_neg (not_not.mpr hc)]
    split_ifs
    · exact hi
    · have htaken := hi.takeSw (s.list (.sw c (host.hw.type h))) [] (b := false) hc
        (by rw [List.append_nil]) (by simp) rfl
      exact (htaken.addTail _ (p := .dispatch h) (fun rq hrq => hi.mqHctx_of_sw hc hrq)
        trivial).runHwQueue true
  · rw [if_pos hc]
    exact hi

end Functions

end Dispatch
end Block
end SystemsPlayground
