import Mathlib.Data.List.Nodup
import SystemsPlayground.Block.Conservation

/-!
# `Block.Delivery` — requests on their way, over whole runs

A run of the multi-queue block layer is any sequence of the calls that bring requests in, move them or end
them: submissions, flushes of plugs, runs of hardware queues, requeues, completions and the death of a CPU,
with any answers of the driver in between. In every state that is reached no request is lost or doubled
(`requests_conserved`), a hardware queue that has requests is known to have them (`pending_exact`), the
batches that a driver gets are of one queue (`queue_rqs_sound`), and driver tags are with the driver or with
what is dispatched next (`driver_tags_held`).
-/

namespace SystemsPlayground
namespace Block
namespace Dispatch

open Custody Runs

/-! ## Runs -/

/-- A new request, with its own driver tag unless it has a tag of the scheduler. -/
def Mq.arrive (s : Mq) (rq : Rq) : Mq :=
  { s with all := rq :: s.all, tagged := Function.update s.tagged rq.id !rq.schedTags }

/-- What can be called, and when. -/
inductive Act where
  /-- `blk_mq_submit_bio` has made a request. -/
  | submit (plug : Option Nat) (rq : Rq) (isSync : Bool)
  /-- `blk_execute_rq_nowait` of a new request. -/
  | execute (plug : Option Nat) (rq : Rq) (atHead blocking : Bool)
  /-- `blk_mq_flush_plug_list`. -/
  | flushPlug (plug : Nat) (fromSchedule : Bool)
  /-- `blk_mq_run_work_fn`. -/
  | run (hctx : Nat)
  /-- The driver gives a request back. -/
  | requeue (rq : Rq)
  /-- The flush machinery queues a request again that the driver is done with. -/
  | reflush (rq : Rq)
  | requeueWork (q : Nat) (hctxs : List Nat)
  /-- The driver completes a request. -/
  | complete (rq : Rq)
  | notifyDead (hctx ctx : Nat)
  /-- Queues are stopped, started, quiesced or unquiesced. -/
  | turn

/-- The effect of a call. -/
def Mq.act (host : Host) (s : Mq) : Act → Mq
  | .submit plug rq isSync           => submit host plug rq isSync (s.arrive rq)
  | .execute plug rq atHead blocking => blkExecuteRqNowait host plug rq atHead blocking (s.arrive rq)
  | .flushPlug plug fromSchedule     => blkMqFlushPlugList host plug fromSchedule s
  | .run h                           => blkMqSchedDispatchRequests host h s
  | .requeue rq                      => blkMqRequeueRequest rq s
  | .reflush rq                      =>
      (blkMqPutDriverTag rq (s.setList .driver ((s.list .driver).erase rq))).addTail (.flush rq.q) [rq]
  | .requeueWork q hctxs             => blkMqRequeueWork host q hctxs s
  | .complete rq                     => blkMqEndRequest rq (s.setList .driver ((s.list .driver).erase rq))
  | .notifyDead h c                  => blkMqHctxNotifyDead host h c s
  | .turn                            => s.turn true

/-- New requests are set up as they should be and new; and it is the driver that requeues and completes. -/
def Act.Legal (host : Host) (s : Mq) : Act → Prop
  | .submit _ rq _    => rq.Mapped host.hw ∧ ∀ rq' ∈ s.all, rq'.id ≠ rq.id
  | .execute _ rq _ _ => rq.Mapped host.hw ∧ ∀ rq' ∈ s.all, rq'.id ≠ rq.id
  | .requeue rq       => rq ∈ s.list .driver
  | .reflush rq       => rq ∈ s.list .driver
  | .complete rq      => rq ∈ s.list .driver
  | _                 => True

/-- The states that can be reached from empty queues. -/
def Mq.Reachable (host : Host) (s : Mq) : Prop :=
  Reaches (fun s a t => Act.Legal host s a ∧ t = s.act host a) Mq.empty s

section Runs

variable {host : Host} {f : Nat → PlugInfo × List Rq} {s t : Mq} {hand : List Rq} {rq : Rq}

theorem Inv.arrive (hi : Inv host f s [] hand) (hm : rq.Mapped host.hw) (hid : ∀ rq' ∈ s.all, rq'.id ≠ rq.id) :
    Inv host f (s.arrive rq) [] (rq :: hand) := by
  have hnew : rq ∉ s.all := fun hrq => hid rq hrq rfl
  have htagged : ∀ r ∈ s.all, (s.arrive rq).tagged r.id = s.tagged r.id :=
    fun r hr => Function.update_of_ne (hid r hr) _ _
  refine ⟨hi.kept.arrive hnew, ?_, ?_, hi.pending, ?_, ?_, hi.told, hi.plugs, hi.described, hi.sane⟩
  · intro r hr
    rcases List.mem_cons.mp hr with rfl | hr
    · exact hm
    · exact hi.mapped r hr
  · intro r hr r' hr' heq
    rcases List.mem_cons.mp hr with hnew | hold <;> rcases List.mem_cons.mp hr' with hnew' | hold'
    · rw [hnew, hnew']
    · exact absurd (hnew ▸ heq).symm (hid r' hold')
    · exact absurd (hnew' ▸ heq) (hid r hold)
    · exact hi.ids r hold r' hold' heq
  · intro p r hp hr htag
    rw [htagged r (hi.kept.mem_of_place hr)]
    exact hi.untagged hp hr htag
  · intro r hr htag
    rcases List.mem_cons.mp hr with rfl | hr
    · exact (Function.update_self _ _ _).trans (by rw [htag]; rfl)
    · rw [htagged r (hi.kept.mem_of_hand hr)]
      exact hi.hand_untagged r hr htag

/-- **Step.** Every call keeps the invariant. -/
theorem Inv.act {a : Act} (hi : Inv host f s [] []) (hl : a.Legal host s) :
    ∃ f', Inv host f' (s.act host a) [] [] := by
  cases a with
  | submit plug rq isSync => exact (hi.arrive hl.1 hl.2).submit plug isSync
  | execute plug rq atHead blocking => exact (hi.arrive hl.1 hl.2).executeRqNowait plug atHead blocking
  | flushPlug plug fromSchedule =>
      obtain ⟨f', hi', -⟩ := hi.flushPlugList plug fromSchedule
      exact ⟨f', hi'⟩
  | run h => exact ⟨f, hi.schedDispatchRequests⟩
  | requeue rq => exact ⟨f, hi.requeueRequest hl⟩
  | reflush rq =>
      refine ⟨f, (hi.takeBack hl).putDriverTag.addTail [rq] ?_ trivial⟩
      intro r hr
      rw [List.mem_singleton.mp hr]
      rfl
  | requeueWork q hctxs => exact ⟨f, hi.requeueWork q hctxs⟩
  | complete rq => exact ⟨f, (hi.takeBack hl).endRequest⟩
  | notifyDead h c => exact ⟨f, hi.notifyDead c⟩
  | turn => exact ⟨f, hi.turn true⟩

theorem inv_empty (host : Host) : Inv host (fun _ => (⟨0, false, false⟩, [])) Mq.empty [] [] where
  kept := Kept.empty
  mapped := fun rq hrq => absurd hrq List.not_mem_nil
  ids := fun rq hrq => absurd hrq List.not_mem_nil
  pending := fun _ => by simp [Mq.empty]
  untagged := fun _ hrq => absurd hrq List.not_mem_nil
  hand_untagged := fun rq hrq => absurd hrq List.not_mem_nil
  told := fun q rqs hm => absurd hm List.not_mem_nil
  plugs := fun _ => ⟨rfl, rfl⟩
  described := fun _ =>
    ⟨rfl, fun _ _ hrq => absurd hrq List.not_mem_nil, fun _ _ hrq => absurd hrq List.not_mem_nil⟩
  sane := ⟨rfl, rfl⟩

/-- **Run.** The invariant holds in every state that is reached. -/
theorem Mq.Reachable.inv (hr : s.Reachable host) : ∃ f, Inv host f s [] [] := by
  refine Reaches.inv (I := fun s => ∃ f, Inv host f s [] []) hr ⟨_, inv_empty host⟩ ?_
  rintro s a t ⟨f, hi⟩ ⟨hl, rfl⟩
  exact hi.act hl

/-- Calls that are legal one after the other. -/
def LegalRun (host : Host) : Mq → List Act → Prop
  | _, []      => True
  | s, a :: as => a.Legal host s ∧ LegalRun host (s.act host a) as

theorem reachable_run (as : List Act) (hr : s.Reachable host) (hl : LegalRun host s as) :
    (as.foldl (Mq.act host) s).Reachable host := by
  induction as generalizing s with
  | nil => exact hr
  | cons a as ih => exact ih (hr.tail ⟨hl.1, rfl⟩) hl.2

end Runs

/-! ## A short run -/

/-- Two queues with one hardware queue each; the first one has two software queues, and the second one has
    a scheduler. -/
def twoQueues : Hardware where
  queue := fun h => h
  type := fun _ => 0
  ctxs := fun h => if h = 0 then [0, 2] else if h = 1 then [1] else []
  indexHw := fun c _ => c / 2
  elevator := fun q => q == 1
  single := fun _ => true
  queueRqs := fun q => q == 0
  commitRqs := fun _ => true
  nodup := fun h => by split_ifs <;> decide
  index := fun {h c} hc => by
    split_ifs at hc ⊢
    · rcases List.mem_pair.mp hc with rfl | rfl <;> rfl
    · rw [List.mem_singleton.mp hc]
      rfl
    · exact absurd hc List.not_mem_nil
  apart := fun {h h' c} hc hc' _ => by
    split_ifs at hc hc' <;> simp only [List.mem_cons, List.not_mem_nil, or_false] at hc hc' <;> omega

/-- A driver whose `queue_rqs` takes only the request 0, and that has no room for another one. -/
def narrowHost : Host where
  hw := twoQueues
  answer := fun _ => {
    budget := true, tag := true, tagWait := false, ret := .resource, takes := fun rq => rq.id == 0
    dontprep := false, large := false, hasWork := false, onCpu := false, run := [], turns := false }
  stopped := fun _ _ => false
  quiesced := fun _ _ => false

/-- A request of the queue `q`. -/
def plainRq (id q : Nat) : Rq where
  id := id
  q := q
  mqHctx := q
  mqCtx := q
  passthrough := false
  flush := false
  nowait := false
  useSched := q == 1
  schedTags := q == 1

/-- Two requests of the first queue are plugged and the plug is flushed; one of the second queue comes, and
    one of the other CPU of the first, which is busy now. -/
def fourRequests : Mq :=
  [.submit (some 0) (plainRq 0 0) true, .submit (some 0) (plainRq 1 0) true, .flushPlug 0 false,
    .submit none (plainRq 2 1) true, .submit none { plainRq 3 0 with mqCtx := 2 } true].foldl
    (Mq.act narrowHost) Mq.empty

theorem plainRq_mapped (id : Nat) {q : Nat} (hq : q < 2) : (plainRq id q).Mapped twoQueues where
  queue := rfl
  ctx := by
    obtain rfl | rfl : q = 0 ∨ q = 1 := by omega
    · exact List.mem_cons_self
    · exact List.mem_cons_self
  tag := fun helv => helv

theorem fourRequests_reachable : fourRequests.Reachable narrowHost := by
  refine reachable_run _ Reaches.refl
    ⟨⟨plainRq_mapped 0 (by decide), ?_⟩, ⟨plainRq_mapped 1 (by decide), ?_⟩, trivial,
      ⟨plainRq_mapped 2 (by decide), ?_⟩, ⟨⟨rfl, by decide, fun helv => absurd helv (by decide)⟩, ?_⟩, trivial⟩
  all_goals decide

/-! ## What holds in every state -/

section Invariants

variable {host : Host} {s : Mq} {rq : Rq}

/-- **No request is lost or doubled.** Every request that ever came is on exactly one list, with the driver
    or at its end, and only once; on a list that is its own: that of its hardware queue, of its CPU and
    type, or of its queue, and passthrough requests never with the scheduler. The `BUG_ON` of
    `blk_mq_insert_requests` and the `WARN_ON_ONCE` of `blk_mq_dispatch_rq_list` and `blk_mq_insert_request`
    never fire. -/
theorem requests_conserved (hr : s.Reachable host) :
    (∀ rq ∈ s.all, ∃! p, rq ∈ s.list p) ∧ (∀ p, (s.list p).Nodup) ∧
      (∀ p, ∀ rq ∈ s.list p, rq ∈ s.all ∧ Belongs host.hw p rq) ∧ s.bug = false ∧ s.warned = false := by
  obtain ⟨f, hi⟩ := hr.inv
  refine ⟨fun rq hrq => hi.kept.existsUnique hrq, hi.kept.nodup, ?_, hi.sane⟩
  intro p rq hrq
  exact ⟨hi.kept.mem_of_place hrq, hi.kept.home hrq⟩

/-- The driver has the first request, the second waits in the dispatch list, the third with the scheduler and
    the last one in its software queue. -/
theorem requests_conserved_four :
    fourRequests.list .driver = [plainRq 0 0] ∧ fourRequests.list (.dispatch 0) = [plainRq 1 0] ∧
      fourRequests.list (.sched 1) = [plainRq 2 1] ∧
      fourRequests.list (.sw 2 0) = [{ plainRq 3 0 with mqCtx := 2 }] ∧
      ∃! p, plainRq 1 0 ∈ fourRequests.list p :=
  ⟨rfl, rfl, rfl, rfl, (requests_conserved fourRequests_reachable).1 (plainRq 1 0) (by decide)⟩

/-- **Batches are of one queue.** `queue_rqs` is only ever called with requests of the queue whose driver it
    belongs to, and never with one that has a tag of the scheduler. -/
theorem queue_rqs_sound (hr : s.Reachable host) {q : Nat} {rqs : List Rq}
    (htold : Event.queueRqs q rqs ∈ s.log) (hrq : rq ∈ rqs) : rq.q = q ∧ rq.schedTags = false := by
  obtain ⟨f, hi⟩ := hr.inv
  exact hi.told q rqs htold rq hrq

/-- The batch with both requests of the first queue. -/
theorem queue_rqs_sound_pair :
    Event.queueRqs 0 [plainRq 0 0, plainRq 1 0] ∈ fourRequests.log ∧ (plainRq 1 0).q = 0 ∧
      (plainRq 1 0).schedTags = false := by
  have hlog : Event.queueRqs 0 [plainRq 0 0, plainRq 1 0] ∈ fourRequests.log := List.mem_cons_self
  exact ⟨hlog, queue_rqs_sound fourRequests_reachable hlog (List.mem_cons_of_mem _ List.mem_cons_self)⟩

/-- **Driver tags are with the driver or next to it.** A request that has a tag of the scheduler holds a
    driver tag only while the driver has it or while it waits in the dispatch list of its hardware queue:
    wherever else it goes, or comes back to, the tag has been given back before. -/
theorem driver_tags_held (hr : s.Reachable host) {p : Spot} (hrq : rq ∈ s.list p) (htag : rq.schedTags = true)
    (hdriver : p ≠ .driver) (hdispatch : p ≠ .dispatch rq.mqHctx) : s.tagged rq.id = false := by
  obtain ⟨f, hi⟩ := hr.inv
  have htagless : p.Tagless := by
    have hb := hi.kept.home hrq
    cases p with
    | driver     => exact hdriver rfl
    | dispatch h => exact hdispatch (congrArg Spot.dispatch (hb : rq.mqHctx = h).symm)
    | _          => trivial
  exact hi.untagged htagless hrq htag

/-- A scheduler that gives out three requests at once, all with a driver tag, and a driver that accepts only
    the first one, at the question 8. -/
def givingHost : Host where
  hw := twoQueues
  answer := fun t => {
    budget := true, tag := true, tagWait := false, ret := if t = 8 then .ok else .resource
    takes := fun _ => false, dontprep := false, large := false, hasWork := true, onCpu := false
    run := [.sched 1 [plainRq 0 1, plainRq 1 1, plainRq 2 1] false], turns := false }
  stopped := fun _ _ => false
  quiesced := fun _ _ => false

/-- Three requests of the second queue come, and the queue is run. -/
def givenOut : Mq :=
  [.submit none (plainRq 0 1) true, .submit none (plainRq 1 1) true, .submit none (plainRq 2 1) true,
    .run 1].foldl (Mq.act givingHost) Mq.empty

/-- The driver requeues the first one. -/
def takenBack : Mq := givenOut.act givingHost (.requeue (plainRq 0 1))

theorem givenOut_reachable : givenOut.Reachable givingHost := by
  refine reachable_run _ Reaches.refl
    ⟨⟨plainRq_mapped 0 (by decide), ?_⟩, ⟨plainRq_mapped 1 (by decide), ?_⟩, ⟨plainRq_mapped 2 (by decide), ?_⟩,
      trivial, trivial⟩
  all_goals decide

/-- The first request had a tag with the driver and has none when it is requeued; of the two that wait in the
    dispatch list the refused one has given its tag back, and the other one keeps it. -/
theorem driver_tags_held_requeued :
    (plainRq 0 1 ∈ givenOut.list .driver ∧ givenOut.tagged 0 = true) ∧
      (takenBack.list (.dispatch 1) = [plainRq 1 1, plainRq 2 1] ∧ takenBack.tagged 1 = false ∧
        takenBack.tagged 2 = true) ∧
      takenBack.list (.requeue 1) = [plainRq 0 1] ∧ takenBack.tagged 0 = false := by
  have hdriver : plainRq 0 1 ∈ givenOut.list .driver := List.mem_cons_self
  have hr : takenBack.Reachable givingHost := reachable_run [.requeue _] givenOut_reachable ⟨hdriver, trivial⟩
  have hrq : plainRq 0 1 ∈ takenBack.list (.requeue 1) := List.mem_cons_self
  exact ⟨⟨hdriver, rfl⟩, ⟨rfl, rfl, rfl⟩, rfl, driver_tags_held hr hrq rfl (by decide) (by decide)⟩

end Invariants

/-! ## The software queues -/

section Pending

variable {host : Host} {f : Nat → PlugInfo × List Rq} {s : Mq} {h : Nat}

/-- The first `k` bits have been flushed. -/
structure Flushed (host : Host) (h : Nat) (s : Mq) (k : Nat) (r : List Rq × Mq) : Prop where
  rqs : r.1 = ((host.hw.ctxs h).take k).flatMap fun c => s.list (.sw c (host.hw.type h))
  gone : ∀ c ∈ (host.hw.ctxs h).take k, r.2.list (.sw c (host.hw.type h)) = []
  rest : ∀ c ∈ (host.hw.ctxs h).drop k, r.2.list (.sw c (host.hw.type h)) = s.list (.sw c (host.hw.type h))
  bits : ∀ bit, k ≤ bit → r.2.ctxMap h bit = s.ctxMap h bit

theorem Flushed.step {k : Nat} {r : List Rq × Mq} (hi : Inv host f s [] []) (hf : Flushed host h s k r)
    (hk : k < (host.hw.ctxs h).length) : Flushed host h s (k + 1) (flushBusyCtx host h r k) := by
  have hget : (host.hw.ctxs h)[k]? = some (host.hw.ctxs h)[k] := List.getElem?_eq_getElem hk
  have htake : (host.hw.ctxs h).take (k + 1) = (host.hw.ctxs h).take k ++ [(host.hw.ctxs h)[k]] :=
    List.take_succ_eq_append_getElem hk
  have hdrop : (host.hw.ctxs h).drop k = (host.hw.ctxs h)[k] :: (host.hw.ctxs h).drop (k + 1) :=
    List.drop_eq_getElem_cons hk
  generalize (host.hw.ctxs h)[k] = c at hget htake hdrop
  obtain ⟨hmem, hbit⟩ := host.hw.indexHw_eq hget
  -- the list of the software queue is still as it was, and the bit tells whether it is empty
  have hlist := hf.rest c (hdrop ▸ List.mem_cons_self)
  have hpend := hi.pending hmem
  rw [hbit, ← hf.bits k (Nat.le_refl k)] at hpend
  have hnodup : (c :: (host.hw.ctxs h).drop (k + 1)).Nodup :=
    hdrop ▸ (host.hw.nodup h).sublist (List.drop_sublist _ _)
  have hne : ∀ {c' : Nat}, c' ∈ (host.hw.ctxs h).drop (k + 1) → c' ≠ c := by
    rintro c' hc' rfl
    exact (List.nodup_cons.mp hnodup).1 hc'
  unfold flushBusyCtx
  by_cases hset : r.2.ctxMap h k = true
  · rw [if_pos hset, hget]
    refine ⟨?_, ?_, ?_, ?_⟩
    · dsimp only
      rw [hlist, hf.rqs, htake, List.flatMap_append, List.flatMap_singleton]
    · intro c' hc'
      change Function.update r.2.list (.sw c (host.hw.type h)) [] (.sw c' (host.hw.type h)) = []
      rw [Function.update_apply]
      split_ifs with heq
      · rfl
      · rw [htake, List.mem_append, List.mem_singleton] at hc'
        exact hf.gone c' (hc'.resolve_right fun hc => heq (by rw [hc]))
    · intro c' hc'
      change Function.update r.2.list (.sw c (host.hw.type h)) [] (.sw c' (host.hw.type h)) = _
      rw [Function.update_of_ne (by simp [hne hc'])]
      exact hf.rest c' (hdrop ▸ List.mem_cons_of_mem _ hc')
    · intro bit hle
      change Function.update r.2.ctxMap h (Function.update (r.2.ctxMap h) k false) h bit = _
      rw [Function.update_self, Function.update_of_ne (by omega)]
      exact hf.bits bit (by omega)
  · -- an unmarked software queue is empty
    have hnil : s.list (.sw c (host.hw.type h)) = [] := not_not.mp (hpend.not.mp hset)
    rw [if_neg hset]
    refine ⟨?_, ?_, ?_, fun bit hle => hf.bits bit (by omega)⟩
    · rw [htake, List.flatMap_append, List.flatMap_singleton, hnil, List.append_nil]
      exact hf.rqs
    · intro c' hc'
      rw [htake, List.mem_append, List.mem_singleton] at hc'
      rcases hc' with hc' | rfl
      · exact hf.gone c' hc'
      · exact hlist.trans hnil
    · exact fun c' hc' => hf.rest c' (hdrop ▸ List.mem_cons_of_mem _ hc')

theorem Flushed.run (hi : Inv host f s [] []) (k : Nat) (hk : k ≤ (host.hw.ctxs h).length) :
    Flushed host h s k ((List.range k).foldl (flushBusyCtx host h) ([], s)) := by
  induction k with
  | zero => exact ⟨rfl, by simp, fun _ _ => rfl, fun _ _ => rfl⟩
  | succ k ih =>
      rw [List.range_succ, List.foldl_append]
      exact (ih (Nat.le_of_succ_le hk)).step hi hk

theorem Inv.hasPending_iff (hi : Inv host f s [] []) :
    blkMqHctxHasPending host h s = true ↔ s.list (.dispatch h) ≠ [] ∨
      (∃ c ∈ host.hw.ctxs h, s.list (.sw c (host.hw.type h)) ≠ []) ∨ (host.answer s.tick).hasWork = true := by
  have hany : (List.range (host.hw.ctxs h).length).any (s.ctxMap h) = true ↔
      ∃ c ∈ host.hw.ctxs h, s.list (.sw c (host.hw.type h)) ≠ [] := by
    rw [List.any_eq_true]
    constructor
    · rintro ⟨bit, hbit, hset⟩
      obtain ⟨hmem, hidx⟩ := host.hw.indexHw_eq
        (List.getElem?_eq_getElem (List.mem_range.mp hbit))
      exact ⟨_, hmem, (hi.pending hmem).mp (by rw [hidx]; exact hset)⟩
    · rintro ⟨c, hc, hne⟩
      refine ⟨host.hw.indexHw c (host.hw.type h), ?_, (hi.pending hc).mpr hne⟩
      exact List.mem_range.mpr (List.getElem?_eq_some_iff.mp (host.hw.index hc)).1
  unfold blkMqHctxHasPending
  rw [Bool.or_eq_true, Bool.or_eq_true, hany, Bool.not_eq_true', List.isEmpty_eq_false_iff, or_assoc]

/-- **The map of pending software queues is exact.** In every state that is reached the bit of a software queue
    is set exactly if there is a request in it, so that a hardware queue counts as having work exactly if its
    dispatch list or one of its software queues is not empty or the scheduler says so; and
    `blk_mq_flush_busy_ctxs` takes all that wait in the software queues, in the order of these and each in its
    own order, and leaves none behind. -/
theorem pending_exact (hr : s.Reachable host) (h : Nat) :
    (∀ c ∈ host.hw.ctxs h, s.ctxMap h (host.hw.indexHw c (host.hw.type h)) = true ↔
      s.list (.sw c (host.hw.type h)) ≠ []) ∧
    (blkMqHctxHasPending host h s = true ↔ s.list (.dispatch h) ≠ [] ∨
      (∃ c ∈ host.hw.ctxs h, s.list (.sw c (host.hw.type h)) ≠ []) ∨ (host.answer s.tick).hasWork = true) ∧
    (blkMqFlushBusyCtxs host h s).1 =
      (host.hw.ctxs h).flatMap (fun c => s.list (.sw c (host.hw.type h))) ∧
    ∀ c ∈ host.hw.ctxs h, (blkMqFlushBusyCtxs host h s).2.list (.sw c (host.hw.type h)) = [] := by
  obtain ⟨f, hi⟩ := hr.inv
  have hf := Flushed.run (h := h) hi (host.hw.ctxs h).length (Nat.le_refl _)
  refine ⟨fun c hc => hi.pending hc, hi.hasPending_iff, ?_, ?_⟩
  · have hrqs := hf.rqs
    rw [List.take_length] at hrqs
    exact hrqs
  · intro c hc
    refine hf.gone c ?_
    rwa [List.take_length]

/-- In the short run the bit of the other CPU is set, its request is found, and nothing is left. -/
theorem pending_exact_marked :
    fourRequests.ctxMap 0 1 = true ∧ blkMqHctxHasPending narrowHost 0 fourRequests = true ∧
      (blkMqFlushBusyCtxs narrowHost 0 fourRequests).1 = [{ plainRq 3 0 with mqCtx := 2 }] ∧
      (blkMqFlushBusyCtxs narrowHost 0 fourRequests).2.list (.sw 2 0) = [] := by
  obtain ⟨hbit, hpending, htaken, hleft⟩ := pending_exact fourRequests_reachable 0
  have hmem : 2 ∈ twoQueues.ctxs 0 := by decide
  have hwaits : fourRequests.list (.sw 2 0) ≠ [] := by decide
  exact ⟨(hbit 2 hmem).mpr hwaits, hpending.mpr (Or.inr (Or.inl ⟨2, hmem, hwaits⟩)), htaken, hleft 2 hmem⟩

end Pending

end Dispatch
end Block
end SystemsPlayground
