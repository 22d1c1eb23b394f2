import Mathlib.Data.List.Basic
import Mathlib.Logic.Function.Basic

/-!
# `Block.Dispatch` — from the plug to the driver

The way of a request through `blk-mq.c`. It waits in the plug of a task, in a software queue, with the
scheduler, in the dispatch list of a hardware queue or in the list of requeued requests, until the driver
accepts it or it ends with an error. Each function here has in hand the requests that are local to it in
the source, and takes them from the lists of the state `Mq` and puts them there as the source does.

What decides the course of things lies outside: whether there is a budget and a tag, what `queue_rq`
returns, and which queues are stopped. A `Host` answers such a question with the number of the question,
so that any answers in any order are possible. Of the scheduler only its interface is known: `blk_mq_sched_has_work`
is one of the questions, and `blk_mq_sched_dispatch_requests`, which is not part of `blk-mq.c`, is any sequence
of the `RunStep`s that it is made of.
-/

namespace SystemsPlayground
namespace Block
namespace Dispatch

/-! ## Requests and queues -/

/-- `blk_status_t`, as far as the dispatch tells its values apart. -/
inductive BlkStatus where
  | ok
  | resource
  | devResource
  | error (code : Nat)
deriving DecidableEq

/-- What the dispatch reads of a `struct request`. -/
structure Rq where
  id : Nat
  q : Nat
  mqHctx : Nat
  mqCtx : Nat
  /-- `blk_rq_is_passthrough`. -/
  passthrough : Bool
  /-- `req_op(rq) == REQ_OP_FLUSH`. -/
  flush : Bool
  nowait : Bool
  useSched : Bool
  schedTags : Bool
deriving DecidableEq

/-- The lists that a request can be on, the driver that has it, and its end. -/
inductive Spot where
  /-- `plug->mq_list`. -/
  | plug (plug : Nat)
  /-- `ctx->rq_lists[type]`. -/
  | sw (ctx type : Nat)
  /-- `hctx->dispatch`. -/
  | dispatch (hctx : Nat)
  /-- The scheduler of a queue. -/
  | sched (q : Nat)
  /-- `q->requeue_list`. -/
  | requeue (q : Nat)
  /-- `q->flush_list`. -/
  | flush (q : Nat)
  | driver
  | ended
deriving DecidableEq

/-- The queues, and what the driver implements. A hardware queue has each of its software queues once, at the
    index that this one keeps for the type; and no other hardware queue of the type has it. So does
    `blk_mq_map_swqueue` lay them out if the CPUs of a hardware queue all come to it through one type
    (`map_swqueue_sound`); after failed allocations of tags this need not be so. -/
structure Hardware where
  /-- `hctx->queue`. -/
  queue : Nat → Nat
  /-- `hctx->type`. -/
  type : Nat → Nat
  /-- `hctx->ctxs`. -/
  ctxs : Nat → List Nat
  /-- `ctx->index_hw[type]`. -/
  indexHw : Nat → Nat → Nat
  /-- `q->elevator`. -/
  elevator : Nat → Bool
  /-- `q->nr_hw_queues == 1`. -/
  single : Nat → Bool
  /-- `q->mq_ops->queue_rqs`. -/
  queueRqs : Nat → Bool
  /-- `q->mq_ops->commit_rqs`. -/
  commitRqs : Nat → Bool
  nodup : ∀ h, (ctxs h).Nodup
  index : ∀ {h c}, c ∈ ctxs h → (ctxs h)[indexHw c (type h)]? = some c
  apart : ∀ {h h' c}, c ∈ ctxs h → c ∈ ctxs h' → type h = type h' → h = h'

/-- What `blk_mq_sched_dispatch_requests` does with a hardware queue: it dispatches the requests of
    `hctx->dispatch`, those of all the software queues that are marked, the first one that it finds there,
    or requests that the scheduler gives out, for this or another hardware queue of the queue, after it has
    tried to get driver tags for them. -/
inductive RunStep where
  | dispatched
  | busy
  | dequeue (start : Option Nat)
  | sched (hctx : Nat) (rqs : List Rq) (getBudget : Bool)

/-- The answers to one question. -/
structure Answer where
  /-- `blk_mq_get_dispatch_budget` succeeds. -/
  budget : Bool
  /-- `__blk_mq_alloc_driver_tag` succeeds. -/
  tag : Bool
  /-- It succeeds in `blk_mq_mark_tag_wait`, which tries once more. -/
  tagWait : Bool
  /-- What `queue_rq` returns. -/
  ret : BlkStatus
  /-- The requests that `queue_rqs` accepts. -/
  takes : Rq → Bool
  /-- `RQF_DONTPREP` of a requeued request. -/
  dontprep : Bool
  /-- The first request of the plug has reached `BLK_PLUG_FLUSH_SIZE`, in a queue that merges. -/
  large : Bool
  /-- `blk_mq_sched_has_work`. -/
  hasWork : Bool
  /-- The task is on a CPU of the hardware queue. -/
  onCpu : Bool
  /-- The course of `blk_mq_sched_dispatch_requests`. -/
  run : List RunStep
  /-- During the call queues are stopped, started, quiesced or unquiesced. -/
  turns : Bool

/-- Hardware, the answers in their order, and which hardware queues are stopped and which queues are
    quiesced in each phase. -/
structure Host where
  hw : Hardware
  answer : Nat → Answer
  stopped : Nat → Nat → Bool
  quiesced : Nat → Nat → Bool

/-- What the driver is told. -/
inductive Event where
  | queueRq (hctx : Nat) (rq : Rq) (last : Bool) (ret : BlkStatus)
  | queueRqs (q : Nat) (rqs : List Rq)
  | commitRqs (hctx : Nat)

/-- `struct blk_plug` besides its list. -/
structure PlugInfo where
  rqCount : Nat
  multipleQueues : Bool
  hasElevator : Bool

/-- The queues of all devices. -/
structure Mq where
  list : Spot → List Rq
  /-- The requests that ever came. -/
  all : List Rq
  /-- `hctx->ctx_map`, of each hardware queue and bit. -/
  ctxMap : Nat → Nat → Bool
  /-- `hctx->dispatch_busy`. -/
  dispatchBusy : Nat → Nat
  plug : Nat → PlugInfo
  /-- The requests, by number, that have a driver tag. -/
  tagged : Nat → Bool
  tick : Nat
  phase : Nat
  log : List Event
  /-- A `BUG_ON` of the dispatch has fired. -/
  bug : Bool
  /-- A `WARN_ON_ONCE` of the dispatch has fired. -/
  warned : Bool

namespace Mq

/-- No request anywhere. -/
def empty : Mq where
  list := fun _ => []
  all := []
  ctxMap := fun _ _ => false
  dispatchBusy := fun _ => 0
  plug := fun _ => ⟨0, false, false⟩
  tagged := fun _ => false
  tick := 0
  phase := 0
  log := []
  bug := false
  warned := false

/-- The list at a spot replaced. -/
def setList (s : Mq) (p : Spot) (rqs : List Rq) : Mq := { s with list := Function.update s.list p rqs }

/-- `list_add_tail`, `list_splice_tail_init`. -/
def addTail (s : Mq) (p : Spot) (rqs : List Rq) : Mq := s.setList p (s.list p ++ rqs)

/-- `list_add`. -/
def addHead (s : Mq) (p : Spot) (rq : Rq) : Mq := s.setList p (rq :: s.list p)

/-- Whether a request has a driver tag. -/
def setTagged (s : Mq) (rq : Rq) (b : Bool) : Mq := { s with tagged := Function.update s.tagged rq.id b }

/-- A bit of `hctx->ctx_map` set or cleared. -/
def setBit (s : Mq) (h bit : Nat) (b : Bool) : Mq :=
  { s with ctxMap := Function.update s.ctxMap h (Function.update (s.ctxMap h) bit b) }

/-- A `WARN_ON_ONCE`. -/
def warnOn (s : Mq) (b : Bool) : Mq := { s with warned := s.warned || b }

/-- A `BUG_ON`. -/
def bugOn (s : Mq) (b : Bool) : Mq := { s with bug := s.bug || b }

/-- The driver is told something. -/
def tell (s : Mq) (e : Event) : Mq := { s with log := s.log ++ [e] }

/-- The next question. -/
def next (s : Mq) : Mq := { s with tick := s.tick + 1 }

/-- The next question, and perhaps the next phase. -/
def turn (s : Mq) (turns : Bool) : Mq := { s.next with phase := if turns then s.phase + 1 else s.phase }

end Mq

section Functions

variable (host : Host)

/-! ## The parts -/

/-- `blk_mq_hctx_mark_pending`. -/
def blkMqHctxMarkPending (h c : Nat) (s : Mq) : Mq :=
  s.setBit h (host.hw.indexHw c (host.hw.type h)) true

/-- `blk_mq_hctx_clear_pending`. -/
def blkMqHctxClearPending (h c : Nat) (s : Mq) : Mq :=
  s.setBit h (host.hw.indexHw c (host.hw.type h)) false

/-- `blk_mq_hctx_has_pending`; the bits of the map are as many as the hardware queue has software queues. -/
def blkMqHctxHasPending (h : Nat) (s : Mq) : Bool :=
  !(s.list (.dispatch h)).isEmpty || (List.range (host.hw.ctxs h).length).any (s.ctxMap h) ||
    (host.answer s.tick).hasWork

/-- `blk_mq_update_dispatch_busy`. -/
def blkMqUpdateDispatchBusy (h : Nat) (busy : Bool) (s : Mq) : Mq :=
  let ewma := s.dispatchBusy h
  if ewma = 0 ∧ busy = false then s
  else { s with dispatchBusy := Function.update s.dispatchBusy h ((ewma * 7 + if busy then 16 else 0) / 8) }

/-- `blk_mq_get_driver_tag`. -/
def blkMqGetDriverTag (rq : Rq) (s : Mq) : Bool × Mq :=
  if s.tagged rq.id then (true, s)
  else if (host.answer s.tick).tag then (true, (s.setTagged rq true).next)
  else (false, s.next)

/-- `blk_mq_put_driver_tag`: a request without a tag of the scheduler keeps its own. -/
def blkMqPutDriverTag (rq : Rq) (s : Mq) : Mq := if rq.schedTags then s.setTagged rq false else s

/-- `blk_mq_mark_tag_wait`, of a request that got no tag. -/
def blkMqMarkTagWait (rq : Rq) (s : Mq) : Bool × Mq :=
  if (host.answer s.tick).tagWait then (true, (s.setTagged rq true).next) else (false, s.next)

/-- `blk_mq_prep_dispatch_rq`: whether the request can be dispatched. -/
def blkMqPrepDispatchRq (rq : Rq) (needBudget : Bool) (s : Mq) : Bool × Mq :=
  if needBudget = true ∧ (host.answer s.tick).budget = false then (false, (blkMqPutDriverTag rq s).next)
  else
    match blkMqGetDriverTag host rq s.next with
    | (true, s)  => (true, s)
    | (false, s) => blkMqMarkTagWait host rq s

/-- `__blk_mq_requeue_request`. -/
def blkMqRequeueTag (rq : Rq) (s : Mq) : Mq := blkMqPutDriverTag rq s

/-- `blk_mq_end_request`; the request is freed, with its tag. -/
def blkMqEndRequest (rq : Rq) (s : Mq) : Mq := (s.setTagged rq false).addTail .ended [rq]

/-- `blk_mq_commit_rqs`. -/
def blkMqCommitRqs (h queued : Nat) (s : Mq) : Mq :=
  if host.hw.commitRqs (host.hw.queue h) = true ∧ queued ≠ 0 then s.tell (.commitRqs h) else s

/-- `queue_rq` of the driver: a request for which it returns `BLK_STS_OK` is its own. -/
def queueRq (h : Nat) (rq : Rq) (last : Bool) (s : Mq) : BlkStatus × Mq :=
  let ret := (host.answer s.tick).ret
  let s := (s.turn (host.answer s.tick).turns).tell (.queueRq h rq last ret)
  (ret, if ret = .ok then s.addTail .driver [rq] else s)

/-! ## `blk_mq_dispatch_rq_list` -/

/-- The loop of `blk_mq_dispatch_rq_list`: what is left of the list, `queued` and `ret`. -/
def dispatchLoop (h : Nat) (getBudget : Bool) : List Rq → Nat → BlkStatus → Mq → List Rq × Nat × BlkStatus × Mq
  | [], queued, ret, s => ([], queued, ret, s)
  | rq :: rqs, queued, ret, s =>
      match blkMqPrepDispatchRq host rq getBudget (s.warnOn (h != rq.mqHctx)) with
      | (false, s) => (rq :: rqs, queued, ret, s)
      | (true, s) =>
          match queueRq host h rq rqs.isEmpty s with
          | (.ok, s)          => dispatchLoop h getBudget rqs (queued + 1) .ok s
          | (.resource, s)    => (rq :: rqs, queued, .resource, blkMqRequeueTag rq s)
          | (.devResource, s) => (rq :: rqs, queued, .devResource, blkMqRequeueTag rq s)
          | (.error e, s)     => dispatchLoop h getBudget rqs queued (.error e) (blkMqEndRequest rq s)

/-- `blk_mq_dispatch_rq_list`. What is left goes to `hctx->dispatch`; the runs of the queue that it asks for
    are asynchronous. -/
def blkMqDispatchRqList (h : Nat) (rqs : List Rq) (getBudget : Bool) (s : Mq) : Bool × Mq :=
  if rqs = [] then (false, s)
  else
    let (left, queued, ret, s) := dispatchLoop host h getBudget rqs 0 .ok s
    let s := if left ≠ [] ∨ ret ≠ .ok then blkMqCommitRqs host h queued s else s
    if left ≠ [] then (false, blkMqUpdateDispatchBusy h true (s.addTail (.dispatch h) left))
    else (true, blkMqUpdateDispatchBusy h false s)

/-! ## Running a hardware queue -/

/-- `flush_busy_ctx`. -/
def flushBusyCtx (h : Nat) (r : List Rq × Mq) (bit : Nat) : List Rq × Mq :=
  if r.2.ctxMap h bit then
    match (host.hw.ctxs h)[bit]? with
    | some c =>
        let p := Spot.sw c (host.hw.type h)
        (r.1 ++ r.2.list p, (r.2.setList p []).setBit h bit false)
    | none => r
  else r

/-- `blk_mq_flush_busy_ctxs`. -/
def blkMqFlushBusyCtxs (h : Nat) (s : Mq) : List Rq × Mq :=
  (List.range (host.hw.ctxs h).length).foldl (flushBusyCtx host h) ([], s)

/-- `dispatch_rq_from_ctx` of the bits in their order, until there is a request. -/
def dispatchRqFromCtx (h : Nat) : List Nat → Mq → Option Rq × Mq
  | [], s => (none, s)
  | bit :: bits, s =>
      if s.ctxMap h bit then
        match (host.hw.ctxs h)[bit]? with
        | some c =>
            let p := Spot.sw c (host.hw.type h)
            match s.list p with
            | []        => dispatchRqFromCtx h bits s
            | rq :: rqs =>
                let s := s.setList p rqs
                (some rq, if rqs = [] then s.setBit h bit false else s)
        | none => dispatchRqFromCtx h bits s
      else dispatchRqFromCtx h bits s

/-- `blk_mq_dequeue_from_ctx`: the bits are looked at from that of `start` on, and around. -/
def blkMqDequeueFromCtx (h : Nat) (start : Option Nat) (s : Mq) : Option Rq × Mq :=
  let n := (host.hw.ctxs h).length
  let off := (start.map fun c => host.hw.indexHw c (host.hw.type h)).getD 0
  dispatchRqFromCtx host h ((List.range n).rotate (if off < n then off else 0)) s

/-- `blk_mq_get_driver_tag` of one request after the other. -/
def getDriverTags (rqs : List Rq) (s : Mq) : Mq := rqs.foldl (fun s rq => (blkMqGetDriverTag host rq s).2) s

/-- One step of `blk_mq_sched_dispatch_requests`. -/
def runStep (h : Nat) (s : Mq) : RunStep → Mq
  | .dispatched => (blkMqDispatchRqList host h (s.list (.dispatch h)) true (s.setList (.dispatch h) [])).2
  | .busy =>
      let (rqs, s) := blkMqFlushBusyCtxs host h s
      (blkMqDispatchRqList host h rqs true s).2
  | .dequeue start =>
      match blkMqDequeueFromCtx host h start s with
      | (none, s)    => s
      | (some rq, s) => (blkMqDispatchRqList host h [rq] false s).2
  | .sched hctx rqs getBudget =>
      let p := Spot.sched (host.hw.queue h)
      if rqs.Nodup ∧ ∀ rq ∈ rqs, rq ∈ s.list p ∧ rq.mqHctx = hctx then
        let s := getDriverTags host rqs (s.setList p ((s.list p).filter fun rq => rq ∉ rqs))
        (blkMqDispatchRqList host hctx rqs getBudget s).2
      else s

/-- `blk_mq_sched_dispatch_requests`. -/
def blkMqSchedDispatchRequests (h : Nat) (s : Mq) : Mq :=
  (host.answer s.tick).run.foldl (runStep host h) s.next

/-- `blk_mq_run_hw_queue`; an asynchronous run is one of its own, later. -/
def blkMqRunHwQueue (h : Nat) (async : Bool) (s : Mq) : Mq :=
  if host.quiesced s.phase (host.hw.queue h) = true ∨ blkMqHctxHasPending host h s = false then s.next
  else if async = true ∨ (host.answer s.tick).onCpu = false then s.next
  else blkMqSchedDispatchRequests host h s.next

/-! ## Inserting and issuing -/

/-- `blk_mq_request_bypass_insert`. -/
def blkMqRequestBypassInsert (rq : Rq) (atHead : Bool) (s : Mq) : Mq :=
  if atHead then s.addHead (.dispatch rq.mqHctx) rq else s.addTail (.dispatch rq.mqHctx) [rq]

/-- `blk_mq_insert_request`. -/
def blkMqInsertRequest (rq : Rq) (atHead : Bool) (s : Mq) : Mq :=
  if rq.passthrough then blkMqRequestBypassInsert rq atHead s
  else if rq.flush then blkMqRequestBypassInsert rq true s
  else if host.hw.elevator rq.q then (s.warnOn (s.tagged rq.id)).addTail (.sched rq.q) [rq]
  else
    let p := Spot.sw rq.mqCtx (host.hw.type rq.mqHctx)
    blkMqHctxMarkPending host rq.mqHctx rq.mqCtx (if atHead then s.addHead p rq else s.addTail p [rq])

/-- `__blk_mq_issue_directly`. -/
def blkMqIssueDirectly (h : Nat) (rq : Rq) (last : Bool) (s : Mq) : BlkStatus × Mq :=
  match queueRq host h rq last s with
  | (.ok, s)          => (.ok, blkMqUpdateDispatchBusy h false s)
  | (.resource, s)    => (.resource, blkMqRequeueTag rq (blkMqUpdateDispatchBusy h true s))
  | (.devResource, s) => (.devResource, blkMqRequeueTag rq (blkMqUpdateDispatchBusy h true s))
  | (.error e, s)     => (.error e, blkMqUpdateDispatchBusy h false s)

/-- `blk_mq_get_budget_and_tag`. -/
def blkMqGetBudgetAndTag (rq : Rq) (s : Mq) : Bool × Mq :=
  if (host.answer s.tick).budget then blkMqGetDriverTag host rq s.next else (false, s.next)

/-- `blk_mq_hctx_stopped(hctx) || blk_queue_quiesced(rq->q)`. -/
def held (rq : Rq) (s : Mq) : Bool := host.stopped s.phase rq.mqHctx || host.quiesced s.phase rq.q

/-- `blk_mq_try_issue_directly`. -/
def blkMqTryIssueDirectly (h : Nat) (rq : Rq) (s : Mq) : Mq :=
  if held host rq s then blkMqRunHwQueue host h false (blkMqInsertRequest host rq false s)
  else if rq.useSched then blkMqRunHwQueue host h rq.nowait (blkMqInsertRequest host rq false s)
  else
    match blkMqGetBudgetAndTag host rq s with
    | (false, s) => blkMqRunHwQueue host h rq.nowait (blkMqInsertRequest host rq false s)
    | (true, s) =>
        match blkMqIssueDirectly host h rq true s with
        | (.ok, s)          => s
        | (.resource, s)    => blkMqRunHwQueue host h false (blkMqRequestBypassInsert rq false s)
        | (.devResource, s) => blkMqRunHwQueue host h false (blkMqRequestBypassInsert rq false s)
        | (.error _, s)     => blkMqEndRequest rq s

/-- `blk_mq_request_issue_directly`. -/
def blkMqRequestIssueDirectly (rq : Rq) (last : Bool) (s : Mq) : BlkStatus × Mq :=
  if held host rq s then
    (.ok, blkMqRunHwQueue host rq.mqHctx false (blkMqInsertRequest host rq false s))
  else
    match blkMqGetBudgetAndTag host rq s with
    | (false, s) => (.resource, s)
    | (true, s)  => blkMqIssueDirectly host rq.mqHctx rq last s

/-- A request of another hardware queue: what the last one has got is committed. -/
def switchHctx (hctx : Option Nat) (h queued : Nat) (s : Mq) : Nat × Mq :=
  match hctx with
  | none    => (queued, s)
  | some h' => if h' = h then (queued, s) else (0, blkMqCommitRqs host h' queued s)

/-- The loop of `blk_mq_issue_direct`, with the hardware queue so far, `queued` and `ret`: what is left of the
    list, and these. -/
def issueLoop : List Rq → Option Nat → Nat → BlkStatus → Mq → List Rq × Option Nat × Nat × BlkStatus × Mq
  | [], hctx, queued, ret, s => ([], hctx, queued, ret, s)
  | rq :: rqs, hctx, queued, _, s =>
      let r := switchHctx host hctx rq.mqHctx queued s
      let hctx := rq.mqHctx
      match blkMqRequestIssueDirectly host rq rqs.isEmpty r.2 with
      | (.ok, s)          => issueLoop rqs (some hctx) (r.1 + 1) .ok s
      | (.resource, s)    =>
          (rqs, some hctx, r.1, .resource,
            blkMqRunHwQueue host hctx false (blkMqRequestBypassInsert rq false s))
      | (.devResource, s) =>
          (rqs, some hctx, r.1, .devResource,
            blkMqRunHwQueue host hctx false (blkMqRequestBypassInsert rq false s))
      | (.error e, s)     => issueLoop rqs (some hctx) r.1 (.error e) (blkMqEndRequest rq s)

/-- `blk_mq_issue_direct`: what is left of the list. -/
def blkMqIssueDirect (rqs : List Rq) (s : Mq) : List Rq × Mq :=
  let (left, hctx, queued, ret, s) := issueLoop host rqs none 0 .ok s
  match hctx with
  | none   => (left, s)
  | some h => (left, if ret ≠ .ok then blkMqCommitRqs host h queued s else s)

/-- The loop of `blk_mq_try_issue_list_directly`: what is left of the list, `queued` and `ret`. -/
def issueListLoop (h : Nat) : List Rq → Nat → BlkStatus → Mq → List Rq × Nat × BlkStatus × Mq
  | [], queued, ret, s => ([], queued, ret, s)
  | rq :: rqs, queued, _, s =>
      match blkMqRequestIssueDirectly host rq rqs.isEmpty s with
      | (.ok, s)          => issueListLoop h rqs (queued + 1) .ok s
      | (.resource, s)    =>
          let s := blkMqRequestBypassInsert rq false s
          (rqs, queued, .resource, if rqs = [] then blkMqRunHwQueue host h false s else s)
      | (.devResource, s) =>
          let s := blkMqRequestBypassInsert rq false s
          (rqs, queued, .devResource, if rqs = [] then blkMqRunHwQueue host h false s else s)
      | (.error e, s)     => issueListLoop h rqs queued (.error e) (blkMqEndRequest rq s)

/-- `blk_mq_try_issue_list_directly`: what is left of the list. -/
def blkMqTryIssueListDirectly (h : Nat) (rqs : List Rq) (s : Mq) : List Rq × Mq :=
  let (left, queued, ret, s) := issueListLoop host h rqs 0 .ok s
  (left, if ret ≠ .ok then blkMqCommitRqs host h queued s else s)

/-- `blk_mq_insert_requests`. -/
def blkMqInsertRequests (h c : Nat) (rqs : List Rq) (async : Bool) (s : Mq) : Mq :=
  let r := if s.dispatchBusy h = 0 ∧ async = false then blkMqTryIssueListDirectly host h rqs s else (rqs, s)
  if r.1 = [] then blkMqRunHwQueue host h async r.2
  else
    let s := r.2.bugOn (r.1.any fun rq => rq.mqCtx != c)
    let s := blkMqHctxMarkPending host h c (s.addTail (.sw c (host.hw.type h)) r.1)
    blkMqRunHwQueue host h (async || r.1.any fun rq => rq.nowait) s

/-! ## Flushing a plug -/

/-- Two requests that `blk_mq_dispatch_list` dispatches together. -/
def alike (rq rq' : Rq) : Bool :=
  rq.mqHctx == rq'.mqHctx && rq.mqCtx == rq'.mqCtx && rq.passthrough == rq'.passthrough

/-- `blk_mq_dispatch_list`: what is left of the list. -/
def blkMqDispatchList (fromSched : Bool) : List Rq → Mq → List Rq × Mq
  | [], s => ([], s)
  | rq :: rqs, s =>
      let (list, left) := rqs.partition (alike rq)
      let h := rq.mqHctx
      let list := rq :: list
      (left,
        if rq.passthrough then blkMqRunHwQueue host h fromSched (s.addTail (.dispatch h) list)
        else if host.hw.elevator (host.hw.queue h) then
          blkMqRunHwQueue host h fromSched (s.addTail (.sched (host.hw.queue h)) list)
        else blkMqInsertRequests host h rq.mqCtx list fromSched s)

/-- `blk_mq_dispatch_list` until nothing is left; `fuel` is at least the length of the list. -/
def dispatchLists (fromSched : Bool) : Nat → List Rq → Mq → Mq
  | 0, _, s => s
  | fuel + 1, rqs, s =>
      if rqs = [] then s
      else
        let (left, s) := blkMqDispatchList host fromSched rqs s
        dispatchLists fromSched fuel left s

/-- `__blk_mq_flush_list`: what `queue_rqs` leaves of the list. -/
def blkMqFlushList (q : Nat) (rqs : List Rq) (s : Mq) : List Rq × Mq :=
  if host.quiesced s.phase q then (rqs, s)
  else
    let (taken, left) := rqs.partition (host.answer s.tick).takes
    (left, (s.next.tell (.queueRqs q rqs)).addTail .driver taken)

/-- `blk_mq_dispatch_queue_requests`: what is left of the list. -/
def blkMqDispatchQueueRequests : List Rq → Mq → List Rq × Mq
  | [], s => ([], s)
  | rq :: rqs, s =>
      let r := if host.hw.queueRqs rq.q then blkMqFlushList host rq.q (rq :: rqs) s else (rq :: rqs, s)
      blkMqIssueDirect host r.1 r.2

/-- `blk_mq_dispatch_multiple_queue_requests`, with `blk_mq_extract_queue_requests` in it; `fuel` is at least
    the length of the list. -/
def blkMqDispatchMultipleQueueRequests : Nat → List Rq → Mq → Mq
  | 0, _, s => s
  | _ + 1, [], s => s
  | fuel + 1, rq :: rqs, s =>
      let (matched, rest) := rqs.partition fun rq' => rq'.q == rq.q
      let (left, s) := blkMqDispatchQueueRequests host (rq :: matched) s
      blkMqDispatchMultipleQueueRequests fuel rest (dispatchLists host false left.length left s)

/-- `blk_mq_flush_plug_list`. -/
def blkMqFlushPlugList (plug : Nat) (fromSchedule : Bool) (s : Mq) : Mq :=
  let info := s.plug plug
  if info.rqCount = 0 then s
  else
    let rqs := s.list (.plug plug)
    let s := { s.setList (.plug plug) [] with plug := Function.update s.plug plug { info with rqCount := 0 } }
    if info.hasElevator = false ∧ fromSchedule = false then
      if info.multipleQueues then blkMqDispatchMultipleQueueRequests host rqs.length rqs s
      else
        let (left, s) := blkMqDispatchQueueRequests host rqs s
        dispatchLists host false left.length left s
    else dispatchLists host fromSchedule rqs.length rqs s

/-! ## Where requests come from -/

/-- `blk_plug_max_rq_count`. -/
def blkPlugMaxRqCount (info : PlugInfo) : Nat := if info.multipleQueues then 32 * 2 else 32

/-- `blk_add_rq_to_plug`. -/
def blkAddRqToPlug (plug : Nat) (rq : Rq) (s : Mq) : Mq :=
  let full := (s.plug plug).rqCount ≠ 0 ∧
    (blkPlugMaxRqCount (s.plug plug) ≤ (s.plug plug).rqCount ∨ (host.answer s.tick).large = true)
  let last := if full then none else (s.list (.plug plug)).head?
  let s := if full then blkMqFlushPlugList host plug false s.next else s.next
  let info := s.plug plug
  { s.addTail (.plug plug) [rq] with
    plug := Function.update s.plug plug
      { rqCount := info.rqCount + 1
        multipleQueues := info.multipleQueues || last.any fun last => last.q != rq.q
        hasElevator := info.hasElevator || rq.schedTags } }

/-- The end of `blk_mq_submit_bio`, with the new request. -/
def submit (plug : Option Nat) (rq : Rq) (isSync : Bool) (s : Mq) : Mq :=
  match plug with
  | some plug => blkAddRqToPlug host plug rq s
  | none =>
      let h := rq.mqHctx
      if rq.useSched = true ∨ (s.dispatchBusy h ≠ 0 ∧ (host.hw.single rq.q = true ∨ isSync = false)) then
        blkMqRunHwQueue host h true (blkMqInsertRequest host rq false s)
      else blkMqTryIssueDirectly host h rq s

/-- `blk_execute_rq_nowait`; `blocking` is `BLK_MQ_F_BLOCKING` of the hardware queue. -/
def blkExecuteRqNowait (plug : Option Nat) (rq : Rq) (atHead blocking : Bool) (s : Mq) : Mq :=
  match plug, atHead with
  | some plug, false => blkAddRqToPlug host plug rq s
  | _, _ => blkMqRunHwQueue host rq.mqHctx blocking (blkMqInsertRequest host rq atHead s)

/-- `blk_mq_requeue_request` of a request that the driver has. -/
def blkMqRequeueRequest (rq : Rq) (s : Mq) : Mq :=
  (blkMqRequeueTag rq (s.setList .driver ((s.list .driver).erase rq))).addTail (.requeue rq.q) [rq]

/-- The first loop of `blk_mq_requeue_work`. -/
def requeueLoop : List Rq → Mq → Mq
  | [], s => s
  | rq :: rqs, s =>
      requeueLoop rqs (if (host.answer s.tick).dontprep then blkMqRequestBypassInsert rq false s.next
        else blkMqInsertRequest host rq true s.next)

/-- The second loop of `blk_mq_requeue_work`. -/
def reflushLoop : List Rq → Mq → Mq
  | [], s => s
  | rq :: rqs, s => reflushLoop rqs (blkMqInsertRequest host rq false s)

/-- `blk_mq_run_hw_queues`; `hctxs` are the hardware queues of the queue that its scheduler does not exclude. -/
def blkMqRunHwQueues (hctxs : List Nat) (async : Bool) (s : Mq) : Mq :=
  hctxs.foldl (fun s h => if host.stopped s.phase h then s else blkMqRunHwQueue host h async s) s

/-- `blk_mq_requeue_work`. -/
def blkMqRequeueWork (q : Nat) (hctxs : List Nat) (s : Mq) : Mq :=
  let rqs := s.list (.requeue q)
  let flushes := s.list (.flush q)
  let s := (s.setList (.requeue q) []).setList (.flush q) []
  blkMqRunHwQueues host hctxs false (reflushLoop host flushes (requeueLoop host rqs s))

/-- `blk_mq_hctx_notify_dead`, of the software queue of the CPU. -/
def blkMqHctxNotifyDead (h c : Nat) (s : Mq) : Mq :=
  if c ∉ host.hw.ctxs h then s
  else
    let p := Spot.sw c (host.hw.type h)
    let tmp := s.list p
    if tmp = [] then s
    else
      let s := blkMqHctxClearPending host h c (s.setList p [])
      blkMqRunHwQueue host h true (s.addTail (.dispatch h) tmp)

end Functions

end Dispatch
end Block
end SystemsPlayground
