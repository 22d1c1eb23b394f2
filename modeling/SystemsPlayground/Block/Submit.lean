import Mathlib.Logic.Function.Basic
import SystemsPlayground.Lib.Runs
import SystemsPlayground.Block.Limits
import SystemsPlayground.Block.Queue

/-!
# `Block.Submit` — the halves of a split bio are never merged again

`blk_mq_submit_bio` (`blk-mq.c`) splits a bio, tries to merge what is to be sent into a request of the plug
or of the queue, and otherwise makes a request of it. Several tasks do this at the same time, and requests
are merged with one another, moved and completed in between.

An `Action` is one of the pieces into which a submission falls, or something that happens to requests
between them; a run takes actions in any order, so that the submissions of different tasks interleave
freely. `blkMqSubmitBio_steps` says that a submission is a run of such actions. Every action keeps all
requests sealed (`act_inv`), and hence a stamped bio is alone in its request in every reachable state
(`nomerge_bio_alone`).
-/

namespace SystemsPlayground
namespace Block

open Word Runs

/-! ## The requests of all queues -/

/-- Where a request stands after it has left the plug: in a software queue, with a scheduler, or with a
    driver. -/
inductive Place where
  | software (ctx : Nat)
  | scheduler (queue : Nat)
  | issued
deriving DecidableEq

/-- The requests in the plugs of the tasks and in the queues; the bios that are about to be submitted; and
    those that `blk_mq_submit_bio` has split to the limits, with their number of segments. -/
structure State where
  plugs : Nat → Plug
  placed : Place → List Request
  incoming : List Bio
  prepared : List (Bio × Nat)

namespace State

/-- No request and no bio. -/
def empty : State := ⟨fun _ => ⟨[], false⟩, fun _ => [], [], []⟩

/-- The plug of a task replaced. -/
def setPlug (s : State) (task : Nat) (plug : Plug) : State :=
  { s with plugs := Function.update s.plugs task plug }

/-- The requests at a place replaced. -/
def setPlaced (s : State) (p : Place) (rqs : List Request) : State :=
  { s with placed := Function.update s.placed p rqs }

/-- A request put into the list at a place. -/
def insert (s : State) (slot : Place × Nat) (rq : Request) : State :=
  s.setPlaced slot.1 ((s.placed slot.1).take slot.2 ++ rq :: (s.placed slot.1).drop slot.2)

/-- A bio submitted. -/
def receive (s : State) (bio : Bio) : State := { s with incoming := bio :: s.incoming }

/-- A bio taken from those submitted. -/
def take (s : State) (bio : Bio) : State := { s with incoming := s.incoming.erase bio }

/-- A bio in the hands of a task. -/
def hold (s : State) (x : Bio × Nat) : State := { s with prepared := x :: s.prepared }

/-- A bio no longer in the hands of a task. -/
def release (s : State) (x : Bio × Nat) : State := { s with prepared := s.prepared.erase x }

@[simp] theorem take_receive (s : State) (bio : Bio) : (s.receive bio).take bio = s := by
  simp [receive, take]

theorem receive_take {s : State} {bio : Bio} {bios : List Bio} (h : s.incoming = bio :: bios) :
    (s.take bio).receive bio = s := by
  cases s
  simp_all [receive, take]

@[simp] theorem release_hold (s : State) (x : Bio × Nat) : (s.hold x).release x = s := by
  simp [hold, release]

end State

/-! ## The pieces of a submission -/

/-- What `__bio_split_to_limits` uses; `mayNeedSplit` is `bio_may_need_split`. -/
structure SplitContext where
  helpers : Helpers
  env : Env
  rasplitEnabled : Bool
  lim : QueueLimits
  mayNeedSplit : Bool

/-- `__bio_split_to_limits` of a read or write bio: the bio to go on with and its number of segments, and the
    remainder that is submitted again. (A throttled remainder is so later.) -/
def bioSplitToLimits (c : SplitContext) (bio : Bio) : Option (Bio × Nat) × Option Bio :=
  if !c.mayNeedSplit then (some (bio, 1), none)
  else
    let maxBytes := u32 (getMaxIoSize c.helpers c.rasplitEnabled bio c.lim * 512)
    let nrSegs := (bioSplitIoAtSegs c.helpers bio c.lim maxBytes (c.helpers.lenAlignMask c.lim)).getD 0
    match bioSplitRw c.helpers c.env c.rasplitEnabled bio c.lim with
    | .error _ _ => (none, none)
    | .whole bio => (some (bio, nrSegs), none)
    | .split front rest fate => (some (front, nrSegs), if fate = .failed then none else some rest)

/-- The remainder of a split submitted again, if there is one. -/
def State.resubmit (s : State) : Option Bio → State
  | none     => s
  | some bio => s.receive bio

/-- An attempt to merge a bio: into the plug of a task, into the list at a place, or into the request there
    that the scheduler proposes. -/
inductive Attempt where
  | plug (task : Nat)
  | list (p : Place)
  | sched (p : Place) (proposal : Proposal)

/-- Whether the attempt succeeds, and the requests after it. -/
def State.attempt (s : State) (ctx : MergeContext) (x : Bio × Nat) : Attempt → Bool × State
  | .plug task =>
      let (merged, plug) := blkAttemptPlugMerge ctx x.1 x.2 (s.plugs task)
      (merged, s.setPlug task plug)
  | .list p =>
      let (merged, rqs) := blkBioListMerge ctx x.1 x.2 (s.placed p)
      (merged, s.setPlaced p rqs)
  | .sched p proposal =>
      let (merged, rqs) := blkMqSchedTryMerge ctx x.1 x.2 (s.placed p) proposal
      (merged, s.setPlaced p rqs)

/-- A bio that was not merged stays in the hands of the task. -/
def settle (x : Bio × Nat) (r : Bool × State) : State := if r.1 then r.2 else r.2.hold x

/-- `blk_mq_bio_to_request`. -/
def blkMqBioToRequest (rq : Request) (bio : Bio) (nrSegs : Nat) : Request :=
  { rq with
    cmdFlags := if bio.opf.rahead then { rq.cmdFlags with failfast := BitVec.allOnes 3 } else rq.cmdFlags
    bios := [bio]
    sector := bio.sector
    dataLen := bio.size
    nrPhysSegments := nrSegs % 2 ^ 16 }

/-- Where the request for a bio comes from: the cache of the plug, or `blk_mq_get_new_requests` of a
    queue. -/
inductive Origin where
  | cached (rq : Request)
  | new (queue : Nat)

/-- The request at `new_request` with the flags of the bio, whatever those of a cached one were. -/
def Origin.request (bio : Bio) : Origin → Request
  | .cached rq => { rq with cmdFlags := bio.opf }
  | .new queue => ⟨queue, [], bio.opf, 0, 0, 0, false, false⟩

/-- The request made of a bio; `zoned` is `bio_zone_write_plugging`. -/
def makeRequest (origin : Origin) (zoned : Bool) (x : Bio × Nat) : Request :=
  let rq := blkMqBioToRequest (origin.request x.1) x.1 x.2
  if zoned then { rq with zoneWritePlugging := true } else rq

/-- The end of `blk_add_rq_to_plug`. -/
def Plug.add (plug : Plug) (rq : Request) : Plug where
  mqList := plug.mqList ++ [rq]
  multipleQueues := plug.multipleQueues || plug.mqList.head?.any fun last => last.queue != rq.queue

/-- The first request of a plug taken out and dispatched. -/
def State.unplug (s : State) (task : Nat) (dispatch : Request → Place × Nat) : State :=
  match (s.plugs task).mqList with
  | [] => s
  | rq :: rqs => (s.setPlug task { s.plugs task with mqList := rqs }).insert (dispatch rq) rq

/-! ## Runs -/

/-- One piece of a submission, or something that happens to requests in between. -/
inductive Action where
  /-- `submit_bio` of a new bio. -/
  | arrive (bio : Bio)
  /-- A submitted bio ends with an error. -/
  | fail (bio : Bio)
  /-- A submitted bio goes through `__bio_split_to_limits`. -/
  | prepare (c : SplitContext) (bio : Bio)
  /-- A bio that a zone write plug released is prepared already. -/
  | prepared (x : Bio × Nat)
  /-- A merge of a prepared bio is attempted. -/
  | merge (ctx : MergeContext) (x : Bio × Nat) (attempt : Attempt)
  /-- A prepared bio ends with an error or is held back by a zone write plug. -/
  | drop (x : Bio × Nat)
  /-- A request is made of a prepared bio and plugged. -/
  | plug (origin : Origin) (zoned : Bool) (x : Bio × Nat) (task : Nat)
  /-- A request is made of a prepared bio and put in its place. -/
  | place (origin : Origin) (zoned : Bool) (x : Bio × Nat) (slot : Place × Nat)
  /-- `attempt_merge` of two requests at a place. -/
  | mergeRequests (ctx : MergeContext) (p : Place) (i j : Nat)
  /-- The first request of a plug is dispatched. -/
  | unplug (task : Nat) (dispatch : Request → Place × Nat)
  /-- A request goes from one place to another. -/
  | move (p : Place) (i : Nat) (slot : Place × Nat)
  /-- A request completes. -/
  | complete (p : Place) (i : Nat)

/-- The effect of an action. -/
def State.act (s : State) : Action → State
  | .arrive bio => s.receive bio
  | .fail bio => s.take bio
  | .prepare c bio =>
      match bioSplitToLimits c bio with
      | (none, again)   => (s.take bio).resubmit again
      | (some x, again) => ((s.take bio).resubmit again).hold x
  | .prepared x => (s.take x.1).hold x
  | .merge ctx x attempt => settle x ((s.release x).attempt ctx x attempt)
  | .drop x => s.release x
  | .plug origin zoned x task =>
      (s.release x).setPlug task ((s.plugs task).add (makeRequest origin zoned x))
  | .place origin zoned x slot => (s.release x).insert slot (makeRequest origin zoned x)
  | .mergeRequests ctx p i j => s.setPlaced p (mergeAt ctx (s.placed p) i j)
  | .unplug task dispatch => s.unplug task dispatch
  | .move p i slot =>
      match (s.placed p)[i]? with
      | none    => s
      | some rq => (s.setPlaced p ((s.placed p).eraseIdx i)).insert slot rq
  | .complete p i => s.setPlaced p ((s.placed p).eraseIdx i)

/-- Which actions can happen: any read bio arrives; a task works on a bio that it has; the helpers that
    decide about a merge and the scheduler behave as documented. -/
def Action.Legal (s : State) : Action → Prop
  | .arrive bio => bio.opf.op = .read
  | .fail bio => bio ∈ s.incoming
  | .prepare _ bio => bio ∈ s.incoming
  | .prepared x => x.1 ∈ s.incoming
  | .merge ctx x attempt => x ∈ s.prepared ∧ ctx.helpers.Documented ∧
      match attempt with
      | .sched p proposal => proposal.Legal ctx x.1 (s.placed p)
      | _ => True
  | .drop x => x ∈ s.prepared
  | .plug _ _ x _ => x ∈ s.prepared
  | .place _ _ x _ => x ∈ s.prepared
  | .mergeRequests ctx _ _ _ => ctx.helpers.Documented
  | .unplug _ _ => True
  | .move _ _ _ => True
  | .complete _ _ => True

/-- Runs of legal actions. -/
def Steps : State → State → Prop := Reaches fun s a t => Action.Legal s a ∧ t = s.act a

/-- The states that a run can reach when there are no requests and no bios at first. -/
def State.Reachable (s : State) : Prop := Steps State.empty s

/-! ## Every request stays sealed -/

/-- All requests are sealed, wherever they stand. -/
structure Inv (s : State) : Prop where
  plugs : ∀ task, Each Request.Sealed (s.plugs task).mqList
  placed : ∀ p, Each Request.Sealed (s.placed p)

section Invariant

variable {s : State}

theorem Inv.setPlug (h : Inv s) (task : Nat) {plug : Plug} (hplug : Each Request.Sealed plug.mqList) :
    Inv (s.setPlug task plug) := by
  refine ⟨fun t => ?_, h.placed⟩
  show Each Request.Sealed (Function.update s.plugs task plug t).mqList
  by_cases ht : t = task
  · rw [ht, Function.update_self]
    exact hplug
  · rw [Function.update_of_ne ht]
    exact h.plugs t

/-- A list of requests is replaced by another one that is sealed. -/
theorem Inv.setPlaced (h : Inv s) (p : Place) {rqs : List Request} (hrqs : Each Request.Sealed rqs) :
    Inv (s.setPlaced p rqs) := by
  refine ⟨h.plugs, fun p' => ?_⟩
  show Each Request.Sealed (Function.update s.placed p rqs p')
  by_cases hp : p' = p
  · rw [hp, Function.update_self]
    exact hrqs
  · rw [Function.update_of_ne hp]
    exact h.placed p'

theorem Inv.insert (h : Inv s) (slot : Place × Nat) {rq : Request} (hrq : rq.Sealed) :
    Inv (s.insert slot rq) := by
  have hrqs := h.placed slot.1
  refine h.setPlaced _ (Each.append (hrqs.subset (List.take_subset _ _)) ?_)
  exact Each.cons hrq (hrqs.subset (List.drop_subset _ _))

/-- The invariant is about requests only. -/
theorem Inv.congr {t : State} (h : Inv s) (hplugs : t.plugs = s.plugs) (hplaced : t.placed = s.placed) :
    Inv t :=
  ⟨fun task => hplugs ▸ h.plugs task, fun p => hplaced ▸ h.placed p⟩

/-- A new request has one bio, and it is stamped if the bio is. -/
theorem makeRequest_sealed (origin : Origin) (zoned : Bool) (x : Bio × Nat) :
    (makeRequest origin zoned x).Sealed := by
  have hrequest : (makeRequest origin zoned x).bios = [x.1] ∧
      (makeRequest origin zoned x).cmdFlags.nomerge = x.1.opf.nomerge := by
    unfold makeRequest blkMqBioToRequest
    -- the flags of a cached request are overwritten
    have hflags : (origin.request x.1).cmdFlags = x.1.opf := by cases origin <;> rfl
    simp only [hflags]
    split_ifs <;> exact ⟨rfl, rfl⟩
  intro bio hbio hstamp
  rw [hrequest.1] at hbio
  obtain rfl := List.mem_singleton.mp hbio
  exact ⟨hrequest.2.trans hstamp, hrequest.1⟩

theorem Inv.resubmit (h : Inv s) (again : Option Bio) : Inv (s.resubmit again) := by
  cases again with
  | none => exact h
  | some bio => exact h.congr rfl rfl

theorem Inv.settle {x : Bio × Nat} {r : Bool × State} (h : Inv r.2) : Inv (settle x r) := by
  unfold Block.settle
  split_ifs
  · exact h
  · exact h.congr rfl rfl

/-- The first request of a plug moves on. -/
theorem Inv.unplug (h : Inv s) (task : Nat) (dispatch : Request → Place × Nat) :
    Inv (s.unplug task dispatch) := by
  have hplug := h.plugs task
  unfold State.unplug
  split
  · exact h
  · rename_i rq rqs hlist
    rw [hlist] at hplug
    refine Inv.insert (h.setPlug task ?_) _ (hplug rq List.mem_cons_self)
    exact hplug.subset (List.subset_cons_self _ _)

/-- **One action** keeps every request sealed. -/
theorem act_inv {a : Action} (h : Inv s) (ha : a.Legal s) : Inv (s.act a) := by
  cases a with
  | arrive bio => exact h.congr rfl rfl
  | fail bio => exact h.congr rfl rfl
  | prepare c bio =>
      have htake : Inv (s.take bio) := h.congr rfl rfl
      unfold State.act
      simp only
      split
      · exact htake.resubmit _
      · exact (htake.resubmit _).congr rfl rfl
  | prepared x => exact h.congr rfl rfl
  | merge ctx x attempt =>
      obtain ⟨-, hdoc, hlegal⟩ := ha
      have hrelease : Inv (s.release x) := h.congr rfl rfl
      apply Inv.settle
      cases attempt with
      | plug task => exact hrelease.setPlug task ((h.plugs task).attemptPlugMerge (sealed_adds hdoc x.1))
      | list p => exact hrelease.setPlaced p ((h.placed p).bioListMerge (sealed_adds hdoc x.1))
      | sched p proposal => exact hrelease.setPlaced p (blkMqSchedTryMerge_sealed hdoc (h.placed p) hlegal)
  | drop x => exact h.congr rfl rfl
  | plug origin zoned x task =>
      have hrelease : Inv (s.release x) := h.congr rfl rfl
      refine hrelease.setPlug task (Each.append (h.plugs task) ?_)
      exact Each.cons (makeRequest_sealed origin zoned x) Each.nil
  | place origin zoned x slot =>
      have hrelease : Inv (s.release x) := h.congr rfl rfl
      exact hrelease.insert slot (makeRequest_sealed origin zoned x)
  | mergeRequests ctx p i j => exact h.setPlaced p ((h.placed p).mergeAt (sealed_joins ha) i j)
  | unplug task dispatch => exact h.unplug task dispatch
  | move p i slot =>
      unfold State.act
      simp only
      split
      · exact h
      · rename_i rq hrq
        refine Inv.insert (h.setPlaced p ?_) slot (h.placed p rq (List.mem_of_getElem? hrq))
        exact (h.placed p).subset (List.eraseIdx_subset ..)
  | complete p i => exact h.setPlaced p ((h.placed p).subset (List.eraseIdx_subset ..))

theorem empty_inv : Inv State.empty :=
  ⟨fun _ => Each.nil, fun _ => Each.nil⟩

/-- **A whole run** keeps every request sealed. -/
theorem reachable_inv (hs : s.Reachable) : Inv s := by
  refine Reaches.inv hs empty_inv ?_
  rintro s a t h ⟨ha, rfl⟩
  exact act_inv h ha

end Invariant

/-! ## `blk_mq_submit_bio` -/

/-- How `blk_mq_sched_bio_merge` looks for a request: not at all, in a list, or through `elv_merge`. -/
inductive SchedMerge where
  | none
  | list (p : Place)
  | elevator (p : Place) (elvMerge : List Request → Bio → Proposal)

/-- The surroundings of one call of `blk_mq_submit_bio`. -/
structure Submission where
  split : SplitContext
  ctx : MergeContext
  /-- `current->plug`: that of the task, if there is one. -/
  plug : Option Nat
  /-- The answer of `blk_mq_get_cached_request`. -/
  cached : Option Request
  /-- `__bi_nr_segments` of a bio with `bio_zone_write_plugging`. -/
  zoned : Option Nat
  bioQueueEnter : Bool
  blkMqCanPoll : Bool
  blkQueueNomerges : Bool
  sched : SchedMerge
  /-- `bio_needs_zone_write_plugging` and `blk_zone_plug_bio`. -/
  blkZonePlugBio : Bool
  /-- Whether `blk_mq_get_new_requests` finds a tag. -/
  alloc : Bool
  /-- Whether `blk_crypto_rq_get_keyslot` succeeds. -/
  keyslot : Bool
  /-- `op_is_flush` and `blk_insert_flush`. -/
  blkInsertFlush : Bool
  /-- Where the request goes that is not plugged. -/
  slot : Place × Nat
  /-- Where `blk_mq_flush_plug_list` sends a request. -/
  dispatch : Request → Place × Nat

/-- `bio_unaligned`. -/
def bioUnaligned (bio : Bio) (lim : QueueLimits) : Bool :=
  bio.size &&& pred32 lim.logicalBlockSize != 0 ||
    u64 (bio.sector * 512) &&& pred32 lim.logicalBlockSize != 0

/-- `blk_plug_max_rq_count`. -/
def blkPlugMaxRqCount (plug : Plug) : Nat := if plug.multipleQueues then 32 * 2 else 32

/-- `BLK_PLUG_FLUSH_SIZE`. -/
def blkPlugFlushSize : Nat := 128 * 1024

/-- Requests of a plug dispatched one after the other. -/
def flushLoop (task : Nat) (dispatch : Request → Place × Nat) : Nat → State → State
  | 0, s => s
  | n + 1, s => flushLoop task dispatch n (s.unplug task dispatch)

/-- `blk_mq_flush_plug_list`. -/
def blkMqFlushPlugList (task : Nat) (dispatch : Request → Place × Nat) (s : State) : State :=
  flushLoop task dispatch (s.plugs task).mqList.length s

namespace Submission

variable (sub : Submission)

/-- `blk_mq_sched_bio_merge`. -/
def blkMqSchedBioMerge (x : Bio × Nat) (s : State) : Bool × State :=
  match sub.sched with
  | .none => (false, s)
  | .list p => s.attempt sub.ctx x (.list p)
  | .elevator p elvMerge => s.attempt sub.ctx x (.sched p (elvMerge (s.placed p) x.1))

/-- `blk_attempt_plug_merge`, if there is a plug. -/
def plugMerge (x : Bio × Nat) (s : State) : Bool × State :=
  match sub.plug with
  | none      => (false, s)
  | some task => s.attempt sub.ctx x (.plug task)

/-- `blk_mq_attempt_bio_merge`. -/
def blkMqAttemptBioMerge (x : Bio × Nat) (s : State) : Bool × State :=
  if !sub.blkQueueNomerges && sub.ctx.helpers.bioMergeable x.1 then
    match sub.plugMerge x s with
    | (true, s)  => (true, s)
    | (false, s) => sub.blkMqSchedBioMerge x s
  else (false, s)

/-- Whether `blk_add_rq_to_plug` flushes the plug first. -/
def plugFull (plug : Plug) : Bool :=
  plug.mqList.length != 0 && (decide (plug.mqList.length ≥ blkPlugMaxRqCount plug) ||
    !sub.blkQueueNomerges && plug.mqList.head?.any fun last => decide (last.dataLen ≥ blkPlugFlushSize))

/-- `blk_add_rq_to_plug`. -/
def blkAddRqToPlug (task : Nat) (rq : Request) (s : State) : State :=
  let s := if sub.plugFull (s.plugs task) then blkMqFlushPlugList task sub.dispatch s else s
  s.setPlug task ((s.plugs task).add rq)

/-- Where the request of this submission comes from. -/
def origin : Origin :=
  match sub.cached with
  | some rq => .cached rq
  | none    => .new sub.ctx.queue

/-- `blk_mq_submit_bio` from `new_request` on. -/
def newRequest (x : Bio × Nat) (s : State) : State :=
  if sub.cached.isNone && !sub.alloc then s
  else if !sub.keyslot then s
  else
    let rq := makeRequest sub.origin sub.zoned.isSome x
    if sub.blkInsertFlush then s.insert sub.slot rq
    else match sub.plug with
      | some task => sub.blkAddRqToPlug task rq s
      | none      => s.insert sub.slot rq

/-- `blk_mq_submit_bio` after the bio has been split. -/
def submitPrepared (x : Bio × Nat) (s : State) : State :=
  match sub.blkMqAttemptBioMerge x s with
  | (true, s)  => s
  | (false, s) => if sub.blkZonePlugBio then s else sub.newRequest x s

/-- `blk_mq_submit_bio`. -/
def blkMqSubmitBio (bio : Bio) (s : State) : State :=
  match sub.zoned with
  | some nrSegs => sub.newRequest (bio, nrSegs) s
  | none =>
      if sub.cached.isNone && !sub.bioQueueEnter then s
      else if bioUnaligned bio sub.split.lim then s
      else if bio.opf.polled && !sub.blkMqCanPoll then s
      else match bioSplitToLimits sub.split bio with
        | (none, again)   => s.resubmit again
        | (some x, again) => sub.submitPrepared x (s.resubmit again)

/-- The helpers and the scheduler behave as documented. -/
structure Legal : Prop where
  helpers : sub.ctx.helpers.Documented
  elevator : ∀ p elvMerge, sub.sched = .elevator p elvMerge →
    ∀ rqs bio, (elvMerge rqs bio).Legal sub.ctx bio rqs

end Submission

/-! ## A submission is a run -/

/-- A run of one action, with the state that it leads to. -/
theorem Steps.single {s t : State} (a : Action) (ha : a.Legal s) (ht : s.act a = t) : Steps s t :=
  Reaches.refl.tail ⟨ha, ht.symm⟩

section SubmissionRuns

variable {sub : Submission} {s : State} {x : Bio × Nat}

/-- An attempt to merge is the action of that name. -/
theorem attempt_steps {attempt : Attempt} (hsub : sub.Legal)
    (hlegal : ∀ p proposal, attempt = .sched p proposal → proposal.Legal sub.ctx x.1 (s.placed p)) :
    Steps (s.hold x) (settle x (s.attempt sub.ctx x attempt)) := by
  refine Steps.single (.merge sub.ctx x attempt) ⟨List.mem_cons_self, hsub.helpers, ?_⟩ ?_
  · cases attempt with
    | plug task => trivial
    | list p => trivial
    | sched p proposal => exact hlegal p proposal rfl
  · rw [State.act, State.release_hold]

theorem plugMerge_steps (hsub : sub.Legal) : Steps (s.hold x) (settle x (sub.plugMerge x s)) := by
  unfold Submission.plugMerge
  split
  · exact Reaches.refl
  · exact attempt_steps hsub (by simp)

theorem blkMqSchedBioMerge_steps (hsub : sub.Legal) :
    Steps (s.hold x) (settle x (sub.blkMqSchedBioMerge x s)) := by
  unfold Submission.blkMqSchedBioMerge
  split
  · exact Reaches.refl
  · exact attempt_steps hsub (by simp)
  · rename_i p elvMerge hsched
    refine attempt_steps hsub ?_
    rintro p' proposal heq
    obtain ⟨rfl, rfl⟩ := Attempt.sched.inj heq
    exact hsub.elevator p elvMerge hsched _ _

/-- `blk_mq_attempt_bio_merge` is one attempt, or two. -/
theorem blkMqAttemptBioMerge_steps (hsub : sub.Legal) :
    Steps (s.hold x) (settle x (sub.blkMqAttemptBioMerge x s)) := by
  unfold Submission.blkMqAttemptBioMerge
  split_ifs
  · have hplug := plugMerge_steps (x := x) (s := s) hsub
    generalize sub.plugMerge x s = r at hplug
    obtain ⟨merged, t⟩ := r
    cases merged with
    | true => exact hplug
    | false => exact hplug.trans (blkMqSchedBioMerge_steps hsub)
  · exact Reaches.refl

/-- Flushing a plug takes its requests out one by one, whatever the task has in its hands. -/
theorem flushLoop_steps (task : Nat) (dispatch : Request → Place × Nat) (n : Nat) (s : State) :
    Steps s (flushLoop task dispatch n s) := by
  induction n generalizing s with
  | zero => exact Reaches.refl
  | succ n ih => exact (Steps.single (.unplug task dispatch) trivial rfl).trans (ih _)

/-- A flush of the plug does not see the bio that is held. -/
theorem unplug_hold (task : Nat) (dispatch : Request → Place × Nat) (s : State) :
    (s.hold x).unplug task dispatch = (s.unplug task dispatch).hold x := by
  unfold State.unplug
  show (match (s.plugs task).mqList with
    | [] => s.hold x
    | rq :: rqs => _) = _
  split <;> rfl

theorem flushLoop_hold (task : Nat) (dispatch : Request → Place × Nat) (n : Nat) (s : State) :
    flushLoop task dispatch n (s.hold x) = (flushLoop task dispatch n s).hold x := by
  induction n generalizing s with
  | zero => rfl
  | succ n ih => rw [flushLoop, unplug_hold, ih, flushLoop]

theorem drop_steps : Steps (s.hold x) s :=
  Steps.single (.drop x) List.mem_cons_self (State.release_hold s x)

theorem place_steps (origin : Origin) (zoned : Bool) (slot : Place × Nat) :
    Steps (s.hold x) (s.insert slot (makeRequest origin zoned x)) := by
  refine Steps.single (.place origin zoned x slot) List.mem_cons_self ?_
  rw [State.act, State.release_hold]

/-- A full plug is flushed first, by one action for each request. -/
theorem blkAddRqToPlug_steps (origin : Origin) (zoned : Bool) (task : Nat) :
    Steps (s.hold x) (sub.blkAddRqToPlug task (makeRequest origin zoned x) s) := by
  have hadd : ∀ t : State,
      Steps (t.hold x) (t.setPlug task ((t.plugs task).add (makeRequest origin zoned x))) := by
    intro t
    refine Steps.single (.plug origin zoned x task) List.mem_cons_self ?_
    rw [State.act, State.release_hold]
    rfl
  unfold Submission.blkAddRqToPlug
  simp only
  split_ifs
  · -- the plug is flushed while the task has the bio in its hands
    refine Reaches.trans ?_ (hadd _)
    unfold blkMqFlushPlugList
    rw [← flushLoop_hold]
    exact flushLoop_steps _ _ _ _
  · exact hadd s

/-- The bio gets its own request, in the plug or in a queue. -/
theorem newRequest_steps : Steps (s.hold x) (sub.newRequest x s) := by
  unfold Submission.newRequest
  simp only
  split_ifs
  · exact drop_steps
  · exact drop_steps
  · exact place_steps _ _ _
  · split
    · exact blkAddRqToPlug_steps _ _ _
    · exact place_steps _ _ _

/-- What `blk_mq_submit_bio` does with a bio that has been split is a run of actions. -/
theorem submitPrepared_steps (hsub : sub.Legal) : Steps (s.hold x) (sub.submitPrepared x s) := by
  have hmerge := blkMqAttemptBioMerge_steps (s := s) (x := x) hsub
  unfold Submission.submitPrepared
  generalize sub.blkMqAttemptBioMerge x s = r at hmerge
  obtain ⟨merged, t⟩ := r
  cases merged with
  | true => exact hmerge
  | false =>
      simp only
      split_ifs
      · exact hmerge.trans drop_steps
      · exact hmerge.trans newRequest_steps

/-- **`blk_mq_submit_bio` is a run**: it takes a submitted bio through legal actions. -/
theorem blkMqSubmitBio_steps {bio : Bio} (hsub : sub.Legal) :
    Steps (s.receive bio) (sub.blkMqSubmitBio bio s) := by
  have hfail : Steps (s.receive bio) s :=
    Steps.single (.fail bio) List.mem_cons_self (State.take_receive s bio)
  unfold Submission.blkMqSubmitBio
  split
  · rename_i nrSegs hzoned
    have hprepared : Steps (s.receive bio) (s.hold (bio, nrSegs)) :=
      Steps.single (.prepared (bio, nrSegs)) List.mem_cons_self (by rw [State.act, State.take_receive])
    exact hprepared.trans newRequest_steps
  · split_ifs
    · exact hfail
    · exact hfail
    · exact hfail
    · have hprepare := Steps.single (s := s.receive bio) (.prepare sub.split bio) List.mem_cons_self rfl
      rw [State.act, State.take_receive] at hprepare
      generalize bioSplitToLimits sub.split bio = r at hprepare
      obtain ⟨_ | x, again⟩ := r
      · exact hprepare
      · exact hprepare.trans (submitPrepared_steps hsub)

end SubmissionRuns

/-! ## The halves of a split -/

/-- A request stands somewhere. -/
def State.Has (s : State) (rq : Request) : Prop :=
  (∃ task, rq ∈ (s.plugs task).mqList) ∨ ∃ p, rq ∈ s.placed p

/-- The invariant, for a request wherever it is. -/
theorem Inv.sealed_of_has {s : State} {rq : Request} (h : Inv s) (hrq : s.Has rq) : rq.Sealed := by
  rcases hrq with ⟨task, hrq⟩ | ⟨p, hrq⟩
  · exact h.plugs task rq hrq
  · exact h.placed p rq hrq

section Halves

variable {k : Helpers} {env : Env} {rasplitEnabled : Bool} {lim : QueueLimits} {bio front rest : Bio}
  {fate : Fate}

/-- The front piece of every split is stamped. -/
theorem bioSplitRw_front_nomerge
    (hsplit : bioSplitRw k env rasplitEnabled bio lim = .split front rest fate) :
    front.opf.nomerge = true := by
  unfold bioSplitRw at hsplit
  simp only at hsplit
  unfold bioSubmitSplit at hsplit
  split at hsplit
  · exact absurd hsplit (by simp)
  · exact absurd hsplit (by simp)
  · split at hsplit
    · obtain ⟨rfl, -, -⟩ := Submitted.split.inj hsplit
      rfl
    · rename_i hother
      exact absurd hsplit (hother _ _ _)

/-- The remainder begins where the front piece ends. -/
theorem bioSplitRw_rest_sector (hk : k.Documented) (hlim : lim.Valid) (hbio : bio.Valid lim)
    (hop : bio.opf.op = .read)
    (hsplit : bioSplitRw k env rasplitEnabled bio lim = .split front rest fate) :
    front.sector + front.sectors = rest.sector := by
  rcases bioSplitRw_cases env rasplitEnabled hk hlim hbio hop with
    ⟨b, e, heq, -⟩ | ⟨heq, -⟩ | ⟨n, heq, -, hlt, -⟩
  · exact absurd (heq.symm.trans hsplit) (by simp)
  · exact absurd (heq.symm.trans hsplit) (by simp)
  · obtain ⟨rfl, rfl, -⟩ := Submitted.split.inj (heq.symm.trans hsplit)
    have hrange := hbio.sector_lt
    show bio.sector + n * 512 / 512 = u64 (bio.sector + n * 512 / 512)
    rw [u64_of_lt (by omega)]

end Halves

/-- **A stamped bio is alone in its request**, in every state that submissions and merges can reach in any
    order. A request with the front piece of a split has no other bio, and hence nothing that reads a sector
    of the remainder. -/
theorem nomerge_bio_alone {s : State} (hs : s.Reachable) {rq : Request} (hrq : s.Has rq) :
    (∀ bio ∈ rq.bios, bio.opf.nomerge = true → rq.bios = [bio]) ∧
    ∀ k env rasplitEnabled lim bio front rest fate,
      bioSplitRw k env rasplitEnabled bio lim = .split front rest fate → front ∈ rq.bios →
      rq.bios = [front] ∧
      (k.Documented → lim.Valid → bio.Valid lim → bio.opf.op = .read →
        ∀ b ∈ rq.bios, b.sector + b.sectors ≤ rest.sector) := by
  have halone : ∀ bio ∈ rq.bios, bio.opf.nomerge = true → rq.bios = [bio] :=
    fun bio hbio hstamp => ((reachable_inv hs).sealed_of_has hrq bio hbio hstamp).2
  refine ⟨halone, ?_⟩
  intro k env rasplitEnabled lim bio front rest fate hsplit hfront
  have hbios := halone front hfront (bioSplitRw_front_nomerge hsplit)
  refine ⟨hbios, fun hk hlim hbio hop b hb => ?_⟩
  rw [hbios] at hb
  obtain rfl := List.mem_singleton.mp hb
  exact Nat.le_of_eq (bioSplitRw_rest_sector hk hlim hbio hop hsplit)

/-! ## Both halves in one plug -/

/-- Helpers that merge whatever is adjacent and not stamped. -/
def plainMergeHelpers : MergeHelpers where
  rqMergeable rq := !rq.cmdFlags.nomerge
  bioMergeable bio := !bio.opf.nomerge
  blkDiscardMergable _ := false
  blkCgroupMergeable _ _ := true
  blkIntegrityMergeBio _ _ := true
  blkIntegrityMergeRq _ _ := true
  integrityGapBackMerge _ _ := false
  integrityGapFrontMerge _ _ := false
  bioCryptRqCtxCompatible _ _ := true
  bioCryptCtxBackMergeable _ _ := true
  bioCryptCtxFrontMergeable _ _ := true
  bioCryptCtxMergeRq _ _ := true
  bioHasData _ := true
  queueVirtBoundary := 0
  biovecPhysMergeable _ _ := false
  bvecGapToPrev _ _ := false
  blkRqIsPassthrough _ := false
  maxHwSectors := 1024
  blkQueueGetMaxSectors _ := 1024
  boundarySectorsLeft offset b := b - offset % b
  blkRqGetMaxSegments _ := 127
  queueMaxDiscardSegments := 1
  blkRqNrDiscardSegments _ := 1
  blkMqSchedAllowMerge _ _ := true

/-- A submission by a task with a plug, on a queue without a scheduler. -/
def plainSubmission : Submission where
  split := ⟨plainHelpers, plainEnv, true, plainLimits 1024, true⟩
  ctx := ⟨plainMergeHelpers, plainLimits 1024, 0⟩
  plug := some 0
  cached := none
  zoned := none
  bioQueueEnter := true
  blkMqCanPoll := false
  blkQueueNomerges := false
  sched := .list (.software 0)
  blkZonePlugBio := false
  alloc := true
  keyslot := true
  blkInsertFlush := false
  slot := (.software 0, 0)
  dispatch _ := (.software 0, 0)

theorem plainSubmission_legal : plainSubmission.Legal where
  helpers := ⟨fun bio h => by simpa [plainSubmission, plainMergeHelpers] using h,
    fun rq h => by simpa [plainSubmission, plainMergeHelpers] using h⟩
  elevator p elvMerge h := by simp [plainSubmission] at h

/-- The read-around bio submitted: its front piece is plugged, and the remainder submitted again. -/
def firstHalf : State := plainSubmission.blkMqSubmitBio readAroundBio State.empty

/-- The remainder submitted too. -/
def bothHalves : State :=
  plainSubmission.blkMqSubmitBio (readAroundBio.rest 128) (firstHalf.take (readAroundBio.rest 128))

/-- A bio of 256 sectors is submitted and split at 128. -/
theorem bothHalves_reachable : bothHalves.Reachable := by
  have hfirst : Steps State.empty firstHalf :=
    (Steps.single (.arrive readAroundBio) rfl rfl).trans (blkMqSubmitBio_steps plainSubmission_legal)
  -- the remainder was submitted again by the split
  have hagain : (firstHalf.take (readAroundBio.rest 128)).receive (readAroundBio.rest 128) = firstHalf :=
    State.receive_take (show firstHalf.incoming = [readAroundBio.rest 128] by decide)
  exact hfirst.trans (hagain ▸ blkMqSubmitBio_steps plainSubmission_legal)

/-- Its halves are one behind the other and stay apart. -/
theorem nomerge_bio_alone_halves :
    bothHalves.Reachable ∧
    (bothHalves.plugs 0).mqList.map Request.bios = [[readAroundBio.front 128], [readAroundBio.rest 128]] ∧
    ∃ rq, bothHalves.Has rq ∧ readAroundBio.front 128 ∈ rq.bios ∧ rq.bios = [readAroundBio.front 128] := by
  have hbios : (bothHalves.plugs 0).mqList.map Request.bios =
      [[readAroundBio.front 128], [readAroundBio.rest 128]] := by decide
  refine ⟨bothHalves_reachable, hbios, ?_⟩
  obtain ⟨rq, hrq, hfirst⟩ : ∃ rq ∈ (bothHalves.plugs 0).mqList, rq.bios = [readAroundBio.front 128] :=
    List.mem_map.mp (hbios ▸ List.mem_cons_self)
  have hfront : readAroundBio.front 128 ∈ rq.bios := hfirst ▸ List.mem_cons_self
  have hhas : bothHalves.Has rq := Or.inl ⟨0, hrq⟩
  exact ⟨rq, hhas, hfront, (nomerge_bio_alone bothHalves_reachable hhas).1 _ hfront rfl⟩

end Block
end SystemsPlayground
