import SystemsPlayground.Block.Delivery

/-!
# `Block.Doorbell` — the driver is told when no more requests come

A driver may hold back the notification of the device until it is told that no more requests come: by
`bd->last` of a request that it accepts, or by `commit_rqs`. The comment at `blk_mq_commit_rqs` names the
cases in which the latter is needed: not everything was queued that was meant to be, or the last attempt
failed.

`untold` reads off the log whether a hardware queue has accepted requests and was not told since. Within a
call this happens, and `queued` then counts some request (`Owing`); whenever a call is over, no hardware
queue is untold (`driver_told`). The one exception is a queue that is stopped or quiesced by somebody else
just between two requests of the same list; so here queues are only stopped between the calls, or by the
driver when it refuses a request (`Host.Steady`).
-/

namespace SystemsPlayground
namespace Block
namespace Dispatch

open Runs

/-! ## What the driver has been told -/

/-- Whether a hardware queue is untold after an event. -/
def hear (h : Nat) (b : Bool) : Event → Bool
  | .queueRq h' _ last .ok => if h' = h then !last else b
  | .commitRqs h'          => if h' = h then false else b
  | _                      => b

/-- The hardware queue has accepted a request, and was not told since that no more come. -/
def untold (log : List Event) (h : Nat) : Bool := log.foldl (hear h) false

@[simp] theorem untold_concat (log : List Event) (e : Event) (h : Nat) :
    untold (log ++ [e]) h = hear h (untold log h) e := by
  rw [untold, List.foldl_append]
  rfl

/-- Of the hardware queues whose driver has `commit_rqs`, only those in `U` are untold. -/
def Quiet (host : Host) (U : Nat → Prop) (s : Mq) : Prop :=
  ∀ h, host.hw.commitRqs (host.hw.queue h) = true → untold s.log h = true → U h

/-- Besides those in `U`, the hardware queue `h` if `queued` counts a request. -/
def Owing (U : Nat → Prop) (h queued : Nat) : Nat → Prop := fun h' => U h' ∨ (h' = h ∧ queued ≠ 0)

/-- The driver is told nothing, and no queue is stopped or started. -/
structure Mq.Same (s s' : Mq) : Prop where
  log : s'.log = s.log
  phase : s'.phase = s.phase

/-- Queues are stopped, started, quiesced and unquiesced only between calls or while the driver refuses a
    request. -/
structure Host.Steady (host : Host) : Prop where
  turns : ∀ t, (host.answer t).turns = true →
    (host.answer t).ret = .resource ∨ (host.answer t).ret = .devResource

section Told

variable {host : Host} {U V : Nat → Prop} {s s' : Mq} {rqs : List Rq} {rq : Rq} {h queued : Nat}

theorem Quiet.mono (hq : Quiet host U s) (hUV : ∀ h, U h → V h) : Quiet host V s := fun h hc hu => hUV h (hq h hc hu)

/-- Where the driver is told nothing it stays as untold as before. -/
theorem Quiet.same (hq : Quiet host U s) (hs : s.Same s') : Quiet host U s' := by
  intro h hc hu
  rw [hs.log] at hu
  exact hq h hc hu

theorem Mq.Same.trans {s'' : Mq} (h₁ : s.Same s') (h₂ : s'.Same s'') : s.Same s'' :=
  ⟨h₂.log.trans h₁.log, h₂.phase.trans h₁.phase⟩

/-! ### Functions that do not speak to the driver -/

theorem same_updateDispatchBusy (busy : Bool) : s.Same (blkMqUpdateDispatchBusy h busy s) := by
  unfold blkMqUpdateDispatchBusy
  dsimp only
  split_ifs <;> exact ⟨rfl, rfl⟩

theorem same_putDriverTag : s.Same (blkMqPutDriverTag rq s) := by
  unfold blkMqPutDriverTag
  split_ifs <;> exact ⟨rfl, rfl⟩

theorem same_getDriverTag : s.Same (blkMqGetDriverTag host rq s).2 := by
  unfold blkMqGetDriverTag
  split_ifs <;> exact ⟨rfl, rfl⟩

theorem same_getDriverTags (rqs : List Rq) : s.Same (getDriverTags host rqs s) := by
  unfold getDriverTags
  induction rqs generalizing s with
  | nil => exact ⟨rfl, rfl⟩
  | cons rq rqs ih => exact same_getDriverTag.trans ih

/-- Getting ready for the dispatch tells the driver nothing. -/
theorem same_prepDispatchRq (needBudget : Bool) : s.Same (blkMqPrepDispatchRq host rq needBudget s).2 := by
  unfold blkMqPrepDispatchRq
  split_ifs
  · exact (same_putDriverTag).trans ⟨rfl, rfl⟩
  · have htag : s.next.Same (blkMqGetDriverTag host rq s.next).2 := same_getDriverTag
    generalize blkMqGetDriverTag host rq s.next = r at htag ⊢
    obtain ⟨got, s₁⟩ := r
    have hs : s.Same s₁ := ⟨htag.log, htag.phase⟩
    cases got with
    | true => exact hs
    | false =>
        refine hs.trans ?_
        dsimp only [blkMqMarkTagWait]
        split_ifs <;> exact ⟨rfl, rfl⟩

theorem same_getBudgetAndTag : s.Same (blkMqGetBudgetAndTag host rq s).2 := by
  unfold blkMqGetBudgetAndTag
  split_ifs
  · have htag : s.next.Same (blkMqGetDriverTag host rq s.next).2 := same_getDriverTag
    exact ⟨htag.log, htag.phase⟩
  · exact ⟨rfl, rfl⟩

theorem same_bypassInsert (rq : Rq) (atHead : Bool) : s.Same (blkMqRequestBypassInsert rq atHead s) := by
  unfold blkMqRequestBypassInsert
  split_ifs <;> exact ⟨rfl, rfl⟩

theorem same_insertRequest (atHead : Bool) : s.Same (blkMqInsertRequest host rq atHead s) := by
  unfold blkMqInsertRequest
  split_ifs
  · exact same_bypassInsert rq atHead
  · exact same_bypassInsert rq true
  all_goals exact ⟨rfl, rfl⟩

/-! ### Functions that do -/

/-- Every call of `queue_rq` is noted with what the driver answered. -/
theorem log_queueRq (last : Bool) : (queueRq host h rq last s).2.log =
    s.log ++ [.queueRq h rq last (queueRq host h rq last s).1] := by
  unfold queueRq
  dsimp only
  split_ifs <;> rfl

/-- With a steady host, only a refusal can come with a change of the phase. -/
theorem Host.Steady.phase_queueRq (hs : host.Steady) (h : Nat) (rq : Rq) (s : Mq) (last : Bool)
    (hret : (queueRq host h rq last s).1 ≠ .resource ∧ (queueRq host h rq last s).1 ≠ .devResource) :
    (queueRq host h rq last s).2.phase = s.phase := by
  have hturns : (host.answer s.tick).turns = false := by
    by_contra hne
    rcases hs.turns s.tick ((Bool.not_eq_false _).mp hne) with hr | hr
    · exact hret.1 hr
    · exact hret.2 hr
  unfold queueRq
  dsimp only
  rw [hturns]
  split_ifs <;> rfl

/-- After a request was accepted: only `h` is untold besides the others, and it is if more come. -/
theorem Quiet.accepted {last : Bool} (hq : Quiet host U s) (hlog : s'.log = s.log ++ [.queueRq h rq last .ok]) :
    Quiet host (fun h' => (h' = h ∧ last = false) ∨ (h' ≠ h ∧ U h')) s' := by
  intro h' hc hu
  rw [hlog, untold_concat] at hu
  change (if h = h' then !last else untold s.log h') = true at hu
  split_ifs at hu with heq
  · exact Or.inl ⟨heq.symm, by simpa using hu⟩
  · exact Or.inr ⟨fun hne => heq hne.symm, hq h' hc hu⟩

/-- A refused request leaves the driver as untold as it was. -/
theorem Quiet.refused {last : Bool} {ret : BlkStatus} (hq : Quiet host U s) (hret : ret ≠ .ok)
    (hlog : s'.log = s.log ++ [.queueRq h rq last ret]) : Quiet host U s' := by
  intro h' hc hu
  rw [hlog, untold_concat] at hu
  cases ret with
  | ok          => exact absurd rfl hret
  | resource    => exact hq h' hc hu
  | devResource => exact hq h' hc hu
  | error e     => exact hq h' hc hu

/-- `blk_mq_commit_rqs` settles what is owing. -/
theorem Quiet.commitRqs (hq : Quiet host (Owing U h queued) s) :
    Quiet host U (blkMqCommitRqs host h queued s) := by
  unfold blkMqCommitRqs
  intro h' hc hu
  split_ifs at hu with hcommit
  · rw [Mq.tell, untold_concat] at hu
    change (if h = h' then false else untold s.log h') = true at hu
    split_ifs at hu with heq
    exact (hq h' hc hu).resolve_right fun ho => heq ho.1.symm
  · refine (hq h' hc hu).resolve_right ?_
    rintro ⟨rfl, hqueued⟩
    exact hcommit ⟨hc, hqueued⟩

/-! ### Dispatching a list -/

/-- **Step.** After the loop only the hardware queue itself can be untold, if `queued` counts a request; and not
    even that if the list was used up, for the last request comes with `bd->last`. -/
theorem Quiet.dispatchLoop (rqs : List Rq) (host : Host) (getBudget : Bool) (queued : Nat) (ret : BlkStatus)
    (hq : Quiet host (Owing U h queued) s)
    (hlast : rqs = [] → ret = .ok → Quiet host U s) :
    Quiet host (Owing U h (dispatchLoop host h getBudget rqs queued ret s).2.1)
        (dispatchLoop host h getBudget rqs queued ret s).2.2.2 ∧
      ((dispatchLoop host h getBudget rqs queued ret s).1 = [] →
        (dispatchLoop host h getBudget rqs queued ret s).2.2.1 = .ok →
        Quiet host U (dispatchLoop host h getBudget rqs queued ret s).2.2.2) := by
  induction rqs generalizing queued ret s with
  | nil => exact ⟨hq, fun _ => hlast rfl⟩
  | cons rq rqs ih =>
      have hprep : (s.warnOn (h != rq.mqHctx)).Same
          (blkMqPrepDispatchRq host rq getBudget (s.warnOn (h != rq.mqHctx))).2 := same_prepDispatchRq getBudget
      unfold Dispatch.dispatchLoop
      generalize blkMqPrepDispatchRq host rq getBudget (s.warnOn (h != rq.mqHctx)) = r at hprep ⊢
      obtain ⟨ready, s₁⟩ := r
      have hq₁ : Quiet host (Owing U h queued) s₁ := hq.same ⟨hprep.log, hprep.phase⟩
      cases ready with
      | false => exact ⟨hq₁, fun hnil => absurd hnil (List.cons_ne_nil _ _)⟩
      | true =>
          have hlog : (queueRq host h rq rqs.isEmpty s₁).2.log = s₁.log ++
              [.queueRq h rq rqs.isEmpty (queueRq host h rq rqs.isEmpty s₁).1] := log_queueRq rqs.isEmpty
          dsimp only
          generalize queueRq host h rq rqs.isEmpty s₁ = r at hlog ⊢
          obtain ⟨verdict, s₂⟩ := r
          cases verdict with
          | ok =>
              have hacc := hq₁.accepted hlog
              refine ih (queued + 1) .ok (hacc.mono ?_) ?_
              · rintro h' (⟨rfl, -⟩ | ⟨hne, ho⟩)
                · exact Or.inr ⟨rfl, Nat.succ_ne_zero _⟩
                · exact Or.inl (ho.resolve_right fun hh => hne hh.1)
              · rintro rfl -
                refine hacc.mono ?_
                rintro h' (⟨-, hf⟩ | ⟨hne, ho⟩)
                · exact absurd hf (by simp)
                · exact ho.resolve_right fun hh => hne hh.1
          | resource =>
              refine ⟨(hq₁.refused (by simp) hlog).same same_putDriverTag, ?_⟩
              exact fun hnil => absurd hnil (List.cons_ne_nil _ _)
          | devResource =>
              refine ⟨(hq₁.refused (by simp) hlog).same same_putDriverTag, ?_⟩
              exact fun hnil => absurd hnil (List.cons_ne_nil _ _)
          | error e =>
              refine ih queued (.error e) ((hq₁.refused (by simp) hlog).same ⟨rfl, rfl⟩) ?_
              exact fun _ hok => absurd hok (by simp)

/-- `blk_mq_dispatch_rq_list` calls `commit_rqs` wherever the loop leaves something owed. -/
theorem Quiet.dispatchRqList (rqs : List Rq) (getBudget : Bool) (hq : Quiet host U s) :
    Quiet host U (blkMqDispatchRqList host h rqs getBudget s).2 := by
  unfold blkMqDispatchRqList
  split_ifs with hnil
  · exact hq
  · have howing : Quiet host (Owing U h 0) s := hq.mono fun _ hu => Or.inl hu
    have hloop := howing.dispatchLoop rqs host getBudget 0 .ok fun hz => absurd hz hnil
    generalize Dispatch.dispatchLoop host h getBudget rqs 0 .ok s = r at hloop
    obtain ⟨left, queued, ret, s'⟩ := r
    dsimp only at hloop ⊢
    have hcommit : Quiet host U (if left ≠ [] ∨ ret ≠ .ok then blkMqCommitRqs host h queued s' else s') := by
      split_ifs with hc
      · exact hloop.1.commitRqs
      · obtain ⟨hl, hr⟩ := not_or.mp hc
        exact hloop.2 (not_not.mp hl) (not_not.mp hr)
    generalize (if left ≠ [] ∨ ret ≠ .ok then blkMqCommitRqs host h queued s' else s') = s'' at hcommit ⊢
    by_cases hleft : left = []
    · rw [if_neg (not_not.mpr hleft)]
      exact hcommit.same (same_updateDispatchBusy false)
    · rw [if_pos hleft]
      have hspliced : Quiet host U (s''.addTail (.dispatch h) left) := hcommit.same ⟨rfl, rfl⟩
      exact hspliced.same (same_updateDispatchBusy true)

/-! ### Running a hardware queue -/

theorem same_flushBusyCtx (r : List Rq × Mq) (bit : Nat) : r.2.Same (flushBusyCtx host h r bit).2 := by
  unfold flushBusyCtx
  split_ifs
  · cases (host.hw.ctxs h)[bit]? <;> exact ⟨rfl, rfl⟩
  · exact ⟨rfl, rfl⟩

theorem same_flushBits (bits : List Nat) (r : List Rq × Mq) :
    r.2.Same (bits.foldl (flushBusyCtx host h) r).2 := by
  induction bits generalizing r with
  | nil => exact ⟨rfl, rfl⟩
  | cons bit bits ih => exact (same_flushBusyCtx r bit).trans (ih _)

theorem same_dispatchRqFromCtx (bits : List Nat) : s.Same (dispatchRqFromCtx host h bits s).2 := by
  induction bits with
  | nil => exact ⟨rfl, rfl⟩
  | cons bit bits ih =>
      unfold dispatchRqFromCtx
      split_ifs
      · cases (host.hw.ctxs h)[bit]? with
        | none => exact ih
        | some c =>
            dsimp only
            cases s.list (.sw c (host.hw.type h)) with
            | nil => exact ih
            | cons rq rqs =>
                dsimp only
                split_ifs <;> exact ⟨rfl, rfl⟩
      · exact ih

/-- **One step of a run of a hardware queue** owes nothing. -/
theorem Quiet.runStep (step : RunStep) (hq : Quiet host U s) : Quiet host U (runStep host h s step) := by
  cases step with
  | dispatched => exact Quiet.dispatchRqList _ true (hq.same ⟨rfl, rfl⟩)
  | busy => exact Quiet.dispatchRqList _ true (hq.same (same_flushBits _ ([], s)))
  | dequeue start =>
      have hd : s.Same (blkMqDequeueFromCtx host h start s).2 := same_dispatchRqFromCtx _
      unfold Dispatch.runStep
      dsimp only
      generalize blkMqDequeueFromCtx host h start s = r at hd ⊢
      obtain ⟨found, s'⟩ := r
      cases found with
      | none => exact hq.same hd
      | some rq => exact (hq.same hd).dispatchRqList [rq] false
  | sched hctx rqs getBudget =>
      unfold Dispatch.runStep
      dsimp only
      split_ifs
      · have htaken : Quiet host U (s.setList (.sched (host.hw.queue h))
            ((s.list (.sched (host.hw.queue h))).filter fun rq => rq ∉ rqs)) := hq.same ⟨rfl, rfl⟩
        exact (htaken.same (same_getDriverTags rqs)).dispatchRqList rqs getBudget
      · exact hq

theorem Quiet.schedDispatchRequests (hq : Quiet host U s) :
    Quiet host U (blkMqSchedDispatchRequests host h s) := by
  have hrun : ∀ (steps : List RunStep) {s : Mq}, Quiet host U s →
      Quiet host U (steps.foldl (Dispatch.runStep host h) s) := by
    intro steps
    induction steps with
    | nil => exact fun hq => hq
    | cons step steps ih => exact fun hq => ih (hq.runStep step)
  exact hrun _ (hq.same ⟨rfl, rfl⟩)

theorem Quiet.runHwQueue (async : Bool) (hq : Quiet host U s) :
    Quiet host U (blkMqRunHwQueue host h async s) := by
  unfold blkMqRunHwQueue
  split_ifs
  · exact hq.same ⟨rfl, rfl⟩
  · exact hq.same ⟨rfl, rfl⟩
  · exact Quiet.schedDispatchRequests (hq.same ⟨rfl, rfl⟩)

/-! ### Issuing directly -/

/-- The hardware queue is neither stopped nor quiesced. -/
def Free (host : Host) (s : Mq) (h : Nat) : Prop :=
  host.stopped s.phase h = false ∧ host.quiesced s.phase (host.hw.queue h) = false

/-- What is owing on the way through a list: the hardware queue `h`, if `queued` counts a request and the
    queue takes more. -/
def OwingFree (host : Host) (U : Nat → Prop) (h queued : Nat) (s : Mq) : Prop :=
  Quiet host (fun h' => U h' ∨ (h' = h ∧ queued ≠ 0 ∧ Free host s h)) s

theorem OwingFree.owing (ho : OwingFree host U h queued s) : Quiet host (Owing U h queued) s :=
  ho.mono fun _ hu => hu.imp id fun hh => ⟨hh.1, hh.2.1⟩

theorem Quiet.owingFree (hq : Quiet host U s) : OwingFree host U h queued s := hq.mono fun _ hu => Or.inl hu

/-- A request is held back exactly if its hardware queue is not free. -/
theorem held_iff (hrq : host.hw.queue rq.mqHctx = rq.q) : held host rq s = false ↔ Free host s rq.mqHctx := by
  rw [held, Bool.or_eq_false_iff, Free, hrq]

theorem Free.of_phase {s' : Mq} (hf : Free host s h) (hphase : s'.phase = s.phase) : Free host s' h := by
  unfold Free
  rw [hphase]
  exact hf

/-- What is owing when a request has been issued directly: `queued` counts, if something is; and nothing is
    after `BLK_STS_OK` for the last request. -/
structure Settled (host : Host) (U : Nat → Prop) (h queued : Nat) (last : Bool) (r : BlkStatus × Mq) : Prop where
  ok : r.1 = .ok → OwingFree host U h (queued + 1) r.2 ∧ (last = true → Quiet host U r.2)
  error : ∀ e, r.1 = .error e → OwingFree host U h queued r.2
  refused : r.1 ≠ .ok → Quiet host (Owing U h queued) r.2

theorem Settled.of_refused {ret : BlkStatus} {last : Bool} (hret : ret = .resource ∨ ret = .devResource)
    (hq : Quiet host (Owing U h queued) s) : Settled host U h queued last (ret, s) where
  ok := fun he => by rcases hret with rfl | rfl <;> exact absurd he (by simp)
  error := fun e he => by rcases hret with rfl | rfl <;> exact absurd he (by simp)
  refused := fun _ => hq

/-- A request that is issued directly settles the account, or leaves it for `queued` to count. -/
theorem Quiet.issueDirectly {rq : Rq} (hs : host.Steady) (last : Bool) (hfree : Free host s h)
    (ho : Quiet host (Owing U h queued) s) : Settled host U h queued last (blkMqIssueDirectly host h rq last s) := by
  have hlog : (queueRq host h rq last s).2.log = s.log ++
      [.queueRq h rq last (queueRq host h rq last s).1] := log_queueRq last
  have hphase := hs.phase_queueRq h rq s last
  unfold blkMqIssueDirectly
  generalize queueRq host h rq last s = r at hlog hphase ⊢
  obtain ⟨ret, s'⟩ := r
  have hbusy : ∀ busy, s'.Same (blkMqUpdateDispatchBusy h busy s') := fun busy => same_updateDispatchBusy busy
  -- the driver stops the queue only while it refuses a request
  have hstays : ret ≠ .resource ∧ ret ≠ .devResource → Free host (blkMqUpdateDispatchBusy h false s') h :=
    fun hret => hfree.of_phase ((hbusy false).phase.trans (hphase hret))
  cases ret with
  | ok =>
      have hacc := (ho.accepted hlog).same (hbusy false)
      refine ⟨fun _ => ⟨hacc.mono ?_, fun hl => hacc.mono ?_⟩, fun e he => absurd he (by simp),
        fun hne => absurd rfl hne⟩
      · rintro h' (⟨rfl, -⟩ | ⟨hne, hu⟩)
        · exact Or.inr ⟨rfl, Nat.succ_ne_zero _, hstays ⟨by simp, by simp⟩⟩
        · exact Or.inl (hu.resolve_right fun hh => hne hh.1)
      · rintro h' (⟨-, hf⟩ | ⟨hne, hu⟩)
        · exact absurd (hl.symm.trans hf) (by simp)
        · exact hu.resolve_right fun hh => hne hh.1
  | resource =>
      have href := (ho.refused (by simp) hlog).same (hbusy true)
      exact Settled.of_refused (Or.inl rfl) (href.same same_putDriverTag)
  | devResource =>
      have href := (ho.refused (by simp) hlog).same (hbusy true)
      exact Settled.of_refused (Or.inr rfl) (href.same same_putDriverTag)
  | error e =>
      have href := (ho.refused (by simp) hlog).same (hbusy false)
      refine ⟨fun he => absurd he (by simp), fun _ _ => href.mono ?_, fun _ => href⟩
      exact fun h' hu => hu.imp id fun hh => ⟨hh.1, hh.2, hstays ⟨by simp, by simp⟩⟩

/-- As long as the hardware queue is free the driver is asked; otherwise nothing changes. -/
theorem OwingFree.requestIssueDirectly (hs : host.Steady) (last : Bool) (hrq : host.hw.queue rq.mqHctx = rq.q)
    (ho : OwingFree host U rq.mqHctx queued s) :
    Settled host U rq.mqHctx queued last (blkMqRequestIssueDirectly host rq last s) := by
  unfold blkMqRequestIssueDirectly
  by_cases hheld : held host rq s = true
  · -- the queue takes no more, so nothing was owing
    rw [if_pos hheld]
    have hquiet : Quiet host U s := ho.mono fun _ hu => hu.resolve_right fun hh => by
      rw [(held_iff hrq).mpr hh.2.2] at hheld
      exact absurd hheld (by simp)
    have hrun : Quiet host U (blkMqRunHwQueue host rq.mqHctx false (blkMqInsertRequest host rq false s)) :=
      (hquiet.same (same_insertRequest false)).runHwQueue false
    exact ⟨fun _ => ⟨hrun.owingFree, fun _ => hrun⟩, fun e he => absurd he (by simp),
      fun hne => absurd rfl hne⟩
  · rw [if_neg hheld]
    have hfree : Free host s rq.mqHctx := (held_iff hrq).mp (Bool.eq_false_iff.mpr hheld)
    have htag : s.Same (blkMqGetBudgetAndTag host rq s).2 := same_getBudgetAndTag
    generalize blkMqGetBudgetAndTag host rq s = r at htag ⊢
    obtain ⟨got, s'⟩ := r
    cases got with
    | false => exact Settled.of_refused (Or.inl rfl) (ho.owing.same htag)
    | true => exact Quiet.issueDirectly hs last (hfree.of_phase htag.phase) (ho.owing.same htag)

/-- What is owing when a loop over requests of several hardware queues stands at `hctx`. -/
def OwingAt (host : Host) (U : Nat → Prop) (queued : Nat) (s : Mq) : Option Nat → Prop
  | none   => Quiet host U s
  | some h => OwingFree host U h queued s

/-- What is owing when such a loop has ended. -/
def OwedAt (host : Host) (U : Nat → Prop) (queued : Nat) (s : Mq) : Option Nat → Prop
  | none   => Quiet host U s
  | some h => Quiet host (Owing U h queued) s

theorem OwingAt.owed {hctx : Option Nat} (ho : OwingAt host U queued s hctx) : OwedAt host U queued s hctx := by
  cases hctx with
  | none   => exact ho
  | some h => exact OwingFree.owing ho

/-- At a request of another hardware queue, `commit_rqs` is called for the last one. -/
theorem OwingAt.switchHctx {hctx : Option Nat} (ho : OwingAt host U queued s hctx) :
    OwingFree host U h (switchHctx host hctx h queued s).1 (switchHctx host hctx h queued s).2 := by
  unfold Dispatch.switchHctx
  cases hctx with
  | none => exact Quiet.owingFree ho
  | some h' =>
      dsimp only
      split_ifs with heq
      · subst heq
        exact ho
      · exact (OwingFree.owing ho).commitRqs.owingFree

/-- **Step of `blk_mq_issue_direct`.** Only the hardware queue at which the loop stands can be untold. -/
theorem OwingAt.issueLoop (hs : host.Steady) (hctx : Option Nat) (queued : Nat) (ret : BlkStatus)
    (hrqs : ∀ rq ∈ rqs, host.hw.queue rq.mqHctx = rq.q) (ho : OwingAt host U queued s hctx)
    (hlast : rqs = [] → ret = .ok → Quiet host U s) :
    OwedAt host U (issueLoop host rqs hctx queued ret s).2.2.1 (issueLoop host rqs hctx queued ret s).2.2.2.2
        (issueLoop host rqs hctx queued ret s).2.1 ∧
      ((issueLoop host rqs hctx queued ret s).2.2.2.1 = .ok →
        Quiet host U (issueLoop host rqs hctx queued ret s).2.2.2.2) ∧
      (issueLoop host rqs hctx queued ret s).1 <:+ rqs := by
  induction rqs generalizing hctx queued ret s with
  | nil => exact ⟨ho.owed, hlast rfl, List.suffix_rfl⟩
  | cons rq rqs ih =>
      have hrest : ∀ rq ∈ rqs, host.hw.queue rq.mqHctx = rq.q := fun r hr => hrqs r (List.mem_cons_of_mem _ hr)
      have hswitch := ho.switchHctx (h := rq.mqHctx)
      unfold Dispatch.issueLoop
      dsimp only
      generalize Dispatch.switchHctx host hctx rq.mqHctx queued s = r at hswitch ⊢
      obtain ⟨hok, herr, hrefused⟩ :=
        hswitch.requestIssueDirectly hs rqs.isEmpty (hrqs rq List.mem_cons_self)
      generalize blkMqRequestIssueDirectly host rq rqs.isEmpty r.2 = r' at hok herr hrefused ⊢
      obtain ⟨verdict, s'⟩ := r'
      cases verdict with
      | ok =>
          obtain ⟨h₁, h₂, h₃⟩ := ih (some rq.mqHctx) (r.1 + 1) .ok hrest (hok rfl).1
            fun hnil _ => (hok rfl).2 (by rw [hnil]; rfl)
          exact ⟨h₁, h₂, h₃.trans (List.suffix_cons _ _)⟩
      | resource =>
          have hrun := ((hrefused (by simp)).same (same_bypassInsert rq false)).runHwQueue
            (h := rq.mqHctx) false
          exact ⟨hrun, fun he => absurd he (by simp), List.suffix_cons _ _⟩
      | devResource =>
          have hrun := ((hrefused (by simp)).same (same_bypassInsert rq false)).runHwQueue
            (h := rq.mqHctx) false
          exact ⟨hrun, fun he => absurd he (by simp), List.suffix_cons _ _⟩
      | error e =>
          have hended : OwingFree host U rq.mqHctx r.1 (blkMqEndRequest rq s') := herr e rfl
          obtain ⟨h₁, h₂, h₃⟩ := ih (some rq.mqHctx) r.1 (.error e) hrest hended
            fun _ he => absurd he (by simp)
          exact ⟨h₁, h₂, h₃.trans (List.suffix_cons _ _)⟩

/-- A list of several hardware queues leaves none of them untold. -/
theorem Quiet.issueDirect (hs : host.Steady) (rqs : List Rq) (hrqs : ∀ rq ∈ rqs, host.hw.queue rq.mqHctx = rq.q)
    (hq : Quiet host U s) :
    Quiet host U (blkMqIssueDirect host rqs s).2 ∧ (blkMqIssueDirect host rqs s).1 <:+ rqs := by
  have hloop := OwingAt.issueLoop hs none 0 .ok hrqs hq fun _ _ => hq
  unfold blkMqIssueDirect
  generalize Dispatch.issueLoop host rqs none 0 .ok s = r at hloop ⊢
  obtain ⟨left, hctx, queued, ret, s'⟩ := r
  obtain ⟨howed, hok, hsuf⟩ := hloop
  cases hctx with
  | none => exact ⟨howed, hsuf⟩
  | some h =>
      refine ⟨?_, hsuf⟩
      dsimp only
      split_ifs with hret
      · exact Quiet.commitRqs howed
      · exact hok (not_not.mp hret)

/-- **Step of `blk_mq_try_issue_list_directly`.** As for several hardware queues, without the switches. -/
theorem OwingFree.issueListLoop (hs : host.Steady) (queued : Nat) (ret : BlkStatus)
    (hrqs : ∀ rq ∈ rqs, rq.mqHctx = h ∧ host.hw.queue rq.mqHctx = rq.q) (ho : OwingFree host U h queued s)
    (hlast : rqs = [] → ret = .ok → Quiet host U s) :
    Quiet host (Owing U h (issueListLoop host h rqs queued ret s).2.1)
        (issueListLoop host h rqs queued ret s).2.2.2 ∧
      ((issueListLoop host h rqs queued ret s).2.2.1 = .ok →
        Quiet host U (issueListLoop host h rqs queued ret s).2.2.2) := by
  induction rqs generalizing queued ret s with
  | nil => exact ⟨ho.owing, hlast rfl⟩
  | cons rq rqs ih =>
      have hrest : ∀ rq ∈ rqs, rq.mqHctx = h ∧ host.hw.queue rq.mqHctx = rq.q :=
        fun r hr => hrqs r (List.mem_cons_of_mem _ hr)
      obtain ⟨rfl, hrq⟩ := hrqs rq List.mem_cons_self
      obtain ⟨hok, herr, hrefused⟩ := ho.requestIssueDirectly hs rqs.isEmpty hrq
      unfold Dispatch.issueListLoop
      generalize blkMqRequestIssueDirectly host rq rqs.isEmpty s = r at hok herr hrefused ⊢
      obtain ⟨verdict, s'⟩ := r
      have hbusy : ∀ {s : Mq}, Quiet host (Owing U rq.mqHctx queued) s →
          Quiet host (Owing U rq.mqHctx queued) (if rqs = []
            then blkMqRunHwQueue host rq.mqHctx false (blkMqRequestBypassInsert rq false s)
            else blkMqRequestBypassInsert rq false s) := by
        intro s hq
        have hins := hq.same (same_bypassInsert rq false)
        split_ifs
        · exact hins.runHwQueue false
        · exact hins
      cases verdict with
      | ok => exact ih (queued + 1) .ok hrest (hok rfl).1 fun hnil _ => (hok rfl).2 (by rw [hnil]; rfl)
      | resource => exact ⟨hbusy (hrefused (by simp)), fun he => absurd he (by simp)⟩
      | devResource => exact ⟨hbusy (hrefused (by simp)), fun he => absurd he (by simp)⟩
      | error e =>
          have hended : OwingFree host U rq.mqHctx queued (blkMqEndRequest rq s') := herr e rfl
          exact ih queued (.error e) hrest hended fun _ he => absurd he (by simp)

theorem Quiet.tryIssueListDirectly (hs : host.Steady) (rqs : List Rq)
    (hrqs : ∀ rq ∈ rqs, rq.mqHctx = h ∧ host.hw.queue rq.mqHctx = rq.q) (hq : Quiet host U s) :
    Quiet host U (blkMqTryIssueListDirectly host h rqs s).2 := by
  have hloop := OwingFree.issueListLoop hs 0 .ok hrqs hq.owingFree fun _ _ => hq
  unfold blkMqTryIssueListDirectly
  generalize Dispatch.issueListLoop host h rqs 0 .ok s = r at hloop ⊢
  obtain ⟨left, queued, ret, s'⟩ := r
  dsimp only at hloop ⊢
  split_ifs with hret
  · exact hloop.1.commitRqs
  · exact hloop.2 (not_not.mp hret)

/-- A single request is issued with `bd->last`. -/
theorem Quiet.tryIssueDirectly (hq : Quiet host U s) :
    Quiet host U (blkMqTryIssueDirectly host rq.mqHctx rq s) := by
  have hins : ∀ {s : Mq} (async : Bool), Quiet host U s →
      Quiet host U (blkMqRunHwQueue host rq.mqHctx async (blkMqInsertRequest host rq false s)) :=
    fun async hq => (hq.same (same_insertRequest false)).runHwQueue async
  unfold blkMqTryIssueDirectly
  split_ifs
  · exact hins false hq
  · exact hins rq.nowait hq
  · have htag : s.Same (blkMqGetBudgetAndTag host rq s).2 := same_getBudgetAndTag
    generalize blkMqGetBudgetAndTag host rq s = r at htag ⊢
    obtain ⟨got, s₁⟩ := r
    have hq₁ : Quiet host U s₁ := hq.same htag
    cases got with
    | false => exact hins rq.nowait hq₁
    | true =>
        have hlog : (queueRq host rq.mqHctx rq true s₁).2.log = s₁.log ++
            [.queueRq rq.mqHctx rq true (queueRq host rq.mqHctx rq true s₁).1] := log_queueRq true
        dsimp only [blkMqIssueDirectly]
        generalize queueRq host rq.mqHctx rq true s₁ = r at hlog ⊢
        obtain ⟨ret, s₂⟩ := r
        cases ret with
        | ok =>
            refine ((hq₁.accepted hlog).same (same_updateDispatchBusy false)).mono ?_
            rintro h' (⟨-, hf⟩ | ⟨-, hu⟩)
            · exact absurd hf (by simp)
            · exact hu
        | resource =>
            have href := (hq₁.refused (by simp) hlog).same (same_updateDispatchBusy (h := rq.mqHctx) true)
            exact ((href.same same_putDriverTag).same (same_bypassInsert rq false)).runHwQueue false
        | devResource =>
            have href := (hq₁.refused (by simp) hlog).same (same_updateDispatchBusy (h := rq.mqHctx) true)
            exact ((href.same same_putDriverTag).same (same_bypassInsert rq false)).runHwQueue false
        | error e =>
            have href := (hq₁.refused (by simp) hlog).same (same_updateDispatchBusy (h := rq.mqHctx) false)
            exact href.same ⟨rfl, rfl⟩

/-- Insertion tells the driver nothing but through the direct issue and the run of the queue. -/
theorem Quiet.insertRequests {c : Nat} (hs : host.Steady) (rqs : List Rq) (async : Bool)
    (hrqs : ∀ rq ∈ rqs, rq.mqHctx = h ∧ host.hw.queue rq.mqHctx = rq.q) (hq : Quiet host U s) :
    Quiet host U (blkMqInsertRequests host h c rqs async s) := by
  unfold blkMqInsertRequests
  have htried : Quiet host U (if s.dispatchBusy h = 0 ∧ async = false then blkMqTryIssueListDirectly host h rqs s
      else (rqs, s)).2 := by
    split_ifs
    · exact hq.tryIssueListDirectly hs rqs hrqs
    · exact hq
  generalize (if s.dispatchBusy h = 0 ∧ async = false then blkMqTryIssueListDirectly host h rqs s
    else (rqs, s)) = r at htried ⊢
  dsimp only
  split_ifs
  · exact htried.runHwQueue async
  · exact Quiet.runHwQueue _ (htried.same ⟨rfl, rfl⟩)

/-! ### Flushing a plug -/

theorem Quiet.dispatchList (hs : host.Steady) (fromSched : Bool) (rqs : List Rq)
    (hrqs : ∀ rq ∈ rqs, host.hw.queue rq.mqHctx = rq.q) (hq : Quiet host U s) :
    Quiet host U (blkMqDispatchList host fromSched rqs s).2 ∧ (blkMqDispatchList host fromSched rqs s).1 ⊆ rqs := by
  cases rqs with
  | nil => exact ⟨hq, List.nil_subset _⟩
  | cons rq rqs =>
      unfold blkMqDispatchList
      dsimp only
      rw [List.partition_eq_filter_filter]
      dsimp only
      refine ⟨?_, fun r hr => List.mem_cons_of_mem _ (List.mem_filter.mp hr).1⟩
      split_ifs
      · exact Quiet.runHwQueue _ (hq.same ⟨rfl, rfl⟩)
      · exact Quiet.runHwQueue _ (hq.same ⟨rfl, rfl⟩)
      · refine hq.insertRequests hs _ fromSched fun r hr => ?_
        rcases List.mem_cons.mp hr with rfl | hr
        · exact ⟨rfl, hrqs r List.mem_cons_self⟩
        · obtain ⟨hr, halike⟩ := List.mem_filter.mp hr
          exact ⟨(alike_iff.mp halike).1.symm, hrqs r (List.mem_cons_of_mem _ hr)⟩

theorem Quiet.dispatchLists (hs : host.Steady) (fromSched : Bool) (fuel : Nat) (rqs : List Rq)
    (hrqs : ∀ rq ∈ rqs, host.hw.queue rq.mqHctx = rq.q) (hq : Quiet host U s) :
    Quiet host U (dispatchLists host fromSched fuel rqs s) := by
  induction fuel generalizing rqs s with
  | zero => exact hq
  | succ fuel ih =>
      unfold Dispatch.dispatchLists
      split_ifs
      · exact hq
      · obtain ⟨hq', hsub⟩ := hq.dispatchList hs fromSched rqs hrqs
        exact ih _ (fun r hr => hrqs r (hsub hr)) hq'

/-- A batch through `queue_rqs` is not noted as accepted one by one. -/
theorem Quiet.dispatchQueueRequests (hs : host.Steady) (rqs : List Rq)
    (hrqs : ∀ rq ∈ rqs, host.hw.queue rq.mqHctx = rq.q) (hq : Quiet host U s) :
    Quiet host U (blkMqDispatchQueueRequests host rqs s).2 ∧ (blkMqDispatchQueueRequests host rqs s).1 ⊆ rqs := by
  cases rqs with
  | nil => exact ⟨hq, List.nil_subset _⟩
  | cons rq rqs =>
      have hflush : Quiet host U (blkMqFlushList host rq.q (rq :: rqs) s).2 ∧
          (blkMqFlushList host rq.q (rq :: rqs) s).1 ⊆ rq :: rqs := by
        unfold blkMqFlushList
        split_ifs
        · exact ⟨hq, List.Subset.refl _⟩
        · rw [List.partition_eq_filter_filter]
          refine ⟨?_, List.filter_subset_self _⟩
          -- a batch is the driver's own affair
          intro h hc hu
          change untold (s.log ++ [.queueRqs rq.q (rq :: rqs)]) h = true at hu
          rw [untold_concat] at hu
          exact hq h hc hu
      unfold blkMqDispatchQueueRequests
      dsimp only
      split_ifs
      · obtain ⟨hq', hsub⟩ := hflush
        obtain ⟨hq'', hsuf⟩ := hq'.issueDirect hs _ fun r hr => hrqs r (hsub hr)
        exact ⟨hq'', fun r hr => hsub (hsuf.subset hr)⟩
      · obtain ⟨hq', hsuf⟩ := hq.issueDirect hs _ hrqs
        exact ⟨hq', hsuf.subset⟩

theorem Quiet.dispatchMultiple (hs : host.Steady) (fuel : Nat) (rqs : List Rq)
    (hrqs : ∀ rq ∈ rqs, host.hw.queue rq.mqHctx = rq.q) (hq : Quiet host U s) :
    Quiet host U (blkMqDispatchMultipleQueueRequests host fuel rqs s) := by
  induction fuel generalizing rqs s with
  | zero => exact hq
  | succ fuel ih =>
      cases rqs with
      | nil => exact hq
      | cons rq rqs =>
          unfold blkMqDispatchMultipleQueueRequests
          rw [List.partition_eq_filter_filter]
          dsimp only
          have hsub : rq :: rqs.filter (fun rq' => rq'.q == rq.q) ⊆ rq :: rqs :=
            List.cons_subset_cons _ (List.filter_subset_self _)
          obtain ⟨hq', hleft⟩ := hq.dispatchQueueRequests hs _ fun r hr => hrqs r (hsub hr)
          refine ih _ (fun r hr => hrqs r (List.mem_cons_of_mem _ (List.mem_filter.mp hr).1)) ?_
          exact hq'.dispatchLists hs false _ _ fun r hr => hrqs r (hsub (hleft hr))

/-- **`blk_mq_flush_plug_list`** owes nothing, on each of its three ways. -/
theorem Quiet.flushPlugList (hs : host.Steady) (t : Nat) (fromSchedule : Bool)
    (hrqs : ∀ rq ∈ s.list (.plug t), host.hw.queue rq.mqHctx = rq.q) (hq : Quiet host U s) :
    Quiet host U (blkMqFlushPlugList host t fromSchedule s) := by
  unfold blkMqFlushPlugList
  dsimp only
  have htaken : ∀ info, Quiet host U { s.setList (.plug t) [] with plug := Function.update s.plug t info } :=
    fun info => hq.same ⟨rfl, rfl⟩
  split_ifs
  · exact hq
  · exact (htaken _).dispatchMultiple hs _ _ hrqs
  · obtain ⟨hq', hsub⟩ := (htaken _).dispatchQueueRequests hs _ hrqs
    exact hq'.dispatchLists hs false _ _ fun r hr => hrqs r (hsub hr)
  · exact (htaken _).dispatchLists hs fromSchedule _ _ hrqs

/-! ### Where requests come from -/

theorem Quiet.addRqToPlug (hs : host.Steady) (t : Nat)
    (hrqs : ∀ rq ∈ s.list (.plug t), host.hw.queue rq.mqHctx = rq.q) (hq : Quiet host U s) :
    Quiet host U (blkAddRqToPlug host t rq s) := by
  unfold blkAddRqToPlug
  dsimp only
  split_ifs
  · have hflushed : Quiet host U (blkMqFlushPlugList host t false s.next) :=
      Quiet.flushPlugList hs t false hrqs (hq.same ⟨rfl, rfl⟩)
    exact hflushed.same ⟨rfl, rfl⟩
  · exact hq.same ⟨rfl, rfl⟩

theorem Quiet.insert_run (atHead async : Bool) (hq : Quiet host U s) :
    Quiet host U (blkMqRunHwQueue host h async (blkMqInsertRequest host rq atHead s)) :=
  (hq.same (same_insertRequest atHead)).runHwQueue async

theorem same_requeueLoop (rqs : List Rq) : s.Same (requeueLoop host rqs s) := by
  induction rqs generalizing s with
  | nil => exact ⟨rfl, rfl⟩
  | cons rq rqs ih =>
      refine Mq.Same.trans ?_ ih
      split_ifs
      · have hins : s.next.Same (blkMqRequestBypassInsert rq false s.next) := same_bypassInsert rq false
        exact ⟨hins.log, hins.phase⟩
      · have hins : s.next.Same (blkMqInsertRequest host rq true s.next) := same_insertRequest true
        exact ⟨hins.log, hins.phase⟩

theorem same_reflushLoop (rqs : List Rq) : s.Same (reflushLoop host rqs s) := by
  induction rqs generalizing s with
  | nil => exact ⟨rfl, rfl⟩
  | cons rq rqs ih => exact (same_insertRequest false).trans ih

theorem Quiet.runHwQueues (hctxs : List Nat) (async : Bool) (hq : Quiet host U s) :
    Quiet host U (blkMqRunHwQueues host hctxs async s) := by
  unfold blkMqRunHwQueues
  induction hctxs generalizing s with
  | nil => exact hq
  | cons h hctxs ih =>
      refine ih ?_
      dsimp only
      split_ifs
      · exact hq
      · exact hq.runHwQueue async

/-- **Step.** When a call is over, no hardware queue is untold that was not so before. -/
theorem Quiet.act {a : Act} {f : Nat → PlugInfo × List Rq} (hs : host.Steady) (hi : Inv host f s [] [])
    (hq : Quiet host U s) : Quiet host U (s.act host a) := by
  have hplug : ∀ t, ∀ rq ∈ s.list (.plug t), host.hw.queue rq.mqHctx = rq.q :=
    fun t rq hrq => (hi.mapped rq (hi.kept.mem_of_place hrq)).queue
  have hback : ∀ rq, Quiet host U (blkMqPutDriverTag rq (s.setList .driver ((s.list .driver).erase rq))) := by
    intro rq
    have htaken : Quiet host U (s.setList .driver ((s.list .driver).erase rq)) := hq.same ⟨rfl, rfl⟩
    exact htaken.same same_putDriverTag
  cases a with
  | submit plug rq isSync =>
      have harrived : Quiet host U (s.arrive rq) := hq.same ⟨rfl, rfl⟩
      cases plug with
      | some t => exact harrived.addRqToPlug hs t (hplug t)
      | none =>
          dsimp only [Mq.act, submit]
          split_ifs
          · exact harrived.insert_run false true
          · exact harrived.tryIssueDirectly
  | execute plug rq atHead blocking =>
      have harrived : Quiet host U (s.arrive rq) := hq.same ⟨rfl, rfl⟩
      dsimp only [Mq.act, blkExecuteRqNowait]
      split
      · exact harrived.addRqToPlug hs _ (hplug _)
      · exact harrived.insert_run atHead blocking
  | flushPlug plug fromSchedule => exact hq.flushPlugList hs plug fromSchedule (hplug plug)
  | run h => exact hq.schedDispatchRequests
  | requeue rq => exact (hback rq).same ⟨rfl, rfl⟩
  | reflush rq => exact (hback rq).same ⟨rfl, rfl⟩
  | requeueWork q hctxs =>
      have htaken : Quiet host U ((s.setList (.requeue q) []).setList (.flush q) []) := hq.same ⟨rfl, rfl⟩
      exact ((htaken.same (same_requeueLoop _)).same (same_reflushLoop _)).runHwQueues hctxs false
  | complete rq => exact hq.same ⟨rfl, rfl⟩
  | notifyDead h c =>
      dsimp only [Mq.act, blkMqHctxNotifyDead]
      split_ifs
      · exact hq
      · exact Quiet.runHwQueue true (hq.same ⟨rfl, rfl⟩)
      · exact hq
  | turn => exact fun h hc hu => hq h hc hu

/-- **The driver is always told.** When queues are stopped only between calls or by the driver that refuses
    a request, then in every state that is reached no hardware queue whose driver has `commit_rqs` has
    accepted a request through `queue_rq` and waits for more: the last one that it accepted came with
    `bd->last`, or `commit_rqs` was called since. -/
theorem driver_told (hs : host.Steady) (hr : s.Reachable host) (h : Nat)
    (hc : host.hw.commitRqs (host.hw.queue h) = true) : untold s.log h = false := by
  have hquiet : (∃ f, Inv host f s [] []) ∧ Quiet host (fun _ => False) s := by
    refine Reaches.inv (I := fun s => (∃ f, Inv host f s [] []) ∧ Quiet host (fun _ => False) s) hr
      ⟨⟨_, inv_empty host⟩, fun h _ hu => absurd hu (by simp [Mq.empty, untold])⟩ ?_
    rintro s a t ⟨⟨f, hi⟩, hq⟩ ⟨hl, rfl⟩
    exact ⟨hi.act hl, hq.act hs hi⟩
  exact Bool.eq_false_iff.mpr fun hu => hquiet.2 h hc hu

end Told

/-! ## A list that is cut short -/

/-- A driver without `queue_rqs` that accepts one request, at the question 3, and then refuses; `turns` says
    whether queues are stopped while it accepts the first. -/
def cuttingHost (turns : Bool) : Host where
  hw := { twoQueues with queueRqs := fun _ => false }
  answer := fun t => {
    budget := true, tag := true, tagWait := false, ret := if t = 3 then .ok else .resource
    takes := fun _ => false, dontprep := false, large := false, hasWork := false, onCpu := false, run := []
    turns := turns && t == 3 }
  stopped := fun phase _ => phase != 0
  quiesced := fun _ _ => false

/-- Two requests of the first queue are plugged and the plug is flushed. -/
def cutShort (turns : Bool) : Mq :=
  [.submit (some 0) (plainRq 0 0) true, .submit (some 0) (plainRq 1 0) true, .flushPlug 0 false].foldl
    (Mq.act (cuttingHost turns)) Mq.empty

/-- The second of the two requests is refused. -/
theorem cutShort_reachable (turns : Bool) : (cutShort turns).Reachable (cuttingHost turns) := by
  have hmapped : ∀ id, (plainRq id 0).Mapped (cuttingHost turns).hw := by
    intro id
    have hm := plainRq_mapped id (q := 0) (by decide)
    exact ⟨hm.queue, hm.ctx, hm.tag⟩
  refine reachable_run _ Reaches.refl ⟨⟨hmapped 0, ?_⟩, ⟨hmapped 1, ?_⟩, trivial, trivial⟩
  · exact fun rq hrq => absurd hrq List.not_mem_nil
  · intro rq hrq
    rw [List.mem_singleton.mp hrq]
    decide

/-- The second request is refused, and the first one is committed. -/
theorem driver_told_cutShort :
    (cutShort false).log = [.queueRq 0 (plainRq 0 0) false .ok, .queueRq 0 (plainRq 1 0) true .resource,
      .commitRqs 0] ∧ untold (cutShort false).log 0 = false :=
  ⟨rfl, driver_told ⟨fun _ ht => absurd ht (by simp [cuttingHost])⟩ (cutShort_reachable false) 0 rfl⟩

-- If the queue is stopped between the two requests, the second one counts as queued, and nobody commits.
example : (cutShort true).log = [.queueRq 0 (plainRq 0 0) false .ok] ∧ untold (cutShort true).log 0 = true :=
  ⟨rfl, rfl⟩

end Dispatch
end Block
end SystemsPlayground
