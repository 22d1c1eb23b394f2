import Mathlib.Data.List.Basic
import SystemsPlayground.Block.Merge

/-!
# `Block.Queue` — merging into the requests of a queue

The four merge paths of `blk-merge.c`, each over the list of requests that it looks at: the plug of the
submitting task (`blk_attempt_plug_merge`), a software queue (`blk_bio_list_merge`), the requests of the
scheduler (`blk_mq_sched_try_merge`) and two neighbouring requests (`attempt_merge`). What holds of every
request of the list before does so after, if adding a bio to a request and joining two of them keep it; and
so all of them leave every request sealed.
-/

namespace SystemsPlayground
namespace Block

open Word

/-! ## Merging into a list of requests -/

/-- `struct blk_plug`: the plugged requests, and whether they belong to several queues. -/
structure Plug where
  mqList : List Request
  multipleQueues : Bool
deriving DecidableEq

/-- What a merge needs to know besides the request and the bio. -/
structure MergeContext where
  helpers : MergeHelpers
  lim : QueueLimits
  queue : Nat

section ListMerges

variable (ctx : MergeContext) (bio : Bio) (nrSegs : Nat)

/-- The loop of `blk_attempt_plug_merge`: only the first request of the queue is tried. -/
def plugMergeFirst : List Request → Bool × List Request
  | [] => (false, [])
  | rq :: rqs =>
      if rq.queue ≠ ctx.queue then
        let (merged, rqs) := plugMergeFirst rqs
        (merged, rq :: rqs)
      else
        let (status, rq) := blkAttemptBioMerge ctx.helpers ctx.lim rq bio nrSegs false
        (status == .ok, rq :: rqs)

/-- `blk_attempt_plug_merge`. -/
def blkAttemptPlugMerge (plug : Plug) : Bool × Plug :=
  match plug.mqList.getLast? with
  | none => (false, plug)
  | some rq =>
      if rq.queue = ctx.queue then
        let (status, rq) := blkAttemptBioMerge ctx.helpers ctx.lim rq bio nrSegs false
        (status == .ok, { plug with mqList := plug.mqList.dropLast ++ [rq] })
      else if !plug.multipleQueues then (false, plug)
      else
        let (merged, rqs) := plugMergeFirst ctx bio nrSegs plug.mqList
        (merged, { plug with mqList := rqs })

/-- The loop of `blk_bio_list_merge` over the reversed list, for at most `checked` requests. -/
def listMergeLoop : Nat → List Request → Bool × List Request
  | 0, rqs => (false, rqs)
  | _ + 1, [] => (false, [])
  | checked + 1, rq :: rqs =>
      match blkAttemptBioMerge ctx.helpers ctx.lim rq bio nrSegs true with
      | (.none, rq) =>
          let (merged, rqs) := listMergeLoop checked rqs
          (merged, rq :: rqs)
      | (.ok, rq) => (true, rq :: rqs)
      | (.failed, rq) => (false, rq :: rqs)

/-- `blk_bio_list_merge`. -/
def blkBioListMerge (rqs : List Request) : Bool × List Request :=
  let (merged, rqs) := listMergeLoop ctx bio nrSegs 8 rqs.reverse
  (merged, rqs.reverse)

/-- `attempt_merge` of the request at index `j` into that at index `i`; a merged request is taken out. -/
def mergeAt (ctx : MergeContext) (rqs : List Request) (i j : Nat) : List Request :=
  match rqs[i]?, rqs[j]? with
  | some rq, some next =>
      if i = j then rqs
      else match attemptMerge ctx.helpers ctx.lim rq next with
        | (true, rq) => (rqs.set i rq).eraseIdx j
        | (false, rq) => rqs.set i rq
  | _, _ => rqs

/-- What the scheduler answers: the request and the kind of merge that `elv_merge` proposes, and its
    neighbour (`elv_latter_request`, `elv_former_request`). -/
structure Proposal where
  kind : ElvMerge
  index : Nat
  neighbour : Option Nat

/-- `elv_merge` proposes a request only for a bio that `blk_rq_merge_ok` accepts. -/
def Proposal.Legal (rqs : List Request) (p : Proposal) : Prop :=
  p.kind ≠ .noMerge → ∀ rq, rqs[p.index]? = some rq → blkRqMergeOk ctx.helpers rq bio = true

/-- `blk_mq_sched_try_merge`. -/
def blkMqSchedTryMerge (rqs : List Request) (p : Proposal) : Bool × List Request :=
  match p.kind, rqs[p.index]? with
  | .backMerge, some rq =>
      if !ctx.helpers.blkMqSchedAllowMerge rq bio then (false, rqs)
      else match bioAttemptBackMerge ctx.helpers ctx.lim rq bio nrSegs with
        | (.ok, rq) =>
            let rqs := rqs.set p.index rq
            -- `attempt_back_merge`: the latter request is merged into this one
            (true, (p.neighbour.map fun j => mergeAt ctx rqs p.index j).getD rqs)
        | (_, rq) => (false, rqs.set p.index rq)
  | .frontMerge, some rq =>
      if !ctx.helpers.blkMqSchedAllowMerge rq bio then (false, rqs)
      else match bioAttemptFrontMerge ctx.helpers ctx.lim rq bio nrSegs with
        | (.ok, rq) =>
            let rqs := rqs.set p.index rq
            -- `attempt_front_merge`: this request is merged into the former one
            (true, (p.neighbour.map fun j => mergeAt ctx rqs j p.index).getD rqs)
        | (_, rq) => (false, rqs.set p.index rq)
  | .discardMerge, some rq =>
      let (status, rq) := bioAttemptDiscardMerge ctx.helpers ctx.lim rq bio
      (status == .ok, rqs.set p.index rq)
  | _, _ => (false, rqs)

end ListMerges

/-! ## What merging keeps -/

/-- All requests of a list have a property. -/
def Each (P : Request → Prop) (rqs : List Request) : Prop := ∀ rq ∈ rqs, P rq

/-- A request that has the property keeps it when an attempt is made to add the bio. -/
def MergeContext.Adds (ctx : MergeContext) (bio : Bio) (P : Request → Prop) : Prop :=
  ∀ {rq : Request} {nrSegs : Nat} {allow : Bool}, P rq →
    P (blkAttemptBioMerge ctx.helpers ctx.lim rq bio nrSegs allow).2

/-- And when an attempt is made to join it with another one that has it. -/
def MergeContext.Joins (ctx : MergeContext) (P : Request → Prop) : Prop :=
  ∀ {rq next : Request}, P rq → P next → P (attemptMerge ctx.helpers ctx.lim rq next).2

section Keeping

variable {ctx : MergeContext} {bio : Bio} {nrSegs : Nat} {P : Request → Prop} {rqs : List Request}

theorem Each.nil : Each P [] := List.forall_mem_nil _

theorem Each.cons {rq : Request} (hrq : P rq) (h : Each P rqs) : Each P (rq :: rqs) :=
  List.forall_mem_cons.mpr ⟨hrq, h⟩

theorem Each.append {rqs' : List Request} (h : Each P rqs) (h' : Each P rqs') : Each P (rqs ++ rqs') :=
  List.forall_mem_append.mpr ⟨h, h'⟩

theorem Each.subset {rqs' : List Request} (h : Each P rqs) (hsub : rqs' ⊆ rqs) : Each P rqs' :=
  fun rq hrq => h rq (hsub hrq)

theorem Each.set {rq : Request} (i : Nat) (h : Each P rqs) (hrq : P rq) : Each P (rqs.set i rq) := by
  intro r hr
  rcases List.mem_or_eq_of_mem_set hr with hr | rfl
  · exact h r hr
  · exact hrq

/-- The first request of the queue in the plug is tried, and no other. -/
theorem Each.plugMergeFirst (hadd : ctx.Adds bio P) (h : Each P rqs) :
    Each P (plugMergeFirst ctx bio nrSegs rqs).2 := by
  induction rqs with
  | nil => exact h
  | cons rq rqs ih =>
      obtain ⟨hrq, hrqs⟩ := List.forall_mem_cons.mp h
      unfold Block.plugMergeFirst
      split_ifs
      · exact Each.cons hrq (ih hrqs)
      · exact Each.cons (hadd hrq) hrqs

/-- The last request of the plug is tried if it is of the queue; otherwise the first one that is. -/
theorem Each.attemptPlugMerge {plug : Plug} (hadd : ctx.Adds bio P) (h : Each P plug.mqList) :
    Each P (blkAttemptPlugMerge ctx bio nrSegs plug).2.mqList := by
  unfold blkAttemptPlugMerge
  cases hlast : plug.mqList.getLast? with
  | none => exact h
  | some rq =>
      simp only
      split_ifs
      · refine Each.append (h.subset (List.dropLast_subset _)) ?_
        exact Each.cons (hadd (h rq (List.mem_of_getLast? hlast))) Each.nil
      · exact h
      · exact h.plugMergeFirst hadd

/-- The search of a list from its end, eight requests at most. -/
theorem Each.listMergeLoop (hadd : ctx.Adds bio P) (checked : Nat) (h : Each P rqs) :
    Each P (listMergeLoop ctx bio nrSegs checked rqs).2 := by
  induction checked generalizing rqs with
  | zero => exact h
  | succ checked ih =>
      cases rqs with
      | nil => exact h
      | cons rq rqs =>
          obtain ⟨hrq, hrqs⟩ := List.forall_mem_cons.mp h
          have hmerged : P (blkAttemptBioMerge ctx.helpers ctx.lim rq bio nrSegs true).2 := hadd hrq
          unfold Block.listMergeLoop
          generalize blkAttemptBioMerge ctx.helpers ctx.lim rq bio nrSegs true = r at hmerged
          obtain ⟨status, rq'⟩ := r
          cases status with
          | none => exact Each.cons hmerged (ih hrqs)
          | ok => exact Each.cons hmerged hrqs
          | failed => exact Each.cons hmerged hrqs

theorem Each.bioListMerge (hadd : ctx.Adds bio P) (h : Each P rqs) :
    Each P (blkBioListMerge ctx bio nrSegs rqs).2 := by
  have hrev : Each P rqs.reverse := fun r hr => h r (List.mem_reverse.mp hr)
  intro r hr
  exact hrev.listMergeLoop hadd 8 r (List.mem_reverse.mp hr)

/-- Two requests of a list become one. -/
theorem Each.mergeAt (hjoin : ctx.Joins P) (h : Each P rqs) (i j : Nat) : Each P (mergeAt ctx rqs i j) := by
  unfold Block.mergeAt
  split
  · rename_i rq next hi hj
    have hmerged : P (attemptMerge ctx.helpers ctx.lim rq next).2 :=
      hjoin (h rq (List.mem_of_getElem? hi)) (h next (List.mem_of_getElem? hj))
    split_ifs
    · exact h
    · generalize attemptMerge ctx.helpers ctx.lim rq next = r at hmerged
      obtain ⟨ok, rq'⟩ := r
      cases ok with
      | true => exact (h.set i hmerged).subset (List.eraseIdx_subset ..)
      | false => exact h.set i hmerged
  · exact h

/-- The requests after the scheduler's bio merge ended with `r`: on success the merged request is offered to
    the neighbour that the scheduler names, and otherwise only put back. -/
theorem Each.schedMerged {r : MergeStatus × Request} (hjoin : ctx.Joins P) (h : Each P rqs) (hr : P r.2)
    (index : Nat) (i j : Nat → Nat) (neighbour : Option Nat) :
    Each P (match r with
      | (.ok, rq) =>
          (true, (neighbour.map fun n => Block.mergeAt ctx (rqs.set index rq) (i n) (j n)).getD (rqs.set index rq))
      | (_, rq) => (false, rqs.set index rq)).2 := by
  have hset := h.set index hr
  obtain ⟨status, rq⟩ := r
  cases status with
  | none => exact hset
  | failed => exact hset
  | ok =>
      cases neighbour with
      | none => exact hset
      | some n => exact hset.mergeAt hjoin (i n) (j n)

/-- The request that the scheduler proposes is not tried by `blk_attempt_bio_merge`; here each kind of merge has
    to keep the property of it. -/
theorem Each.schedTryMerge {p : Proposal} (hjoin : ctx.Joins P) (h : Each P rqs)
    (hback : p.kind = .backMerge → ∀ rq, rqs[p.index]? = some rq →
      P (bioAttemptBackMerge ctx.helpers ctx.lim rq bio nrSegs).2)
    (hfront : p.kind = .frontMerge → ∀ rq, rqs[p.index]? = some rq →
      P (bioAttemptFrontMerge ctx.helpers ctx.lim rq bio nrSegs).2)
    (hdiscard : p.kind = .discardMerge → ∀ rq, rqs[p.index]? = some rq →
      P (bioAttemptDiscardMerge ctx.helpers ctx.lim rq bio).2) :
    Each P (blkMqSchedTryMerge ctx bio nrSegs rqs p).2 := by
  unfold blkMqSchedTryMerge
  split
  · rename_i rq hkind hrq
    split_ifs
    · exact h
    · exact h.schedMerged hjoin (hback hkind rq hrq) p.index (fun _ => p.index) (fun j => j) p.neighbour
  · rename_i rq hkind hrq
    split_ifs
    · exact h
    · exact h.schedMerged hjoin (hfront hkind rq hrq) p.index (fun j => j) (fun _ => p.index) p.neighbour
  · rename_i rq hkind hrq
    exact h.set p.index (hdiscard hkind rq hrq)
  · exact h

/-! ## Sealed requests -/

/-- A bio that joins a request, in whatever way, leaves it sealed. -/
theorem sealed_adds (hh : ctx.helpers.Documented) (bio : Bio) : ctx.Adds bio Request.Sealed :=
  fun hs => blkAttemptBioMerge_sealed hh hs

/-- So does a request that joins it. -/
theorem sealed_joins (hh : ctx.helpers.Documented) : ctx.Joins Request.Sealed :=
  fun hs hn => attemptMerge_sealed hh hs hn

/-- The scheduler asks before it merges, so its proposals leave the requests sealed, too. -/
theorem blkMqSchedTryMerge_sealed {p : Proposal} (hh : ctx.helpers.Documented) (h : Each Request.Sealed rqs)
    (hp : p.Legal ctx bio rqs) : Each Request.Sealed (blkMqSchedTryMerge ctx bio nrSegs rqs p).2 := by
  -- the scheduler may only name a request that `blk_rq_merge_ok` accepts, so nothing here is stamped
  have hclean : ∀ rq, p.kind ≠ .noMerge → rqs[p.index]? = some rq → rq.Clean ∧ bio.opf.nomerge = false :=
    fun rq hkind hrq => blkRqMergeOk_clean hh (h rq (List.mem_of_getElem? hrq)) (hp hkind rq hrq)
  refine h.schedTryMerge (sealed_joins hh) ?_ ?_ ?_ <;> intro hkind rq hrq <;>
    obtain ⟨hc, hb⟩ := hclean rq (by simp [hkind]) hrq
  · exact (bioAttemptBackMerge_clean hc hb).isSealed
  · exact (bioAttemptFrontMerge_clean hc hb).isSealed
  · exact (bioAttemptDiscardMerge_clean hc hb).isSealed

end Keeping

end Block
end SystemsPlayground
