import Mathlib.Data.List.Infix
import SystemsPlayground.Lib.Saturating
import SystemsPlayground.Mm.System
import SystemsPlayground.Mm.Window

/-!
# `Mm.Fault` — when a fault reads around

A fault on a page that is not in the cache reads around it, unless the file has seen too many misses:
`mmap_miss` counts misses up and hits down, between 0 and 10 times `MMAP_LOTSAMISS`, and above
`MMAP_LOTSAMISS` nothing is read but the page itself. Readahead does not touch the counter
(`ReadaheadControl.SameCount`); faults do, and so does `filemap_map_pages`, for which each page that it maps
around a fault is a hit. So it is a saturating counter of these since the file was opened, and `mmap_miss_law`
reads the decision off that history.
-/

namespace SystemsPlayground
namespace Mm

open Runs Word

variable {h : Host} {r : ReadaheadControl}

/-! ## What readahead leaves alone -/

namespace ReadaheadControl

theorem ra_readPages : (r.readPages h).ra = r.ra := by
  rw [readPages]
  split_ifs <;> rfl

/-- Reading pages does not touch `file->f_ra`. -/
theorem ra_raUnboundedLoop {index nrToRead mark : Nat} :
    ∀ {fuel r i}, (raUnboundedLoop h index nrToRead mark fuel r i).ra = r.ra := by
  intro fuel
  induction fuel with
  | zero => exact rfl
  | succ fuel ih =>
      intro r i
      have hskip : ∀ {r : ReadaheadControl}, (r.skipPresent h).ra = r.ra := ra_readPages
      rw [raUnboundedLoop]
      split_ifs
      · rw [ih, hskip]
      · split
        · rfl
        · rw [ih, hskip]
        · rw [ih]
      · rfl

theorem ra_doPageCacheRa {nrToRead lookaheadSize : Nat} : (r.doPageCacheRa h nrToRead lookaheadSize).ra = r.ra := by
  have hun : ∀ {n}, (r.pageCacheRaUnbounded h n lookaheadSize).ra = r.ra := by
    intro n
    rw [pageCacheRaUnbounded, ra_readPages, ra_raUnboundedLoop]
  rw [doPageCacheRa]
  dsimp only
  split_ifs
  · rfl
  · rfl
  · exact hun
  · exact hun

theorem ra_forceLoop : ∀ {fuel} {r : ReadaheadControl} {nr}, (forceLoop h fuel r nr).ra = r.ra := by
  intro fuel
  induction fuel with
  | zero => exact rfl
  | succ fuel ih =>
      intro r nr
      rw [forceLoop]
      split_ifs
      · rfl
      · rw [ih, ra_doPageCacheRa]

theorem ra_forcePageCacheRa {nrToRead : Nat} : (r.forcePageCacheRa h nrToRead).ra = r.ra := by
  unfold forcePageCacheRa
  split_ifs
  · rfl
  · exact ra_forceLoop

theorem ra_fallback {start index : Nat} : (r.fallback h start index).ra = r.ra := by
  rw [fallback]
  split_ifs
  · exact ra_doPageCacheRa
  · rfl

theorem ra_raOrderLoop {limit mark order : Nat} :
    ∀ {fuel} {r : ReadaheadControl} {index}, (raOrderLoop h limit mark order fuel r index).1.ra = r.ra := by
  intro fuel
  induction fuel with
  | zero => exact rfl
  | succ fuel ih =>
      intro r index
      rw [raOrderLoop]
      split_ifs
      · dsimp only
        rw [raAllocFolio]
        cases r.mapping.filemapAddFolio h _ with
        | mk c err =>
            cases err with
            | some e => rfl
            | none => exact ih
      · rfl

/-- The fields of the file that a readahead call does not change. -/
def SameCount (ra ra' : FileRaState) : Prop := ra'.mmapMiss = ra.mmapMiss ∧ ra'.raPages = ra.raPages

theorem sameCount_pageCacheRaOrder (h : Host) (r : ReadaheadControl) : SameCount r.ra (r.pageCacheRaOrder h).ra := by
  rw [pageCacheRaOrder]
  dsimp only
  split_ifs
  · split
    · rw [ra_readPages, ra_raOrderLoop]
      exact ⟨rfl, rfl⟩
    · rw [ra_fallback, ra_readPages, ra_raOrderLoop]
      exact ⟨rfl, rfl⟩
  · split
    · rw [ra_readPages, ra_raOrderLoop]
      exact ⟨rfl, rfl⟩
    · rw [ra_fallback, ra_readPages, ra_raOrderLoop]
      exact ⟨rfl, rfl⟩
  · rw [ra_fallback]
    exact ⟨rfl, rfl⟩

/-- A synchronous readahead leaves the count of misses alone. -/
theorem sameCount_syncRa (h : Host) (r : ReadaheadControl) (req : Nat) : SameCount r.ra (r.pageCacheSyncRa h req).ra := by
  rw [pageCacheSyncRa]
  dsimp only
  split_ifs
  · rw [ra_forcePageCacheRa]
    exact ⟨rfl, rfl⟩
  · rw [ra_forcePageCacheRa]
    exact ⟨rfl, rfl⟩
  · exact sameCount_pageCacheRaOrder h _
  · exact sameCount_pageCacheRaOrder h _
  · rw [ra_doPageCacheRa]
    exact ⟨rfl, rfl⟩
  · exact sameCount_pageCacheRaOrder h _
  · exact sameCount_pageCacheRaOrder h _

theorem sameCount_asyncRa (h : Host) (r : ReadaheadControl) (folio : Folio) (req : Nat) :
    SameCount r.ra (r.pageCacheAsyncRa h folio req).ra := by
  have hwin : ∀ r : ReadaheadControl, SameCount r.ra (r.asyncWindow h folio req).ra := by
    intro r
    rw [asyncWindow]
    dsimp only
    split_ifs
    · exact sameCount_pageCacheRaOrder h _
    · exact ⟨rfl, rfl⟩
    · exact sameCount_pageCacheRaOrder h _
  rw [pageCacheAsyncRa]
  dsimp only
  split_ifs
  · exact ⟨rfl, rfl⟩
  · exact ⟨rfl, rfl⟩
  · exact ⟨rfl, rfl⟩
  · exact hwin _

end ReadaheadControl

/-! ## The count of misses -/

/-- The fault does not want readahead, or the file has none. -/
def Vma.Off (vma : Vma) (f : File) : Prop :=
  vma.hugepage = false ∧ ((vma.randRead = true ∧ vma.exec = false) ∨ f.ra.raPages = 0)

instance (vma : Vma) (f : File) : Decidable (vma.Off f) := inferInstanceAs (Decidable (_ ∧ _))

/-- What a fault adds to the history of its file: a miss, a hit, or nothing. -/
def faultSteps (h : Host) (c : PageCache) (f : File) (e : Fault) : List Bool :=
  if h.nrPages ≤ e.pgoff then []
  else if (c.pages e.pgoff).isSome then
    if e.tried = true ∨ e.vma.randRead = true ∨ f.ra.raPages = 0 ∨ e.locked = true then [] else [false]
  else if e.nopage = true ∨ e.vma.seqRead = true ∨ e.vma.Off f then []
  else [true]

/-- The counter after pages were mapped around a fault. -/
theorem mmapMiss_mapPages (f : File) (folios : List MapFolio) :
    (filemapMapPages f folios).ra.mmapMiss =
      (List.replicate (mapCount folios) false).foldl (Saturating.step (mmapLotsamiss * 10)) f.ra.mmapMiss := by
  have hdown : ∀ n m, (List.replicate n false).foldl (Saturating.step (mmapLotsamiss * 10)) m = m - n := by
    intro n
    induction n with
    | zero => exact fun m => rfl
    | succ n ih =>
        intro m
        rw [List.replicate_succ, List.foldl_cons, ih]
        change m - 1 - n = m - (n + 1)
        omega
  rw [hdown]
  change (if f.ra.mmapMiss ≤ mapCount folios then 0 else f.ra.mmapMiss - mapCount folios) = _
  split_ifs <;> omega

theorem countMiss_mmapMiss (ra : FileRaState) :
    ra.countMiss.mmapMiss = Saturating.step (mmapLotsamiss * 10) ra.mmapMiss true := by
  rw [FileRaState.countMiss, Saturating.step]
  split_ifs <;> rfl

theorem readFolio_mmapMiss (f : File) (outcome : ReadFolio) : (f.readFolio outcome).ra.mmapMiss = f.ra.mmapMiss := by
  cases outcome <;> rfl

/-- The window that a miss reads, if it reads one. -/
def missWindow (h : Host) (c : PageCache) (f : File) (vma : Vma) (pgoff : Nat) : ReadaheadControl :=
  if vma.hugepage = true then
    { f.ractl c pgoff with
      ra := f.ra.countMiss.readHuge vma, index := roundDown pgoff (2 ^ hpagePmdOrder) }.pageCacheRaOrder h
  else
    { f.ractl c pgoff with
      ra := if vma.exec then f.ra.countMiss.readExec vma pgoff else f.ra.countMiss.readAround pgoff }.readIt h

/-- A miss is counted, and reads its window unless the count is too high. -/
theorem syncMmap_miss {h : Host} {c : PageCache} {f : File} {vma : Vma} {pgoff : Nat} (hoff : ¬ vma.Off f)
    (hseq : vma.seqRead = false) :
    doSyncMmapReadahead h c f vma pgoff =
      if mmapLotsamiss < f.ra.countMiss.mmapMiss then { f.ractl c pgoff with ra := f.ra.countMiss }
      else missWindow h c f vma pgoff := by
  have hmiss : (if vma.seqRead = true then (f.ractl c pgoff).ra else (f.ractl c pgoff).ra.countMiss) =
      f.ra.countMiss := by
    rw [if_neg (by simp [hseq])]
    rfl
  rw [doSyncMmapReadahead]
  dsimp only
  rw [if_neg (by exact hoff), if_neg (by simp [hseq]), hmiss]
  by_cases hlot : mmapLotsamiss < f.ra.countMiss.mmapMiss
  · rw [if_pos ⟨hseq, hlot⟩, if_pos hlot]
  · rw [if_neg (fun hc => hlot hc.2), if_neg hlot]
    rfl

/-- A fault that misses counts, unless readahead is off or sequential. -/
theorem mmapMiss_syncMmap (h : Host) (c : PageCache) (f : File) (vma : Vma) (pgoff : Nat) :
    (vma.seqRead = true ∨ vma.Off f → (doSyncMmapReadahead h c f vma pgoff).ra.mmapMiss = f.ra.mmapMiss) ∧
    (¬ (vma.seqRead = true ∨ vma.Off f) →
      (doSyncMmapReadahead h c f vma pgoff).ra.mmapMiss = f.ra.countMiss.mmapMiss) := by
  constructor
  · intro hcase
    rw [doSyncMmapReadahead]
    dsimp only
    by_cases hoff : vma.Off f
    · rw [if_pos (by exact hoff)]
      rfl
    · have hseq : vma.seqRead = true := hcase.resolve_right hoff
      rw [if_neg (by exact hoff)]
      by_cases hhuge : vma.hugepage = false
      · rw [if_pos ⟨hhuge, hseq⟩]
        exact (ReadaheadControl.sameCount_syncRa h _ _).1
      · rw [if_neg (fun hc => hhuge hc.1), if_pos hseq, if_neg (by simp [hseq]), if_pos (by simpa using hhuge)]
        exact (ReadaheadControl.sameCount_pageCacheRaOrder h _).1
  · intro hcase
    rw [syncMmap_miss (fun ho => hcase (Or.inr ho)) (by simpa using fun hs => hcase (Or.inl hs))]
    split_ifs
    · rfl
    · rw [missWindow]
      split_ifs
      · exact (ReadaheadControl.sameCount_pageCacheRaOrder h _).1
      · exact (ReadaheadControl.sameCount_pageCacheRaOrder h _).1
      · exact (ReadaheadControl.sameCount_pageCacheRaOrder h _).1

/-- A fault that hits counts down, unless the folio is locked. -/
theorem mmapMiss_asyncMmap (h : Host) (c : PageCache) (f : File) (vma : Vma) (pgoff : Nat) (folio : Folio)
    (locked : Bool) :
    (doAsyncMmapReadahead h c f vma pgoff folio locked).ra.mmapMiss =
      if vma.randRead = true ∨ f.ra.raPages = 0 ∨ locked = true then f.ra.mmapMiss else f.ra.mmapMiss - 1 := by
  have hkeep : ∀ ra : FileRaState, ((if folio.readahead = true then
      ({ f.ractl c pgoff with ra := ra } : ReadaheadControl).pageCacheAsyncRa h folio ra.raPages
      else { f.ractl c pgoff with ra := ra } : ReadaheadControl)).ra.mmapMiss = ra.mmapMiss := by
    intro ra
    split_ifs
    · exact (ReadaheadControl.sameCount_asyncRa h _ _ _).1
    · rfl
  rw [doAsyncMmapReadahead]
  dsimp only
  by_cases hnone : vma.randRead = true ∨ f.ra.raPages = 0
  · rw [if_pos (by exact hnone), if_pos (hnone.imp_right Or.inl)]
    rfl
  · rw [if_neg (by exact hnone), hkeep]
    by_cases hlocked : locked = true
    · rw [if_pos hlocked, if_pos (Or.inr (Or.inr hlocked))]
      rfl
    · rw [if_neg hlocked, if_neg (by rintro (h₁ | h₁ | h₁); exacts [hnone (Or.inl h₁), hnone (Or.inr h₁), hlocked h₁])]
      rfl

theorem mmapMiss_findFolio (h : Host) (c : PageCache) (f : File) (pgoff : Nat) (outcome : ReadFolio) :
    (filemapFindFolio h c f pgoff outcome).2.ra.mmapMiss = f.ra.mmapMiss := by
  rw [filemapFindFolio]
  split
  · exact readFolio_mmapMiss _ _
  · split
    · rfl
    · exact readFolio_mmapMiss _ _

/-- The counter after a fault. -/
theorem mmapMiss_fault (h : Host) (c : PageCache) (f : File) (e : Fault) :
    (filemapFault h c f e).2.ra.mmapMiss =
      (faultSteps h c f e).foldl (Saturating.step (mmapLotsamiss * 10)) f.ra.mmapMiss := by
  rw [filemapFault, faultSteps]
  by_cases heof : h.nrPages ≤ e.pgoff
  · rw [if_pos heof, if_pos (by exact heof)]
    rfl
  · rw [if_neg heof, if_neg (by exact heof)]
    cases hp : c.pages e.pgoff with
    | some folio =>
        dsimp only
        rw [readFolio_mmapMiss, Option.isSome_some, if_pos rfl]
        by_cases ht : e.tried = true
        · rw [if_pos ht, if_pos (Or.inl ht)]
          rfl
        · have hiff : (e.tried = true ∨ e.vma.randRead = true ∨ f.ra.raPages = 0 ∨ e.locked = true) ↔
              (e.vma.randRead = true ∨ f.ra.raPages = 0 ∨ e.locked = true) := or_iff_right ht
          rw [if_neg ht]
          change (doAsyncMmapReadahead h c f e.vma e.pgoff folio e.locked).ra.mmapMiss = _
          rw [mmapMiss_asyncMmap]
          by_cases hskip : e.vma.randRead = true ∨ f.ra.raPages = 0 ∨ e.locked = true
          · rw [if_pos hskip, if_pos (hiff.mpr hskip)]
            rfl
          · rw [if_neg hskip, if_neg (fun hs => hskip (hiff.mp hs))]
            rfl
    | none =>
        obtain ⟨hsame, hcount⟩ := mmapMiss_syncMmap h c f e.vma e.pgoff
        dsimp only
        rw [Option.isSome_none, if_neg Bool.false_ne_true]
        by_cases hn : e.nopage = true
        · rw [if_pos hn, if_pos (Or.inl hn)]
          rfl
        · rw [if_neg hn, mmapMiss_findFolio]
          change (doSyncMmapReadahead h c f e.vma e.pgoff).ra.mmapMiss = _
          by_cases hskip : e.vma.seqRead = true ∨ e.vma.Off f
          · rw [if_pos (Or.inr hskip), hsame hskip]
            rfl
          · rw [if_neg (fun hs => hskip (hs.resolve_left hn)), hcount hskip, countMiss_mmapMiss]
            rfl

/-! ## The history of a file -/

/-- The history of the file `k` after an event. -/
def record (h : Host) (k : Nat) (s : System) (l : List Bool) : Event → List Bool
  | .openFile k' _ _ => if k' = k then [] else l
  | .fault k' e => if k' = k then l ++ faultSteps h s.cache (s.files k) e else l
  | .mapPages k' folios => if k' = k then l ++ List.replicate (mapCount folios) false else l
  | _ => l

/-- The history of the file `k` after a run. -/
def history (h : Host) (k : Nat) : System → List Bool → List Event → List Bool
  | _, l, [] => l
  | s, l, e :: es => history h k (s.act h e) (record h k s l e) es

/-- The counter of the file is that of its history. -/
def Counts (s : System) (k : Nat) (l : List Bool) : Prop :=
  (s.files k).ra.mmapMiss = Saturating.run (mmapLotsamiss * 10) l

/-- A read leaves the count of misses alone. -/
theorem sameCount_getPages (h : Host) (c : PageCache) (f : File) (pos count : Nat) (p : Pass) :
    (filemapGetPages h c f pos count p).1.2.1.ra.mmapMiss = f.ra.mmapMiss := by
  have hbatch : ∀ (c : PageCache) (f : File) (lastIndex : Nat) (fbatch : List Folio) (folio : Folio),
      (filemapGetBatch h c f lastIndex fbatch folio p).2.1.ra.mmapMiss = f.ra.mmapMiss := by
    intro c f lastIndex fbatch folio
    have hr : (if folio.readahead = true then
        (f.ractl c folio.index).pageCacheAsyncRa h folio (lastIndex - folio.index)
        else f.ractl c folio.index).ra.mmapMiss = f.ra.mmapMiss := by
      split_ifs
      · exact (ReadaheadControl.sameCount_asyncRa h _ _ _).1
      · rfl
    rw [filemapGetBatch]
    generalize (if folio.readahead = true then
      (f.ractl c folio.index).pageCacheAsyncRa h folio (lastIndex - folio.index) else f.ractl c folio.index) = r at hr ⊢
    split_ifs
    · exact hr
    · exact hr
    · split
      · exact hr
      · exact hr
      · exact hr
      · exact (readFolio_mmapMiss _ _).trans hr
  have hcreate : ∀ (c : PageCache) (f : File) (index : Nat) (outcome : ReadFolio),
      (filemapCreateFolio h c f index outcome).2.1.ra.mmapMiss = f.ra.mmapMiss := by
    intro c f index outcome
    rw [filemapCreateFolio]
    split
    · rfl
    · rfl
    · split
      · rfl
      · exact readFolio_mmapMiss _ _
  rw [filemapGetPages]
  dsimp only
  split
  · exact hbatch _ _ _ _ _
  · split
    · exact (hbatch _ _ _ _ _).trans (ReadaheadControl.sameCount_syncRa h _ _).1
    · exact (hcreate _ _ _ _).trans (ReadaheadControl.sameCount_syncRa h _ _).1

/-- **Step.** The count follows the history through every event. -/
theorem Counts.act {s : System} {k : Nat} {l : List Bool} (hc : Counts s k l) (e : Event) :
    Counts (s.act h e) k (record h k s l e) := by
  unfold Counts at hc ⊢
  have hset : ∀ k' (f : File), f.ra.mmapMiss = (s.files k').ra.mmapMiss →
      (s.setFile k' f k).ra.mmapMiss = (s.files k).ra.mmapMiss := by
    intro k' f hf
    rw [System.setFile, Function.update_apply]
    split_ifs with hk
    · rw [hf, hk]
    · rfl
  cases e with
  | openFile k' raPages random =>
      simp only [System.act, System.setFile, record, Function.update_apply, eq_comm (a := k)]
      split_ifs with hk
      · rfl
      · exact hc
  | read k' pos count p =>
      rw [System.act]
      split_ifs
      · exact (hset k' _ (sameCount_getPages h _ _ _ _ _)).trans hc
      · exact hc
  | readEnd k' lastPos =>
      exact (hset k' { s.files k' with ra := { (s.files k').ra with prevPos := lastPos } } rfl).trans hc
  | fault k' e =>
      simp only [System.act, System.setFile, record, Function.update_apply, eq_comm (a := k)]
      split_ifs with hk
      · rw [hk, mmapMiss_fault, hc, Saturating.run, ← List.foldl_append]
        rfl
      · exact hc
  | mapPages k' folios =>
      simp only [System.act, System.setFile, record, Function.update_apply, eq_comm (a := k)]
      split_ifs with hk
      · rw [hk, mmapMiss_mapPages, hc, Saturating.run, ← List.foldl_append]
        rfl
      · exact hc
  | willneed k' index nr =>
      refine (hset k' _ ?_).trans hc
      change (ReadaheadControl.forcePageCacheRa h _ nr).ra.mmapMiss = _
      rw [ReadaheadControl.ra_forcePageCacheRa]
      rfl
  | reclaim i =>
      rw [System.act]
      split
      · exact hc
      · exact hc

/-- **Run.** So it does through every run. -/
theorem Counts.run {k : Nat} {es : List Event} :
    ∀ {s : System} {l : List Bool}, Counts s k l → Counts (s.run h es) k (history h k s l es) := by
  induction es with
  | nil => exact fun hc => hc
  | cons e es ih => exact fun hc => ih (hc.act e)

/-- **When a miss reads around.** A file is opened, and any run of the system follows. A further miss, in a
    mapping with readahead that is not sequential, then reads nothing but its page exactly if some last part of
    the history of the file, this miss included, has over 100 more misses than hits, and no last part of that
    has 900 hits more than misses; otherwise it reads its window. The counter stays within its bounds. -/
theorem mmap_miss_law (h : Host) (s₀ : System) (k raPages : Nat) (random : Bool) (es : List Event) {s : System}
    (hs : s = (s₀.act h (.openFile k raPages random)).run h es) {hist : List Bool}
    (hhist : hist = history h k (s₀.act h (.openFile k raPages random)) [] es) :
    (s.files k).ra.mmapMiss ≤ 1000 ∧
    ∀ vma pgoff, ¬ vma.Off (s.files k) → vma.seqRead = false →
      ((∃ t, t <:+ hist ++ [true] ∧ 100 < Saturating.net t ∧ ∀ t', t' <:+ t → -900 < Saturating.net t') →
        doSyncMmapReadahead h s.cache (s.files k) vma pgoff =
          { (s.files k).ractl s.cache pgoff with ra := (s.files k).ra.countMiss }) ∧
      (¬ (∃ t, t <:+ hist ++ [true] ∧ 100 < Saturating.net t ∧ ∀ t', t' <:+ t → -900 < Saturating.net t') →
        doSyncMmapReadahead h s.cache (s.files k) vma pgoff = missWindow h s.cache (s.files k) vma pgoff) := by
  have hstart : Counts (s₀.act h (.openFile k raPages random)) k [] := by
    simp [Counts, System.act, System.setFile, fileRaStateInit, Saturating.run]
  have hcount : Counts s k hist := by
    rw [hs, hhist]
    exact hstart.run
  have hafter : (s.files k).ra.countMiss.mmapMiss = Saturating.run (mmapLotsamiss * 10) (hist ++ [true]) := by
    rw [countMiss_mmapMiss, Saturating.run_concat, ← hcount]
  have hiff : mmapLotsamiss < (s.files k).ra.countMiss.mmapMiss ↔
      ∃ t, t <:+ hist ++ [true] ∧ 100 < Saturating.net t ∧ ∀ t', t' <:+ t → -900 < Saturating.net t' := by
    have hrise := Saturating.le_run_iff (N := mmapLotsamiss * 10) (hist ++ [true]) (t := 101) (by decide) (by decide)
    rw [hafter]
    constructor
    · intro hlt
      obtain ⟨t, ht, h₁, h₂⟩ := hrise.mp (by rw [mmapLotsamiss] at hlt ⊢; omega)
      refine ⟨t, ht, by omega, fun t' ht' => ?_⟩
      have := h₂ t' ht'
      simp only [mmapLotsamiss] at this
      omega
    · rintro ⟨t, ht, h₁, h₂⟩
      have := hrise.mpr ⟨t, ht, by omega, fun t' ht' => by have := h₂ t' ht'; simp only [mmapLotsamiss]; omega⟩
      rw [mmapLotsamiss] at this ⊢
      omega
  refine ⟨?_, fun vma pgoff hoff hseq => ⟨fun hlot => ?_, fun hlow => ?_⟩⟩
  · rw [hcount]
    exact Saturating.run_le _ _
  · rw [syncMmap_miss hoff hseq, if_pos (hiff.mpr hlot)]
  · rw [syncMmap_miss hoff hseq, if_neg (fun hlt => hlow (hiff.mp hlt))]

/-- The file of five pages while there is no memory. -/
def Host.starved : Host := { Host.small with env := fun _ => { Answer.calm with memory := false } }

/-- Before the file is opened. -/
def unopened : System := ⟨.empty, fun _ => ⟨fileRaStateInit 0, false⟩⟩

/-- The same page is missed 101 times, for lack of memory. -/
def misses : List Event := List.replicate 101 (.fault 0 (.plain 1))

/-- Then 16 pages are mapped around a fault. -/
def relief : List Event := [.mapPages 0 [⟨List.replicate 16 false, false⟩]]

/-- The system after these events, from the opening of a file on. -/
def opened (es : List Event) : System := (unopened.act .starved (.openFile 0 2 false)).run .starved es

/-- After 101 misses the next one reads nothing; after the 16 hits of a fault-around it reads its window. -/
theorem mmap_miss_law_lots :
    doSyncMmapReadahead .starved (opened misses).cache ((opened misses).files 0) (Fault.plain 1).vma 1 =
      { ((opened misses).files 0).ractl (opened misses).cache 1 with ra := ((opened misses).files 0).ra.countMiss } ∧
    doSyncMmapReadahead .starved (opened (misses ++ relief)).cache ((opened (misses ++ relief)).files 0)
        (Fault.plain 1).vma 1 =
      missWindow .starved (opened (misses ++ relief)).cache ((opened (misses ++ relief)).files 0)
        (Fault.plain 1).vma 1 := by
  have hlots : List.replicate 101 true = history .starved 0 (unopened.act .starved (.openFile 0 2 false)) [] misses := by
    decide +kernel
  have hfew : List.replicate 101 true ++ List.replicate 16 false =
      history .starved 0 (unopened.act .starved (.openFile 0 2 false)) [] (misses ++ relief) := by
    decide +kernel
  have hrise : 100 < Saturating.net (List.replicate 101 true ++ [true]) ∧
      ∀ t' ∈ (List.replicate 101 true ++ [true]).tails, -900 < Saturating.net t' := by
    decide +kernel
  have hlow : ∀ t ∈ (List.replicate 101 true ++ List.replicate 16 false ++ [true]).tails, Saturating.net t ≤ 100 := by
    decide +kernel
  refine ⟨((mmap_miss_law .starved unopened 0 2 false misses rfl hlots).2 _ 1 ?_ rfl).1 ?_,
    ((mmap_miss_law .starved unopened 0 2 false (misses ++ relief) rfl hfew).2 _ 1 ?_ rfl).2 ?_⟩
  · decide +kernel
  · exact ⟨_, List.suffix_rfl, hrise.1, fun t' ht' => hrise.2 t' ((List.mem_tails t' _).mpr ht')⟩
  · decide +kernel
  · rintro ⟨t, ht, hnet, -⟩
    have := hlow t ((List.mem_tails t _).mpr ht)
    omega

/-! ## The window of read-around -/

/-- The window starts half its size before the page, or at the start of the file. -/
theorem readAround_start (ra : FileRaState) (pgoff : Nat) (hra : ra.raPages < 2 ^ 32) (hpg : pgoff < 2 ^ 52) :
    (ra.readAround pgoff).start = pgoff - ra.raPages / 2 := by
  change (max 0 (toInt64 (sub64 pgoff (ra.raPages / 2)))).toNat = _
  rcases Nat.le_total (ra.raPages / 2) pgoff with hle | hle
  · rw [sub64_of_le hle (by omega), toInt64_of_lt (by omega)]
    omega
  · have hsub : sub64 pgoff (ra.raPages / 2) = if ra.raPages / 2 = pgoff then 0 else
        pgoff + 2 ^ 64 - ra.raPages / 2 := by
      unfold sub64 u64
      split_ifs <;> omega
    rw [hsub]
    split_ifs with heq
    · rw [toInt64_of_lt (by omega)]
      omega
    · rw [toInt64_of_le (by omega)]
      omega

/-- A fault on a page that is not in the cache, in a mapping without advice, on its first try. -/
structure PlainMiss (h : Host) (c : PageCache) (e : Fault) : Prop where
  lt : e.pgoff < h.nrPages
  miss : c.pages e.pgoff = none
  nopage : e.nopage = false
  hugepage : e.vma.hugepage = false
  randRead : e.vma.randRead = false
  seqRead : e.vma.seqRead = false
  exec : e.vma.exec = false

/-- The window of a plain miss is the one of read-around. -/
theorem missWindow_readAround (h : Host) {c : PageCache} (f : File) {e : Fault} (hm : PlainMiss h c e) :
    missWindow h c f e.vma e.pgoff = { f.ractl c e.pgoff with ra := f.ra.countMiss.readAround e.pgoff }.readIt h := by
  rw [missWindow, if_neg (by simp [hm.hugepage]), if_neg (by simp [hm.exec])]

theorem countMiss_raPages (ra : FileRaState) : ra.countMiss.raPages = ra.raPages := by
  rw [FileRaState.countMiss]
  split_ifs <;> rfl

/-- An opening that has brought the last two pages by a fault on the last one. -/
def lastFault : System := .run .small unopened [.openFile 0 2 false, .fault 0 (.plain 4)]

/-- **Reading in advance.** In calm surroundings, and whatever is in the cache, `force_page_cache_ra` fills in
    what is missing from its index on, up to the number of pages asked for, the larger of the two limits, or
    the end of the file: the chunks of two megabytes leave no gap, what was there stays, and nothing else
    changes. -/
theorem willneed_fills (hc : h.Calm) {s : System} (hr : System.Reachable h s) (k nr : Nat) {index : Nat}
    (hlt : index < h.nrPages) :
    s.cache.Filled index (min (index + min nr (max h.ioPages (s.files k).ra.raPages)) h.nrPages)
      (s.act h (.willneed k index nr)).cache :=
  ReadaheadControl.forcePageCacheRa_filled hc (r := (s.files k).ractl s.cache index) ⟨hr.sound, rfl⟩ hlt nr

/-- Six pages are asked for from page 1 on, and the file ends after four. -/
theorem willneed_fills_second :
    lastFault.cache.pages 1 = none ∧ lastFault.cache.Filled 1 5 (lastFault.act .small (.willneed 0 1 6)).cache :=
  ⟨by decide, willneed_fills Host.small_calm (System.reachable_run .small _ _) 0 6 (by decide)⟩

end Mm
end SystemsPlayground
