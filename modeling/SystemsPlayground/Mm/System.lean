import SystemsPlayground.Lib.Runs
import SystemsPlayground.Mm.Accounting
import SystemsPlayground.Mm.Filemap

/-!
# `Mm.System` — one page cache, many users

A file is opened any number of times; each opening reads, maps and faults as it likes, while memory runs out,
other threads add folios, the filesystem refuses some, and reclaim removes what it likes between the calls.
`System.Step` is one such step. Every one of them keeps the cache sound (`PageCache.Sound`), so over every run
the ledger of `Mm.Accounting` balances.
-/

namespace SystemsPlayground
namespace Mm

open Runs

variable {h : Host} {c : PageCache}

/-! ## The operations keep the cache sound -/

/-- A folio is added outside of readahead. -/
theorem PageCache.Sound.createFolio (hs : c.Sound h) (index : Nat) : (c.createFolio h index).1.Sound h := by
  have ho : (⟨c, fileRaStateInit 0, false, 0, 0⟩ : ReadaheadControl).Open h := ReadaheadControl.open_of_sound hs rfl
  have htick : (⟨{ c with tick := c.tick + 1 }, fileRaStateInit 0, false, 0, 0⟩ : ReadaheadControl).Open h :=
    ho.congr rfl rfl rfl rfl rfl rfl rfl
  rw [PageCache.createFolio]
  rcases PageCache.filemapAddFolio_cases h c ⟨h.alignIndex index, h.minOrder, false⟩ with
    heq | ⟨c', rfl, heq | ⟨hc, heq⟩⟩
  · rw [heq]
    exact htick.sound rfl
  · rw [heq]
    exact (htick.race _ _).sound rfl
  · rw [heq]
    exact ((htick.race _ _).single hc (Word.dvd_roundDown _ _) (Nat.le_refl _)).sound rfl

theorem File.closed_ractl (hs : c.Sound h) (f : File) (index : Nat) : (f.ractl c index).Closed h := ⟨hs, rfl⟩

/-- `filemap_get_pages` from the batch on: a marked folio starts a readahead, and the last folio may have to be
    read. -/
theorem PageCache.Sound.getBatch (hs : c.Sound h) (hsize : 0 < h.isize) (f : File) (lastIndex : Nat)
    (fbatch : List Folio) {i : Nat} {folio : Folio} (hfolio : c.pages i = some folio) (p : Pass) :
    (filemapGetBatch h c f lastIndex fbatch folio p).1.Sound h := by
  have hr : (if folio.readahead = true then
      (f.ractl c folio.index).pageCacheAsyncRa h folio (lastIndex - folio.index)
      else f.ractl c folio.index).Closed h := by
    split_ifs
    · exact (f.closed_ractl hs _).asyncRa hsize hfolio _
    · exact f.closed_ractl hs _
  rw [filemapGetBatch]
  generalize (if folio.readahead = true then
    (f.ractl c folio.index).pageCacheAsyncRa h folio (lastIndex - folio.index) else f.ractl c folio.index) = r at hr ⊢
  split_ifs
  · exact hr.1
  · exact hr.1
  · split <;> exact hr.1

/-- A folio that is read by itself is counted when it is added. -/
theorem PageCache.Sound.filemapCreateFolio (hs : c.Sound h) (f : File) (index : Nat) (outcome : ReadFolio) :
    (filemapCreateFolio h c f index outcome).1.Sound h := by
  have hcr := hs.createFolio index
  rw [Mm.filemapCreateFolio]
  split
  · rename_i heq
    rw [heq] at hcr
    exact hcr
  · rename_i heq
    rw [heq] at hcr
    exact hcr
  · rename_i heq
    rw [heq] at hcr
    split <;> exact hcr

/-- A pass of `filemap_get_pages` keeps the cache sound. -/
theorem PageCache.Sound.getPages (hs : c.Sound h) (hsize : 0 < h.isize) (f : File) (pos count : Nat) (p : Pass) :
    (filemapGetPages h c f pos count p).1.1.Sound h := by
  have hlast : ∀ {c : PageCache} {max : Nat} {folio : Folio},
      (c.readBatch max p.uptodate pagevecSize (pos / 4096)).getLast? = some folio → ∃ x, c.pages x = some folio := by
    intro c max folio hl
    obtain ⟨e, hrun⟩ := c.readBatch_run max p.uptodate pagevecSize (pos / 4096)
    exact hrun.mem (List.mem_of_getLast? hl)
  rw [filemapGetPages]
  dsimp only
  split
  · rename_i folio hl
    obtain ⟨x, hx⟩ := hlast hl
    exact hs.getBatch hsize f _ _ hx p
  · have hsync := (f.closed_ractl hs (pos / 4096)).syncRa hsize
      (Word.roundUp (pos + count) (h.minNrpages * 4096) / 4096 - pos / 4096)
    split
    · rename_i folio hl
      obtain ⟨x, hx⟩ := hlast hl
      exact hsync.1.getBatch hsize _ _ _ hx p
    · exact hsync.1.filemapCreateFolio _ _ _

/-- All ways through `do_sync_mmap_readahead` are readaheads that are sound. -/
theorem PageCache.Sound.syncMmap (hs : c.Sound h) (hsize : 0 < h.isize) (f : File) (vma : Vma) (pgoff : Nat) :
    (doSyncMmapReadahead h c f vma pgoff).Closed h := by
  have hcl : ∀ ra index, (⟨c, ra, f.random, index, 0⟩ : ReadaheadControl).Closed h := fun _ _ => ⟨hs, rfl⟩
  rw [doSyncMmapReadahead]
  dsimp only
  by_cases hnone : vma.hugepage = false ∧
      ((vma.randRead = true ∧ vma.exec = false) ∨ (f.ractl c pgoff).ra.raPages = 0)
  · rw [if_pos hnone]
    exact hcl _ _
  · rw [if_neg hnone]
    by_cases hseq : vma.hugepage = false ∧ vma.seqRead = true
    · rw [if_pos hseq]
      exact (hcl _ _).syncRa hsize _
    · rw [if_neg hseq]
      generalize (if vma.seqRead = true then (f.ractl c pgoff).ra else (f.ractl c pgoff).ra.countMiss) = ra
      split_ifs
      · exact hcl _ _
      · exact (hcl _ _).pageCacheRaOrder hsize
      · exact (hcl _ _).readIt hsize
      · exact (hcl _ _).readIt hsize

theorem PageCache.Sound.asyncMmap (hs : c.Sound h) (hsize : 0 < h.isize) (f : File) (vma : Vma) (pgoff : Nat)
    {i : Nat} {folio : Folio} (hfolio : c.pages i = some folio) (locked : Bool) :
    (doAsyncMmapReadahead h c f vma pgoff folio locked).Closed h := by
  have hcl : ∀ ra, (⟨c, ra, f.random, pgoff, 0⟩ : ReadaheadControl).Closed h := fun _ => ⟨hs, rfl⟩
  rw [doAsyncMmapReadahead]
  dsimp only
  generalize (if locked = true then (f.ractl c pgoff).ra else
    { (f.ractl c pgoff).ra with mmapMiss := (f.ractl c pgoff).ra.mmapMiss - 1 }) = ra
  split_ifs
  · exact hcl _
  · exact (hcl ra).asyncRa hsize hfolio _
  · exact hcl _

/-- The fault creates its folio if readahead did not bring it. -/
theorem PageCache.Sound.findFolio (hs : c.Sound h) (f : File) (pgoff : Nat) (outcome : ReadFolio) :
    (filemapFindFolio h c f pgoff outcome).1.Sound h := by
  have hcr := hs.createFolio pgoff
  rw [filemapFindFolio]
  split
  · exact hs
  · split
    · rename_i heq
      rw [heq] at hcr
      exact hcr
    · rename_i heq
      rw [heq] at hcr
      exact hcr

/-- `filemap_fault` keeps the cache sound. -/
theorem PageCache.Sound.fault (hs : c.Sound h) (f : File) (e : Fault) : (filemapFault h c f e).1.Sound h := by
  rw [filemapFault]
  by_cases heof : (h.isize + 4095) / 4096 ≤ e.pgoff
  · rw [if_pos heof]
    exact hs
  · rw [if_neg heof]
    have hsize : 0 < h.isize := by omega
    cases hp : c.pages e.pgoff with
    | some folio =>
        dsimp only
        split_ifs
        · exact hs
        · exact (hs.asyncMmap hsize f e.vma e.pgoff hp e.locked).1
    | none =>
        dsimp only
        split_ifs
        · exact hs
        · exact (hs.syncMmap hsize f e.vma e.pgoff).1.findFolio _ _ _

/-! ## Runs -/

/-- The page cache of a file, and the files that have it open. -/
structure System where
  cache : PageCache
  files : Nat → File

/-- What can happen between two calls, or be called: a file is opened; it asks for a batch of a read, or a read
    of it ends at `lastPos`; it takes a fault, or pages around one are mapped; it asks for `nr` pages in advance;
    reclaim takes the folio at a slot. -/
inductive Event where
  | openFile (k raPages : Nat) (random : Bool)
  | read (k pos count : Nat) (p : Pass)
  | readEnd (k : Nat) (lastPos : Int)
  | fault (k : Nat) (e : Fault)
  | mapPages (k : Nat) (folios : List MapFolio)
  | willneed (k index nr : Nat)
  | reclaim (i : Nat)

namespace System

def setFile (s : System) (k : Nat) (f : File) : Nat → File := Function.update s.files k f

/-- The effect of an event. -/
def act (h : Host) (s : System) : Event → System
  | .openFile k raPages random => { s with files := s.setFile k ⟨fileRaStateInit raPages, random⟩ }
  | .read k pos count p =>
      if pos < h.isize then
        let res := filemapGetPages h s.cache (s.files k) pos count p
        ⟨res.1.1, s.setFile k res.1.2.1⟩
      else s
  | .readEnd k lastPos =>
      let f := s.files k
      { s with files := s.setFile k { f with ra := { f.ra with prevPos := lastPos } } }
  | .fault k e =>
      let res := filemapFault h s.cache (s.files k) e
      ⟨res.1, s.setFile k res.2⟩
  | .mapPages k folios => { s with files := s.setFile k (filemapMapPages (s.files k) folios) }
  | .willneed k index nr =>
      let r := ((s.files k).ractl s.cache index).forcePageCacheRa h nr
      ⟨r.mapping, s.setFile k { s.files k with ra := r.ra }⟩
  | .reclaim i =>
      match s.cache.pages i with
      | some f => { s with cache := s.cache.filemapRemoveFolio f }
      | none => s

/-- The states that can be reached from an empty cache. -/
def Reachable (h : Host) (s : System) : Prop :=
  ∃ files, Reaches (fun s (e : Event) t => t = act h s e) ⟨.empty, files⟩ s

/-- The state after a run. -/
def run (h : Host) (s : System) (es : List Event) : System := es.foldl (act h) s

theorem reachable_run (h : Host) (files : Nat → File) (es : List Event) : Reachable h (run h ⟨.empty, files⟩ es) := by
  have hrun : ∀ (es : List Event) (s : System), Reaches (fun s (e : Event) t => t = act h s e) s (run h s es) := by
    intro es
    induction es with
    | nil => exact fun s => .refl
    | cons e es ih => exact fun s => Reaches.trans (Reaches.tail .refl rfl) (ih (act h s e))
  exact ⟨files, hrun es _⟩

theorem sound_empty (h : Host) : PageCache.empty.Sound h := by
  refine ⟨?_, ?_, by simp [PageCache.empty], rfl⟩
  · constructor <;> intro i f hf <;> simp [PageCache.empty] at hf
  · intro x
    simp [PageCache.empty, cover, coverFolios, PageCache.resident]

/-- **Step.** Every event keeps the books of the page cache. -/
theorem sound_act {s : System} (hs : s.cache.Sound h) (e : Event) : (s.act h e).cache.Sound h := by
  cases e with
  | openFile k raPages random => exact hs
  | read k pos count p =>
      rw [act]
      split_ifs with hpos
      · exact hs.getPages (by omega) _ _ _ _
      · exact hs
  | readEnd k lastPos => exact hs
  | fault k e => exact hs.fault _ _
  | mapPages k folios => exact hs
  | willneed k index nr => exact ((s.files k).closed_ractl hs index).forcePageCacheRa nr |>.1
  | reclaim i =>
      rw [act]
      cases hi : s.cache.pages i with
      | none => exact hs
      | some f => exact ⟨hs.wf.remove hi, hs.balanced.remove hs.wf hi, hs.eof, hs.no_bug⟩

/-- **Run.** They are right in every state that is reached. -/
theorem Reachable.sound {s : System} (hr : Reachable h s) : s.cache.Sound h := by
  obtain ⟨files, hr⟩ := hr
  refine hr.inv (I := fun s => s.cache.Sound h) (sound_empty h) ?_
  rintro s e t hs rfl
  exact sound_act hs e

/-- **Every page is accounted for.** Whatever the users of a file do, and whatever fails: the folios of the
    page cache do not overlap and are aligned; for every page, the number of times it was handed to the
    filesystem in a batch or added otherwise is the number of times it was removed, plus 1 if it is in the cache,
    so it is not added again while it is there; no batch goes past the end of the file by more than the smallest
    folio; and `read_pages` always finds the folios of its batch. (A folio in the cache that is not up to date is
    read by `->read_folio`, which the ledger does not count.) -/
theorem page_accounting {s : System} (hr : Reachable h s) :
    (∀ x, cover s.cache.batches x + coverFolios s.cache.single x =
      coverFolios s.cache.removed x + s.cache.resident x) ∧
    s.cache.Wf h ∧ (∀ b ∈ s.cache.batches, b.1 + b.2 ≤ h.endIndex + h.minNrpages) ∧ s.cache.bug = false := by
  have hs := hr.sound
  exact ⟨hs.balanced, hs.wf, hs.eof, hs.no_bug⟩

/-- A read brings the first four pages; reclaim takes the second, and a fault of another opening brings it back. -/
def reread : System := run .small ⟨.empty, fun _ => ⟨fileRaStateInit 0, false⟩⟩
  [.openFile 0 4 false, .read 0 0 5000 .ready, .reclaim 1, .openFile 1 4 false, .fault 1 (.plain 1)]

/-- A page was reclaimed and read again. -/
theorem page_accounting_reread :
    reread.cache.batches = [(0, 4), (1, 1)] ∧
    ∀ x, cover reread.cache.batches x + coverFolios reread.cache.single x =
      coverFolios reread.cache.removed x + reread.cache.resident x :=
  ⟨by decide, (page_accounting (reachable_run .small _ _)).1⟩

end System

end Mm
end SystemsPlayground
