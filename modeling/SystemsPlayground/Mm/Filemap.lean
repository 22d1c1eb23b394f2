import SystemsPlayground.Mm.Readahead

/-!
# `Mm.Filemap` — reads and page faults

The two ways into readahead, both from `filemap.c`. A read goes through the page cache batch by batch
(`filemap_get_pages`, `filemap_read`); a fault in a mapping of the file asks for one page (`filemap_fault`,
with `do_sync_mmap_readahead` and `do_async_mmap_readahead`). What depends on the progress of the I/O, on
locks or on memory comes in as data (`Pass`, `Fault`), so the results hold however these turn out.

The reads are plain blocking ones (no `IOCB_` flag), and the constants are those of x86-64.
-/

namespace SystemsPlayground
namespace Mm

open Word

/-- The readahead state of a `struct file`, and its `FMODE_RANDOM`. -/
structure File where
  ra : FileRaState
  random : Bool

/-- `DEFINE_READAHEAD`. -/
def File.ractl (f : File) (c : PageCache) (index : Nat) : ReadaheadControl := ⟨c, f.ra, f.random, index, 0⟩

/-- How `filemap_read_folio` ends: the folio is up to date, the wait was killed or the request failed, or it
    is not up to date (`-EIO`). -/
inductive ReadFolio where
  | uptodate
  | failed
  | eio
deriving DecidableEq

/-- `filemap_read_folio`; after an I/O error the readahead size is scaled down
    (`shrink_readahead_size_eio`). -/
def File.readFolio (f : File) : ReadFolio → File
  | .eio => { f with ra := { f.ra with raPages := f.ra.raPages / 4 } }
  | _ => f

/-- A folio of the smallest order is added for a page that readahead did not bring. -/
def PageCache.createFolio (h : Host) (c : PageCache) (index : Nat) : PageCache × Option AddError :=
  let folio : Folio := ⟨h.alignIndex index, h.minOrder, false⟩
  match c.filemapAddFolio h folio with
  | (c, none) => ({ c with single := c.single ++ [folio] }, none)
  | (c, some e) => (c, some e)

/-! ## `filemap_read` -/

/-- The number of folios in a `struct folio_batch`. -/
def pagevecSize : Nat := 31

/-- `filemap_get_read_batch`; `uptodate` tells which folios are up to date, by their index. -/
def PageCache.readBatch (c : PageCache) (max : Nat) (uptodate : Nat → Bool) : Nat → Nat → List Folio
  | 0, _ => []
  | space + 1, i =>
      if max < i then []
      else match c.pages i with
        | none => []
        | some f =>
            if uptodate f.index = false ∨ f.readahead = true then [f]
            else f :: c.readBatch max uptodate space (f.index + f.nrPages)

namespace PageCache

/-- The folios lie in the cache one behind the other; the first contains the page `i`, and `e` is the page
    behind the last. -/
def Run (c : PageCache) : Nat → List Folio → Nat → Prop
  | i, [], e => e = i
  | i, f :: fs, e => c.pages i = some f ∧ c.Run (f.index + f.nrPages) fs e

variable {c : PageCache} {max : Nat} {uptodate : Nat → Bool}

theorem readBatch_run (c : PageCache) (max : Nat) (uptodate : Nat → Bool) :
    ∀ space i, ∃ e, c.Run i (c.readBatch max uptodate space i) e := by
  intro space
  induction space with
  | zero => exact fun i => ⟨i, rfl⟩
  | succ space ih =>
      intro i
      rw [readBatch]
      split_ifs with hmax
      · exact ⟨i, rfl⟩
      · cases hp : c.pages i with
        | none => exact ⟨i, rfl⟩
        | some f =>
            dsimp only
            split_ifs
            · exact ⟨f.index + f.nrPages, hp, rfl⟩
            · obtain ⟨e, he⟩ := ih (f.index + f.nrPages)
              exact ⟨e, hp, he⟩

/-- A batch ends with the first folio that has the mark. -/
theorem readBatch_dropLast : ∀ {space i f}, f ∈ (c.readBatch max uptodate space i).dropLast → f.readahead = false := by
  intro space
  induction space with
  | zero => simp [readBatch]
  | succ space ih =>
      intro i f hf
      rw [readBatch] at hf
      split_ifs at hf with hmax
      · simp at hf
      · cases hp : c.pages i with
        | none => simp [hp] at hf
        | some g =>
            rw [hp] at hf
            dsimp only at hf
            split_ifs at hf with hg
            · simp at hf
            · cases hrest : c.readBatch max uptodate space (g.index + g.nrPages) with
              | nil => simp [hrest] at hf
              | cons g' gs =>
                  rw [hrest, List.dropLast_cons_cons] at hf
                  rcases List.mem_cons.mp hf with rfl | hf
                  · simpa using fun hr => hg (Or.inr hr)
                  · exact ih (by rw [hrest]; exact hf)

/-- A batch that starts at a page of the cache is not empty. -/
theorem readBatch_last (uptodate : Nat → Bool) {i : Nat} {f : Folio} (hi : i ≤ max) (hf : c.pages i = some f) :
    ∃ folio, (c.readBatch max uptodate pagevecSize i).getLast? = some folio := by
  have hne : c.readBatch max uptodate pagevecSize i ≠ [] := by
    rw [pagevecSize, readBatch, if_neg (by omega), hf]
    dsimp only
    split_ifs <;> simp
  exact Option.isSome_iff_exists.mp (List.getLast?_isSome.mpr hne)

theorem Run.mem {fs : List Folio} {f : Folio} : ∀ {i e}, c.Run i fs e → f ∈ fs → ∃ x, c.pages x = some f := by
  induction fs with
  | nil => simp
  | cons g gs ih =>
      rintro i e ⟨hg, hgs⟩ hf
      rcases List.mem_cons.mp hf with rfl | hf
      · exact ⟨i, hg⟩
      · exact ih hgs hf

theorem Run.dropLast {fs : List Folio} : ∀ {i e}, c.Run i fs e → ∃ e', c.Run i fs.dropLast e' := by
  induction fs with
  | nil => exact fun {i e} _ => ⟨i, rfl⟩
  | cons f fs ih =>
      rintro i e ⟨hf, hfs⟩
      cases fs with
      | nil => exact ⟨i, rfl⟩
      | cons g gs =>
          obtain ⟨e', he'⟩ := ih hfs
          exact ⟨e', hf, he'⟩

end PageCache

/-- How `filemap_update_page` ends for a folio that is not up to date: it has waited for the lock or the
    folio was truncated (`AOP_TRUNCATED_PAGE`), the folio is up to date by now, or it has been read. -/
inductive UpdatePage where
  | truncated
  | done
  | read (outcome : ReadFolio)
deriving DecidableEq

/-- What one pass of `filemap_get_pages` meets. -/
structure Pass where
  /-- The folios that are up to date when the batch is collected. -/
  uptodate : Nat → Bool
  /-- The last folio of the batch is up to date when it is tested again. -/
  late : Bool
  update : UpdatePage
  /-- How the read in `filemap_create_folio` ends. -/
  create : ReadFolio
  /-- The number of bytes after which copying them to the destination faults, if it does. -/
  room : Option Nat

/-- A pass that finds everything up to date. -/
def Pass.ready : Pass := ⟨fun _ => true, true, .done, .uptodate, none⟩

/-- How a pass of `filemap_get_pages` ends: `goto retry`, an error, or some folios. -/
inductive GetPages where
  | retry
  | error
  | batch (folios : List Folio)
deriving DecidableEq

/-- `filemap_create_folio`. -/
def filemapCreateFolio (h : Host) (c : PageCache) (f : File) (index : Nat) (outcome : ReadFolio) :
    PageCache × File × GetPages :=
  match c.createFolio h index with
  | (c, some .enomem) => (c, f, .error)
  | (c, some .eexist) => (c, f, .retry)
  | (c, none) =>
      match outcome with
      | .uptodate => (c, f, .batch [⟨h.alignIndex index, h.minOrder, false⟩])
      | _ => (c, f.readFolio outcome, .error)

/-- `filemap_get_pages` from the moment on when the batch is not empty; `folio` is its last folio. -/
def filemapGetBatch (h : Host) (c : PageCache) (f : File) (lastIndex : Nat) (fbatch : List Folio) (folio : Folio)
    (p : Pass) : PageCache × File × GetPages :=
  -- `filemap_readahead`
  let r := f.ractl c folio.index
  let r := if folio.readahead then r.pageCacheAsyncRa h folio (lastIndex - folio.index) else r
  let f := { f with ra := r.ra }
  if p.late then (r.mapping, f, .batch fbatch)
  else if 1 < fbatch.length then (r.mapping, f, .batch fbatch.dropLast)
  else match p.update with
    | .truncated => (r.mapping, f, .retry)
    | .done => (r.mapping, f, .batch fbatch)
    | .read .uptodate => (r.mapping, f, .batch fbatch)
    | .read outcome => (r.mapping, f.readFolio outcome, .error)

/-- One pass of `filemap_get_pages`, from `retry` on. The last component says whether it has called
    `page_cache_sync_ra`. -/
def filemapGetPages (h : Host) (c : PageCache) (f : File) (pos count : Nat) (p : Pass) :
    (PageCache × File × GetPages) × Bool :=
  let index := pos / 4096
  let lastIndex := roundUp (pos + count) (h.minNrpages * 4096) / 4096
  let fbatch := c.readBatch (lastIndex - 1) p.uptodate pagevecSize index
  match fbatch.getLast? with
  | some folio => (filemapGetBatch h c f lastIndex fbatch folio p, false)
  | none =>
      let r := (f.ractl c index).pageCacheSyncRa h (lastIndex - index)
      let f := { f with ra := r.ra }
      let fbatch := r.mapping.readBatch (lastIndex - 1) p.uptodate pagevecSize index
      match fbatch.getLast? with
      | some folio => (filemapGetBatch h r.mapping f lastIndex fbatch folio p, true)
      | none => (filemapCreateFolio h r.mapping f index p.create, true)

/-- The loop of `filemap_read` over the folios of a batch: the position after copying all of it. -/
def copyFolios (endOffset : Nat) : List Folio → Nat → Nat
  | [], pos => pos
  | f :: fs, pos =>
      if endOffset < f.index * 4096 then pos
      else
        let fsize := f.nrPages * 4096
        copyFolios endOffset fs (pos + min (endOffset - pos) (fsize - pos % fsize))

/-- The position that copying from `pos` on gets to when it is to get to `full`; short of it is `-EFAULT`. -/
def Pass.copied (p : Pass) (pos full : Nat) : Nat :=
  match p.room with
  | none      => full
  | some room => min full (pos + room)

/-- A file with its page cache, and a read that may be under way. -/
structure Reader where
  cache : PageCache
  file : File
  /-- `ki_pos`. -/
  pos : Nat
  /-- The number of bytes that the read still asks for; 0 when no read is under way. -/
  count : Nat
  /-- `last_pos`. -/
  lastPos : Int
  /-- The calls of `page_cache_sync_ra` so far. -/
  syncs : Nat

namespace Reader

/-- `filemap_read` leaves its loop. -/
def finish (s : Reader) : Reader :=
  { s with count := 0, file := { s.file with ra := { s.file.ra with prevPos := s.lastPos } } }

/-- One round of the loop of `filemap_read`. -/
def round (h : Host) (s : Reader) (p : Pass) : Reader :=
  if h.isize ≤ s.pos then s.finish
  else
    let res := filemapGetPages h s.cache s.file s.pos s.count p
    let s := { s with
      cache := res.1.1
      file := res.1.2.1
      syncs := if res.2 then s.syncs + 1 else s.syncs }
    match res.1.2.2 with
    | .retry => s
    | .error => s.finish
    | .batch folios =>
        let full := copyFolios (min h.isize (s.pos + s.count)) folios s.pos
        let pos := p.copied s.pos full
        let s := { s with pos := pos, count := s.count - (pos - s.pos), lastPos := pos }
        if s.count = 0 ∨ h.isize ≤ pos ∨ pos < full then s.finish else s

/-- What the owner of the file and the progress of the I/O can do: start a read of `count` bytes, make one
    round of it, or move the position back. -/
inductive Act where
  | read (count : Nat)
  | round (p : Pass)
  | seek (pos : Nat)

/-- One action; a read is started and the position is moved only when no read is under way. -/
def act (h : Host) (s : Reader) : Act → Reader
  | .read count => if s.count = 0 then { s with count := count, lastPos := s.file.ra.prevPos } else s
  | .round p => if s.count = 0 then s else s.round h p
  | .seek pos => if s.count = 0 ∧ pos ≤ s.pos then { s with pos := pos } else s

/-- A file that has just been opened, with nothing in the page cache. -/
def start (raPages : Nat) : Reader := ⟨.empty, ⟨fileRaStateInit raPages, false⟩, 0, 0, 0, 0⟩

/-- The state after some actions. -/
def run (h : Host) (s : Reader) (acts : List Act) : Reader := acts.foldl (act h) s

end Reader

/-! ## `filemap_fault` -/

/-- The flags of the mapping that decide about readahead, and the pages of the file that it maps. -/
structure Vma where
  /-- `VM_HUGEPAGE`. -/
  hugepage : Bool
  /-- `VM_RAND_READ`. -/
  randRead : Bool
  /-- `VM_SEQ_READ`. -/
  seqRead : Bool
  /-- `VM_EXEC`. -/
  exec : Bool
  pgoff : Nat
  pages : Nat

/-- `MMAP_LOTSAMISS`. -/
def mmapLotsamiss : Nat := 100

/-- `HPAGE_PMD_ORDER`. -/
def hpagePmdOrder : Nat := 9

/-- `exec_folio_order`. -/
def execFolioOrder : Nat := 0

/-- The count of misses after one more, which stops at `MMAP_LOTSAMISS * 10`. -/
def FileRaState.countMiss (ra : FileRaState) : FileRaState :=
  if ra.mmapMiss < mmapLotsamiss * 10 then { ra with mmapMiss := ra.mmapMiss + 1 } else ra

/-- The window of `mmap read-around`. -/
def FileRaState.readAround (ra : FileRaState) (pgoff : Nat) : FileRaState :=
  { ra with
    start := (max 0 (toInt64 (sub64 pgoff (ra.raPages / 2)))).toNat
    size := ra.raPages
    asyncSize := ra.raPages / 4
    order := 0 }

/-- The window for executable memory, within the mapping. -/
def FileRaState.readExec (ra : FileRaState) (vma : Vma) (pgoff : Nat) : FileRaState :=
  let align := 2 ^ execFolioOrder
  let start := max (roundDown pgoff align) vma.pgoff
  let raEnd := min (roundUp (start + ra.raPages) align) (vma.pgoff + vma.pages)
  { ra with start := start, size := u32 (sub64 raEnd start), asyncSize := 0, order := execFolioOrder }

/-- The window for `VM_HUGEPAGE`. -/
def FileRaState.readHuge (ra : FileRaState) (vma : Vma) : FileRaState :=
  { ra with
    size := if vma.randRead then 2 ^ hpagePmdOrder else 2 ^ hpagePmdOrder * 2
    asyncSize := 2 ^ hpagePmdOrder
    order := hpagePmdOrder }

/-- `do_sync_mmap_readahead`. -/
def doSyncMmapReadahead (h : Host) (c : PageCache) (f : File) (vma : Vma) (pgoff : Nat) : ReadaheadControl :=
  let r := f.ractl c pgoff
  if vma.hugepage = false ∧ ((vma.randRead = true ∧ vma.exec = false) ∨ r.ra.raPages = 0) then r
  else if vma.hugepage = false ∧ vma.seqRead = true then r.pageCacheSyncRa h r.ra.raPages
  else
    let ra := if vma.seqRead then r.ra else r.ra.countMiss
    let r := { r with ra := ra }
    if vma.seqRead = false ∧ mmapLotsamiss < ra.mmapMiss then r
    else if vma.hugepage then
      { r with ra := ra.readHuge vma, index := roundDown pgoff (2 ^ hpagePmdOrder) }.pageCacheRaOrder h
    else
      { r with ra := if vma.exec then ra.readExec vma pgoff else ra.readAround pgoff }.readIt h

/-- `do_async_mmap_readahead`. -/
def doAsyncMmapReadahead (h : Host) (c : PageCache) (f : File) (vma : Vma) (pgoff : Nat) (folio : Folio)
    (locked : Bool) : ReadaheadControl :=
  let r := f.ractl c pgoff
  if vma.randRead = true ∨ r.ra.raPages = 0 then r
  else
    let ra := if locked then r.ra else { r.ra with mmapMiss := r.ra.mmapMiss - 1 }
    let r := { r with ra := ra }
    if folio.readahead then r.pageCacheAsyncRa h folio ra.raPages else r

/-- What a call of `filemap_fault` meets. -/
structure Fault where
  vma : Vma
  pgoff : Nat
  /-- `FAULT_FLAG_TRIED`. -/
  tried : Bool
  /-- The folio is locked when it is found. -/
  locked : Bool
  /-- `filemap_fault_recheck_pte_none` finds that there is nothing to do. -/
  nopage : Bool
  /-- The folio is up to date once it is locked, or how the read of it ends. -/
  read : ReadFolio

/-- A folio that `filemap_map_pages` maps around a fault: for each of its pages in question `PageHWPoison`, and
    `folio_test_workingset`. -/
structure MapFolio where
  poisoned : List Bool
  workingset : Bool

/-- What `filemap_map_folio_range` and `filemap_map_order0_folio` add to the count of pages mapped. -/
def MapFolio.count (m : MapFolio) : Nat := if m.workingset then 0 else m.poisoned.count false

/-- The count of `filemap_map_pages`, an `unsigned short`. -/
def mapCount (folios : List MapFolio) : Nat := (folios.map MapFolio.count).sum % 2 ^ 16

/-- `filemap_map_pages` that finds these folios, without the page tables: `mmap_miss` goes down by the count. -/
def filemapMapPages (f : File) (folios : List MapFolio) : File :=
  { f with ra := { f.ra with
    mmapMiss := if f.ra.mmapMiss ≤ mapCount folios then 0 else f.ra.mmapMiss - mapCount folios } }

/-- A first fault in a mapping of five pages without advice. -/
def Fault.plain (pgoff : Nat) : Fault := ⟨⟨false, false, false, false, 0, 5⟩, pgoff, false, true, false, .uptodate⟩

/-- `filemap_fault` from `retry_find` on: the folio is created if it is still not there
    (`__filemap_get_folio` with `FGP_CREAT`), and read if it is not up to date. -/
def filemapFindFolio (h : Host) (c : PageCache) (f : File) (pgoff : Nat) (outcome : ReadFolio) : PageCache × File :=
  match c.pages pgoff with
  | some _ => (c, f.readFolio outcome)
  | none =>
      match c.createFolio h pgoff with
      | (c, some .enomem) => (c, f)
      | (c, _) => (c, f.readFolio outcome)

/-- `filemap_fault`, up to the mapping of the page: the cache and the file after it. -/
def filemapFault (h : Host) (c : PageCache) (f : File) (e : Fault) : PageCache × File :=
  if (h.isize + 4095) / 4096 ≤ e.pgoff then (c, f)
  else match c.pages e.pgoff with
    | some folio =>
        let r := if e.tried then f.ractl c e.pgoff else doAsyncMmapReadahead h c f e.vma e.pgoff folio e.locked
        (r.mapping, { f with ra := r.ra }.readFolio e.read)
    | none =>
        if e.nopage then (c, f)
        else
          let r := doSyncMmapReadahead h c f e.vma e.pgoff
          filemapFindFolio h r.mapping { f with ra := r.ra } e.pgoff e.read

end Mm
end SystemsPlayground
