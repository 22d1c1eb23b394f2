import Mathlib.Data.Nat.Bits
import SystemsPlayground.Mm.PageCache

/-!
# `Mm.Readahead` — `mm/readahead.c`

The functions of `readahead.c` in the order of the file, over one `struct readahead_control`: it holds the
page cache, the `struct file_ra_state` of the file, and the batch of folios that have been added to the cache
and not yet been handed to the filesystem. Loops have the number of rounds that they can make as fuel.
-/

namespace SystemsPlayground
namespace Mm

open Word

/-- `struct file_ra_state`. -/
structure FileRaState where
  start : Nat
  size : Nat
  asyncSize : Nat
  raPages : Nat
  order : Nat
  mmapMiss : Nat
  prevPos : Int
deriving DecidableEq

/-- `file_ra_state_init` of a zeroed state. -/
def fileRaStateInit (raPages : Nat) : FileRaState := ⟨0, 0, 0, raPages, 0, 0, -1⟩

/-- `struct readahead_control`; `random` is `FMODE_RANDOM` of the file. -/
structure ReadaheadControl where
  mapping : PageCache
  ra : FileRaState
  random : Bool
  /-- `_index`. -/
  index : Nat
  /-- `_nr_pages`. -/
  nrPages : Nat

/-! ## Handing a batch to the filesystem -/

/-- The folios that `readahead_folio` returns one after the other for `nr` pages from `index` on. -/
def PageCache.readaheadFolios (c : PageCache) : Nat → Nat → Nat → List Folio
  | 0, _, _ => []
  | fuel + 1, index, nr =>
      if nr = 0 then []
      else match c.pages index with
        | none => []
        | some f => f :: c.readaheadFolios fuel (index + f.nrPages) (nr - f.nrPages)

/-- The folios of a batch that `->readahead` does not take. -/
def Answer.left (a : Answer) (folios : List Folio) : List Folio :=
  match a.taken with
  | none => []
  | some n => folios.drop n

/-- The number of pages of some folios. -/
def totalPages (folios : List Folio) : Nat := (folios.map Folio.nrPages).sum

namespace ReadaheadControl

variable (h : Host)

/-- `read_pages`. Folios that `->readahead` leaves are removed from the cache; without `->readahead` each
    folio is read by `->read_folio`. -/
def readPages (r : ReadaheadControl) : ReadaheadControl :=
  if r.nrPages = 0 then r
  else
    let folios := r.mapping.readaheadFolios r.nrPages r.index r.nrPages
    let left := if h.hasReadahead then (h.env r.mapping.tick).left folios else []
    let c := { r.mapping with
      tick := r.mapping.tick + 1
      batches := r.mapping.batches ++ [(r.index, r.nrPages)] }
    let c := left.foldl PageCache.filemapRemoveFolio c
    { r with
      mapping := { c with bug := c.bug || r.nrPages != totalPages folios }
      index := r.index + totalPages folios
      nrPages := r.nrPages - totalPages folios }

/-! ## `page_cache_ra_unbounded` -/

/-- Start the current batch, and go on behind a folio that is in the cache already. -/
def skipPresent (r : ReadaheadControl) : ReadaheadControl :=
  let r := r.readPages h
  { r with index := r.index + h.minNrpages }

/-- The loop of `page_cache_ra_unbounded`. -/
def raUnboundedLoop (index nrToRead mark : Nat) : Nat → ReadaheadControl → Nat → ReadaheadControl
  | 0, r, _ => r
  | fuel + 1, r, i =>
      if i < nrToRead then
        if (r.mapping.pages (index + i)).isSome then
          let r := r.skipPresent h
          raUnboundedLoop index nrToRead mark fuel r (r.index + r.nrPages - index)
        else
          match r.mapping.filemapAddFolio h ⟨index + i, h.minOrder, i = mark⟩ with
          | (c, some .enomem) => { r with mapping := c }
          | (c, some .eexist) =>
              let r := { r with mapping := c }.skipPresent h
              raUnboundedLoop index nrToRead mark fuel r (r.index + r.nrPages - index)
          | (c, none) =>
              let r := { r with mapping := c, nrPages := r.nrPages + h.minNrpages }
              raUnboundedLoop index nrToRead mark fuel r (i + h.minNrpages)
      else r

/-- `page_cache_ra_unbounded`. -/
def pageCacheRaUnbounded (r : ReadaheadControl) (nrToRead lookaheadSize : Nat) : ReadaheadControl :=
  let index := h.alignIndex r.index
  let mark :=
    if lookaheadSize ≤ nrToRead then roundUp (r.index + nrToRead - lookaheadSize) h.minNrpages - index
    else 2 ^ 64 - 1
  let nrToRead := nrToRead + (r.index - index)
  (raUnboundedLoop h index nrToRead mark nrToRead { r with index := index } 0).readPages h

/-- `do_page_cache_ra`. -/
def doPageCacheRa (r : ReadaheadControl) (nrToRead lookaheadSize : Nat) : ReadaheadControl :=
  if h.isize = 0 then r
  else
    let endIndex := (h.isize - 1) / 4096
    if endIndex < r.index then r
    else
      let nrToRead := if endIndex - r.index < nrToRead then endIndex - r.index + 1 else nrToRead
      r.pageCacheRaUnbounded h nrToRead lookaheadSize

/-- The loop of `force_page_cache_ra`, in units of 2 megabytes. -/
def forceLoop : Nat → ReadaheadControl → Nat → ReadaheadControl
  | 0, r, _ => r
  | fuel + 1, r, nrToRead =>
      if nrToRead = 0 then r
      else
        let thisChunk := min 512 nrToRead
        forceLoop fuel (r.doPageCacheRa h thisChunk 0) (nrToRead - thisChunk)

/-- `force_page_cache_ra`. -/
def forcePageCacheRa (r : ReadaheadControl) (nrToRead : Nat) : ReadaheadControl :=
  if h.hasReadFolio = false ∧ h.hasReadahead = false then r
  else
    let nrToRead := min nrToRead (max h.ioPages r.ra.raPages)
    forceLoop h nrToRead r nrToRead

end ReadaheadControl

/-! ## Window sizes -/

/-- `roundup_pow_of_two`. -/
def roundupPowOfTwo (n : Nat) : Nat := if n ≤ 1 then 1 else 2 ^ (Nat.log2 (n - 1) + 1)

/-- `get_init_ra_size`. -/
def getInitRaSize (size max : Nat) : Nat :=
  let newsize := roundupPowOfTwo size
  if newsize ≤ max / 32 then newsize * 4
  else if newsize ≤ max / 4 then newsize * 2
  else max

/-- `get_next_ra_size`. -/
def getNextRaSize (cur max : Nat) : Nat :=
  if cur < max / 16 then 4 * cur
  else if cur ≤ max / 2 then 2 * cur
  else max

/-- `__ffs`: the position of the lowest bit that is set. -/
def ffs (n : Nat) : Nat := ((List.range 64).find? fun k => n.testBit k).getD 0

/-- The inner loop of `page_cache_ra_order`: the order is lowered until the folio ends at `limit` at the
    latest. -/
def fitOrder (minOrder index limit : Nat) : Nat → Nat
  | 0 => 0
  | order + 1 =>
      if minOrder < order + 1 ∧ limit < index + 2 ^ (order + 1) - 1 then fitOrder minOrder index limit order
      else order + 1

namespace ReadaheadControl

variable (h : Host)

/-! ## `page_cache_ra_order` -/

/-- `ra_alloc_folio`. -/
def raAllocFolio (r : ReadaheadControl) (index mark order : Nat) : ReadaheadControl × Option AddError :=
  match r.mapping.filemapAddFolio h ⟨index, order, index = roundDown mark (2 ^ order)⟩ with
  | (c, some e) => ({ r with mapping := c }, some e)
  | (c, none) => ({ r with mapping := c, nrPages := r.nrPages + 2 ^ order }, none)

/-- The order of the next folio. -/
def nextOrder (newOrder limit index : Nat) : Nat :=
  fitOrder h.minOrder index limit (if index &&& (2 ^ newOrder - 1) = 0 then newOrder else ffs index)

/-- The loop of `page_cache_ra_order`; the result has the index and the error with which it ends. -/
def raOrderLoop (limit mark newOrder : Nat) :
    Nat → ReadaheadControl → Nat → ReadaheadControl × Nat × Option AddError
  | 0, r, index => (r, index, none)
  | fuel + 1, r, index =>
      if index ≤ limit then
        let order := nextOrder h newOrder limit index
        match r.raAllocFolio h index mark order with
        | (r, some e) => (r, index, some e)
        | (r, none) => raOrderLoop limit mark newOrder fuel r (index + 2 ^ order)
      else (r, index, none)

/-- The end of `page_cache_ra_order`, at the label `fallback`. -/
def fallback (r : ReadaheadControl) (start index : Nat) : ReadaheadControl :=
  if sub64 index start < r.ra.size then
    r.doPageCacheRa h (r.ra.size - sub64 index start) r.ra.asyncSize
  else r

/-- The order of the folios that `page_cache_ra_order` tries to allocate. -/
def newOrder (ra : FileRaState) : Nat :=
  max (min (min h.maxOrder ra.order) (Nat.log2 ra.size)) h.minOrder

/-- `page_cache_ra_order`. The shift in `limit` is that of a negative number for an empty file. -/
def pageCacheRaOrder (r : ReadaheadControl) : ReadaheadControl :=
  let start := r.index
  if h.largeFolioSupport then
    let limit := if h.isize = 0 then 2 ^ 64 - 1 else (h.isize - 1) / 4096
    let limit := min limit (start + r.ra.size - 1)
    let mark := start + r.ra.size - r.ra.asyncSize
    let order := newOrder h r.ra
    let index := h.alignIndex start
    let r := { r with ra := { r.ra with order := order }, index := index }
    let (r, index, err) := raOrderLoop h limit mark order (limit + 1 - index) r index
    let r := r.readPages h
    match err with
    | none => r
    | some _ => r.fallback h start index
  else { r with ra := { r.ra with order := 0 } }.fallback h start start

/-! ## `page_cache_sync_ra` and `page_cache_async_ra` -/

/-- `ractl_max_pages`. -/
def ractlMaxPages (r : ReadaheadControl) (reqSize : Nat) : Nat :=
  if r.ra.raPages < reqSize ∧ r.ra.raPages < h.ioPages then min reqSize h.ioPages else r.ra.raPages

/-- `page_cache_ra_order` of the window `ra->start`. -/
def readIt (r : ReadaheadControl) : ReadaheadControl :=
  { r with index := r.ra.start }.pageCacheRaOrder h

/-- `page_cache_sync_ra`, for a call that has a file. -/
def pageCacheSyncRa (r : ReadaheadControl) (reqCount : Nat) : ReadaheadControl :=
  let congested := (h.env r.mapping.tick).congested
  let r := { r with mapping := { r.mapping with tick := r.mapping.tick + 1 } }
  if r.ra.raPages = 0 ∨ congested = true then r.forcePageCacheRa h 1
  else if r.random then r.forcePageCacheRa h reqCount
  else
    let maxPages := r.ractlMaxPages h reqCount
    let prevIndex := ofInt64 r.ra.prevPos / 4096
    if r.index = 0 ∨ maxPages < reqCount ∨ sub64 r.index prevIndex ≤ 1 then
      let size := u32 (getInitRaSize reqCount maxPages)
      let asyncSize := if reqCount < size then size - reqCount else size / 2
      { r with ra := { r.ra with start := r.index, size := size, asyncSize := asyncSize, order := 0 } }.readIt h
    else
      let miss := r.mapping.pageCachePrevMiss (r.index - 1) maxPages
      let contigCount := sub64 (sub64 r.index miss) 1
      if contigCount ≤ reqCount then r.doPageCacheRa h reqCount 0
      else
        let contigCount := if miss = 2 ^ 64 - 1 then contigCount * 2 else contigCount
        let size := u32 (min (contigCount + reqCount) maxPages)
        { r with ra := { r.ra with start := r.index, size := size, asyncSize := 1, order := 0 } }.readIt h

/-- The label `readit` of `page_cache_async_ra`. -/
def asyncReadIt (r : ReadaheadControl) (maxPages : Nat) : ReadaheadControl :=
  let order := r.ra.order + 2
  let align := 2 ^ min order (ffs maxPages)
  let windowEnd := r.ra.start + r.ra.size
  let alignedEnd := roundDown windowEnd align
  let size := if r.ra.start < alignedEnd then r.ra.size - (windowEnd - alignedEnd) else r.ra.size
  { r with ra := { r.ra with order := order, size := size, asyncSize := size } }.readIt h

/-- The window that `page_cache_async_ra` chooses and reads. -/
def asyncWindow (r : ReadaheadControl) (folio : Folio) (reqCount : Nat) : ReadaheadControl :=
  let maxPages := r.ractlMaxPages h reqCount
  let expected := roundDown (r.ra.start + r.ra.size - r.ra.asyncSize) folio.nrPages
  if r.index = expected then
    let size := u32 (max r.ra.size (getNextRaSize r.ra.size maxPages))
    { r with ra := { r.ra with start := r.ra.start + r.ra.size, size := size } }.asyncReadIt h maxPages
  else
    let start := r.mapping.pageCacheNextMiss (r.index + 1) maxPages
    if start = 0 ∨ maxPages < sub64 start r.index then r
    else
      let size := u32 (sub64 start r.index + reqCount)
      let size := u32 (getNextRaSize size maxPages)
      { r with ra := { r.ra with start := start, size := size } }.asyncReadIt h maxPages

/-- `page_cache_async_ra`. -/
def pageCacheAsyncRa (r : ReadaheadControl) (folio : Folio) (reqCount : Nat) : ReadaheadControl :=
  if r.ra.raPages = 0 then r
  else
    let a := h.env r.mapping.tick
    let r := { r with mapping := { r.mapping with tick := r.mapping.tick + 1 } }
    if a.writeback then r
    else
      let r := { r with mapping := r.mapping.clearReadahead folio }
      if a.congested then r else r.asyncWindow h folio reqCount

end ReadaheadControl

end Mm
end SystemsPlayground
