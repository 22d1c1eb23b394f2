import SystemsPlayground.Mm.Fault
import SystemsPlayground.Mm.Sequential

/-!
# `Mm.Scan` — touching the pages of a mapping in order

A program that maps a file and touches its pages in order gets by with one major fault: read-around starts a
stream at the first page (or `page_cache_sync_ra` does, under `MADV_SEQUENTIAL`), and each time a fault comes to
the marked folio, `do_async_mmap_readahead` keeps it going. The argument is that of `Mm.Sequential`, with the
faults in place of the reads.

A page that is mapped does not fault. `filemap_map_pages` maps pages around a fault that are in the cache, so
most touches are none of the code's business; but it leaves out the folio with the mark
(`next_uptodate_folio`), and that is what keeps the stream going.
-/

namespace SystemsPlayground
namespace Mm

open Word

/-- A mapping of a file: the pages that are in the page table, the first page that was not touched yet, and the
    number of major faults. -/
structure Scan where
  cache : PageCache
  file : File
  mapped : Nat → Bool
  next : Nat
  majors : Nat

/-- A page is touched. If it faults, `filemap_map_pages` first finds `folios` and maps the pages of `around`,
    as far as it can; and then there is the fault itself. -/
structure Touch where
  fault : Fault
  around : Nat → Bool
  folios : List MapFolio

/-- A touch without fault-around. -/
def Touch.plain (pgoff : Nat) : Touch := ⟨.plain pgoff, fun _ => false, []⟩

namespace Scan

/-- The pages up to `p` have been touched. -/
def pass (s : Scan) (p : Nat) : Scan := { s with next := max s.next (p + 1) }

/-- `filemap_map_pages`: pages in the cache are mapped, but for those of a folio with the mark. -/
def mapAround (s : Scan) (t : Touch) : Scan :=
  { s with
    file := filemapMapPages s.file t.folios
    mapped := fun i => s.mapped i || (t.around i && (s.cache.pages i).any fun f => !f.readahead) }

/-- `filemap_fault`; the page is then mapped. -/
def fault (h : Host) (s : Scan) (e : Fault) : Scan :=
  let res := filemapFault h s.cache s.file e
  { cache := res.1
    file := res.2
    mapped := Function.update s.mapped e.pgoff true
    next := max s.next (e.pgoff + 1)
    majors := if (s.cache.pages e.pgoff).isSome then s.majors else s.majors + 1 }

/-- The next page is touched, or an earlier one. -/
def touch (h : Host) (s : Scan) (t : Touch) : Scan :=
  if t.fault.pgoff ≤ s.next ∧ t.fault.pgoff < h.nrPages then
    if s.mapped t.fault.pgoff then s.pass t.fault.pgoff
    else if (s.mapAround t).mapped t.fault.pgoff then (s.mapAround t).pass t.fault.pgoff
    else (s.mapAround t).fault h t.fault
  else s

/-- A file that has just been opened and mapped, with nothing in the page cache. -/
def start (raPages : Nat) : Scan := ⟨.empty, ⟨fileRaStateInit raPages, false⟩, fun _ => false, 0, 0⟩

/-- The state after some touches. -/
def run (h : Host) (s : Scan) (touches : List Touch) : Scan := touches.foldl (touch h) s

/-- A first attempt in a mapping that is not executable, huge or advised to be random, without an I/O error. -/
structure Ordinary (e : Fault) : Prop where
  tried : e.tried = false
  nopage : e.nopage = false
  hugepage : e.vma.hugepage = false
  randRead : e.vma.randRead = false
  exec : e.vma.exec = false
  read : e.read ≠ .eio

variable {h : Host} {s : Scan} {e : Fault} {t : Touch}

theorem Ordinary.readFolio (he : Ordinary e) (f : File) : f.readFolio e.read = f := by
  cases hr : e.read with
  | uptodate => rfl
  | failed => rfl
  | eio => exact absurd hr he.read

/-- Nothing has been touched yet. -/
structure Fresh (h : Host) (s : Scan) : Prop where
  sound : s.cache.Sound h
  empty : ∀ x, s.cache.pages x = none
  batches : s.cache.batches = []
  next : s.next = 0
  majors : s.majors = 0
  mapped : ∀ p, s.mapped p = false
  miss : s.file.ra.mmapMiss = 0
  raPages : 4 ≤ s.file.ra.raPages ∧ s.file.ra.raPages < 2 ^ 32

/-- The folio with the mark of a stream, if more is to be read. -/
def MarkFolio (h : Host) (c : PageCache) (ra : FileRaState) (edge : Nat) (f : Folio) : Prop :=
  edge < h.nrPages ∧ c.pages (ra.start + ra.size - ra.asyncSize) = some f

/-- The faults follow their stream: the pages that are mapped have been read, and neither they nor the pages
    touched are those of the folio with the mark. -/
structure Following (h : Host) (s : Scan) (edge : Nat) : Prop where
  stream : Stream h s.cache s.file.ra edge
  majors : s.majors = 1
  next_le : s.next ≤ edge
  mapped_lt : ∀ p, s.mapped p = true → p < edge
  next_mark : ∀ f, MarkFolio h s.cache s.file.ra edge f → s.next ≤ f.index
  mapped_mark : ∀ f, MarkFolio h s.cache s.file.ra edge f → ∀ p, s.mapped p = true → ¬ f.Contains p

/-- The invariant of a scan. -/
def Inv (h : Host) (s : Scan) : Prop := s.file.random = false ∧ (s.Fresh h ∨ ∃ edge, s.Following h edge)

/-- The window of the first fault. -/
theorem Fresh.sync (hf : s.Fresh h) (hc : h.Calm) (hrandom : s.file.random = false) (he : Ordinary e)
    (hzero : e.pgoff = 0) (hfile : 0 < h.nrPages) :
    ∃ r edge, r = doSyncMmapReadahead h s.cache s.file e.vma e.pgoff ∧ 0 < edge ∧ Stream h r.mapping r.ra edge ∧
      r.ra.asyncSize < r.ra.size ∧ ∀ x f, r.mapping.pages x = some f → f.index = x := by
  have hra := hf.raPages
  have hoff : ¬ e.vma.Off s.file := by
    rintro ⟨-, ⟨h₁, -⟩ | h₁⟩
    · rw [he.randRead] at h₁
      simp at h₁
    · omega
  by_cases hseq : e.vma.seqRead = true
  · -- `VM_SEQ_READ`
    have heq : doSyncMmapReadahead h s.cache s.file e.vma e.pgoff =
        (s.file.ractl s.cache e.pgoff).pageCacheSyncRa h s.file.ra.raPages := by
      rw [doSyncMmapReadahead]
      dsimp only
      rw [if_neg (by exact hoff), if_pos ⟨he.hugepage, hseq⟩]
      rfl
    obtain ⟨edge, hpos, hs, hasync, hsingle⟩ := Stream.sync hc (r := s.file.ractl s.cache e.pgoff) ⟨hf.sound, rfl⟩
      hf.empty hf.batches hzero hrandom ⟨by change 2 ≤ s.file.ra.raPages; omega, hra.2⟩ hfile
      s.file.ra.raPages (by omega)
    exact ⟨_, edge, heq.symm, hpos, hs, hasync, hsingle⟩
  · have hseq' : e.vma.seqRead = false := by simpa using hseq
    have hcount : s.file.ra.countMiss.mmapMiss = 1 := by
      rw [FileRaState.countMiss, hf.miss, if_pos (by decide)]
    have hra' := countMiss_raPages s.file.ra
    have hm : PlainMiss h s.cache e := ⟨by omega, hf.empty _, he.nopage, he.hugepage, he.randRead, hseq', he.exec⟩
    have hstart : (s.file.ra.countMiss.readAround e.pgoff).start = 0 := by
      rw [readAround_start _ _ (by omega) (by omega)]
      omega
    have heq : doSyncMmapReadahead h s.cache s.file e.vma e.pgoff =
        { s.file.ractl s.cache e.pgoff with ra := s.file.ra.countMiss.readAround e.pgoff }.readIt h := by
      rw [syncMmap_miss hoff hseq', hcount, if_neg (by decide), missWindow_readAround h _ hm]
    obtain ⟨edge, hlt, hs, ⟨o, hra''⟩, -, hsingle⟩ := Stream.extend hc (r := { s.file.ractl s.cache e.pgoff with
        ra := s.file.ra.countMiss.readAround e.pgoff }) ⟨hf.sound, rfl⟩ (by rw [hstart]; exact hfile)
      (fun x => by rw [hstart]; simp [File.ractl, hf.empty]) (fun x f hx => by simp [File.ractl, hf.empty] at hx)
      (by rw [hstart]; change Consecutive 0 s.cache.batches 0; rw [hf.batches]; rfl)
      (by change 0 < s.file.ra.countMiss.raPages; omega) (by change s.file.ra.countMiss.raPages < _; omega)
      (by change 0 < s.file.ra.countMiss.raPages / 4; omega)
      (by change s.file.ra.countMiss.raPages / 4 ≤ s.file.ra.countMiss.raPages; omega)
      (by change 2 ≤ s.file.ra.countMiss.raPages ∧ s.file.ra.countMiss.raPages < _; omega)
    refine ⟨_, edge, heq.symm, by omega, hs, ?_, ?_⟩
    · rw [hra'']
      change s.file.ra.countMiss.raPages / 4 < s.file.ra.countMiss.raPages
      omega
    · exact fun x f hx => hsingle (newOrder_of_order_zero hc rfl) x f (by rw [hstart]; exact Nat.zero_le _) hx

/-- The first page faults. -/
theorem Fresh.fault (hf : s.Fresh h) (hc : h.Calm) (hrandom : s.file.random = false) (he : Ordinary e)
    (hlt : e.pgoff < h.nrPages) (hle : e.pgoff ≤ s.next) : (s.fault h e).Inv h := by
  have hzero : e.pgoff = 0 := by
    have := hf.next
    omega
  obtain ⟨r, edge, hr, hpos, hs, hasync, hsingle⟩ := hf.sync hc hrandom he hzero (by omega)
  obtain ⟨folio, hfolio⟩ := hs.isSome (x := e.pgoff) (by omega)
  -- read-around has brought the page, so that no folio is created for it
  have hfault : filemapFault h s.cache s.file e = (r.mapping, { s.file with ra := r.ra }) := by
    rw [filemapFault, if_neg (by unfold Host.nrPages at hlt; omega), hf.empty]
    dsimp only
    rw [he.nopage, if_neg (by decide), ← hr, filemapFindFolio, hfolio]
    dsimp only
    rw [he.readFolio]
  have hmapped : ∀ p, Function.update s.mapped e.pgoff true p = true → p = 0 := by
    intro p hp
    rw [Function.update_apply] at hp
    split_ifs at hp with heq
    · rw [heq, hzero]
    · rw [hf.mapped] at hp
      exact absurd hp (by decide)
  have hmark : ∀ f, MarkFolio h r.mapping r.ra edge f → 0 < f.index := by
    rintro f ⟨-, hm⟩
    rw [hsingle _ f hm]
    omega
  rw [Scan.fault, hfault]
  refine ⟨hrandom, Or.inr ⟨edge, hs, ?_, ?_, ?_, ?_, ?_⟩⟩
  · rw [hf.empty]
    simp [hf.majors]
  · change max s.next (e.pgoff + 1) ≤ edge
    rw [hf.next, hzero]
    omega
  · intro p hp
    rw [hmapped p hp]
    exact hpos
  · intro f hm
    have hfirst := hmark f hm
    change max s.next (e.pgoff + 1) ≤ f.index
    rw [hf.next, hzero]
    omega
  · intro f hm p hp hin
    have hfirst := hmark f hm
    have hbelow := hin.1
    rw [hmapped p hp] at hbelow
    omega

/-- The page to be touched is in the cache. -/
theorem Following.lt_edge {edge : Nat} (hw : s.Following h edge) {p : Nat} (hle : p ≤ s.next)
    (hlt : p < h.nrPages) : p < edge := by
  have hs := hw.stream
  have hnext := hw.next_le
  rcases Nat.lt_or_ge edge h.nrPages with hshort | hend
  · have hedge := hs.edge_eq
    obtain ⟨h₁, -, h₂, h₃⟩ := hs.window hshort
    obtain ⟨f, hf⟩ := hs.isSome (x := s.file.ra.start + s.file.ra.size - s.file.ra.asyncSize) (by omega)
    have h₄ := hw.next_mark f ⟨hshort, hf⟩
    have h₅ := hs.folio_le hf
    have h₆ := f.nrPages_pos
    omega
  · omega

/-- A page that is mapped is touched. -/
theorem Following.pass {edge : Nat} (hw : s.Following h edge) {p : Nat} (hle : p ≤ s.next)
    (hp : s.mapped p = true) : (s.pass p).Following h edge where
  stream := hw.stream
  majors := hw.majors
  next_le := Nat.max_le.mpr ⟨hw.next_le, hw.mapped_lt p hp⟩
  mapped_lt := hw.mapped_lt
  next_mark := by
    intro f hm
    have hnext := hw.next_mark f hm
    -- the first page of the folio with the mark is not mapped
    have hne : p ≠ f.index := by
      rintro rfl
      exact hw.mapped_mark f hm _ hp f.contains_index
    exact Nat.max_le.mpr ⟨hnext, by omega⟩
  mapped_mark := hw.mapped_mark

/-- Pages are mapped around a fault. -/
theorem Following.mapAround {edge : Nat} (hw : s.Following h edge) (t : Touch) :
    (s.mapAround t).Following h edge := by
  have hs := hw.stream
  -- a page that is newly mapped is in a folio without the mark
  have hcases : ∀ p, (s.mapAround t).mapped p = true →
      s.mapped p = true ∨ ∃ f, s.cache.pages p = some f ∧ f.readahead = false := by
    intro p hp
    rcases Bool.or_eq_true_iff.mp hp with hp | hp
    · exact Or.inl hp
    · obtain ⟨f, hf, hm⟩ := (Option.any_eq_true _ _).mp (Bool.and_eq_true_iff.mp hp).2
      exact Or.inr ⟨f, hf, by simpa using hm⟩
  refine ⟨hs.congr_ra rfl rfl rfl rfl, hw.majors, hw.next_le, ?_, hw.next_mark, ?_⟩
  · intro p hp
    rcases hcases p hp with hp | ⟨f, hf, -⟩
    · exact hw.mapped_lt p hp
    · refine Nat.lt_of_not_le fun hle => ?_
      rw [(hs.present p).mpr hle] at hf
      exact absurd hf (by simp)
  · rintro g ⟨hshort, hg⟩ p hp hin
    rcases hcases p hp with hp | ⟨f, hf, hno⟩
    · exact hw.mapped_mark g ⟨hshort, hg⟩ p hp hin
    · have hgm := (hs.marked hshort _ g hg).mpr (hs.sound.wf.contains hg)
      have hsame := hs.sound.wf.eq_of_contains hf hg (hs.sound.wf.contains hf) hin
      rw [hsame, hgm] at hno
      exact absurd hno (by decide)

/-- What else is noted in `file->f_ra`, such as the count of misses, does not matter. -/
theorem Following.congr_ra {edge : Nat} (hw : s.Following h edge) {ra : FileRaState}
    (hwin : ra.start = s.file.ra.start ∧ ra.size = s.file.ra.size ∧ ra.asyncSize = s.file.ra.asyncSize ∧
      ra.raPages = s.file.ra.raPages) :
    Following h { s with file := { s.file with ra := ra } } edge := by
  have hmark : ∀ f, MarkFolio h s.cache ra edge f → MarkFolio h s.cache s.file.ra edge f := by
    intro f hm
    unfold MarkFolio at hm ⊢
    rwa [hwin.1, hwin.2.1, hwin.2.2.1] at hm
  exact ⟨hw.stream.congr_ra hwin.1 hwin.2.1 hwin.2.2.1 hwin.2.2.2, hw.majors, hw.next_le, hw.mapped_lt,
    fun f hm => hw.next_mark f (hmark f hm), fun f hm => hw.mapped_mark f (hmark f hm)⟩

/-- The page of a fault is mapped, besides those that were. -/
theorem mapped_update {p q : Nat} (hq : Function.update s.mapped p true q = true) : q = p ∨ s.mapped q = true := by
  rw [Function.update_apply] at hq
  split_ifs at hq with heq
  · exact Or.inl heq
  · exact Or.inr hq

theorem Following.mapped_update_lt {edge p q : Nat} (hw : s.Following h edge) (hp : p < edge)
    (hq : Function.update s.mapped p true q = true) : q < edge := by
  rcases mapped_update hq with rfl | hq
  · exact hp
  · exact hw.mapped_lt q hq

section Hit

variable {edge p : Nat} {folio : Folio}

/-- The fault is on the folio with the mark: the next window is read, and the new mark is in it. -/
theorem Following.marked (hw : s.Following h edge) (hc : h.Calm) (hle : p ≤ s.next) (hp : p < edge)
    (hfolio : s.cache.pages p = some folio) (hfm : folio.readahead = true) {r : ReadaheadControl}
    (hr : r = (s.file.ractl s.cache p).pageCacheAsyncRa h folio s.file.ra.raPages) :
    ∃ edge', Following h
      ⟨r.mapping, { s.file with ra := r.ra }, Function.update s.mapped p true, max s.next (p + 1), s.majors⟩
      edge' := by
  have hs := hw.stream
  have hin := hs.sound.wf.contains hfolio
  have hnext := hw.next_le
  have hindex : edge < h.nrPages → p = folio.index := by
    intro hshort
    have hat := (hs.marked hshort _ folio hfolio).mp hfm
    have h₁ := hw.next_mark folio ⟨hshort, hs.sound.wf.slots hfolio _ hat⟩
    have h₂ := hin.1
    omega
  obtain ⟨edge', hle', hnew, hgrow⟩ := hs.async hc hfolio hfm s.file.random s.file.ra.raPages hin hindex hr
  refine ⟨edge', hnew, hw.majors, ?_, ?_, ?_, ?_⟩
  · change max s.next (p + 1) ≤ edge'
    omega
  · exact fun q hq => Nat.lt_of_lt_of_le (hw.mapped_update_lt hp hq) hle'
  · rintro f ⟨hshort, hf⟩
    change max s.next (p + 1) ≤ f.index
    rw [(hgrow (by omega)).2 f hf]
    omega
  · rintro f ⟨hshort, hf⟩ q hq hcontains
    have hbelow := hcontains.1
    rw [(hgrow (by omega)).2 f hf] at hbelow
    exact absurd (hw.mapped_update_lt hp hq) (Nat.not_lt.mpr hbelow)

/-- The fault is on a folio without the mark: the page is not one of the folio with the mark. -/
theorem Following.unmarked (hw : s.Following h edge) (hle : p ≤ s.next) (hp : p < edge)
    (hfolio : s.cache.pages p = some folio) (hfm : ¬ folio.readahead = true) :
    Following h { s with mapped := Function.update s.mapped p true, next := max s.next (p + 1) } edge := by
  have hs := hw.stream
  have hnext := hw.next_le
  have hother : ∀ g, MarkFolio h s.cache s.file.ra edge g → ¬ g.Contains p := by
    rintro g ⟨hshort, hg⟩ hcontains
    have hgm := (hs.marked hshort _ g hg).mpr (hs.sound.wf.contains hg)
    have hsame := hs.sound.wf.eq_of_contains hfolio hg (hs.sound.wf.contains hfolio) hcontains
    rw [hsame] at hfm
    exact hfm hgm
  refine ⟨hs, hw.majors, ?_, fun q hq => hw.mapped_update_lt hp hq, ?_, ?_⟩
  · change max s.next (p + 1) ≤ edge
    omega
  · intro g hm
    change max s.next (p + 1) ≤ g.index
    have h₁ := hw.next_mark g hm
    have hne : p ≠ g.index := by
      intro heq
      exact hother g hm (by rw [heq]; exact g.contains_index)
    omega
  · intro g hm q hq
    rcases mapped_update hq with rfl | hq
    · exact hother g hm
    · exact hw.mapped_mark g hm q hq

end Hit

/-- An ordinary fault on a page that is there: a hit is counted, and the mark starts a readahead. -/
theorem Ordinary.filemapFault_hit (he : Ordinary e) (hlt : e.pgoff < h.nrPages) {folio : Folio}
    (hfolio : s.cache.pages e.pgoff = some folio) (hra : s.file.ra.raPages ≠ 0) {f : File}
    (hf : f = { s.file with ra := if e.locked then s.file.ra else
      { s.file.ra with mmapMiss := s.file.ra.mmapMiss - 1 } }) {r : ReadaheadControl}
    (hr : r = if folio.readahead = true then (f.ractl s.cache e.pgoff).pageCacheAsyncRa h folio f.ra.raPages
      else f.ractl s.cache e.pgoff) :
    filemapFault h s.cache s.file e = (r.mapping, { f with ra := r.ra }) := by
  have hon : ¬ (e.vma.randRead = true ∨ s.file.ra.raPages = 0) := by
    rintro (hrand | hzero)
    · rw [he.randRead] at hrand
      simp at hrand
    · exact hra hzero
  rw [filemapFault, if_neg (by unfold Host.nrPages at hlt; omega), hfolio]
  dsimp only
  rw [he.tried, if_neg (by decide), he.readFolio, doAsyncMmapReadahead]
  dsimp only
  rw [if_neg (by exact hon), hr, hf]
  rfl

/-- A page of the stream faults. -/
theorem Following.fault {edge : Nat} (hw : s.Following h edge) (hc : h.Calm) (hrandom : s.file.random = false)
    (he : Ordinary e) (hlt : e.pgoff < h.nrPages) (hle : e.pgoff ≤ s.next) : (s.fault h e).Inv h := by
  have hp := hw.lt_edge hle hlt
  obtain ⟨folio, hfolio⟩ := hw.stream.isSome hp
  have hra := hw.stream.raPages
  obtain ⟨ra, hcount⟩ : ∃ ra, ra = (if e.locked then s.file.ra else
    { s.file.ra with mmapMiss := s.file.ra.mmapMiss - 1 }) := ⟨_, rfl⟩
  have hwin : ra.start = s.file.ra.start ∧ ra.size = s.file.ra.size ∧ ra.asyncSize = s.file.ra.asyncSize ∧
      ra.raPages = s.file.ra.raPages := by
    rw [hcount]
    split_ifs <;> exact ⟨rfl, rfl, rfl, rfl⟩
  have hw' := hw.congr_ra hwin
  have hfault := he.filemapFault_hit hlt hfolio (by omega) (f := { s.file with ra := ra }) (by rw [hcount]) rfl
  rw [Scan.fault, hfault, hfolio]
  refine ⟨hrandom, Or.inr ?_⟩
  by_cases hfm : folio.readahead = true
  · rw [if_pos hfm]
    exact hw'.marked hc hle hp hfolio hfm rfl
  · rw [if_neg hfm]
    exact ⟨edge, hw'.unmarked hle hp hfolio hfm⟩

theorem Fresh.mapAround (hf : s.Fresh h) (t : Touch) : (s.mapAround t).Fresh h where
  sound := hf.sound
  empty := hf.empty
  batches := hf.batches
  next := hf.next
  majors := hf.majors
  mapped := by
    intro p
    change (s.mapped p || (t.around p && (s.cache.pages p).any fun f => !f.readahead)) = false
    rw [hf.mapped, hf.empty]
    simp
  miss := by
    change (if s.file.ra.mmapMiss ≤ mapCount t.folios then 0 else s.file.ra.mmapMiss - mapCount t.folios) = 0
    rw [hf.miss, if_pos (Nat.zero_le _)]
  raPages := hf.raPages

theorem Inv.mapAround (hi : s.Inv h) (t : Touch) : (s.mapAround t).Inv h :=
  ⟨hi.1, hi.2.imp (fun hf => hf.mapAround t) fun ⟨edge, hw⟩ => ⟨edge, hw.mapAround t⟩⟩

theorem Inv.pass (hi : s.Inv h) {p : Nat} (hle : p ≤ s.next) (hp : s.mapped p = true) : (s.pass p).Inv h := by
  refine ⟨hi.1, ?_⟩
  rcases hi.2 with hf | ⟨edge, hw⟩
  · rw [hf.mapped] at hp
    exact absurd hp (by decide)
  · exact Or.inr ⟨edge, hw.pass hle hp⟩

theorem Inv.fault (hi : s.Inv h) (hc : h.Calm) (he : Ordinary e) (hlt : e.pgoff < h.nrPages)
    (hle : e.pgoff ≤ s.next) : (s.fault h e).Inv h := by
  rcases hi.2 with hf | ⟨edge, hw⟩
  · exact hf.fault hc hi.1 he hlt hle
  · exact hw.fault hc hi.1 he hlt hle

/-- **Step.** A touch keeps the invariant. -/
theorem Inv.touch (hi : s.Inv h) (hc : h.Calm) (he : Ordinary t.fault) : (s.touch h t).Inv h := by
  unfold Scan.touch
  split_ifs with hgo hthere haround
  · exact hi.pass hgo.1 hthere
  · exact (hi.mapAround t).pass hgo.1 haround
  · exact (hi.mapAround t).fault hc he hgo.2 hgo.1
  · exact hi

end Scan

end Mm
end SystemsPlayground
