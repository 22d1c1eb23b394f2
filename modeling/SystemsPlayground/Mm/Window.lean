import SystemsPlayground.Mm.Accounting

/-!
# `Mm.Window` — what a readahead window brings into the cache

`Mm.Accounting` says what holds whatever happens. This module says what happens when nothing goes wrong: memory
is there, the filesystem can read and takes every batch, nobody interferes, and the mapping uses folios of any
order (`Host.Calm`). A window over pages that are not in the cache is then filled without a gap, by large
folios or single pages, in one batch that ends with the window or with the file, and exactly the folio that
contains the page `start + size - async_size` gets the mark (`pageCacheRaOrder_calm`).
-/

namespace SystemsPlayground
namespace Mm

open Word

/-- Nothing fails and nobody interferes, the mapping takes folios of a single page, and there is a way to
    read them. -/
structure Host.Calm (h : Host) : Prop where
  env : ∀ t, h.env t = .calm
  minOrder : h.minOrder = 0
  reads : h.hasReadFolio = true ∨ h.hasReadahead = true

theorem Host.small_calm : Host.small.Calm := ⟨fun _ => rfl, rfl, Or.inl rfl⟩

theorem Host.Calm.not_mute {h : Host} (hc : h.Calm) : ¬ (h.hasReadFolio = false ∧ h.hasReadahead = false) := by
  rintro ⟨h₁, h₂⟩
  rcases hc.reads with hr | hr
  · exact absurd (h₁.symm.trans hr) (by decide)
  · exact absurd (h₂.symm.trans hr) (by decide)

/-- The number of pages of the file. -/
def Host.nrPages (h : Host) : Nat := (h.isize + 4095) / 4096

theorem Host.endIndex_add_one {h : Host} (hsize : 0 < h.isize) : h.endIndex + 1 = h.nrPages := by
  unfold endIndex nrPages
  omega

theorem Host.Calm.minNrpages {h : Host} (hc : h.Calm) : h.minNrpages = 1 := by
  rw [Host.minNrpages, hc.minOrder, Nat.pow_zero]

theorem Host.Calm.alignIndex {h : Host} (hc : h.Calm) (i : Nat) : h.alignIndex i = i := by
  rw [Host.alignIndex, hc.minNrpages, roundDown_one]

/-- `c'` is `c` with the pages from `lo` to `hi` filled by folios of order `ord` at most that do not reach out
    of that range, and of which exactly the one that contains `mark` has the mark. -/
structure PageCache.Grown (c : PageCache) (lo hi mark ord : Nat) (c' : PageCache) : Prop where
  below : ∀ x, x < lo → c'.pages x = c.pages x
  above : ∀ x, hi ≤ x → c'.pages x = c.pages x
  within : ∀ x, lo ≤ x → x < hi → ∃ f, c'.pages x = some f ∧ lo ≤ f.index ∧ f.index + f.nrPages ≤ hi ∧
    (f.readahead = true ↔ f.Contains mark) ∧ f.order ≤ ord
  batches : c'.batches = c.batches

namespace PageCache

variable {h : Host} {c c₁ c₂ : PageCache} {lo mid hi mark ord : Nat}

theorem Grown.refl (c : PageCache) (lo mark ord : Nat) : c.Grown lo lo mark ord c :=
  ⟨fun _ _ => rfl, fun _ _ => rfl, fun x h₁ h₂ => by omega, rfl⟩

/-- Ranges that grow one behind the other are one range. -/
theorem Grown.trans (h₁ : c.Grown lo mid mark ord c₁) (h₂ : c₁.Grown mid hi mark ord c₂) (hlo : lo ≤ mid)
    (hhi : mid ≤ hi) : c.Grown lo hi mark ord c₂ := by
  refine ⟨?_, ?_, ?_, h₂.batches.trans h₁.batches⟩
  · intro x hx
    rw [h₂.below x (by omega), h₁.below x hx]
  · intro x hx
    rw [h₂.above x hx, h₁.above x (by omega)]
  · intro x hx hx'
    rcases Nat.lt_or_ge x mid with hm | hm
    · obtain ⟨f, hf, hfl, hfh, hfm⟩ := h₁.within x hx hm
      exact ⟨f, (h₂.below x hm).trans hf, hfl, by omega, hfm⟩
    · obtain ⟨f, hf, hfl, hfh, hfm⟩ := h₂.within x hm hx'
      exact ⟨f, hf, by omega, hfh, hfm⟩

/-- A folio added to free slots. -/
theorem Grown.store {f : Folio} (hm : f.readahead = true ↔ f.Contains mark) (hord : f.order ≤ ord) :
    c.Grown f.index (f.index + f.nrPages) mark ord (c.store f) := by
  refine ⟨?_, ?_, ?_, rfl⟩
  · intro x hx
    rw [store_pages, if_neg]
    rintro ⟨hle, -⟩
    omega
  · intro x hx
    rw [store_pages, if_neg]
    rintro ⟨-, hlt⟩
    omega
  · intro x hx hx'
    exact ⟨f, by rw [store_pages, if_pos ⟨hx, hx'⟩], Nat.le_refl _, Nat.le_refl _, hm, hord⟩

/-- In calm surroundings a folio that finds room is added. -/
theorem filemapAddFolio_calm (hc : h.Calm) {f : Folio} (hfree : ∀ i, f.Contains i → c.pages i = none) :
    c.filemapAddFolio h f = (({ c with tick := c.tick + 1 } : PageCache).store f, none) := by
  have hconf : ({ c with tick := c.tick + 1 } : PageCache).conflict f = false := conflict_eq_false_iff.mpr hfree
  rw [filemapAddFolio, hc.env]
  dsimp only
  rw [if_neg (by decide), if_neg (by rw [Answer.calm, race, hconf]; decide)]
  rfl

end PageCache

namespace ReadaheadControl

variable {h : Host} {r : ReadaheadControl}

/-- In calm surroundings a batch is handed out and stays in the cache. -/
theorem readPages_calm (hc : h.Calm) (ho : r.Open h) (hn : r.nrPages ≠ 0) :
    r.readPages h = { r with
      mapping := { r.mapping with
        tick := r.mapping.tick + 1
        batches := r.mapping.batches ++ [(r.index, r.nrPages)] }
      index := r.index + r.nrPages
      nrPages := 0 } := by
  obtain ⟨fs, ht, htot⟩ := ho.batch
  have hfolios : r.mapping.readaheadFolios r.nrPages r.index r.nrPages = fs := by
    rw [← htot]
    exact ht.readaheadFolios (Nat.le_refl _)
  have hleft : (if h.hasReadahead = true then (h.env r.mapping.tick).left fs else []) = [] := by
    rw [hc.env]
    simp [Answer.left, Answer.calm]
  rw [readPages, if_neg hn, hfolios]
  dsimp only
  rw [hleft, htot]
  simp

theorem readPages_of_eq_zero (hn : r.nrPages = 0) : r.readPages h = r := by
  rw [readPages, if_pos hn]

/-- `ra_alloc_folio` marks the folio that contains the page `mark`. -/
theorem marked_iff {index order : Nat} (hd : 2 ^ order ∣ index) (mark : Nat) :
    (⟨index, order, index = roundDown mark (2 ^ order)⟩ : Folio).readahead = true ↔
      (⟨index, order, index = roundDown mark (2 ^ order)⟩ : Folio).Contains mark := by
  simp only [decide_eq_true_iff, Folio.Contains, Folio.nrPages]
  constructor
  · intro heq
    have h₁ := roundDown_le mark (2 ^ order)
    have h₂ := lt_roundDown_add mark (Nat.two_pow_pos order)
    omega
  · rintro ⟨h₁, h₂⟩
    exact (roundDown_eq hd h₁ h₂).symm

/-- The folios of `page_cache_ra_order` fill the range up to the limit. -/
theorem raOrderLoop_calm (hc : h.Calm) (limit : Nat) {order : Nat} (mark : Nat) (hmax : order ≤ h.maxOrder) :
    ∀ fuel {r} index, limit + 1 - index ≤ fuel → index ≤ limit + 1 →
      (∀ x, index ≤ x → x ≤ limit → r.mapping.pages x = none) →
      ∃ c', r.mapping.Grown index (limit + 1) mark order c' ∧
        raOrderLoop h limit mark order fuel r index =
          ({ r with mapping := c', nrPages := r.nrPages + (limit + 1 - index) }, limit + 1, none) := by
  intro fuel
  induction fuel with
  | zero =>
      intro r index hfuel hle hfree
      obtain rfl : index = limit + 1 := by omega
      exact ⟨r.mapping, .refl _ _ _ _, by simp [raOrderLoop]⟩
  | succ fuel ih =>
      intro r index hfuel hle hfree
      rw [raOrderLoop]
      split_ifs with hlt
      · have hmin : h.minOrder ≤ order := by rw [hc.minOrder]; exact Nat.zero_le _
        have hdvd : h.minNrpages ∣ index := by rw [hc.minNrpages]; exact Nat.one_dvd _
        obtain ⟨-, hord, hd, hfit⟩ := nextOrder_spec limit hmin hmax hdvd
        dsimp only
        generalize nextOrder h order limit index = o at hord hd hfit
        have hfits : index + 2 ^ o ≤ limit + 1 := by
          rcases hfit with rfl | hfit
          · rw [hc.minOrder]
            omega
          · exact hfit
        let f : Folio := ⟨index, o, index = roundDown mark (2 ^ o)⟩
        have hmark : f.readahead = true ↔ f.Contains mark := marked_iff hd mark
        have hadd : r.mapping.filemapAddFolio h f =
            (({ r.mapping with tick := r.mapping.tick + 1 } : PageCache).store f, none) := by
          refine PageCache.filemapAddFolio_calm hc ?_
          rintro x ⟨h₁, h₂⟩
          change x < index + 2 ^ o at h₂
          exact hfree x h₁ (by omega)
        have hgrown : r.mapping.Grown index (index + 2 ^ o) mark order
            (({ r.mapping with tick := r.mapping.tick + 1 } : PageCache).store f) := by
          have hg := PageCache.Grown.store (c := { r.mapping with tick := r.mapping.tick + 1 }) hmark hord
          exact ⟨hg.below, hg.above, hg.within, rfl⟩
        rw [raAllocFolio, hadd]
        dsimp only
        have hfree' : ∀ x, index + 2 ^ o ≤ x → x ≤ limit →
            (({ r.mapping with tick := r.mapping.tick + 1 } : PageCache).store f).pages x = none := by
          intro x hx hx'
          rw [hgrown.above x hx]
          exact hfree x (by omega) hx'
        have hpos := Nat.two_pow_pos o
        obtain ⟨c', hg', heq⟩ := ih (r := { r with
            mapping := ({ r.mapping with tick := r.mapping.tick + 1 } : PageCache).store f
            nrPages := r.nrPages + 2 ^ o }) (index + 2 ^ o) (by omega) hfits hfree'
        refine ⟨c', hgrown.trans hg' (by omega) hfits, ?_⟩
        rw [heq]
        have hcount : r.nrPages + 2 ^ o + (limit + 1 - (index + 2 ^ o)) = r.nrPages + (limit + 1 - index) := by omega
        rw [hcount]
      · obtain rfl : index = limit + 1 := by omega
        exact ⟨r.mapping, .refl _ _ _ _, by simp⟩

/-- The pages of `page_cache_ra_unbounded` fill the range. -/
theorem raUnboundedLoop_calm (hc : h.Calm) {index nrToRead : Nat} (mark ord : Nat) :
    ∀ fuel {r i}, nrToRead - i ≤ fuel → i ≤ nrToRead →
      (∀ x, index + i ≤ x → x < index + nrToRead → r.mapping.pages x = none) →
      ∃ c', r.mapping.Grown (index + i) (index + nrToRead) (index + mark) ord c' ∧
        raUnboundedLoop h index nrToRead mark fuel r i =
          { r with mapping := c', nrPages := r.nrPages + (nrToRead - i) } := by
  intro fuel
  induction fuel with
  | zero =>
      intro r i hfuel hle hfree
      obtain rfl : i = nrToRead := by omega
      exact ⟨r.mapping, .refl _ _ _ _, by simp [raUnboundedLoop]⟩
  | succ fuel ih =>
      intro r i hfuel hle hfree
      rw [raUnboundedLoop]
      split_ifs with hlt hp
      · rw [hfree _ (Nat.le_refl _) (by omega)] at hp
        simp at hp
      · let f : Folio := ⟨index + i, h.minOrder, i = mark⟩
        have hone : f.nrPages = 1 := by
          change 2 ^ h.minOrder = 1
          rw [hc.minOrder, Nat.pow_zero]
        have hmark : f.readahead = true ↔ f.Contains (index + mark) := by
          simp only [Folio.Contains, hone]
          change decide _ = true ↔ index + i ≤ _ ∧ _ < index + i + 1
          rw [decide_eq_true_iff]
          omega
        have hadd : r.mapping.filemapAddFolio h f =
            (({ r.mapping with tick := r.mapping.tick + 1 } : PageCache).store f, none) := by
          refine PageCache.filemapAddFolio_calm hc ?_
          rintro x ⟨h₁, h₂⟩
          rw [hone] at h₂
          change index + i ≤ x at h₁
          change x < index + i + 1 at h₂
          exact hfree x h₁ (by omega)
        have hord : f.order ≤ ord := by
          change h.minOrder ≤ ord
          rw [hc.minOrder]
          exact Nat.zero_le _
        have hgrown : r.mapping.Grown (index + i) (index + (i + 1)) (index + mark) ord
            (({ r.mapping with tick := r.mapping.tick + 1 } : PageCache).store f) := by
          have hg := PageCache.Grown.store (c := { r.mapping with tick := r.mapping.tick + 1 }) hmark hord
          rw [hone] at hg
          exact ⟨hg.below, hg.above, hg.within, rfl⟩
        rw [hadd]
        dsimp only
        rw [hc.minNrpages]
        have hfree' : ∀ x, index + (i + 1) ≤ x → x < index + nrToRead →
            (({ r.mapping with tick := r.mapping.tick + 1 } : PageCache).store f).pages x = none := by
          intro x hx hx'
          rw [hgrown.above x hx]
          exact hfree x (by omega) hx'
        obtain ⟨c', hg', heq⟩ := ih (r := { r with
            mapping := ({ r.mapping with tick := r.mapping.tick + 1 } : PageCache).store f
            nrPages := r.nrPages + 1 }) (by omega) (by omega) hfree'
        refine ⟨c', hgrown.trans hg' (by omega) (by omega), ?_⟩
        rw [heq]
        have hcount : r.nrPages + 1 + (nrToRead - (i + 1)) = r.nrPages + (nrToRead - i) := by omega
        rw [hcount]
      · obtain rfl : i = nrToRead := by omega
        exact ⟨r.mapping, .refl _ _ _ _, by simp⟩

/-- `page_cache_ra_unbounded` over pages that are not in the cache. -/
theorem pageCacheRaUnbounded_calm (hc : h.Calm) (hcl : r.Closed h) (nrToRead lookaheadSize ord : Nat)
    (hpos : 0 < nrToRead) (heof : r.index + nrToRead ≤ h.endIndex + 1)
    (hfree : ∀ x, r.index ≤ x → x < r.index + nrToRead → r.mapping.pages x = none) :
    ∃ c' mark, r.mapping.Grown r.index (r.index + nrToRead) mark ord c' ∧
      (lookaheadSize ≤ nrToRead → mark = r.index + nrToRead - lookaheadSize) ∧
      r.pageCacheRaUnbounded h nrToRead lookaheadSize = { r with
        mapping := { c' with tick := c'.tick + 1, batches := r.mapping.batches ++ [(r.index, nrToRead)] }
        index := r.index + nrToRead
        nrPages := 0 } := by
  obtain ⟨mark, hmark⟩ : ∃ mark, mark = if lookaheadSize ≤ nrToRead then
      r.index + nrToRead - lookaheadSize - r.index else 2 ^ 64 - 1 := ⟨_, rfl⟩
  have hn := hcl.2
  obtain ⟨c', hg, heq⟩ := raUnboundedLoop_calm hc mark ord nrToRead (r := r) (i := 0) (Nat.le_refl _)
    (Nat.zero_le _) hfree
  rw [hn, Nat.zero_add, Nat.sub_zero] at heq
  have hopen : { r with mapping := c', nrPages := nrToRead }.Open h := by
    have hdvd : h.minNrpages ∣ r.index := by rw [hc.minNrpages]; exact Nat.one_dvd _
    have ho := Open.raUnboundedLoop mark hdvd heof nrToRead hcl.open (i := 0) (by omega) (Nat.dvd_zero _)
    rwa [heq] at ho
  have hread := readPages_calm hc hopen (by change nrToRead ≠ 0; omega)
  refine ⟨c', r.index + mark, hg, ?_, ?_⟩
  · intro hle
    rw [hmark, if_pos hle]
    omega
  · rw [pageCacheRaUnbounded]
    simp only [hc.alignIndex, hc.minNrpages, roundUp_one, Nat.sub_self, Nat.add_zero, ← hmark]
    change (raUnboundedLoop h r.index nrToRead mark nrToRead r 0).readPages h = _
    rw [heq, hread, ← hg.batches]

/-- Behind the end of the file nothing is read. -/
theorem pageCacheRaOrder_past_eof (hc : h.Calm) (hn : r.nrPages = 0) (hsize : 0 < h.isize)
    (hge : h.nrPages ≤ r.index) : ∃ o, r.pageCacheRaOrder h = { r with ra := { r.ra with order := o } } := by
  have hend := h.endIndex_add_one hsize
  unfold Host.endIndex at hend
  rw [pageCacheRaOrder]
  dsimp only
  split_ifs with hlarge hz
  · omega
  · refine ⟨newOrder h r.ra, ?_⟩
    rw [hc.alignIndex]
    have hfuel : min ((h.isize - 1) / 4096) (r.index + r.ra.size - 1) + 1 - r.index = 0 := by omega
    rw [hfuel]
    simp only [raOrderLoop]
    rw [readPages_of_eq_zero (by exact hn)]
  · refine ⟨0, ?_⟩
    rw [fallback]
    split_ifs
    · rw [doPageCacheRa, if_neg (by omega)]
      dsimp only
      rw [if_pos (by omega)]
    · rfl

/-- **A window over free pages** is filled up to its end or to the end of the file, in one batch, and the
    mark is on the folio that contains the page `start + size - async_size`. -/
theorem pageCacheRaOrder_calm (hc : h.Calm) (hcl : r.Closed h) (hpos : 0 < r.ra.size)
    (hasync : r.ra.asyncSize ≤ r.ra.size) (hlt : r.index < h.nrPages) {e : Nat}
    (he : e = min (r.index + r.ra.size) h.nrPages)
    (hfree : ∀ x, r.index ≤ x → x < e → r.mapping.pages x = none) :
    ∃ c' mark o, r.mapping.Grown r.index e mark (newOrder h r.ra) c' ∧
      (e < h.nrPages → mark = r.index + r.ra.size - r.ra.asyncSize) ∧
      r.pageCacheRaOrder h = { r with
        mapping := { c' with tick := c'.tick + 1, batches := r.mapping.batches ++ [(r.index, e - r.index)] }
        ra := { r.ra with order := o }
        index := e
        nrPages := 0 } := by
  have hsize : 0 < h.isize := by
    unfold Host.nrPages at hlt
    omega
  have hend := h.endIndex_add_one hsize
  have hn := hcl.2
  rw [pageCacheRaOrder]
  dsimp only
  split_ifs with hlarge hz
  · omega
  · obtain ⟨-, hmax⟩ := newOrder_range (h := h) r.ra
    have hlim : min ((h.isize - 1) / 4096) (r.index + r.ra.size - 1) = e - 1 := by
      change min h.endIndex _ = _
      omega
    have hopen₀ : { r with ra := { r.ra with order := newOrder h r.ra } }.Closed h := hcl
    rw [hc.alignIndex, hlim, Nat.sub_add_cancel (by omega)]
    obtain ⟨c', hg, heq⟩ := raOrderLoop_calm hc (e - 1) (r.index + r.ra.size - r.ra.asyncSize) hmax
      (e - r.index) (r := { r with ra := { r.ra with order := newOrder h r.ra } }) r.index (by omega)
      (by omega) (fun x h₁ h₂ => hfree x h₁ (by omega))
    rw [Nat.sub_add_cancel (by omega)] at hg heq
    have hopen := Open.raOrderLoop (e - 1) (r.index + r.ra.size - r.ra.asyncSize) (by omega)
      (by rw [hc.minOrder]; exact Nat.zero_le _) hmax (e - r.index) r.index hopen₀.open
      (by change _ = r.index + r.nrPages; omega) (by rw [hc.minNrpages]; exact Nat.one_dvd _)
    rw [heq] at hopen
    have hread := readPages_calm hc hopen (by change r.nrPages + (e - r.index) ≠ 0; omega)
    refine ⟨c', r.index + r.ra.size - r.ra.asyncSize, newOrder h r.ra, hg, fun _ => rfl, ?_⟩
    rw [heq]
    dsimp only
    rw [hread]
    dsimp only
    rw [hg.batches, hn, Nat.zero_add, Nat.add_sub_cancel' (by omega)]
  · have hz : sub64 r.index r.index = 0 := by
      have := h.isize_lt
      unfold Host.nrPages at hlt
      rw [sub64_of_le (Nat.le_refl _) (by omega), Nat.sub_self]
    rw [fallback, hz, if_pos hpos, doPageCacheRa, if_neg (by omega)]
    dsimp only
    rw [if_neg (by change ¬ h.endIndex < r.index; omega)]
    have hclip : (if (h.isize - 1) / 4096 - r.index < r.ra.size - 0 then (h.isize - 1) / 4096 - r.index + 1
        else r.ra.size - 0) = e - r.index := by
      change (if h.endIndex - r.index < _ then h.endIndex - r.index + 1 else _) = _
      split_ifs <;> omega
    rw [hclip]
    obtain ⟨c', mark, hg, hmark, heq⟩ := pageCacheRaUnbounded_calm hc
      (r := { r with ra := { r.ra with order := 0 } }) hcl (e - r.index) r.ra.asyncSize (newOrder h r.ra)
      (by omega) (by change r.index + _ ≤ _; omega)
      (fun x h₁ h₂ => hfree x h₁ (by change x < r.index + _ at h₂; omega))
    have hre : r.index + (e - r.index) = e := by omega
    rw [hre] at hg hmark heq
    exact ⟨c', mark, 0, hg, fun hlt' => by rw [hmark (by omega)]; omega, heq⟩

/-- The same for the window that `ra->start` and `ra->size` describe. -/
theorem readIt_calm (hc : h.Calm) (hcl : r.Closed h) (hpos : 0 < r.ra.size) (hasync : r.ra.asyncSize ≤ r.ra.size)
    (hlt : r.ra.start < h.nrPages) {e : Nat} (he : e = min (r.ra.start + r.ra.size) h.nrPages)
    (hfree : ∀ x, r.ra.start ≤ x → x < e → r.mapping.pages x = none) :
    ∃ c' mark o, r.mapping.Grown r.ra.start e mark (newOrder h r.ra) c' ∧
      (e < h.nrPages → mark = r.ra.start + r.ra.size - r.ra.asyncSize) ∧
      r.readIt h = { r with
        mapping := { c' with tick := c'.tick + 1, batches := r.mapping.batches ++ [(r.ra.start, e - r.ra.start)] }
        ra := { r.ra with order := o }
        index := e
        nrPages := 0 } :=
  pageCacheRaOrder_calm hc (r := { r with index := r.ra.start }) hcl hpos hasync hlt he hfree

end ReadaheadControl

/-! ## Windows over pages of which some are there -/

/-- `c'` is `c` with the missing pages from `lo` to `hi` filled in. -/
structure PageCache.Filled (c : PageCache) (lo hi : Nat) (c' : PageCache) : Prop where
  keep : ∀ {x f}, c.pages x = some f → c'.pages x = some f
  within : ∀ {x}, lo ≤ x → x < hi → c'.pages x ≠ none
  outside : ∀ {x}, x < lo ∨ hi ≤ x → c'.pages x = c.pages x

namespace PageCache

variable {h : Host} {c c₁ c₂ : PageCache} {lo mid hi : Nat}

theorem Filled.refl (c : PageCache) (lo : Nat) : c.Filled lo lo c :=
  ⟨id, fun h₁ h₂ => by omega, fun _ => rfl⟩

/-- The chunks leave no gap between them. -/
theorem Filled.trans (h₁ : c.Filled lo mid c₁) (h₂ : c₁.Filled mid hi c₂) (hlo : lo ≤ mid) (hhi : mid ≤ hi) :
    c.Filled lo hi c₂ := by
  refine ⟨fun hf => h₂.keep (h₁.keep hf), ?_, ?_⟩
  · intro x hx hx'
    rcases Nat.lt_or_ge x mid with hm | hm
    · rw [h₂.outside (Or.inl hm)]
      exact h₁.within hx hm
    · exact h₂.within hm hx'
  · intro x hx
    rw [h₂.outside (by omega), h₁.outside (by omega)]

theorem Filled.congr (hf : c.Filled lo hi c₁) (hp : c₂.pages = c₁.pages) : c.Filled lo hi c₂ := by
  refine ⟨?_, ?_, ?_⟩ <;> rw [hp]
  · exact hf.keep
  · exact hf.within
  · exact hf.outside

/-- A page that is there already. -/
theorem Filled.present {f : Folio} (hf : c.pages lo = some f) : c.Filled lo (lo + 1) c := by
  refine ⟨id, fun {x} h₁ h₂ => ?_, fun _ => rfl⟩
  obtain rfl : x = lo := by omega
  simp [hf]

theorem Filled.store {f : Folio} (hc : c.conflict f = false) : c.Filled f.index (f.index + f.nrPages) (c.store f) := by
  refine ⟨fun hg => store_pages_of_some hc hg, fun h₁ h₂ => ?_, fun hx => ?_⟩
  · rw [store_pages, if_pos ⟨h₁, h₂⟩]
    simp
  · rw [store_pages, if_neg]
    rintro ⟨h₁, h₂⟩
    omega

end PageCache

namespace ReadaheadControl

variable {h : Host} {r : ReadaheadControl}

/-- To read a batch in calm surroundings changes no page of the cache. -/
theorem pages_readPages (hc : h.Calm) (ho : r.Open h) : (r.readPages h).mapping.pages = r.mapping.pages := by
  by_cases hn : r.nrPages = 0
  · rw [readPages_of_eq_zero hn]
  · rw [readPages_calm hc ho hn]

/-- The loop of `page_cache_ra_unbounded` fills in what is missing, and leaves the batch at the end of it. -/
theorem raUnboundedLoop_filled (hc : h.Calm) (index nrToRead mark : Nat)
    (heof : index + nrToRead ≤ h.endIndex + 1) :
    ∀ fuel {r : ReadaheadControl} {i}, nrToRead - i ≤ fuel → i ≤ nrToRead → r.Open h →
      index + i = r.index + r.nrPages →
      r.mapping.Filled (index + i) (index + nrToRead) (raUnboundedLoop h index nrToRead mark fuel r i).mapping ∧
        index + nrToRead = (raUnboundedLoop h index nrToRead mark fuel r i).index +
          (raUnboundedLoop h index nrToRead mark fuel r i).nrPages := by
  intro fuel
  induction fuel with
  | zero =>
      intro r i hfuel hle ho hi
      obtain rfl : i = nrToRead := by omega
      exact ⟨.refl _ _, hi⟩
  | succ fuel ih =>
      intro r i hfuel hle ho hi
      rw [raUnboundedLoop]
      split_ifs with hlt hp
      · -- the page is there: the batch is handed out, and the loop goes on behind it
        obtain ⟨f, hf⟩ := Option.isSome_iff_exists.mp hp
        obtain ⟨hcl, hidx⟩ := ho.skipPresent
        have hn := hcl.2
        have hpages : (r.skipPresent h).mapping.pages = r.mapping.pages := pages_readPages hc ho
        have hnext : (r.skipPresent h).index + (r.skipPresent h).nrPages - index = i + 1 := by
          rw [hidx, hn, hc.minNrpages]
          omega
        dsimp only
        rw [hnext]
        obtain ⟨hrest, hat⟩ := ih (i := i + 1) (by omega) (by omega) hcl.open
          (by rw [hidx, hn, hc.minNrpages]; omega)
        exact ⟨((PageCache.Filled.present hf).congr hpages).trans hrest (by omega) (by omega), hat⟩
      · have hone : (⟨index + i, h.minOrder, i = mark⟩ : Folio).nrPages = 1 := by
          change 2 ^ h.minOrder = 1
          rw [hc.minOrder, Nat.pow_zero]
        have hfree : r.mapping.conflict ⟨index + i, h.minOrder, i = mark⟩ = false := by
          refine PageCache.conflict_eq_false_iff.mpr fun x hx => ?_
          rw [Folio.Contains, hone] at hx
          obtain rfl : x = index + i := by
            have h₁ : index + i ≤ x := hx.1
            have h₂ : x < index + i + 1 := hx.2
            omega
          simpa using hp
        have hadd := ho.addFolio (f := ⟨index + i, h.minOrder, i = mark⟩) hi
          (by rw [hone]; exact Nat.one_dvd _) (Nat.le_refl _)
          (by rw [hone, hc.minNrpages]; change index + i + 1 ≤ _; omega)
        have heq := PageCache.filemapAddFolio_calm hc (PageCache.conflict_eq_false_iff.mp hfree)
        rw [heq, hone] at hadd
        rw [heq, hc.minNrpages]
        have hfill : r.mapping.Filled (index + i) (index + (i + 1))
            (({ r.mapping with tick := r.mapping.tick + 1 } : PageCache).store ⟨index + i, h.minOrder, i = mark⟩) := by
          have hst := PageCache.Filled.store (c := { r.mapping with tick := r.mapping.tick + 1 }) hfree
          rw [hone] at hst
          exact ⟨hst.keep, hst.within, hst.outside⟩
        obtain ⟨hrest, hat⟩ := ih (i := i + 1) (by omega) (by omega) hadd
          (by change index + (i + 1) = r.index + (r.nrPages + 1); omega)
        exact ⟨hfill.trans hrest (by omega) (by omega), hat⟩
      · obtain rfl : i = nrToRead := by omega
        exact ⟨.refl _ _, hi⟩

/-- `do_page_cache_ra` fills in what is missing up to the end of the file. -/
theorem doPageCacheRa_filled (hc : h.Calm) (hcl : r.Closed h) (hsize : 0 < h.isize) (hlt : r.index < h.nrPages)
    (nrToRead lookaheadSize : Nat) :
    r.mapping.Filled r.index (min (r.index + nrToRead) h.nrPages)
        (r.doPageCacheRa h nrToRead lookaheadSize).mapping ∧
      (r.doPageCacheRa h nrToRead lookaheadSize).index = min (r.index + nrToRead) h.nrPages := by
  have hend := h.endIndex_add_one hsize
  obtain ⟨nr, hnr⟩ : ∃ nr, nr = min (r.index + nrToRead) h.nrPages - r.index := ⟨_, rfl⟩
  have hmin : min (r.index + nrToRead) h.nrPages = r.index + nr := by omega
  have hclip : (if h.endIndex - r.index < nrToRead then h.endIndex - r.index + 1 else nrToRead) = nr := by
    split_ifs <;> omega
  rw [doPageCacheRa, if_neg (by omega)]
  dsimp only
  change r.mapping.Filled _ _ (if h.endIndex < r.index then r else r.pageCacheRaUnbounded h
    (if h.endIndex - r.index < nrToRead then h.endIndex - r.index + 1 else nrToRead) lookaheadSize).mapping ∧
    (if h.endIndex < r.index then r else r.pageCacheRaUnbounded h
    (if h.endIndex - r.index < nrToRead then h.endIndex - r.index + 1 else nrToRead) lookaheadSize).index = _
  rw [if_neg (by omega), hclip, hmin, pageCacheRaUnbounded]
  simp only [hc.alignIndex, Nat.sub_self, Nat.add_zero]
  have hn := hcl.2
  have hdvd : h.minNrpages ∣ r.index := by rw [hc.minNrpages]; exact Nat.one_dvd _
  have hopen : ∀ mark, (raUnboundedLoop h r.index nr mark nr r 0).Open h := fun mark =>
    Open.raUnboundedLoop mark hdvd (by omega) nr hcl.open (by omega) (Nat.dvd_zero _)
  have hfill := fun mark => raUnboundedLoop_filled hc r.index nr mark (by omega) nr
    (i := 0) (by omega) (by omega) hcl.open (by omega)
  exact ⟨(hfill _).1.congr (pages_readPages hc (hopen _)), (hopen _).readPages.2.trans (hfill _).2.symm⟩

/-- The chunks of `force_page_cache_ra` lie end to end. -/
theorem forceLoop_filled (hc : h.Calm) (hsize : 0 < h.isize) :
    ∀ fuel {r : ReadaheadControl} nr, nr ≤ fuel → r.Closed h → r.index ≤ h.nrPages →
      r.mapping.Filled r.index (min (r.index + nr) h.nrPages) (forceLoop h fuel r nr).mapping := by
  intro fuel
  induction fuel with
  | zero =>
      intro r nr hfuel hcl hle
      obtain rfl : nr = 0 := by omega
      rw [Nat.add_zero, Nat.min_eq_left hle]
      exact .refl _ _
  | succ fuel ih =>
      intro r nr hfuel hcl hle
      rw [forceLoop]
      split_ifs with hz
      · rw [hz, Nat.add_zero, Nat.min_eq_left hle]
        exact .refl _ _
      · have hcl' := hcl.doPageCacheRa (min 512 nr) 0
        rcases Nat.lt_or_ge r.index h.nrPages with hlt | hge
        · obtain ⟨hfill, hidx⟩ := doPageCacheRa_filled hc hcl hsize hlt (min 512 nr) 0
          have hrest := ih (nr - min 512 nr) (by omega) hcl' (by rw [hidx]; exact Nat.min_le_right _ _)
          have hend : min (min (r.index + min 512 nr) h.nrPages + (nr - min 512 nr)) h.nrPages =
              min (r.index + nr) h.nrPages := by omega
          rw [hidx, hend] at hrest
          exact hfill.trans hrest (by omega) (by omega)
        · -- at the end of the file nothing happens any more
          have hend := h.endIndex_add_one hsize
          have hno : r.doPageCacheRa h (min 512 nr) 0 = r := by
            rw [doPageCacheRa, if_neg (by omega)]
            dsimp only
            rw [if_pos (by change h.endIndex < r.index; omega)]
          have hrest := ih (nr - min 512 nr) (by omega) hcl hle
          have hmin : min (r.index + (nr - min 512 nr)) h.nrPages = min (r.index + nr) h.nrPages := by omega
          dsimp only
          rw [hno]
          rwa [hmin] at hrest

/-- Each chunk begins where the last one ended, so that the whole range is filled. -/
theorem forcePageCacheRa_filled (hc : h.Calm) (hcl : r.Closed h) (hlt : r.index < h.nrPages) (nr : Nat) :
    r.mapping.Filled r.index (min (r.index + min nr (max h.ioPages r.ra.raPages)) h.nrPages)
      (r.forcePageCacheRa h nr).mapping := by
  have hsize : 0 < h.isize := by
    unfold Host.nrPages at hlt
    omega
  rw [forcePageCacheRa, if_neg hc.not_mute]
  exact forceLoop_filled hc hsize _ _ (Nat.le_refl _) hcl (by omega)

end ReadaheadControl

end Mm
end SystemsPlayground
