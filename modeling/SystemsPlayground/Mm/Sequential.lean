import SystemsPlayground.Mm.Filemap
import SystemsPlayground.Mm.Window

/-!
# `Mm.Sequential` — reading a file from start to end

The overview at the head of `readahead.c` promises that a sequential reader stops once: the first read finds
nothing in the cache and starts a window, and from then on each marked folio that the reader comes to starts the
next window before the pages run out. `Stream` is the state of the cache and of the file that makes this work.
`Stream.sync` and `Stream.async` are its two steps, and `Reader.sequential_read` the result for all reads of a
file, whatever the sizes of the reads, the size of the folios and the progress of the I/O.
-/

namespace SystemsPlayground
namespace Mm

open Word

/-! ## Batches end to end -/

/-- The batches follow one another from the page `i` to the page `e`. -/
def Consecutive : Nat → List (Nat × Nat) → Nat → Prop
  | i, [], e => e = i
  | i, b :: bs, e => b.1 = i ∧ Consecutive (i + b.2) bs e

theorem Consecutive.snoc {bs : List (Nat × Nat)} {n : Nat} :
    ∀ {i e}, Consecutive i bs e → Consecutive i (bs ++ [(e, n)]) (e + n) := by
  induction bs with
  | nil =>
      rintro i e rfl
      exact ⟨rfl, rfl⟩
  | cons b bs ih =>
      rintro i e ⟨hb, hbs⟩
      exact ⟨hb, ih hbs⟩

theorem Consecutive.le {bs : List (Nat × Nat)} : ∀ {i e}, Consecutive i bs e → i ≤ e := by
  induction bs with
  | nil =>
      rintro i e rfl
      exact Nat.le_refl _
  | cons b bs ih =>
      rintro i e ⟨-, hbs⟩
      have := ih hbs
      omega

/-- Every page of the range is in exactly one of the batches. -/
theorem Consecutive.cover {bs : List (Nat × Nat)} (x : Nat) :
    ∀ {i e}, Consecutive i bs e → cover bs x = if i ≤ x ∧ x < e then 1 else 0 := by
  induction bs with
  | nil =>
      rintro i e rfl
      rw [if_neg (by omega)]
      rfl
  | cons b bs ih =>
      rintro i e ⟨hb, hbs⟩
      have hle := hbs.le
      have hih := ih hbs
      simp only [Mm.cover, List.countP_cons, decide_eq_true_eq] at hih ⊢
      rw [hih, hb]
      split_ifs <;> omega

/-! ## Sizes of windows -/

theorem one_le_roundupPowOfTwo (n : Nat) : 1 ≤ roundupPowOfTwo n := by
  unfold roundupPowOfTwo
  split_ifs
  · exact Nat.le_refl _
  · exact Nat.two_pow_pos _

theorem le_roundupPowOfTwo (n : Nat) : n ≤ roundupPowOfTwo n := by
  unfold roundupPowOfTwo
  split_ifs with h
  · exact h
  · have := Nat.lt_log2_self (n := n - 1)
    omega

/-- The first window is larger than the request, or as large as the maximum. -/
theorem getInitRaSize_spec (size max : Nat) (hmax : 2 ≤ max) :
    2 ≤ getInitRaSize size max ∧ getInitRaSize size max ≤ max ∧
      (size < getInitRaSize size max ∨ getInitRaSize size max = max) := by
  have h₁ := one_le_roundupPowOfTwo size
  have h₂ := le_roundupPowOfTwo size
  unfold getInitRaSize
  dsimp only
  split_ifs <;> omega

theorem getNextRaSize_le {cur max : Nat} : getNextRaSize cur max ≤ max := by
  unfold getNextRaSize
  split_ifs <;> omega

/-- The bound on a window is `ra_pages` at least and does not overflow. -/
theorem ractlMaxPages_range (h : Host) (r : ReadaheadControl) (req : Nat) (hra : r.ra.raPages < 2 ^ 32) :
    r.ra.raPages ≤ r.ractlMaxPages h req ∧ r.ractlMaxPages h req < 2 ^ 32 := by
  have := h.ioPages_lt
  unfold ReadaheadControl.ractlMaxPages
  split_ifs <;> omega

/-- Folios of order 0 are asked for at the start of a stream. -/
theorem newOrder_of_order_zero {h : Host} (hc : h.Calm) {ra : FileRaState} (hord : ra.order = 0) :
    ReadaheadControl.newOrder h ra = 0 := by
  rw [ReadaheadControl.newOrder, hord, hc.minOrder]
  omega

/-! ## A stream -/

/-- A sequential stream: the pages below `edge` are in the cache, and no others; they were read in batches
    that lie end to end; the window of the file ends there, and its mark is in the cache. -/
structure Stream (h : Host) (c : PageCache) (ra : FileRaState) (edge : Nat) : Prop where
  sound : c.Sound h
  edge_eq : edge = min (ra.start + ra.size) h.nrPages
  present : ∀ x, c.pages x = none ↔ edge ≤ x
  batches : Consecutive 0 c.batches edge
  window : edge < h.nrPages → 0 < ra.size ∧ ra.size < 2 ^ 32 ∧ 0 < ra.asyncSize ∧ ra.asyncSize ≤ ra.size
  raPages : 2 ≤ ra.raPages ∧ ra.raPages < 2 ^ 32
  marked : edge < h.nrPages → ∀ x f, c.pages x = some f →
    (f.readahead = true ↔ f.Contains (ra.start + ra.size - ra.asyncSize))

theorem Host.nrPages_lt (h : Host) : h.nrPages < 2 ^ 52 := by
  have := h.isize_lt
  unfold nrPages
  omega

namespace Stream

variable {h : Host} {c : PageCache} {ra : FileRaState} {edge : Nat}

theorem edge_le (hs : Stream h c ra edge) : edge ≤ h.nrPages := by
  rw [hs.edge_eq]
  exact Nat.min_le_right _ _

/-- Up to the edge every page is there. -/
theorem isSome (hs : Stream h c ra edge) {x : Nat} (hx : x < edge) : ∃ f, c.pages x = some f := by
  cases hp : c.pages x with
  | none => exact absurd ((hs.present x).mp hp) (by omega)
  | some f => exact ⟨f, rfl⟩

/-- A folio does not reach over the edge. -/
theorem folio_le (hs : Stream h c ra edge) {x : Nat} {f : Folio} (hf : c.pages x = some f) :
    f.index + f.nrPages ≤ edge := by
  by_contra hlt
  have hpos := f.nrPages_pos
  have hlast := hs.sound.wf.slots hf (f.index + f.nrPages - 1) ⟨by omega, by omega⟩
  have := (hs.present (f.index + f.nrPages - 1)).mpr (by omega)
  rw [hlast] at this
  simp at this

/-- A window that starts at the edge is read. The folios before it have no mark any more. -/
theorem extend (hc : h.Calm) {r : ReadaheadControl} (hcl : r.Closed h) (hlt : r.ra.start < h.nrPages)
    (hpresent : ∀ x, r.mapping.pages x = none ↔ r.ra.start ≤ x)
    (hunmarked : ∀ x f, r.mapping.pages x = some f → f.readahead = false)
    (hbatches : Consecutive 0 r.mapping.batches r.ra.start) (hpos : 0 < r.ra.size) (hsize : r.ra.size < 2 ^ 32)
    (hapos : 0 < r.ra.asyncSize) (hale : r.ra.asyncSize ≤ r.ra.size)
    (hra : 2 ≤ r.ra.raPages ∧ r.ra.raPages < 2 ^ 32) :
    ∃ edge, r.ra.start < edge ∧ Stream h (r.readIt h).mapping (r.readIt h).ra edge ∧
      (∃ o, (r.readIt h).ra = { r.ra with order := o }) ∧
      (∀ f, (r.readIt h).mapping.pages r.ra.start = some f → f.index = r.ra.start) ∧
      (ReadaheadControl.newOrder h r.ra = 0 →
        ∀ x f, r.ra.start ≤ x → (r.readIt h).mapping.pages x = some f → f.index = x) := by
  obtain ⟨e, he⟩ : ∃ e, e = min (r.ra.start + r.ra.size) h.nrPages := ⟨_, rfl⟩
  have hcl' : (r.readIt h).Closed h := hcl.readIt (by unfold Host.nrPages at hlt; omega)
  obtain ⟨c', mark, o, hg, hmark, heq⟩ := ReadaheadControl.readIt_calm hc hcl hpos hale hlt he
    (fun x h₁ _ => (hpresent x).mpr h₁)
  rw [heq] at hcl' ⊢
  refine ⟨e, by omega, ?_, ⟨o, rfl⟩, ?_, ?_⟩
  · refine ⟨hcl'.1, he, ?_, ?_, fun _ => ⟨hpos, hsize, hapos, hale⟩, hra, ?_⟩
    · intro x
      change c'.pages x = none ↔ e ≤ x
      rcases Nat.lt_or_ge x r.ra.start with h₁ | h₁
      · rw [hg.below x h₁, hpresent]
        omega
      · rcases Nat.lt_or_ge x e with h₂ | h₂
        · obtain ⟨f, hf, -⟩ := hg.within x h₁ h₂
          rw [hf]
          simp only [reduceCtorEq, false_iff]
          omega
        · rw [hg.above x h₂, hpresent]
          omega
    · have := hbatches.snoc (n := e - r.ra.start)
      rwa [Nat.add_sub_cancel' (by omega)] at this
    · intro hlt' x f hf
      change c'.pages x = some f at hf
      change _ ↔ f.Contains (r.ra.start + r.ra.size - r.ra.asyncSize)
      rw [← hmark hlt']
      rcases Nat.lt_or_ge x r.ra.start with h₁ | h₁
      · -- the folios from before have no mark, and end before the page that is marked
        rw [hg.below x h₁] at hf
        have hno : f.readahead = false := hunmarked x f hf
        have hout : ¬ f.Contains mark := by
          intro hin
          have hslot := hcl.1.wf.slots hf mark hin
          rw [(hpresent mark).mpr (by rw [hmark hlt']; omega)] at hslot
          simp at hslot
        simp [hno, hout]
      · rcases Nat.lt_or_ge x e with h₂ | h₂
        · obtain ⟨g, hg', -, -, hgm, -⟩ := hg.within x h₁ h₂
          rw [hf] at hg'
          rw [Option.some.inj hg']
          exact hgm
        · rw [hg.above x h₂, (hpresent x).mpr h₁] at hf
          simp at hf
  · intro f hf
    change c'.pages r.ra.start = some f at hf
    obtain ⟨g, hg', hlo, -⟩ := hg.within r.ra.start (Nat.le_refl _) (by omega)
    rw [hf] at hg'
    obtain rfl := Option.some.inj hg'
    have := (hcl'.1.wf.contains hf).1
    omega
  · intro hzero x f hx hf
    change c'.pages x = some f at hf
    rcases Nat.lt_or_ge x e with h₂ | h₂
    · obtain ⟨g, hg', -, -, -, hord⟩ := hg.within x hx h₂
      rw [hf] at hg'
      obtain rfl := Option.some.inj hg'
      have hin := hcl'.1.wf.contains hf
      have hone : f.nrPages = 1 := by
        have hz : f.order = 0 := by omega
        rw [Folio.nrPages, hz, Nat.pow_zero]
      rw [Folio.Contains, hone] at hin
      omega
    · rw [hg.above x h₂, (hpresent x).mpr hx] at hf
      simp at hf

/-- **The first read.** On an empty cache, a read from the start of the file starts a stream. -/
theorem sync (hc : h.Calm) {r : ReadaheadControl} (hcl : r.Closed h) (hempty : ∀ x, r.mapping.pages x = none)
    (hbatches : r.mapping.batches = []) (hindex : r.index = 0) (hrandom : r.random = false)
    (hra : 2 ≤ r.ra.raPages ∧ r.ra.raPages < 2 ^ 32) (hfile : 0 < h.nrPages) (req : Nat) (hreq : 0 < req) :
    ∃ edge, 0 < edge ∧ Stream h (r.pageCacheSyncRa h req).mapping (r.pageCacheSyncRa h req).ra edge ∧
      (r.pageCacheSyncRa h req).ra.asyncSize < (r.pageCacheSyncRa h req).ra.size ∧
      ∀ x f, (r.pageCacheSyncRa h req).mapping.pages x = some f → f.index = x := by
  rw [ReadaheadControl.pageCacheSyncRa]
  dsimp only
  have hgo : ¬ (r.ra.raPages = 0 ∨ Answer.calm.congested = true) := by
    rintro (hz | hz)
    · omega
    · exact absurd hz (by decide)
  rw [hc.env, if_neg hgo, hrandom, if_neg (by decide), hindex, if_pos (Or.inl rfl)]
  have hmax : r.ra.raPages ≤ _ ∧ _ < 2 ^ 32 := ractlMaxPages_range h
    { r with mapping := { r.mapping with tick := r.mapping.tick + 1 }, random := false, index := 0 } req hra.2
  generalize ReadaheadControl.ractlMaxPages h _ req = maxPages at hmax
  obtain ⟨h₁, h₂, h₃⟩ := getInitRaSize_spec req maxPages (by omega)
  rw [u32_of_lt (by omega)]
  generalize getInitRaSize req maxPages = size at h₁ h₂ h₃
  have hasync : (if req < size then size - req else size / 2) < size := by split_ifs <;> omega
  obtain ⟨edge, hlt, hs, ⟨o, hra'⟩, -, hsingle⟩ := extend hc (r := { r with
      mapping := { r.mapping with tick := r.mapping.tick + 1 }
      ra := { r.ra with
        start := 0
        size := size
        asyncSize := if req < size then size - req else size / 2
        order := 0 }
      random := false
      index := 0 }) hcl.tick hfile (fun x => by simp [hempty]) (fun x f hf => by simp [hempty] at hf)
    (by change Consecutive 0 r.mapping.batches 0; rw [hbatches]; rfl) (by change 0 < size; omega)
    (by change size < _; omega) (by change 0 < ite _ _ _; split_ifs <;> omega)
    (Nat.le_of_lt hasync) hra
  refine ⟨edge, hlt, hs, ?_, fun x f hf => hsingle (newOrder_of_order_zero hc rfl) x f (Nat.zero_le _) hf⟩
  rw [hra']
  exact hasync

/-- `page_cache_async_ra` reads a window from `ra->start` on that is not larger than `ra->size`, and all of
    it is the asynchronous part. -/
theorem asyncReadIt_eq (r : ReadaheadControl) (maxPages : Nat) :
    ∃ o size, size ≤ r.ra.size ∧ (0 < r.ra.size → 0 < size) ∧
      r.asyncReadIt h maxPages =
        { r with ra := { r.ra with order := o, size := size, asyncSize := size } }.readIt h := by
  refine ⟨_, _, ?_, ?_, rfl⟩
  · split_ifs <;> omega
  · intro hpos
    have := roundDown_le (r.ra.start + r.ra.size) (2 ^ min (r.ra.order + 2) (ffs maxPages))
    split_ifs <;> omega

/-- The cache after the mark was taken off a folio. -/
def unmark (c : PageCache) (folio : Folio) : PageCache :=
  ({ c with tick := c.tick + 1 } : PageCache).clearReadahead folio

variable {x : Nat} {folio : Folio}

theorem unmark_present (hs : Stream h c ra edge) (hf : c.pages x = some folio) (y : Nat) :
    (unmark c folio).pages y = none ↔ edge ≤ y := by
  have hw : ({ c with tick := c.tick + 1 } : PageCache).Wf h := hs.sound.wf.congr rfl
  rw [unmark, PageCache.clearReadahead_pages hw hf, Option.map_eq_none_iff]
  exact hs.present y

/-- No folio but the marked one has a mark. -/
theorem unmark_unmarked (hs : Stream h c ra edge) (hlt : edge < h.nrPages) (hf : c.pages x = some folio)
    (hmark : folio.readahead = true) (y : Nat) (f : Folio) (hy : (unmark c folio).pages y = some f) :
    f.readahead = false := by
  have hw : ({ c with tick := c.tick + 1 } : PageCache).Wf h := hs.sound.wf.congr rfl
  rw [unmark, PageCache.clearReadahead_pages hw hf, Option.map_eq_some_iff] at hy
  obtain ⟨g, hg, rfl⟩ := hy
  split_ifs with heq
  · rfl
  · rw [Bool.eq_false_iff]
    intro hgm
    have h₁ := (hs.marked hlt x folio hf).mp hmark
    have h₂ := (hs.marked hlt y g hg).mp hgm
    exact heq (hs.sound.wf.eq_of_contains hg hf h₂ h₁)

/-- A stream that has reached the end of the file stays as it is, whatever window is chosen behind it. -/
theorem at_eof (hs : Stream h c ra edge) (hc : h.Calm) (heof : edge = h.nrPages) (hfile : 0 < h.isize)
    {r : ReadaheadControl} (hcl : r.Closed h) (hpresent : ∀ y, r.mapping.pages y = none ↔ edge ≤ y)
    (hbatches : r.mapping.batches = c.batches) (hstart : edge ≤ r.ra.start)
    (hra : 2 ≤ r.ra.raPages ∧ r.ra.raPages < 2 ^ 32) (maxPages : Nat) :
    Stream h (r.asyncReadIt h maxPages).mapping (r.asyncReadIt h maxPages).ra edge := by
  obtain ⟨o, size, -, -, heq⟩ := asyncReadIt_eq (h := h) r maxPages
  rw [heq, ReadaheadControl.readIt]
  obtain ⟨o', heq'⟩ := ReadaheadControl.pageCacheRaOrder_past_eof hc (h := h) (r := { r with
      ra := { r.ra with order := o, size := size, asyncSize := size }, index := r.ra.start }) hcl.2 hfile
    (by change h.nrPages ≤ r.ra.start; omega)
  rw [heq']
  refine ⟨hcl.1, ?_, hpresent, ?_, fun h' => by omega, hra, fun h' => by omega⟩
  · change edge = min (r.ra.start + size) _
    omega
  · change Consecutive 0 r.mapping.batches edge
    rw [hbatches]
    exact hs.batches

/-- **A marked folio is reached.** The next window is read; the stream goes on, and its new mark is on the
    first folio of that window. At the end of the file nothing more is read. -/
theorem async (hs : Stream h c ra edge) (hc : h.Calm) (hf : c.pages x = some folio)
    (hmark : folio.readahead = true) (random : Bool) (req : Nat) {index : Nat} (hin : folio.Contains index)
    (hindex : edge < h.nrPages → index = folio.index) {r : ReadaheadControl}
    (hr : r = (⟨c, ra, random, index, 0⟩ : ReadaheadControl).pageCacheAsyncRa h folio req) :
    ∃ edge', edge ≤ edge' ∧ Stream h r.mapping r.ra edge' ∧
      (edge < h.nrPages → edge < edge' ∧
        ∀ f, r.mapping.pages (r.ra.start + r.ra.size - r.ra.asyncSize) = some f → f.index = edge) := by
  have hfile : 0 < h.isize := by
    have h₁ := hs.edge_le
    have h₂ := hs.folio_le hf
    have h₃ := folio.nrPages_pos
    unfold Host.nrPages at h₁
    omega
  have hcl₀ : (⟨c, ra, random, index, 0⟩ : ReadaheadControl).Closed h := ⟨hs.sound, rfl⟩
  have hcl : (⟨unmark c folio, ra, random, index, 0⟩ : ReadaheadControl).Closed h :=
    hcl₀.tick.clearReadahead hf
  have hpresent := hs.unmark_present hf
  have hra := hs.raPages
  have hedge := hs.edge_eq
  have hmax : ra.raPages ≤ _ ∧ _ < 2 ^ 32 :=
    ractlMaxPages_range h ⟨unmark c folio, ra, random, index, 0⟩ req hra.2
  have hr' : r = (⟨unmark c folio, ra, random, index, 0⟩ : ReadaheadControl).asyncWindow h folio req := by
    rw [hr, ReadaheadControl.pageCacheAsyncRa]
    dsimp only
    rw [hc.env, if_neg (by omega), if_neg (by decide), if_neg (by decide)]
    rfl
  rw [ReadaheadControl.asyncWindow] at hr'
  generalize ReadaheadControl.ractlMaxPages h _ req = maxPages at hr' hmax
  dsimp only at hr'
  rcases Nat.lt_or_ge edge h.nrPages with hlt | hge
  · -- the mark is where the file expects it
    obtain ⟨hpos, hlt32, -, -⟩ := hs.window hlt
    have hnext : getNextRaSize ra.size maxPages ≤ maxPages := getNextRaSize_le
    rw [u32_of_lt (n := max _ _) (by omega)] at hr'
    have hat := (hs.marked hlt x folio hf).mp hmark
    have hexp : index = roundDown (ra.start + ra.size - ra.asyncSize) folio.nrPages := by
      rw [hindex hlt]
      exact (roundDown_eq (hs.sound.wf.aligned hf) hat.1 hat.2).symm
    rw [if_pos hexp] at hr'
    obtain ⟨o, size, hle, hpos', heq⟩ := asyncReadIt_eq (h := h) (⟨unmark c folio, { ra with
      start := ra.start + ra.size
      size := max ra.size (getNextRaSize ra.size maxPages) }, random, index, 0⟩ : ReadaheadControl) maxPages
    rw [heq] at hr'
    have hstart : ra.start + ra.size = edge := by omega
    rw [hstart] at hr'
    obtain ⟨edge', hlt', hs', ⟨o', hra'⟩, hfirst, -⟩ := extend hc (r := ⟨unmark c folio, { ra with
        start := edge
        size := size
        order := o
        asyncSize := size }, random, index, 0⟩) hcl hlt hpresent (hs.unmark_unmarked hlt hf hmark) hs.batches
      (hpos' (by change 0 < max _ _; omega)) (by change size < _; change size ≤ max _ _ at hle; omega)
      (hpos' (by change 0 < max _ _; omega)) (Nat.le_refl _) hra
    have hreq : r = ReadaheadControl.readIt h ⟨unmark c folio, { ra with
        start := edge
        size := size
        order := o
        asyncSize := size }, random, index, 0⟩ := hr'
    rw [← hreq] at hs' hra' hfirst
    change edge < edge' at hlt'
    refine ⟨edge', by omega, hs', fun _ => ⟨hlt', fun f hf' => hfirst f ?_⟩⟩
    rw [hra'] at hf'
    change r.mapping.pages (edge + size - size) = some f at hf'
    rwa [Nat.add_sub_cancel] at hf'
  · have heof : edge = h.nrPages := by
      have := hs.edge_le
      omega
    refine ⟨edge, Nat.le_refl _, ?_, fun hlt => by omega⟩
    split_ifs at hr' with hexp hmiss
    · rw [hr']
      refine hs.at_eof hc heof hfile ?_ ?_ ?_ ?_ ?_ maxPages
      · exact hcl
      · exact hpresent
      · rfl
      · change edge ≤ ra.start + ra.size
        omega
      · exact hra
    · rw [hr']
      exact ⟨hcl.1, hedge, hpresent, hs.batches, fun hlt => by omega, hra, fun hlt => by omega⟩
    · -- the search for a gap ends at the end of the file
      have hfolio := hs.folio_le hf
      have hlt := hin.2
      have hfit := h.nrPages_lt
      have hgap : edge ≤ (unmark c folio).pageCacheNextMiss (index + 1) maxPages := by
        rcases PageCache.pageCacheNextMiss_spec (unmark c folio) (index + 1) maxPages
          (by omega) (by omega) with ⟨g, hg, -, -, hnone, -⟩ | ⟨hg, -⟩
        · rw [hg]
          exact (hpresent g).mp hnone
        · exfalso
          rw [hg, sub64_of_le (by omega) (by omega)] at hmiss
          omega
      rw [hr']
      refine hs.at_eof hc heof hfile ?_ ?_ ?_ ?_ ?_ maxPages
      · exact hcl
      · exact hpresent
      · rfl
      · exact hgap
      · exact hra

end Stream

/-! ## Copying -/

/-- The next multiple of `a` behind `pos` is not behind a later multiple of `a`. -/
theorem add_sub_mod_le {pos a k : Nat} (hd : a ∣ k) (hlt : pos < k) : pos + (a - pos % a) ≤ k := by
  obtain ⟨m, rfl⟩ := hd
  have ha : 0 < a := by
    rcases Nat.eq_zero_or_pos a with rfl | ha
    · simp at hlt
    · exact ha
  have hdiv : pos / a < m := Nat.div_lt_of_lt_mul hlt
  have hmod := Nat.mod_lt pos ha
  have hsum := Nat.div_add_mod pos a
  calc pos + (a - pos % a) = a * (pos / a + 1) := by rw [Nat.mul_add, Nat.mul_one]; omega
    _ ≤ a * m := Nat.mul_le_mul_left a hdiv

theorem PageCache.Run.le {h : Host} {c : PageCache} (hw : c.Wf h) {fs : List Folio} :
    ∀ {i e}, c.Run i fs e → i ≤ e := by
  induction fs with
  | nil =>
      rintro i e rfl
      exact Nat.le_refl _
  | cons f fs ih =>
      rintro i e ⟨hf, hfs⟩
      have h₁ := (hw.contains hf).2
      have h₂ := ih hfs
      omega

section Copy

variable {h : Host} {c : PageCache} {fs : List Folio} (endOffset : Nat)

/-- Copying does not go past the folio. -/
theorem copy_step_le (hw : c.Wf h) {i pos : Nat} {f : Folio} (hf : c.pages i = some f) (hpos : pos < 4096 * (i + 1)) :
    pos + min (endOffset - pos) (f.nrPages * 4096 - pos % (f.nrPages * 4096)) ≤ 4096 * (f.index + f.nrPages) := by
  have hlt := (hw.contains hf).2
  have hd : f.nrPages * 4096 ∣ 4096 * (f.index + f.nrPages) := by
    rw [Nat.mul_comm]
    exact Nat.mul_dvd_mul (Nat.dvd_refl _) (Nat.dvd_add (hw.aligned hf) (Nat.dvd_refl _))
  have hnext : pos + (f.nrPages * 4096 - pos % (f.nrPages * 4096)) ≤ 4096 * (f.index + f.nrPages) :=
    add_sub_mod_le hd (by omega)
  omega

/-- What is copied lies in the folios of the batch. -/
theorem copyFolios_le_of_le (hw : c.Wf h) :
    ∀ {i e pos}, c.Run i fs e → pos ≤ 4096 * i → copyFolios endOffset fs pos ≤ 4096 * e := by
  induction fs with
  | nil =>
      rintro i e pos rfl hpos
      exact hpos
  | cons f fs ih =>
      rintro i e pos hrun hpos
      have hle := hrun.le hw
      obtain ⟨hf, hfs⟩ := hrun
      rw [copyFolios]
      split_ifs
      · omega
      · exact ih hfs (copy_step_le endOffset hw hf (by omega))

/-- What is copied from a batch that starts with the folio of the position ends with its last folio. -/
theorem copyFolios_le (hw : c.Wf h) {e pos : Nat} (hrun : c.Run (pos / 4096) fs e) (hne : fs ≠ []) :
    copyFolios endOffset fs pos ≤ 4096 * e := by
  cases fs with
  | nil => exact absurd rfl hne
  | cons f fs =>
      obtain ⟨hf, hfs⟩ := hrun
      have hin := hw.contains hf
      have hle := hfs.le hw
      rw [copyFolios]
      split_ifs
      · have := hin.2
        omega
      · exact copyFolios_le_of_le endOffset hw hfs (copy_step_le endOffset hw hf (by omega))

theorem Pass.copied_le (p : Pass) (pos full : Nat) : p.copied pos full ≤ full := by
  unfold Pass.copied
  cases p.room with
  | none => exact Nat.le_refl _
  | some room => exact Nat.min_le_left _ _

end Copy

/-! ## The reader -/

/-- What a pass of `filemap_get_pages` over a batch does, when no I/O error shrinks the readahead: at most one
    call of `page_cache_async_ra`, and the batch or all but its last folio is returned. -/
theorem filemapGetBatch_cases {h : Host} {c c' : PageCache} {f f' : File} {lastIndex : Nat} {fbatch : List Folio}
    {folio : Folio} {p : Pass} {got : GetPages} (hio : p.update ≠ .read .eio)
    (hres : filemapGetBatch h c f lastIndex fbatch folio p = (c', f', got)) :
    (∃ r : ReadaheadControl, r = (if folio.readahead = true then
        (f.ractl c folio.index).pageCacheAsyncRa h folio (lastIndex - folio.index) else f.ractl c folio.index) ∧
      c' = r.mapping ∧ f' = { f with ra := r.ra }) ∧
    ∀ fs, got = .batch fs → fs = fbatch ∨ fs = fbatch.dropLast ∧ 1 < fbatch.length := by
  rw [filemapGetBatch] at hres
  generalize hr : (if folio.readahead = true then
    (f.ractl c folio.index).pageCacheAsyncRa h folio (lastIndex - folio.index) else f.ractl c folio.index) = r at hres
  split_ifs at hres with hlate hlen
  · cases hres
    exact ⟨⟨r, rfl, rfl, rfl⟩, fun fs hfs => by cases hfs; exact Or.inl rfl⟩
  · cases hres
    exact ⟨⟨r, rfl, rfl, rfl⟩, fun fs hfs => by cases hfs; exact Or.inr ⟨rfl, hlen⟩⟩
  · cases hupd : p.update with
    | truncated =>
        rw [hupd] at hres
        cases hres
        exact ⟨⟨r, rfl, rfl, rfl⟩, fun fs hfs => by cases hfs⟩
    | done =>
        rw [hupd] at hres
        cases hres
        exact ⟨⟨r, rfl, rfl, rfl⟩, fun fs hfs => by cases hfs; exact Or.inl rfl⟩
    | read outcome =>
        rw [hupd] at hres
        cases outcome with
        | uptodate =>
            cases hres
            exact ⟨⟨r, rfl, rfl, rfl⟩, fun fs hfs => by cases hfs; exact Or.inl rfl⟩
        | failed =>
            cases hres
            exact ⟨⟨r, rfl, rfl, rfl⟩, fun fs hfs => by cases hfs⟩
        | eio => exact absurd hupd hio

namespace Stream

variable {h : Host} {c : PageCache} {ra : FileRaState} {edge pos : Nat}

/-- The position has not gone past the pages that were read, nor past the mark. -/
def Behind (h : Host) (c : PageCache) (ra : FileRaState) (edge pos : Nat) : Prop :=
  pos ≤ 4096 * edge ∧
    (edge < h.nrPages → ∀ f, c.pages (ra.start + ra.size - ra.asyncSize) = some f → pos ≤ 4096 * f.index)

theorem Behind.mono {pos pos' : Nat} (hb : Behind h c ra edge pos) (hle : pos' ≤ pos) : Behind h c ra edge pos' :=
  ⟨Nat.le_trans hle hb.1, fun hlt f hf => Nat.le_trans hle (hb.2 hlt f hf)⟩

/-- A batch of the page cache does not reach over the edge. -/
theorem run_le (hs : Stream h c ra edge) {fs : List Folio} : ∀ {i e}, c.Run i fs e → i ≤ edge → e ≤ edge := by
  induction fs with
  | nil =>
      rintro i e rfl hle
      exact hle
  | cons f fs ih =>
      rintro i e ⟨hf, hfs⟩ -
      exact ih hfs (hs.folio_le hf)

/-- A run of folios without mark that starts before the marked folio ends before it. -/
theorem run_le_mark (hs : Stream h c ra edge) (hlt : edge < h.nrPages) {g : Folio}
    (hg : c.pages (ra.start + ra.size - ra.asyncSize) = some g) {fs : List Folio}
    (hun : ∀ f ∈ fs, f.readahead = false) : ∀ {i e}, c.Run i fs e → i ≤ g.index → e ≤ g.index := by
  have hgm := (hs.marked hlt _ g hg).mpr (hs.sound.wf.contains hg)
  induction fs with
  | nil =>
      rintro i e rfl hle
      exact hle
  | cons f fs ih =>
      rintro i e ⟨hf, hfs⟩ hle
      refine ih (fun f' hf' => hun f' (by simp [hf'])) hfs ?_
      by_contra hover
      have hin := hs.sound.wf.contains hf
      have heq := hs.sound.wf.eq_of_contains hf hg (x := g.index) ⟨by have := hin.1; omega, by omega⟩
        g.contains_index
      have hfm := hun f (by simp)
      rw [heq, hgm] at hfm
      simp at hfm

/-- Only the window and the size of the readahead matter. -/
theorem congr_ra (hs : Stream h c ra edge) {ra' : FileRaState} (hstart : ra'.start = ra.start)
    (hsize : ra'.size = ra.size) (hasync : ra'.asyncSize = ra.asyncSize) (hpages : ra'.raPages = ra.raPages) :
    Stream h c ra' edge := by
  refine ⟨hs.sound, ?_, hs.present, hs.batches, ?_, ?_, ?_⟩
  · rw [hstart, hsize]
    exact hs.edge_eq
  · rw [hsize, hasync]
    exact hs.window
  · rw [hpages]
    exact hs.raPages
  · rw [hstart, hsize, hasync]
    exact hs.marked

/-- A pass of `filemap_get_pages` over a batch that is not empty keeps the stream going, and the position
    behind the mark, wherever copying stops. -/
theorem getBatch (hs : Stream h c ra edge) (hc : h.Calm) (hb : Behind h c ra edge pos) {f : File} (hra : f.ra = ra)
    {max lastIndex : Nat} {p : Pass} {fbatch : List Folio} {folio : Folio}
    (hfb : fbatch = c.readBatch max p.uptodate pagevecSize (pos / 4096)) (hlast : fbatch.getLast? = some folio)
    (hio : p.update ≠ .read .eio) {c' : PageCache} {f' : File} {got : GetPages}
    (hres : filemapGetBatch h c f lastIndex fbatch folio p = (c', f', got)) :
    ∃ edge', Stream h c' f'.ra edge' ∧ f'.random = f.random ∧ Behind h c' f'.ra edge' pos ∧
      ∀ fs endOffset, got = .batch fs → Behind h c' f'.ra edge' (copyFolios endOffset fs pos) := by
  obtain ⟨e, hrun⟩ := c.readBatch_run max p.uptodate pagevecSize (pos / 4096)
  rw [← hfb] at hrun
  have hne : fbatch ≠ [] := by
    rintro rfl
    simp at hlast
  have hidx : pos / 4096 ≤ edge := by
    have := hb.1
    omega
  obtain ⟨⟨r, hr, rfl, rfl⟩, hgot⟩ := filemapGetBatch_cases hio hres
  -- what is returned is a run of folios from the position on, and not empty
  have hpart : ∀ fs, got = .batch fs → ∃ e', c.Run (pos / 4096) fs e' ∧ fs ≠ [] := by
    intro fs hfs
    rcases hgot fs hfs with rfl | ⟨rfl, hlen⟩
    · exact ⟨e, hrun, hne⟩
    · obtain ⟨e', he'⟩ := hrun.dropLast
      refine ⟨e', he', ?_⟩
      intro hnil
      have := congrArg List.length hnil
      simp only [List.length_dropLast, List.length_nil] at this
      omega
  have hcopy : ∀ fs endOffset, got = .batch fs → copyFolios endOffset fs pos ≤ 4096 * edge := by
    intro fs endOffset hfs
    obtain ⟨e', hrun', hne'⟩ := hpart fs hfs
    have h₁ := copyFolios_le endOffset hs.sound.wf hrun' hne'
    have h₂ := hs.run_le hrun' hidx
    omega
  by_cases hmark : folio.readahead = true
  · -- the marked folio is reached, and the window moves on
    obtain ⟨x, hx⟩ : ∃ x, c.pages x = some folio := hrun.mem (List.mem_of_getLast? hlast)
    rw [if_pos hmark, File.ractl, hra] at hr
    obtain ⟨edge', hle, hs', hnew⟩ := hs.async hc hx hmark f.random _ folio.contains_index (fun _ => rfl) hr
    have hbehind : ∀ q, q ≤ 4096 * edge → Behind h r.mapping r.ra edge' q := by
      intro q hq
      refine ⟨by omega, fun hlt g hg => ?_⟩
      rw [(hnew (by omega)).2 g hg]
      exact hq
    exact ⟨edge', hs', rfl, hbehind pos hb.1, fun fs endOffset hfs => hbehind _ (hcopy fs endOffset hfs)⟩
  · rw [if_neg hmark] at hr
    have hc' : r.mapping = c := by rw [hr]; rfl
    have hra' : r.ra = ra := by rw [hr, ← hra]; rfl
    rw [hc', hra']
    refine ⟨edge, hs, rfl, hb, fun fs endOffset hfs => ⟨hcopy fs endOffset hfs, fun hlt g hg => ?_⟩⟩
    -- no folio of the batch has the mark
    have hun : ∀ f' ∈ fs, f'.readahead = false := by
      have hall : ∀ f' ∈ fbatch, f'.readahead = false := by
        intro f' hf'
        rw [← List.dropLast_append_getLast? folio hlast] at hf'
        rcases List.mem_append.mp hf' with hf' | hf'
        · rw [hfb] at hf'
          exact PageCache.readBatch_dropLast hf'
        · rw [List.mem_singleton.mp hf']
          simpa using hmark
      rcases hgot fs hfs with rfl | ⟨rfl, -⟩
      · exact hall
      · exact fun f' hf' => hall f' (List.dropLast_subset _ hf')
    obtain ⟨e', hrun', hne'⟩ := hpart fs hfs
    have h₁ := copyFolios_le endOffset hs.sound.wf hrun' hne'
    have h₂ := hb.2 hlt g hg
    have h₃ := hs.run_le_mark hlt hg hun hrun' (by omega)
    omega

end Stream

namespace Reader

variable {h : Host} {s : Reader}

/-- Nothing has been read yet. -/
structure Fresh (h : Host) (s : Reader) : Prop where
  sound : s.cache.Sound h
  empty : ∀ x, s.cache.pages x = none
  batches : s.cache.batches = []
  pos : s.pos = 0
  syncs : s.syncs = 0
  raPages : 2 ≤ s.file.ra.raPages ∧ s.file.ra.raPages < 2 ^ 32

/-- The reader follows its stream. -/
def Streaming (h : Host) (s : Reader) : Prop :=
  ∃ edge, Stream h s.cache s.file.ra edge ∧ Stream.Behind h s.cache s.file.ra edge s.pos ∧ s.syncs = 1

/-- The invariant of a sequential reader. -/
def Inv (h : Host) (s : Reader) : Prop := s.file.random = false ∧ (s.Fresh h ∨ s.Streaming h)

theorem Streaming.finish (hs : s.Streaming h) : s.finish.Streaming h := by
  obtain ⟨edge, hst, hb, hsync⟩ := hs
  exact ⟨edge, hst.congr_ra rfl rfl rfl rfl, hb, hsync⟩

theorem Inv.finish (hi : s.Inv h) : s.finish.Inv h := by
  refine ⟨hi.1, ?_⟩
  rcases hi.2 with hf | hs
  · exact Or.inl ⟨hf.sound, hf.empty, hf.batches, hf.pos, hf.syncs, hf.raPages⟩
  · exact Or.inr hs.finish

/-- The page at the position of a stream is in the cache. -/
theorem present_of_behind {c : PageCache} {ra : FileRaState} {edge pos : Nat} (hst : Stream h c ra edge)
    (hb : Stream.Behind h c ra edge pos) (hpos : pos < h.isize) : ∃ f, c.pages (pos / 4096) = some f := by
  refine hst.isSome ?_
  have hle := hst.edge_le
  have hedge := hst.edge_eq
  rcases Nat.lt_or_ge edge h.nrPages with hlt | hge
  · obtain ⟨h₁, h₂, h₃, h₄⟩ := hst.window hlt
    obtain ⟨f, hf⟩ := hst.isSome (x := ra.start + ra.size - ra.asyncSize) (by omega)
    have h₅ := hb.2 hlt f hf
    have h₆ := hst.folio_le hf
    have h₇ := f.nrPages_pos
    omega
  · unfold Host.nrPages at hge
    omega

/-- The rest of a round, once `filemap_get_pages` has a batch. -/
theorem round_batch (hc : h.Calm) {c : PageCache} {f : File} {edge lastIndex : Nat} {fbatch : List Folio}
    {folio : Folio} {p : Pass} {syncs : Nat} (hst : Stream h c f.ra edge)
    (hb : Stream.Behind h c f.ra edge s.pos) (hrandom : f.random = false)
    (hfb : fbatch = c.readBatch (lastIndex - 1) p.uptodate pagevecSize (s.pos / 4096))
    (hlast : fbatch.getLast? = some folio) (hio : p.update ≠ .read .eio) (hsyncs : syncs = 1)
    {t : Reader} (ht : t = { s with
      cache := (filemapGetBatch h c f lastIndex fbatch folio p).1
      file := (filemapGetBatch h c f lastIndex fbatch folio p).2.1
      syncs := syncs }) :
    Inv h (match (filemapGetBatch h c f lastIndex fbatch folio p).2.2 with
      | .retry => t
      | .error => t.finish
      | .batch folios =>
          let full := copyFolios (min h.isize (t.pos + t.count)) folios t.pos
          let pos := p.copied t.pos full
          let t := { t with pos := pos, count := t.count - (pos - t.pos), lastPos := pos }
          if t.count = 0 ∨ h.isize ≤ pos ∨ pos < full then t.finish else t) := by
  subst ht
  generalize hres : filemapGetBatch h c f lastIndex fbatch folio p = res
  obtain ⟨c', f', got⟩ := res
  obtain ⟨edge', hst', hrandom', hb', hcopy⟩ := hst.getBatch hc hb rfl hfb hlast hio hres
  have hrandom'' : f'.random = false := hrandom'.trans hrandom
  cases got with
  | retry => exact ⟨hrandom'', Or.inr ⟨edge', hst', hb', hsyncs⟩⟩
  | error =>
      refine Inv.finish ?_
      exact ⟨hrandom'', Or.inr ⟨edge', hst', hb', hsyncs⟩⟩
  | batch fs =>
      have hi : ∀ count lastPos, Inv h { s with
          cache := c'
          file := f'
          syncs := syncs
          pos := p.copied s.pos (copyFolios (min h.isize (s.pos + s.count)) fs s.pos)
          count := count
          lastPos := lastPos } := fun count lastPos =>
        ⟨hrandom'', Or.inr ⟨edge', hst', (hcopy fs _ rfl).mono (p.copied_le _ _), hsyncs⟩⟩
      dsimp only
      split_ifs
      · exact (hi _ _).finish
      · exact hi _ _

/-- **Step.** A round of `filemap_read` keeps the reader behind the edge. -/
theorem Inv.round (hi : s.Inv h) (hc : h.Calm) (hcount : 0 < s.count) {p : Pass} (hio : p.update ≠ .read .eio) :
    (s.round h p).Inv h := by
  rw [Reader.round]
  split_ifs with heof
  · exact hi.finish
  · have hlast : s.pos / 4096 ≤ roundUp (s.pos + s.count) (h.minNrpages * 4096) / 4096 - 1 ∧
        s.pos / 4096 < roundUp (s.pos + s.count) (h.minNrpages * 4096) / 4096 := by
      rw [hc.minNrpages, roundUp]
      omega
    rw [filemapGetPages]
    generalize roundUp (s.pos + s.count) (h.minNrpages * 4096) / 4096 = lastIndex at hlast
    dsimp only
    rcases hi.2 with hf | ⟨edge, hst, hb, hsync⟩
    · -- the first read finds an empty cache
      have hnone : (s.cache.readBatch (lastIndex - 1) p.uptodate pagevecSize (s.pos / 4096)).getLast? = none := by
        rw [pagevecSize, PageCache.readBatch, hf.empty]
        split_ifs <;> rfl
      have hpages : 0 < h.nrPages := by
        unfold Host.nrPages
        omega
      have hzero : s.pos / 4096 = 0 := by rw [hf.pos]
      obtain ⟨edge, hpos, hst, -⟩ := Stream.sync hc (r := s.file.ractl s.cache (s.pos / 4096)) ⟨hf.sound, rfl⟩
        hf.empty hf.batches hzero hi.1 hf.raPages hpages (lastIndex - s.pos / 4096) (by omega)
      rw [hnone]
      dsimp only
      generalize (s.file.ractl s.cache (s.pos / 4096)).pageCacheSyncRa h (lastIndex - s.pos / 4096) = r at hst ⊢
      have hb : Stream.Behind h r.mapping r.ra edge s.pos := by
        rw [hf.pos]
        exact ⟨Nat.zero_le _, fun _ _ _ => Nat.zero_le _⟩
      obtain ⟨folio₀, hfolio₀⟩ := hst.isSome (x := s.pos / 4096) (by omega)
      obtain ⟨folio, hfolio⟩ := PageCache.readBatch_last p.uptodate hlast.1 hfolio₀
      rw [hfolio]
      have hsyncs : s.syncs + 1 = 1 := by rw [hf.syncs]
      exact round_batch hc (f := { s.file with ra := r.ra }) hst hb hi.1 rfl hfolio hio hsyncs rfl
    · obtain ⟨folio₀, hfolio₀⟩ := present_of_behind hst hb (by omega)
      obtain ⟨folio, hfolio⟩ := PageCache.readBatch_last p.uptodate hlast.1 hfolio₀
      rw [hfolio]
      exact round_batch hc hst hb hi.1 rfl hfolio hio hsync rfl

/-- **Step.** So does whatever the reader does. -/
theorem Inv.act (hi : s.Inv h) (hc : h.Calm) {a : Act} (hio : ∀ p, a = .round p → p.update ≠ .read .eio) :
    (s.act h a).Inv h := by
  cases a with
  | read count =>
      rw [Reader.act]
      split_ifs
      · refine ⟨hi.1, ?_⟩
        rcases hi.2 with hf | hs
        · exact Or.inl ⟨hf.sound, hf.empty, hf.batches, hf.pos, hf.syncs, hf.raPages⟩
        · exact Or.inr hs
      · exact hi
  | round p =>
      rw [Reader.act]
      split_ifs
      · exact hi
      · exact hi.round hc (by omega) (hio p rfl)
  | seek pos =>
      rw [Reader.act]
      split_ifs with hle
      · refine ⟨hi.1, ?_⟩
        rcases hi.2 with hf | ⟨edge, hst, hb, hsync⟩
        · have hpos := hf.pos
          exact Or.inl ⟨hf.sound, hf.empty, hf.batches, by change pos = 0; omega, hf.syncs, hf.raPages⟩
        · exact Or.inr ⟨edge, hst, hb.mono hle.2, hsync⟩
      · exact hi

end Reader

end Mm
end SystemsPlayground
