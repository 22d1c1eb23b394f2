import SystemsPlayground.Mm.Readahead

/-!
# `Mm.Accounting` — what readahead keeps, whatever happens around it

`ReadaheadControl.Open` says what holds of the page cache while a readahead call is under way, memory runs
out, other threads add folios, or the filesystem refuses some: the cache is well formed, the folios of the
current batch lie side by side where `readahead_folio` looks for them, no batch goes past the end of the
file, and a ledger balances. The ledger counts, page by page, the batches handed to the filesystem and the
folios added otherwise against the folios removed: a page is handed out only when it is not in the cache.

Each function of `readahead.c` keeps it (`Open.syncRa`, `Open.asyncRa`).
-/

namespace SystemsPlayground
namespace Mm

open Word

/-! ## Well-formed caches -/

/-- Every folio stands in all its slots and in no other, at an index that its size divides, and has at least
    the order that the mapping asks for. -/
structure PageCache.Wf (h : Host) (c : PageCache) : Prop where
  contains : ∀ {i f}, c.pages i = some f → f.Contains i
  slots : ∀ {i f}, c.pages i = some f → ∀ j, f.Contains j → c.pages j = some f
  aligned : ∀ {i f}, c.pages i = some f → f.nrPages ∣ f.index
  order : ∀ {i f}, c.pages i = some f → h.minOrder ≤ f.order

/-- The index of the last page of a file that is not empty. -/
def Host.endIndex (h : Host) : Nat := (h.isize - 1) / 4096

namespace PageCache

variable {h : Host} {c c' : PageCache} {f g : Folio} {i x : Nat}

/-- There is room for a folio exactly if none of its pages is there. -/
theorem conflict_eq_false_iff : c.conflict f = false ↔ ∀ i, f.Contains i → c.pages i = none := by
  simp only [conflict, List.any_eq_false, List.mem_range]
  constructor
  · rintro hc i ⟨hle, hlt⟩
    have := hc (i - f.index) (by omega)
    rw [Nat.add_sub_cancel' hle] at this
    simpa using this
  · intro hc k hk
    simp [hc (f.index + k) ⟨by omega, by omega⟩]

theorem store_pages (c : PageCache) (f : Folio) (i : Nat) :
    (c.store f).pages i = if f.Contains i then some f else c.pages i := rfl

/-- What was in the cache stays there when a folio comes to free slots. -/
theorem store_pages_of_some (hc : c.conflict f = false) (hg : c.pages i = some g) :
    (c.store f).pages i = some g := by
  rw [store_pages, if_neg, hg]
  intro hf
  rw [conflict_eq_false_iff.mp hc i hf] at hg
  simp at hg

theorem Wf.congr (hw : c.Wf h) (hp : c'.pages = c.pages) : c'.Wf h := by
  constructor <;> rw [hp]
  · exact hw.contains
  · exact hw.slots
  · exact hw.aligned
  · exact hw.order

/-- A folio that is aligned and finds room keeps the cache well formed. -/
theorem Wf.store (hw : c.Wf h) (hc : c.conflict f = false) (ha : f.nrPages ∣ f.index)
    (ho : h.minOrder ≤ f.order) : (c.store f).Wf h := by
  have hcases : ∀ {i g}, (c.store f).pages i = some g → g = f ∧ f.Contains i ∨ c.pages i = some g := by
    intro i g hg
    rw [store_pages] at hg
    split at hg
    · exact Or.inl ⟨(Option.some.inj hg).symm, ‹_›⟩
    · exact Or.inr hg
  constructor
  · intro i g hg
    rcases hcases hg with ⟨rfl, hi⟩ | hg
    · exact hi
    · exact hw.contains hg
  · intro i g hg j hj
    rcases hcases hg with ⟨rfl, hi⟩ | hg
    · rw [store_pages, if_pos hj]
    · exact store_pages_of_some hc (hw.slots hg j hj)
  · intro i g hg
    rcases hcases hg with ⟨rfl, hi⟩ | hg
    · exact ha
    · exact hw.aligned hg
  · intro i g hg
    rcases hcases hg with ⟨rfl, hi⟩ | hg
    · exact ho
    · exact hw.order hg

/-- Two folios of the cache that share a slot are one. -/
theorem Wf.eq_of_contains (hw : c.Wf h) {j : Nat} (hf : c.pages i = some f) (hg : c.pages j = some g)
    (hxf : f.Contains x) (hxg : g.Contains x) : f = g := by
  have h₁ := hw.slots hf x hxf
  rw [hw.slots hg x hxg] at h₁
  exact (Option.some.inj h₁).symm

/-- Reclaim takes a folio as a whole. -/
theorem Wf.remove (hw : c.Wf h) (hf : c.pages i = some f) : (c.filemapRemoveFolio f).Wf h := by
  have hcases : ∀ {j g}, (c.filemapRemoveFolio f).pages j = some g → ¬ f.Contains j ∧ c.pages j = some g := by
    intro j g hg
    simp only [filemapRemoveFolio] at hg
    split at hg
    · simp at hg
    · exact ⟨‹_›, hg⟩
  constructor
  · intro j g hg
    exact hw.contains (hcases hg).2
  · intro j g hg k hk
    obtain ⟨hj, hg⟩ := hcases hg
    have hnk : ¬ f.Contains k := by
      intro hfk
      obtain rfl := hw.eq_of_contains hf hg hfk hk
      exact hj (hw.contains hg)
    simp only [filemapRemoveFolio, if_neg hnk]
    exact hw.slots hg k hk
  · intro j g hg
    exact hw.aligned (hcases hg).2
  · intro j g hg
    exact hw.order (hcases hg).2

/-- Only the mark of the folio changes. -/
theorem clearReadahead_pages (hw : c.Wf h) (hf : c.pages i = some f) (j : Nat) :
    (c.clearReadahead f).pages j =
      (c.pages j).map fun g => if g = f then { f with readahead := false } else g := by
  rw [clearReadahead, store_pages]
  change (if f.Contains j then _ else _) = _
  by_cases hj : f.Contains j
  · simp [hj, hw.slots hf j hj]
  · rw [if_neg hj]
    cases hg : c.pages j with
    | none => rfl
    | some g =>
        have hne : g ≠ f := by
          rintro rfl
          exact hj (hw.contains hg)
        simp [hne]

/-- The mark belongs to the folio, so it goes from all its pages at once. -/
theorem Wf.clearReadahead (hw : c.Wf h) (hf : c.pages i = some f) : (c.clearReadahead f).Wf h := by
  -- a folio of the new cache is one of the old, up to its mark
  have hcases : ∀ {j g}, (c.clearReadahead f).pages j = some g →
      ∃ g', c.pages j = some g' ∧ g.index = g'.index ∧ g.order = g'.order ∧
        g = if g' = f then { f with readahead := false } else g' := by
    intro j g hg
    rw [clearReadahead_pages hw hf, Option.map_eq_some_iff] at hg
    obtain ⟨g', hg', rfl⟩ := hg
    refine ⟨g', hg', ?_, ?_, rfl⟩ <;> split_ifs with heq <;> simp [heq]
  have hsame : ∀ {g g' : Folio}, g.index = g'.index → g.order = g'.order →
      (∀ j, g.Contains j ↔ g'.Contains j) ∧ g.nrPages = g'.nrPages := by
    intro g g' hi ho
    have hn : g.nrPages = g'.nrPages := by rw [Folio.nrPages, Folio.nrPages, ho]
    exact ⟨fun j => by rw [Folio.Contains, Folio.Contains, hi, hn], hn⟩
  constructor
  · intro j g hg
    obtain ⟨g', hg', hi, ho, -⟩ := hcases hg
    exact ((hsame hi ho).1 j).mpr (hw.contains hg')
  · intro j g hg k hk
    obtain ⟨g', hg', hi, ho, heq⟩ := hcases hg
    rw [clearReadahead_pages hw hf, hw.slots hg' k (((hsame hi ho).1 k).mp hk), heq]
    rfl
  · intro j g hg
    obtain ⟨g', hg', hi, ho, -⟩ := hcases hg
    rw [(hsame hi ho).2, hi]
    exact hw.aligned hg'
  · intro j g hg
    obtain ⟨g', hg', -, ho, -⟩ := hcases hg
    rw [ho]
    exact hw.order hg'

/-! ## Folios side by side -/

/-- The folios lie in the cache one behind the other, the first at `i`. -/
def Tiles (c : PageCache) : Nat → List Folio → Prop
  | _, [] => True
  | i, f :: fs => c.pages i = some f ∧ f.index = i ∧ c.Tiles (i + f.nrPages) fs

@[simp] theorem totalPages_nil : totalPages [] = 0 := rfl

@[simp] theorem totalPages_cons (fs : List Folio) : totalPages (f :: fs) = f.nrPages + totalPages fs := by
  simp [totalPages]

@[simp] theorem totalPages_append (fs gs : List Folio) :
    totalPages (fs ++ gs) = totalPages fs + totalPages gs := by
  simp [totalPages]

/-- What is added later leaves the folios of the batch where they are. -/
theorem Tiles.mono {fs : List Folio} (hkeep : ∀ {j g}, c.pages j = some g → c'.pages j = some g) :
    ∀ {i}, c.Tiles i fs → c'.Tiles i fs := by
  induction fs with
  | nil => exact fun _ => trivial
  | cons f fs ih =>
      rintro i ⟨hf, hi, ht⟩
      exact ⟨hkeep hf, hi, ih ht⟩

theorem Tiles.congr {fs : List Folio} :
    ∀ {i}, (∀ j, i ≤ j → c'.pages j = c.pages j) → c.Tiles i fs → c'.Tiles i fs := by
  induction fs with
  | nil => exact fun _ _ => trivial
  | cons f fs ih =>
      rintro i hp ⟨hf, hi, ht⟩
      exact ⟨(hp i (Nat.le_refl i)).trans hf, hi, ih (fun j hj => hp j (by omega)) ht⟩

/-- The batch grows by the folio behind it. -/
theorem Tiles.snoc {fs : List Folio} :
    ∀ {i}, c.Tiles i fs → c.pages (i + totalPages fs) = some f → f.index = i + totalPages fs →
      c.Tiles i (fs ++ [f]) := by
  induction fs with
  | nil =>
      intro i _ hf hi
      exact ⟨hf, hi, trivial⟩
  | cons g fs ih =>
      rintro i ⟨hg, hi, ht⟩ hf hfi
      rw [totalPages_cons, ← Nat.add_assoc] at hf hfi
      exact ⟨hg, hi, ih ht hf hfi⟩

theorem Tiles.drop {fs : List Folio} (n : Nat) : ∀ {i}, c.Tiles i fs → ∃ j, c.Tiles j (fs.drop n) := by
  induction n generalizing fs with
  | zero => exact fun ht => ⟨_, ht⟩
  | succ n ih =>
      intro i ht
      cases fs with
      | nil => exact ⟨i, trivial⟩
      | cons f fs => exact ih ht.2.2

/-- `readahead_folio` finds the folios of a batch. -/
theorem Tiles.readaheadFolios {fs : List Folio} :
    ∀ {i fuel}, c.Tiles i fs → totalPages fs ≤ fuel → c.readaheadFolios fuel i (totalPages fs) = fs := by
  induction fs with
  | nil =>
      intro i fuel _ _
      cases fuel <;> simp [PageCache.readaheadFolios]
  | cons f fs ih =>
      rintro i fuel ⟨hf, -, ht⟩ hfuel
      have hpos := f.nrPages_pos
      rw [totalPages_cons] at hfuel ⊢
      cases fuel with
      | zero => omega
      | succ fuel =>
          rw [PageCache.readaheadFolios, if_neg (by omega), hf]
          dsimp only
          rw [Nat.add_sub_cancel_left, ih ht (by omega)]

end PageCache

/-! ## The ledger -/

/-- The number of batches that contain the page `x`. -/
def cover (l : List (Nat × Nat)) (x : Nat) : Nat := l.countP fun b => b.1 ≤ x ∧ x < b.1 + b.2

/-- The number of folios that contain the page `x`. -/
def coverFolios (l : List Folio) (x : Nat) : Nat := l.countP fun f => f.Contains x

/-- 1 if the page is in the cache. -/
def PageCache.resident (c : PageCache) (x : Nat) : Nat := if (c.pages x).isSome then 1 else 0

@[simp] theorem cover_snoc (l : List (Nat × Nat)) (i n x : Nat) :
    cover (l ++ [(i, n)]) x = cover l x + if i ≤ x ∧ x < i + n then 1 else 0 := by
  simp [cover, List.countP_append, List.countP_cons]

@[simp] theorem coverFolios_snoc (l : List Folio) (f : Folio) (x : Nat) :
    coverFolios (l ++ [f]) x = coverFolios l x + if f.Contains x then 1 else 0 := by
  simp [coverFolios, List.countP_append, List.countP_cons]

/-- What came into the cache, page by page, is what was removed and what is there; `isOpen` is 1 for the
    pages of a batch that is still to be handed out. -/
def PageCache.Balanced (c : PageCache) (isOpen : Nat → Nat) : Prop :=
  ∀ x, cover c.batches x + isOpen x + coverFolios c.single x = coverFolios c.removed x + c.resident x

namespace PageCache

variable {h : Host} {c c' : PageCache} {f : Folio} {i : Nat} {o : Nat → Nat}

/-- A folio that is added is there once more than before. -/
theorem resident_store (hc : c.conflict f = false) (x : Nat) :
    (c.store f).resident x = c.resident x + if f.Contains x then 1 else 0 := by
  by_cases hx : f.Contains x
  · simp [resident, store_pages, hx, conflict_eq_false_iff.mp hc x hx]
  · simp [resident, store_pages, hx]

theorem resident_remove (hw : c.Wf h) (hf : c.pages i = some f) (x : Nat) :
    c.resident x = (c.filemapRemoveFolio f).resident x + if f.Contains x then 1 else 0 := by
  by_cases hx : f.Contains x
  · simp [resident, filemapRemoveFolio, hx, hw.slots hf x hx]
  · simp [resident, filemapRemoveFolio, hx]

theorem Balanced.remove (hb : c.Balanced o) (hw : c.Wf h) (hf : c.pages i = some f) :
    (c.filemapRemoveFolio f).Balanced o := by
  intro x
  have hx := hb x
  rw [resident_remove hw hf x] at hx
  simp only [filemapRemoveFolio, coverFolios_snoc] at hx ⊢
  omega

theorem Balanced.congr (hb : c.Balanced o) (hp : c'.pages = c.pages) (hbt : c'.batches = c.batches)
    (hs : c'.single = c.single) (hr : c'.removed = c.removed) : c'.Balanced o := by
  intro x
  have hx := hb x
  simp only [resident, hp, hbt, hs, hr] at hx ⊢
  exact hx

/-- Folios that lie side by side are removed one by one. -/
theorem remove_tiles {fs : List Folio} :
    ∀ {c : PageCache} {i}, c.Wf h → c.Balanced o → c.Tiles i fs →
      (fs.foldl filemapRemoveFolio c).Wf h ∧ (fs.foldl filemapRemoveFolio c).Balanced o ∧
        (fs.foldl filemapRemoveFolio c).batches = c.batches ∧ (fs.foldl filemapRemoveFolio c).bug = c.bug := by
  induction fs with
  | nil => exact fun hw hb _ => ⟨hw, hb, rfl, rfl⟩
  | cons f fs ih =>
      rintro c i hw hb ⟨hf, hi, ht⟩
      have hrest : (c.filemapRemoveFolio f).Tiles (i + f.nrPages) fs := by
        refine ht.congr fun j hj => ?_
        simp only [filemapRemoveFolio]
        rw [if_neg]
        rintro ⟨_, hlt⟩
        omega
      exact ih (hw.remove hf) (hb.remove hw hf) hrest

/-- `filemap_add_folio` fails for lack of memory, or after a folio of another thread may have come in; in
    that case it fails only over a conflict. -/
theorem filemapAddFolio_cases (h : Host) (c : PageCache) (f : Folio) :
    c.filemapAddFolio h f = ({ c with tick := c.tick + 1 }, some .enomem) ∨
    ∃ c', c' = ({ c with tick := c.tick + 1 } : PageCache).race h f.index (h.env c.tick).raced ∧
      (c.filemapAddFolio h f = (c', some .eexist) ∨
        c'.conflict f = false ∧ c.filemapAddFolio h f = (c'.store f, none)) := by
  unfold filemapAddFolio
  dsimp only
  split
  · exact Or.inl rfl
  · refine Or.inr ⟨_, rfl, ?_⟩
    split
    · exact Or.inl rfl
    · rename_i hc
      exact Or.inr ⟨Bool.eq_false_iff.mpr hc, rfl⟩

/-- What a folio of another thread leaves as it was. -/
theorem race_cases (h : Host) (c : PageCache) (i : Nat) (order : Option Nat) :
    c.race h i order = c ∨
    ∃ g : Folio, c.conflict g = false ∧ g.nrPages ∣ g.index ∧ h.minOrder ≤ g.order ∧
      c.race h i order = { c.store g with single := c.single ++ [g] } := by
  cases order with
  | none => exact Or.inl rfl
  | some order =>
      simp only [race, addSingle]
      split_ifs with hord hc
      · exact Or.inl rfl
      · exact Or.inr ⟨_, Bool.eq_false_iff.mpr hc, dvd_roundDown _ _, hord, rfl⟩
      · exact Or.inl rfl

/-- What holds of the cache between readahead calls. -/
structure Sound (h : Host) (c : PageCache) : Prop where
  wf : c.Wf h
  balanced : c.Balanced fun _ => 0
  /-- No batch goes past the end of the file, up to the size of the smallest folio. -/
  eof : ∀ b ∈ c.batches, b.1 + b.2 ≤ h.endIndex + h.minNrpages
  no_bug : c.bug = false

end PageCache

/-! ## While a call is under way -/

namespace ReadaheadControl

/-- 1 for the pages of the current batch. -/
def inBatch (r : ReadaheadControl) (x : Nat) : Nat := if r.index ≤ x ∧ x < r.index + r.nrPages then 1 else 0

/-- What holds of the cache during a readahead call. -/
structure Open (h : Host) (r : ReadaheadControl) : Prop where
  wf : r.mapping.Wf h
  balanced : r.mapping.Balanced r.inBatch
  eof : ∀ b ∈ r.mapping.batches, b.1 + b.2 ≤ h.endIndex + h.minNrpages
  no_bug : r.mapping.bug = false
  /-- `readahead_folio` will find the folios of the current batch. -/
  batch : ∃ fs, r.mapping.Tiles r.index fs ∧ totalPages fs = r.nrPages
  batch_eof : r.nrPages ≠ 0 → r.index + r.nrPages ≤ h.endIndex + h.minNrpages

variable {h : Host} {r : ReadaheadControl} {c : PageCache} {f : Folio}

theorem inBatch_of_eq_zero (hn : r.nrPages = 0) : r.inBatch = fun _ => 0 := by
  funext x
  simp only [inBatch, hn]
  rw [if_neg (by omega)]

theorem Open.sound (ho : r.Open h) (hn : r.nrPages = 0) : r.mapping.Sound h := by
  refine ⟨ho.wf, ?_, ho.eof, ho.no_bug⟩
  have := ho.balanced
  rwa [inBatch_of_eq_zero hn] at this

theorem open_of_sound (hs : r.mapping.Sound h) (hn : r.nrPages = 0) : r.Open h := by
  refine ⟨hs.wf, ?_, hs.eof, hs.no_bug, ⟨[], trivial, hn.symm⟩, fun hne => absurd hn hne⟩
  rw [inBatch_of_eq_zero hn]
  exact hs.balanced

/-- What holds before and after a readahead call: the cache is sound and nothing is left to hand out. -/
def Closed (h : Host) (r : ReadaheadControl) : Prop := r.mapping.Sound h ∧ r.nrPages = 0

theorem Open.closed (ho : r.Open h) (hn : r.nrPages = 0) : r.Closed h := ⟨ho.sound hn, hn⟩

theorem Closed.open (hc : r.Closed h) : r.Open h := open_of_sound hc.1 hc.2

theorem Closed.tick (hc : r.Closed h) :
    { r with mapping := { r.mapping with tick := r.mapping.tick + 1 } }.Closed h :=
  ⟨⟨hc.1.wf.congr rfl, hc.1.balanced.congr rfl rfl rfl rfl, hc.1.eof, hc.1.no_bug⟩, hc.2⟩

/-- The cache is as it was, and so is the batch. -/
theorem Open.congr {r' : ReadaheadControl} (ho : r.Open h) (hp : r'.mapping.pages = r.mapping.pages)
    (hbt : r'.mapping.batches = r.mapping.batches) (hsg : r'.mapping.single = r.mapping.single)
    (hrm : r'.mapping.removed = r.mapping.removed) (hbug : r'.mapping.bug = r.mapping.bug)
    (hi : r'.index = r.index) (hn : r'.nrPages = r.nrPages) : r'.Open h := by
  obtain ⟨fs, ht, htot⟩ := ho.batch
  refine ⟨ho.wf.congr hp, ?_, ?_, ?_, ⟨fs, ?_, ?_⟩, ?_⟩
  · have hin : r'.inBatch = r.inBatch := by
      funext x
      simp only [inBatch, hi, hn]
    rw [hin]
    exact ho.balanced.congr hp hbt hsg hrm
  · rw [hbt]
    exact ho.eof
  · rw [hbug]
    exact ho.no_bug
  · rw [hi]
    exact ht.congr fun j _ => by rw [hp]
  · rw [hn]
    exact htot
  · rw [hi, hn]
    exact ho.batch_eof

/-- Another thread adds a folio. -/
theorem Open.single (ho : r.Open h) {g : Folio} (hc : r.mapping.conflict g = false)
    (ha : g.nrPages ∣ g.index) (hord : h.minOrder ≤ g.order) :
    { r with mapping := { r.mapping.store g with single := r.mapping.single ++ [g] } }.Open h := by
  obtain ⟨fs, ht, htot⟩ := ho.batch
  refine ⟨(ho.wf.store hc ha hord).congr rfl, ?_, ho.eof, ho.no_bug, ⟨fs, ?_, htot⟩, ho.batch_eof⟩
  · intro x
    have hx := ho.balanced x
    have hres := PageCache.resident_store hc x
    simp only [PageCache.resident, PageCache.store, coverFolios_snoc, inBatch] at hx hres ⊢
    omega
  · refine ht.mono fun {j f} hj => ?_
    exact PageCache.store_pages_of_some hc hj

/-- A folio that another thread adds is counted with those that were added singly. -/
theorem Open.race (ho : r.Open h) (i : Nat) (order : Option Nat) :
    { r with mapping := r.mapping.race h i order }.Open h := by
  rcases PageCache.race_cases h r.mapping i order with heq | ⟨g, hc, ha, hord, heq⟩
  · rw [heq]
    exact ho
  · rw [heq]
    exact ho.single hc ha hord

/-- A folio is added behind the current batch. -/
theorem Open.append (ho : r.Open h) (hc : r.mapping.conflict f = false) (hi : f.index = r.index + r.nrPages)
    (ha : f.nrPages ∣ f.index) (hord : h.minOrder ≤ f.order)
    (heof : f.index + f.nrPages ≤ h.endIndex + h.minNrpages) :
    { r with mapping := r.mapping.store f, nrPages := r.nrPages + f.nrPages }.Open h := by
  obtain ⟨fs, ht, htot⟩ := ho.batch
  refine ⟨ho.wf.store hc ha hord, ?_, ho.eof, ho.no_bug, ⟨fs ++ [f], ?_, ?_⟩, ?_⟩
  · intro x
    have hx := ho.balanced x
    have hres := PageCache.resident_store hc x
    have hin : { r with mapping := r.mapping.store f, nrPages := r.nrPages + f.nrPages }.inBatch x =
        r.inBatch x + if f.Contains x then 1 else 0 := by
      simp only [inBatch, Folio.Contains, hi]
      split_ifs <;> omega
    rw [hin, hres]
    simp only [PageCache.store] at hx ⊢
    omega
  · have ht' : (r.mapping.store f).Tiles r.index fs :=
      ht.mono fun hj => PageCache.store_pages_of_some hc hj
    refine ht'.snoc ?_ (by rw [htot]; exact hi)
    rw [htot, ← hi, PageCache.store_pages, if_pos f.contains_index]
  · simp [htot]
  · intro _
    change r.index + (r.nrPages + f.nrPages) ≤ _
    rw [hi] at heof
    omega

/-- `read_pages` hands out the whole batch, and its `BUG_ON` is not reached. -/
theorem Open.readPages (ho : r.Open h) :
    (r.readPages h).Closed h ∧ (r.readPages h).index = r.index + r.nrPages := by
  by_cases hn : r.nrPages = 0
  · rw [ReadaheadControl.readPages, if_pos hn]
    exact ⟨ho.closed hn, by omega⟩
  · obtain ⟨fs, ht, htot⟩ := ho.batch
    have hfolios : r.mapping.readaheadFolios r.nrPages r.index r.nrPages = fs := by
      rw [← htot]
      exact ht.readaheadFolios (Nat.le_refl _)
    rw [ReadaheadControl.readPages, if_neg hn, hfolios]
    dsimp only
    rw [htot]
    refine ⟨⟨?_, Nat.sub_self _⟩, rfl⟩
    let c₁ : PageCache := { r.mapping with
      tick := r.mapping.tick + 1
      batches := r.mapping.batches ++ [(r.index, r.nrPages)] }
    have hw₁ : c₁.Wf h := ho.wf.congr rfl
    have hb₁ : c₁.Balanced fun _ => 0 := by
      intro x
      have hx := ho.balanced x
      simp only [c₁, cover_snoc, PageCache.resident, inBatch] at hx ⊢
      omega
    have hleft : ∃ j, c₁.Tiles j (if h.hasReadahead then (h.env r.mapping.tick).left fs else []) := by
      have hp : ∀ j, r.index ≤ j → c₁.pages j = r.mapping.pages j := fun _ _ => rfl
      have ht₁ : c₁.Tiles r.index fs := ht.congr hp
      split
      · rw [Answer.left]
        split
        · exact ⟨0, trivial⟩
        · exact ht₁.drop _
      · exact ⟨0, trivial⟩
    obtain ⟨j, hj⟩ := hleft
    obtain ⟨hw, hb, hbt, hbug⟩ := PageCache.remove_tiles hw₁ hb₁ hj
    refine ⟨hw.congr rfl, hb.congr rfl rfl rfl rfl, ?_, ?_⟩
    · rw [hbt]
      intro b hmem
      rcases List.mem_append.mp hmem with hmem | hmem
      · exact ho.eof b hmem
      · rw [List.mem_singleton.mp hmem]
        exact ho.batch_eof hn
    · change (_ || _) = false
      rw [hbug]
      simp only [bne_self_eq_false, Bool.or_false]
      exact ho.no_bug

/-- `filemap_add_folio` of a folio that goes behind the current batch. -/
theorem Open.addFolio (ho : r.Open h) (hi : f.index = r.index + r.nrPages) (ha : f.nrPages ∣ f.index)
    (hord : h.minOrder ≤ f.order) (heof : f.index + f.nrPages ≤ h.endIndex + h.minNrpages) :
    match r.mapping.filemapAddFolio h f with
    | (c, some _) => { r with mapping := c }.Open h
    | (c, none) => { r with mapping := c, nrPages := r.nrPages + f.nrPages }.Open h := by
  have htick : { r with mapping := { r.mapping with tick := r.mapping.tick + 1 } }.Open h :=
    ho.congr rfl rfl rfl rfl rfl rfl rfl
  rcases PageCache.filemapAddFolio_cases h r.mapping f with heq | ⟨c, rfl, heq | ⟨hc, heq⟩⟩
  · rw [heq]
    exact htick
  · rw [heq]
    exact htick.race _ _
  · rw [heq]
    exact (htick.race _ _).append hc hi ha hord heof

/-! ## `page_cache_ra_unbounded` and its callers -/

/-- At a page that is there, the batch so far is read, and the next one begins behind the page. -/
theorem Open.skipPresent (ho : r.Open h) :
    (r.skipPresent h).Closed h ∧ (r.skipPresent h).index = r.index + r.nrPages + h.minNrpages := by
  obtain ⟨hc, hi⟩ := ho.readPages
  refine ⟨hc, ?_⟩
  change (r.readPages h).index + _ = _
  rw [hi]

/-- **Step.** The loop of `page_cache_ra_unbounded` keeps the batch and the cache in balance. It goes on in units
    of a minimal folio, so that the batch is always one piece. -/
theorem Open.raUnboundedLoop {index nrToRead : Nat} (mark : Nat) (ha : h.minNrpages ∣ index)
    (heof : index + nrToRead ≤ h.endIndex + 1) :
    ∀ fuel {r i}, r.Open h → index + i = r.index + r.nrPages → h.minNrpages ∣ i →
      (raUnboundedLoop h index nrToRead mark fuel r i).Open h := by
  intro fuel
  induction fuel with
  | zero => exact fun ho _ _ => ho
  | succ fuel ih =>
      intro r i ho hi hdvd
      -- a page that is present, or that another thread was faster to add
      have hskip : ∀ {r' : ReadaheadControl}, r'.Open h → r'.index = r.index → r'.nrPages = r.nrPages →
          (ReadaheadControl.raUnboundedLoop h index nrToRead mark fuel (r'.skipPresent h)
            ((r'.skipPresent h).index + (r'.skipPresent h).nrPages - index)).Open h := by
        intro r' ho' hi' hn'
        obtain ⟨hc'', hi''⟩ := ho'.skipPresent
        have hn'' := hc''.2
        have hnext : (r'.skipPresent h).index + (r'.skipPresent h).nrPages - index = i + h.minNrpages := by
          rw [hi'', hn'', hi', hn', ← hi]
          omega
        rw [hnext]
        refine ih hc''.open ?_ (Nat.dvd_add hdvd (Nat.dvd_refl _))
        rw [hi'', hn'', hi', hn', ← hi]
        omega
      rw [ReadaheadControl.raUnboundedLoop]
      by_cases hlt : i < nrToRead
      · rw [if_pos hlt]
        by_cases hp : (r.mapping.pages (index + i)).isSome = true
        · rw [if_pos hp]
          exact hskip ho rfl rfl
        · rw [if_neg hp]
          have hadd := ho.addFolio (f := ⟨index + i, h.minOrder, i = mark⟩) hi (Nat.dvd_add ha hdvd)
            (Nat.le_refl _) (by change index + i + h.minNrpages ≤ _; omega)
          split
          · rename_i heq
            rw [heq] at hadd
            exact hadd
          · rename_i heq
            rw [heq] at hadd
            exact hskip hadd rfl rfl
          · rename_i heq
            rw [heq] at hadd
            refine ih hadd ?_ (Nat.dvd_add hdvd (Nat.dvd_refl _))
            change index + (i + h.minNrpages) = r.index + (r.nrPages + h.minNrpages)
            omega
      · rw [if_neg hlt]
        exact ho

theorem Closed.pageCacheRaUnbounded (hc : r.Closed h) {nrToRead : Nat} (lookaheadSize : Nat)
    (heof : r.index + nrToRead ≤ h.endIndex + 1) :
    (r.pageCacheRaUnbounded h nrToRead lookaheadSize).Closed h := by
  have hle : h.alignIndex r.index ≤ r.index := roundDown_le _ _
  have hdvd : h.minNrpages ∣ h.alignIndex r.index := dvd_roundDown _ _
  have hstart : { r with index := h.alignIndex r.index }.Closed h := hc
  have hn := hc.2
  have hloop : ∀ mark fuel, (ReadaheadControl.raUnboundedLoop h (h.alignIndex r.index)
      (nrToRead + (r.index - h.alignIndex r.index)) mark fuel { r with index := h.alignIndex r.index } 0).Open h := by
    intro mark fuel
    refine Open.raUnboundedLoop mark hdvd (by omega) fuel hstart.open ?_ (Nat.dvd_zero _)
    change _ = h.alignIndex r.index + r.nrPages
    omega
  exact (hloop _ _).readPages.1

/-- The end of the file is cut off here, so that no batch passes it. -/
theorem Closed.doPageCacheRa (hc : r.Closed h) (nrToRead lookaheadSize : Nat) :
    (r.doPageCacheRa h nrToRead lookaheadSize).Closed h := by
  rw [ReadaheadControl.doPageCacheRa]
  split_ifs with hz
  · exact hc
  · dsimp only
    split_ifs with hend hclip
    · exact hc
    · refine hc.pageCacheRaUnbounded _ ?_
      simp only [Host.endIndex]
      omega
    · refine hc.pageCacheRaUnbounded _ ?_
      simp only [Host.endIndex]
      omega

/-- Each chunk leaves an empty batch to the next one. -/
theorem Closed.forcePageCacheRa (hc : r.Closed h) (nrToRead : Nat) : (r.forcePageCacheRa h nrToRead).Closed h := by
  have hloop : ∀ fuel (r : ReadaheadControl) nr, r.Closed h → (forceLoop h fuel r nr).Closed h := by
    intro fuel
    induction fuel with
    | zero => exact fun r nr hc => hc
    | succ fuel ih =>
        intro r nr hc
        rw [forceLoop]
        split_ifs
        · exact hc
        · exact ih _ _ (hc.doPageCacheRa (min 512 nr) 0)
  unfold ReadaheadControl.forcePageCacheRa
  split_ifs
  · exact hc
  · exact hloop _ r _ hc

end ReadaheadControl

/-! ## The order of a folio -/

theorem and_mask_eq_zero_iff (n k : Nat) : n &&& (2 ^ k - 1) = 0 ↔ 2 ^ k ∣ n := by
  rw [Nat.and_two_pow_sub_one_eq_mod, Nat.dvd_iff_mod_eq_zero]

/-- A number is a multiple of `2 ^ k` when its lowest `k` bits are 0. -/
theorem two_pow_dvd_iff_testBit (n k : Nat) : 2 ^ k ∣ n ↔ ∀ j < k, n.testBit j = false := by
  rw [Nat.dvd_iff_mod_eq_zero]
  constructor
  · intro hz j hj
    have hb := Nat.testBit_mod_two_pow n k j
    rw [hz] at hb
    simpa [hj] using hb.symm
  · intro hb
    apply Nat.eq_of_testBit_eq
    intro j
    rw [Nat.testBit_mod_two_pow]
    by_cases hj : j < k
    · simp [hb j hj]
    · simp [hj]

/-- `__ffs` of a number that is no multiple of `2 ^ k`: the largest power of two that divides it. -/
theorem ffs_spec {n k : Nat} (hk : k ≤ 64) (hn : ¬ 2 ^ k ∣ n) :
    ffs n < k ∧ 2 ^ ffs n ∣ n ∧ n.testBit (ffs n) = true := by
  obtain ⟨j, hj, hbit⟩ : ∃ j < k, n.testBit j = true := by
    by_contra hno
    apply hn
    rw [two_pow_dvd_iff_testBit]
    intro j hj
    rw [Bool.eq_false_iff]
    exact fun hb => hno ⟨j, hj, hb⟩
  cases hfind : (List.range 64).find? fun k => n.testBit k with
  | none =>
      have hb := List.find?_eq_none.mp hfind j (List.mem_range.mpr (by omega))
      exact absurd hbit hb
  | some i =>
      obtain ⟨hi, -, hlow⟩ := List.find?_range_eq_some.mp hfind
      have hffs : ffs n = i := by rw [ffs, hfind]; rfl
      rw [hffs]
      refine ⟨?_, ?_, hi⟩
      · by_contra hle
        have := hlow j (by omega)
        simp [hbit] at this
      · rw [two_pow_dvd_iff_testBit]
        intro m hm
        simpa using hlow m hm

/-- The order shrinks until the folio fits below the limit, or is minimal. -/
theorem fitOrder_spec (index limit : Nat) {minOrder : Nat} :
    ∀ {order}, minOrder ≤ order →
      minOrder ≤ fitOrder minOrder index limit order ∧ fitOrder minOrder index limit order ≤ order ∧
      (fitOrder minOrder index limit order = minOrder ∨
        index + 2 ^ fitOrder minOrder index limit order ≤ limit + 1) := by
  intro order
  induction order with
  | zero =>
      intro hle
      exact ⟨hle, Nat.le_refl _, Or.inl (by simp only [fitOrder]; omega)⟩
  | succ order ih =>
      intro hle
      rw [fitOrder]
      split_ifs with hfit
      · obtain ⟨h₁, h₂, h₃⟩ := ih (by omega)
        exact ⟨h₁, by omega, h₃⟩
      · refine ⟨hle, Nat.le_refl _, ?_⟩
        rcases Nat.lt_or_ge minOrder (order + 1) with hlt | hge
        · right
          have hpos := Nat.two_pow_pos (order + 1)
          have := fun hl => hfit ⟨hlt, hl⟩
          omega
        · left
          omega

namespace ReadaheadControl

variable {h : Host} {r : ReadaheadControl}

theorem newOrder_range (ra : FileRaState) : h.minOrder ≤ newOrder h ra ∧ newOrder h ra ≤ h.maxOrder := by
  have := h.order_range
  unfold newOrder
  omega

/-- The next folio of `page_cache_ra_order` is aligned, and reaches past the limit only when it is as small
    as the mapping allows. -/
theorem nextOrder_spec {order index : Nat} (limit : Nat) (hord : h.minOrder ≤ order) (hmax : order ≤ h.maxOrder)
    (hdvd : h.minNrpages ∣ index) :
    h.minOrder ≤ nextOrder h order limit index ∧ nextOrder h order limit index ≤ order ∧
      2 ^ nextOrder h order limit index ∣ index ∧
      (nextOrder h order limit index = h.minOrder ∨ index + 2 ^ nextOrder h order limit index ≤ limit + 1) := by
  have hrange := h.order_range
  -- the order that the alignment of the index allows
  have halign : ∃ o, (if index &&& (2 ^ order - 1) = 0 then order else ffs index) = o ∧ h.minOrder ≤ o ∧
      o ≤ order ∧ 2 ^ o ∣ index := by
    split_ifs with hz
    · exact ⟨order, rfl, hord, Nat.le_refl _, (and_mask_eq_zero_iff _ _).mp hz⟩
    · obtain ⟨hlt, hd, hbit⟩ := ffs_spec (by omega) ((and_mask_eq_zero_iff _ _).not.mp hz)
      refine ⟨ffs index, rfl, ?_, by omega, hd⟩
      by_contra hlow
      have := (two_pow_dvd_iff_testBit index h.minOrder).mp hdvd (ffs index) (by omega)
      rw [hbit] at this
      simp at this
  obtain ⟨o, ho, hmin, hle, hd⟩ := halign
  rw [nextOrder, ho]
  obtain ⟨h₁, h₂, h₃⟩ := fitOrder_spec index limit hmin
  exact ⟨h₁, by omega, Nat.dvd_trans (Nat.pow_dvd_pow 2 h₂) hd, h₃⟩

/-- **Step.** The loop of `page_cache_ra_order` does so too, with folios of the order that fits at its index. -/
theorem Open.raOrderLoop (limit : Nat) {order : Nat} (mark : Nat) (hlim : limit ≤ h.endIndex)
    (hord : h.minOrder ≤ order) (hmax : order ≤ h.maxOrder) :
    ∀ fuel {r} index, r.Open h → index = r.index + r.nrPages → h.minNrpages ∣ index →
      (raOrderLoop h limit mark order fuel r index).1.Open h := by
  intro fuel
  induction fuel with
  | zero => exact fun _ ho _ _ => ho
  | succ fuel ih =>
      intro r index ho hi hdvd
      rw [ReadaheadControl.raOrderLoop]
      split_ifs with hle
      · obtain ⟨hmin, -, hd, hfit⟩ := nextOrder_spec limit hord hmax hdvd
        dsimp only
        generalize nextOrder h order limit index = o at hmin hd hfit
        have hpos := h.minNrpages_pos
        have heof : index + 2 ^ o ≤ h.endIndex + h.minNrpages := by
          rcases hfit with rfl | hfit
          · change index + h.minNrpages ≤ _
            omega
          · omega
        have hadd := ho.addFolio (f := ⟨index, o, index = roundDown mark (2 ^ o)⟩) hi hd hmin heof
        rw [raAllocFolio]
        cases hres : r.mapping.filemapAddFolio h ⟨index, o, index = roundDown mark (2 ^ o)⟩ with
        | mk c err =>
            rw [hres] at hadd
            cases err with
            | some e => exact hadd
            | none =>
                refine ih (index + 2 ^ o) hadd ?_ (Nat.dvd_add hdvd (Nat.pow_dvd_pow 2 hmin))
                change index + 2 ^ o = r.index + (r.nrPages + 2 ^ o)
                omega
      · exact ho

/-- Where large folios end, the rest is read by minimal ones. -/
theorem Closed.fallback (hc : r.Closed h) (start index : Nat) : (r.fallback h start index).Closed h := by
  rw [ReadaheadControl.fallback]
  split_ifs
  · exact hc.doPageCacheRa _ _
  · exact hc

/-- `page_cache_ra_order`, with the fallback. -/
theorem Closed.pageCacheRaOrder (hc : r.Closed h) (hsize : 0 < h.isize) : (r.pageCacheRaOrder h).Closed h := by
  rw [ReadaheadControl.pageCacheRaOrder]
  dsimp only
  split_ifs with hlarge hz
  · omega
  · obtain ⟨hmin, hmax⟩ := newOrder_range (h := h) r.ra
    have hdvd : h.minNrpages ∣ h.alignIndex r.index := dvd_roundDown _ _
    have hlim : min ((h.isize - 1) / 4096) (r.index + r.ra.size - 1) ≤ h.endIndex := Nat.min_le_left _ _
    generalize min ((h.isize - 1) / 4096) (r.index + r.ra.size - 1) = limit at hlim
    have hstart : { r with
        ra := { r.ra with order := newOrder h r.ra }
        index := h.alignIndex r.index }.Closed h := hc
    have hi : h.alignIndex r.index = h.alignIndex r.index + r.nrPages := by rw [hc.2, Nat.add_zero]
    have hloop : ∀ mark fuel, (ReadaheadControl.raOrderLoop h limit mark (newOrder h r.ra) fuel
        { r with ra := { r.ra with order := newOrder h r.ra }, index := h.alignIndex r.index }
        (h.alignIndex r.index)).1.Open h :=
      fun mark fuel => Open.raOrderLoop limit mark hlim hmin hmax fuel _ hstart.open hi hdvd
    split
    · exact (hloop _ _).readPages.1
    · exact (hloop _ _).readPages.1.fallback _ _
  · refine Closed.fallback ?_ _ _
    exact hc

theorem Closed.readIt (hc : r.Closed h) (hsize : 0 < h.isize) : (r.readIt h).Closed h := by
  refine Closed.pageCacheRaOrder ?_ hsize
  exact hc

/-- `page_cache_sync_ra` keeps the cache sound. -/
theorem Closed.syncRa (hc : r.Closed h) (hsize : 0 < h.isize) (reqCount : Nat) :
    (r.pageCacheSyncRa h reqCount).Closed h := by
  have htick := hc.tick
  rw [pageCacheSyncRa]
  dsimp only
  split_ifs
  · exact htick.forcePageCacheRa _
  · exact htick.forcePageCacheRa _
  · refine Closed.readIt ?_ hsize
    exact htick
  · refine Closed.readIt ?_ hsize
    exact htick
  · exact htick.doPageCacheRa _ _
  · refine Closed.readIt ?_ hsize
    exact htick
  · refine Closed.readIt ?_ hsize
    exact htick

theorem Closed.asyncReadIt (hc : r.Closed h) (hsize : 0 < h.isize) (maxPages : Nat) :
    (r.asyncReadIt h maxPages).Closed h := by
  refine Closed.readIt ?_ hsize
  exact hc

theorem Closed.asyncWindow (hc : r.Closed h) (hsize : 0 < h.isize) (folio : Folio) (reqCount : Nat) :
    (r.asyncWindow h folio reqCount).Closed h := by
  rw [ReadaheadControl.asyncWindow]
  dsimp only
  split_ifs
  · refine Closed.asyncReadIt ?_ hsize _
    exact hc
  · exact hc
  · refine Closed.asyncReadIt ?_ hsize _
    exact hc

/-- The mark is taken off a folio of the cache. -/
theorem Closed.clearReadahead (hc : r.Closed h) {i : Nat} {folio : Folio} (hf : r.mapping.pages i = some folio) :
    { r with mapping := r.mapping.clearReadahead folio }.Closed h := by
  refine ⟨⟨hc.1.wf.clearReadahead hf, ?_, hc.1.eof, hc.1.no_bug⟩, hc.2⟩
  intro x
  have hx := hc.1.balanced x
  simp only [PageCache.resident, PageCache.clearReadahead_pages hc.1.wf hf, Option.isSome_map] at hx ⊢
  exact hx

/-- `page_cache_async_ra` keeps the cache sound. -/
theorem Closed.asyncRa (hc : r.Closed h) (hsize : 0 < h.isize) {i : Nat} {folio : Folio}
    (hf : r.mapping.pages i = some folio) (reqCount : Nat) : (r.pageCacheAsyncRa h folio reqCount).Closed h := by
  have hclear := hc.tick.clearReadahead hf
  rw [pageCacheAsyncRa]
  dsimp only
  split_ifs
  · exact hc
  · exact hc.tick
  · exact hclear
  · exact hclear.asyncWindow hsize _ _

end ReadaheadControl

end Mm
end SystemsPlayground
