import Mathlib.Data.List.Basic
import SystemsPlayground.Lib.Word

/-!
# `Mm.PageCache` — the page cache of one file

The page cache (`i_pages` of `struct address_space`) maps page indices to folios: a folio of order `k` lies
at an index that is a multiple of `2 ^ k` and occupies `2 ^ k` consecutive slots. This module holds the
folios, what the code asks of its surroundings (memory, other threads, the filesystem), insertion and
removal, and the two searches for a gap, `page_cache_next_miss` and `page_cache_prev_miss` (`filemap.c`).

Page indices are below `2 ^ 52`, since an offset in a file is a signed 64-bit number of bytes. So sums of an
index and a length do not wrap and are written plainly; differences that may be negative are `Word.sub64`.
-/

namespace SystemsPlayground
namespace Mm

open Word

/-! ## Folios -/

/-- `struct folio`, as far as readahead looks at it; `readahead` is `PG_readahead`. -/
structure Folio where
  index : Nat
  order : Nat
  readahead : Bool
deriving DecidableEq

/-- `folio_nr_pages`. -/
def Folio.nrPages (f : Folio) : Nat := 2 ^ f.order

/-- `folio_contains`. -/
def Folio.Contains (f : Folio) (i : Nat) : Prop := f.index ≤ i ∧ i < f.index + f.nrPages

instance (f : Folio) (i : Nat) : Decidable (f.Contains i) :=
  inferInstanceAs (Decidable (_ ∧ _))

theorem Folio.nrPages_pos (f : Folio) : 0 < f.nrPages := Nat.two_pow_pos _

theorem Folio.contains_index (f : Folio) : f.Contains f.index :=
  ⟨Nat.le_refl _, Nat.lt_add_of_pos_right f.nrPages_pos⟩

/-! ## The surroundings -/

/-- What the surroundings do when the code turns to them. -/
structure Answer where
  /-- `filemap_alloc_folio` and `filemap_add_folio` find the memory that they need. -/
  memory : Bool
  /-- Another thread has just added a folio of this order at the index that `filemap_add_folio` is for. -/
  raced : Option Nat
  /-- How many folios of a batch `->readahead` takes; `none` for all. -/
  taken : Option Nat
  /-- `blk_cgroup_congested`. -/
  congested : Bool
  /-- `folio_test_writeback` of the folio with the readahead mark. -/
  writeback : Bool

/-- Nothing fails and nobody interferes. -/
def Answer.calm : Answer := ⟨true, none, none, false, false⟩

/-- What readahead reads of the inode, the mapping and the backing device, and the answers of the
    surroundings, numbered in the order in which they are asked for. -/
structure Host where
  /-- `i_size_read`. -/
  isize : Nat
  /-- It is a `loff_t`. -/
  isize_lt : isize < 2 ^ 63
  /-- `mapping_min_folio_order`. -/
  minOrder : Nat
  /-- `mapping_max_folio_order`. -/
  maxOrder : Nat
  /-- `mapping_set_folio_order_range`. -/
  order_range : minOrder ≤ maxOrder ∧ maxOrder < 64
  /-- `bdi->io_pages`, which comes from a 32-bit queue limit. -/
  ioPages : Nat
  ioPages_lt : ioPages < 2 ^ 32
  /-- `a_ops->readahead` is set. -/
  hasReadahead : Bool
  /-- `a_ops->read_folio` is set. -/
  hasReadFolio : Bool
  env : Nat → Answer

/-- `mapping_min_folio_nrpages`. -/
def Host.minNrpages (h : Host) : Nat := 2 ^ h.minOrder

/-- `mapping_align_index`. -/
def Host.alignIndex (h : Host) (index : Nat) : Nat := roundDown index h.minNrpages

/-- `mapping_large_folio_support`. -/
def Host.largeFolioSupport (h : Host) : Prop := 0 < h.maxOrder

instance (h : Host) : Decidable h.largeFolioSupport := inferInstanceAs (Decidable (_ < _))

theorem Host.minNrpages_pos (h : Host) : 0 < h.minNrpages := Nat.two_pow_pos _

/-- A file of five pages in calm surroundings. -/
def Host.small : Host := ⟨20000, by decide, 0, 2, by decide, 8, by decide, true, true, fun _ => .calm⟩

/-! ## The cache -/

/-- The page cache, and what has happened to it so far. -/
structure PageCache where
  /-- `i_pages`; a folio stands in each of its slots. Shadow entries count as empty. -/
  pages : Nat → Option Folio
  /-- The number of answers used so far. -/
  tick : Nat
  /-- The batches that `read_pages` has handed out: index and number of pages. -/
  batches : List (Nat × Nat)
  /-- The folios that were added without readahead. -/
  single : List Folio
  removed : List Folio
  /-- `BUG_ON(readahead_count(rac))` was hit. -/
  bug : Bool

/-- An empty page cache. -/
def PageCache.empty : PageCache := ⟨fun _ => none, 0, [], [], [], false⟩

/-- The errors of `filemap_add_folio`. -/
inductive AddError where
  | enomem
  | eexist
deriving DecidableEq

namespace PageCache

/-- The folio is stored in its slots. -/
def store (c : PageCache) (f : Folio) : PageCache :=
  { c with pages := fun i => if f.Contains i then some f else c.pages i }

/-- `filemap_remove_folio`. -/
def filemapRemoveFolio (c : PageCache) (f : Folio) : PageCache :=
  { c with
    pages := fun i => if f.Contains i then none else c.pages i
    removed := c.removed ++ [f] }

/-- A slot of the folio is in use (`xas_for_each_conflict`). -/
def conflict (c : PageCache) (f : Folio) : Bool :=
  (List.range f.nrPages).any fun k => (c.pages (f.index + k)).isSome

/-- A folio that comes into the cache without readahead, if its slots are free. -/
def addSingle (c : PageCache) (f : Folio) : PageCache :=
  if c.conflict f then c else { c.store f with single := c.single ++ [f] }

/-- Another thread adds a folio over the slot `i`. -/
def race (h : Host) (c : PageCache) (i : Nat) : Option Nat → PageCache
  | none => c
  | some order =>
      if h.minOrder ≤ order then c.addSingle ⟨roundDown i (2 ^ order), order, false⟩ else c

/-- A new folio is allocated and added (`filemap_alloc_folio`, `filemap_add_folio`). -/
def filemapAddFolio (h : Host) (c : PageCache) (f : Folio) : PageCache × Option AddError :=
  let a := h.env c.tick
  let c := { c with tick := c.tick + 1 }
  if a.memory = false then (c, some .enomem)
  else
    let c := c.race h f.index a.raced
    if c.conflict f then (c, some .eexist) else (c.store f, none)

/-- `folio_clear_readahead`. -/
def clearReadahead (c : PageCache) (f : Folio) : PageCache := c.store { f with readahead := false }

/-! ## Gaps -/

/-- The loop of `page_cache_next_miss`: `xas_next` loads the first slot, and from then on goes to the next. -/
def nextMissLoop (c : PageCache) (index maxScan : Nat) : Nat → Nat → Nat
  | 0, _ => u64 (index + maxScan)
  | nr + 1, i =>
      if c.pages i = none then i
      else if i = 0 then 0
      else nextMissLoop c index maxScan nr (u64 (i + 1))

/-- `page_cache_next_miss`. -/
def pageCacheNextMiss (c : PageCache) (index maxScan : Nat) : Nat :=
  c.nextMissLoop index maxScan maxScan index

/-- The loop of `page_cache_prev_miss`; `walked` is whether `xas_prev` was called before, for its first call
    only loads the slot. -/
def prevMissLoop (c : PageCache) : Nat → Bool → Nat → Nat
  | 0, _, i => i
  | maxScan + 1, walked, i =>
      let i := if walked then sub64 i 1 else i
      if c.pages i = none then i
      else if i = 2 ^ 64 - 1 then i
      else prevMissLoop c maxScan true i

/-- `page_cache_prev_miss`. -/
def pageCachePrevMiss (c : PageCache) (index maxScan : Nat) : Nat :=
  c.prevMissLoop maxScan false index

/-- The search forward from `i`, with `nr` slots to go. -/
theorem nextMissLoop_spec (c : PageCache) {index maxScan : Nat} (hbound : index + maxScan < 2 ^ 64) :
    ∀ nr i, 0 < i → i + nr = index + maxScan →
      (∃ g, c.nextMissLoop index maxScan nr i = g ∧ i ≤ g ∧ g < i + nr ∧ c.pages g = none ∧
        ∀ x, i ≤ x → x < g → c.pages x ≠ none) ∨
      (c.nextMissLoop index maxScan nr i = index + maxScan ∧ ∀ x, i ≤ x → x < i + nr → c.pages x ≠ none) := by
  intro nr
  induction nr with
  | zero =>
      intro i hpos hi
      refine Or.inr ⟨?_, fun x h₁ h₂ => by omega⟩
      rw [nextMissLoop, u64_of_lt hbound]
  | succ nr ih =>
      intro i hpos hi
      rw [nextMissLoop]
      by_cases hg : c.pages i = none
      · exact Or.inl ⟨i, if_pos hg, Nat.le_refl _, by omega, hg, fun x h₁ h₂ => by omega⟩
      · rw [if_neg hg, if_neg (by omega), u64_of_lt (by omega)]
        have hfirst : ∀ x, i ≤ x → x < i + 1 → c.pages x ≠ none := by
          intro x h₁ h₂
          obtain rfl : x = i := by omega
          exact hg
        rcases ih (i + 1) (by omega) (by omega) with ⟨g, heq, hle, hlt, hgap, hbelow⟩ | ⟨heq, hall⟩
        · refine Or.inl ⟨g, heq, by omega, by omega, hgap, fun x h₁ h₂ => ?_⟩
          rcases Nat.lt_or_ge x (i + 1) with hx | hx
          · exact hfirst x h₁ hx
          · exact hbelow x hx h₂
        · refine Or.inr ⟨heq, fun x h₁ h₂ => ?_⟩
          rcases Nat.lt_or_ge x (i + 1) with hx | hx
          · exact hfirst x h₁ hx
          · exact hall x hx (by omega)

/-- `page_cache_next_miss` finds the first gap, or returns the index behind the range. -/
theorem pageCacheNextMiss_spec (c : PageCache) (index maxScan : Nat) (hpos : 0 < index)
    (hbound : index + maxScan < 2 ^ 64) :
    (∃ g, c.pageCacheNextMiss index maxScan = g ∧ index ≤ g ∧ g < index + maxScan ∧ c.pages g = none ∧
      ∀ x, index ≤ x → x < g → c.pages x ≠ none) ∨
    (c.pageCacheNextMiss index maxScan = index + maxScan ∧
      ∀ x, index ≤ x → x < index + maxScan → c.pages x ≠ none) :=
  c.nextMissLoop_spec hbound maxScan index hpos rfl

end PageCache

end Mm
end SystemsPlayground
