import Mathlib.Data.List.GetD
import Mathlib.Data.List.Sort
import SystemsPlayground.Lib.Shuffle
import SystemsPlayground.Lib.Word

/-!
# `Prefetch.Workload` — `prefetch-sim/src/workload_gen.c`

`generate_offsets` draws `num_blocks` of the blocks of a file without replacement: it writes down all block
numbers, shuffles as many of them to the front as are needed, sorts these for the sequential pattern, and
turns them into byte offsets.

Arrays are functions on the indices. The results of `rand` are an arbitrary stream, indexed by the calls of
one `partial_shuffle`; seeding it (`srand`, the static `seeded`) only picks the stream. `qsort` is the
library's, with the comparison it is given.
-/

namespace SystemsPlayground
namespace Prefetch

open Word Shuffle

/-- `AccessPattern`. -/
inductive AccessPattern where
  | sequential
  | random
deriving DecidableEq, Repr

/-- The result codes of `generate_offsets`. -/
inductive WorkloadResult where
  | ok
  | errInvalidArgs
  | errNumBlocksTooLarge
deriving DecidableEq, Repr

/-- `compare_size_t`. -/
def compareSizeT (x y : Nat) : Int :=
  if x < y then -1 else if x > y then 1 else 0

/-- The loop of `partial_shuffle`, when the index drawn in round `i` is `choice i`. -/
def partialShuffleWith (choice : Nat → Nat) (array : Nat → Nat) (k : Nat) : Nat → Nat :=
  (List.range k).foldl (fun array i =>
    let tmp := array i
    Function.update (Function.update array i (array (choice i))) (choice i) tmp) array

/-- `partial_shuffle`. -/
def partialShuffle (rand : Nat → Nat) (array : Nat → Nat) (n k : Nat) : Nat → Nat :=
  partialShuffleWith (fun i => i + rand i % (n - i)) array k

/-- `qsort(base, count, sizeof(size_t), compar)`. -/
def qsort (base : Nat → Nat) (count : Nat) (compar : Nat → Nat → Int) : Nat → Nat :=
  let sorted := ((List.range count).map base).mergeSort fun x y => decide (compar x y ≤ 0)
  fun i => sorted.getD i (base i)

/-- `for (i = 0; i < n; i++) array[i] = value(i);` -/
def fill (n : Nat) (value : Nat → Nat) (array : Nat → Nat) : Nat → Nat :=
  (List.range n).foldl (fun array i => Function.update array i (value i)) array

/-- The array `candidates` of `generate_offsets`, from its allocation to the last loop. -/
def candidateBlocks (rand : Nat → Nat) (pattern : AccessPattern) (totalBlocks numBlocks : Nat)
    (candidates : Nat → Nat) : Nat → Nat :=
  let candidates := fill totalBlocks (fun i => i) candidates
  let candidates := partialShuffle rand candidates totalBlocks numBlocks
  if pattern = .sequential then qsort candidates numBlocks compareSizeT else candidates

/-- `generate_offsets`; `none` for `out_offsets` is `NULL`, and so it is for the result of `malloc`. -/
def generateOffsets (malloc : Nat → Option (Nat → Nat)) (rand : Nat → Nat) (pattern : AccessPattern)
    (fileSize blockSize numBlocks : Nat) (outOffsets : Option (Nat → Nat)) :
    WorkloadResult × Option (Nat → Nat) :=
  match outOffsets with
  | none => (.errInvalidArgs, none)
  | some out =>
    if blockSize = 0 then (.errInvalidArgs, some out)
    else
      let totalBlocks := fileSize / blockSize
      if numBlocks > totalBlocks then (.errNumBlocksTooLarge, some out)
      else
        match malloc (u64 (totalBlocks * 8)) with
        | none => (.errInvalidArgs, some out)
        | some memory =>
            let candidates := candidateBlocks rand pattern totalBlocks numBlocks memory
            (.ok, some (fill numBlocks (fun i => u64 (candidates i * blockSize)) out))

/-! ## The loops -/

section Loops

variable {k n x : Nat}

theorem fill_apply (n : Nat) (value array : Nat → Nat) (x : Nat) :
    fill n value array x = if x < n then value x else array x := by
  unfold fill
  induction n with
  | zero => simp
  | succ n ih =>
      rw [List.range_succ, List.foldl_append, List.foldl_cons, List.foldl_nil]
      by_cases hx : x = n
      · rw [hx, Function.update_self, if_pos (Nat.lt_succ_self n)]
      · rw [Function.update_of_ne hx, ih]
        simp only [show x < n + 1 ↔ x < n by omega]

theorem map_fill (n : Nat) (value array : Nat → Nat) :
    (List.range n).map (fill n value array) = (List.range n).map value := by
  apply List.map_congr_left
  intro i hi
  rw [fill_apply, if_pos (List.mem_range.mp hi)]

/-- One more choice is one more exchange at the end. -/
theorem shuffle_concat (a : Nat → Nat) (js : List Nat) (i j : Nat) :
    shuffle i (js ++ [j]) a = swapAt (shuffle i js a) (i + js.length) j := by
  induction js generalizing a i with
  | nil => rfl
  | cons j' js ih =>
      rw [List.cons_append, shuffle, ih, shuffle, List.length_cons, Nat.add_assoc, Nat.add_comm 1]

/-- The loop is a shuffle. -/
theorem partialShuffleWith_eq (choice array : Nat → Nat) (k : Nat) :
    partialShuffleWith choice array k = shuffle 0 ((List.range k).map choice) array := by
  unfold partialShuffleWith
  induction k with
  | zero => rfl
  | succ k ih =>
      rw [List.range_succ, List.foldl_append, ih, List.map_append, List.map_singleton, shuffle_concat,
        List.length_map, List.length_range, Nat.zero_add]
      rfl

/-- The indices that `partial_shuffle` draws are in range, whatever `rand` returns. -/
theorem choices_rand (rand : Nat → Nat) (hk : k ≤ n) :
    Choices n 0 ((List.range k).map fun i => i + rand i % (n - i)) := by
  rw [choices_iff]
  intro m hm
  have hm' : m < k := by simpa using hm
  have hmod : rand m % (n - m) < n - m := Nat.mod_lt _ (by omega)
  rw [List.getD_eq_getElem _ _ hm, List.getElem_map, List.getElem_range]
  omega

/-- **`partial_shuffle` permutes the array.** -/
theorem partialShuffle_perm (rand array : Nat → Nat) (hk : k ≤ n) :
    ((List.range n).map (partialShuffle rand array n k)).Perm ((List.range n).map array) := by
  rw [partialShuffle, partialShuffleWith_eq]
  exact shuffle_perm (choices_rand rand hk)

end Loops

/-! ## The choices of the shuffle -/

/-- The choices that the loop reads off a list one by one. -/
theorem map_getD_range {js : List Nat} {k : Nat} (hlen : js.length = k) :
    (List.range k).map (js.getD · 0) = js := by
  apply List.ext_getElem
  · rw [List.length_map, List.length_range, hlen]
  · intro i h₁ h₂
    rw [List.getElem_map, List.getElem_range, List.getD_eq_getElem _ _ h₂]

/-- Every choice can be drawn. -/
theorem exists_rand {n k : Nat} {js : List Nat} (hjs : ∀ i < k, i ≤ js.getD i 0 ∧ js.getD i 0 < n) :
    ∃ rand : Nat → Nat, ∀ i < k, i + rand i % (n - i) = js.getD i 0 := by
  refine ⟨fun i => js.getD i 0 - i, fun i hi => ?_⟩
  obtain ⟨hle, hlt⟩ := hjs i hi
  have hmod : (js.getD i 0 - i) % (n - i) = js.getD i 0 - i := Nat.mod_eq_of_lt (by omega)
  show i + (js.getD i 0 - i) % (n - i) = _
  omega

/-- The loop depends on the choices of its rounds only. -/
theorem partialShuffleWith_congr {choice choice' array : Nat → Nat} {k : Nat}
    (h : ∀ i < k, choice i = choice' i) :
    partialShuffleWith choice array k = partialShuffleWith choice' array k := by
  rw [partialShuffleWith_eq, partialShuffleWith_eq]
  congr 1
  exact List.map_congr_left fun i hi => h i (List.mem_range.mp hi)

/-- **The partial Fisher-Yates loop is unbiased.** On an array of `n` distinct values, the sequences of
    choices `i ≤ j < n` correspond one to one to the sequences of `k` distinct values that the loop leaves in
    front. `partial_shuffle` is this loop with the choices `i + rand() % (n - i)`; these are of this kind
    whatever `rand` returns, and each sequence of choices is drawn by some results of `rand`; and the array
    stays a permutation of itself. -/
theorem partial_shuffle_bijective {n k : Nat} {array : Nat → Nat} (hk : k ≤ n)
    (hdistinct : ∀ i < n, ∀ j < n, array i = array j → i = j) :
    Set.BijOn (fun js : List Nat => (List.range k).map (partialShuffleWith (js.getD · 0) array k))
      {js | js.length = k ∧ ∀ i < k, i ≤ js.getD i 0 ∧ js.getD i 0 < n}
      {l | l.length = k ∧ l.Nodup ∧ ∀ x ∈ l, ∃ i < n, array i = x} ∧
    (∀ rand : Nat → Nat,
      partialShuffle rand array n k = partialShuffleWith (fun i => i + rand i % (n - i)) array k ∧
      (∀ i < k, i ≤ i + rand i % (n - i) ∧ i + rand i % (n - i) < n) ∧
      ((List.range n).map (partialShuffle rand array n k)).Perm ((List.range n).map array)) ∧
    ∀ js : List Nat, (∀ i < k, i ≤ js.getD i 0 ∧ js.getD i 0 < n) →
      ∃ rand : Nat → Nat, (∀ i < k, i + rand i % (n - i) = js.getD i 0) ∧
        partialShuffle rand array n k = partialShuffleWith (js.getD · 0) array k := by
  refine ⟨?_, ?_, ?_⟩
  · have hinj : Set.InjOn array (Set.Ico 0 n) := by
      rintro i ⟨-, hi⟩ j ⟨-, hj⟩ he
      exact hdistinct i hi j hj he
    have hchoices : {js : List Nat | js.length = k ∧ ∀ i < k, i ≤ js.getD i 0 ∧ js.getD i 0 < n} =
        {js | js.length = k ∧ Choices n 0 js} := by
      ext js
      simp only [Set.mem_ofPred_eq, choices_iff, Nat.zero_add]
      refine and_congr_right fun hlen => ?_
      rw [hlen]
    have hvalues : {l : List Nat | l.length = k ∧ l.Nodup ∧ ∀ x ∈ l, ∃ i < n, array i = x} =
        {l | l.length = k ∧ l.Nodup ∧ ∀ x ∈ l, x ∈ array '' Set.Ico 0 n} := by
      ext l
      simp only [Set.mem_ofPred_eq, Set.mem_image, Set.mem_Ico, Nat.zero_le, true_and]
    rw [hchoices, hvalues]
    refine (draw_bijOn hinj k).congr ?_
    rintro js ⟨hlen, hjs⟩
    show draw 0 js array = (List.range k).map (partialShuffleWith (js.getD · 0) array k)
    rw [partialShuffleWith_eq, map_getD_range hlen, ← map_shuffle hjs, hlen, List.range_eq_range']
  · intro rand
    refine ⟨rfl, fun i hi => ?_, partialShuffle_perm rand array hk⟩
    have hmod : rand i % (n - i) < n - i := Nat.mod_lt _ (by omega)
    omega
  · intro js hjs
    obtain ⟨rand, hrand⟩ := exists_rand hjs
    exact ⟨rand, hrand, partialShuffleWith_congr hrand⟩

/-- Three values, two draws: `rand` returns 5 and then 4, which selects 2 and then 1; and some results of
    `rand` leave 0 and 20 in front. -/
theorem partial_shuffle_bijective_three :
    (∀ i < 3, ∀ j < 3, (fun i => 10 * i) i = (fun i => 10 * i) j → i = j) ∧
    (List.range 2).map (partialShuffle ([5, 4].getD · 0) (fun i => 10 * i) 3 2) = [20, 10] ∧
    ∃ rand : Nat → Nat,
      (List.range 2).map (partialShuffle rand (fun i => 10 * i) 3 2) = [0, 20] := by
  have hdistinct : ∀ i < 3, ∀ j < 3, (fun i => 10 * i) i = (fun i => 10 * i) j → i = j := by decide
  refine ⟨hdistinct, by decide, ?_⟩
  obtain ⟨hbij, -, hdrawn⟩ := partial_shuffle_bijective (n := 3) (k := 2) (by decide) hdistinct
  obtain ⟨js, ⟨-, hchoices⟩, hjs⟩ := hbij.surjOn (show [0, 20] ∈ _ from ⟨rfl, by decide, by decide⟩)
  obtain ⟨rand, -, hrand⟩ := hdrawn js hchoices
  refine ⟨rand, ?_⟩
  rw [hrand]
  exact hjs

/-! ## The sample -/

section Sample

variable {malloc : Nat → Option (Nat → Nat)} {rand memory : Nat → Nat} {pattern : AccessPattern}
  {fileSize blockSize numBlocks totalBlocks : Nat} {out : Option (Nat → Nat)}

theorem compareSizeT_le (x y : Nat) : compareSizeT x y ≤ 0 ↔ x ≤ y := by
  unfold compareSizeT
  split_ifs <;> omega

theorem map_qsort (base : Nat → Nat) (count : Nat) :
    (List.range count).map (qsort base count compareSizeT) =
      ((List.range count).map base).mergeSort fun x y => decide (compareSizeT x y ≤ 0) := by
  apply List.ext_getElem
  · simp
  · intro i h₁ h₂
    rw [List.getElem_map, List.getElem_range]
    exact List.getD_eq_getElem _ _ h₂

theorem qsort_perm (base : Nat → Nat) (count : Nat) :
    ((List.range count).map (qsort base count compareSizeT)).Perm ((List.range count).map base) := by
  rw [map_qsort]
  exact List.mergeSort_perm _ _

theorem qsort_sorted (base : Nat → Nat) (count : Nat) :
    ((List.range count).map (qsort base count compareSizeT)).Pairwise (· ≤ ·) := by
  rw [map_qsort]
  have htrans : ∀ x y z, decide (compareSizeT x y ≤ 0) = true → decide (compareSizeT y z ≤ 0) = true →
      decide (compareSizeT x z ≤ 0) = true := by
    intro x y z
    simp only [decide_eq_true_eq, compareSizeT_le]
    exact Nat.le_trans
  have htotal : ∀ x y, (decide (compareSizeT x y ≤ 0) || decide (compareSizeT y x ≤ 0)) = true := by
    intro x y
    simp only [Bool.or_eq_true, decide_eq_true_eq, compareSizeT_le]
    exact Nat.le_total x y
  refine (List.pairwise_mergeSort htrans htotal _).imp ?_
  intro x y h
  exact (compareSizeT_le x y).mp (of_decide_eq_true h)

/-- The candidates in front, with those that were not drawn, are all the blocks. -/
theorem candidates_perm (rand : Nat → Nat) (pattern : AccessPattern) (memory : Nat → Nat)
    (hle : numBlocks ≤ totalBlocks) :
    ∃ rest, ((List.range numBlocks).map (candidateBlocks rand pattern totalBlocks numBlocks memory)
      ++ rest).Perm (List.range totalBlocks) := by
  let shuffled := partialShuffle rand (fill totalBlocks (fun i => i) memory) totalBlocks numBlocks
  have hall : ((List.range totalBlocks).map shuffled).Perm (List.range totalBlocks) := by
    refine (partialShuffle_perm rand _ hle).trans ?_
    rw [map_fill, List.map_id']
  have hfront : ((List.range numBlocks).map
      (candidateBlocks rand pattern totalBlocks numBlocks memory)).Perm
      ((List.range numBlocks).map shuffled) := by
    unfold candidateBlocks
    split_ifs
    · exact qsort_perm _ _
    · exact List.Perm.refl _
  obtain ⟨m, rfl⟩ := Nat.exists_eq_add_of_le hle
  refine ⟨((List.range m).map (numBlocks + ·)).map shuffled, ?_⟩
  refine (hfront.append_right _).trans ?_
  rw [← List.map_append, ← List.range_add]
  exact hall

theorem candidates_nodup (hle : numBlocks ≤ totalBlocks) :
    ((List.range numBlocks).map (candidateBlocks rand pattern totalBlocks numBlocks memory)).Nodup := by
  obtain ⟨rest, hperm⟩ := candidates_perm rand pattern memory hle
  exact (hperm.nodup_iff.mpr List.nodup_range).of_append_left

theorem candidates_lt (hle : numBlocks ≤ totalBlocks) {i : Nat} (hi : i < numBlocks) :
    candidateBlocks rand pattern totalBlocks numBlocks memory i < totalBlocks := by
  obtain ⟨rest, hperm⟩ := candidates_perm rand pattern memory hle
  refine List.mem_range.mp (hperm.subset (List.mem_append_left _ ?_))
  exact List.mem_map_of_mem (List.mem_range.mpr hi)

theorem candidates_inj (hle : numBlocks ≤ totalBlocks) {i j : Nat} (hi : i < numBlocks)
    (hj : j < numBlocks)
    (h : candidateBlocks rand pattern totalBlocks numBlocks memory i =
      candidateBlocks rand pattern totalBlocks numBlocks memory j) : i = j :=
  List.inj_on_of_nodup_map (candidates_nodup hle) (List.mem_range.mpr hi) (List.mem_range.mpr hj) h

/-- For the sequential pattern the candidates in front ascend. -/
theorem candidates_sorted (rand memory : Nat → Nat) (numBlocks totalBlocks : Nat) :
    ((List.range numBlocks).map
      (candidateBlocks rand .sequential totalBlocks numBlocks memory)).Pairwise (· ≤ ·) := by
  unfold candidateBlocks
  rw [if_pos rfl]
  exact qsort_sorted _ _

theorem candidates_lt_candidates (hle : numBlocks ≤ totalBlocks) {i j : Nat} (hij : i < j)
    (hj : j < numBlocks) :
    candidateBlocks rand .sequential totalBlocks numBlocks memory i <
      candidateBlocks rand .sequential totalBlocks numBlocks memory j := by
  have hsorted := candidates_sorted rand memory numBlocks totalBlocks
  rw [List.pairwise_iff_getElem] at hsorted
  have hij' := hsorted i j (by simp; omega) (by simpa using hj) hij
  rw [List.getElem_map, List.getElem_map, List.getElem_range, List.getElem_range] at hij'
  refine Nat.lt_of_le_of_ne hij' fun h => ?_
  have := candidates_inj hle (by omega) hj h
  omega

/-- When all the blocks are drawn, the candidates are the blocks. -/
theorem candidates_perm_range (rand : Nat → Nat) (pattern : AccessPattern) (memory : Nat → Nat)
    (totalBlocks : Nat) :
    ((List.range totalBlocks).map (candidateBlocks rand pattern totalBlocks totalBlocks memory)).Perm
      (List.range totalBlocks) := by
  obtain ⟨rest, hperm⟩ := candidates_perm rand pattern memory (Nat.le_refl totalBlocks)
  have hlen := hperm.length_eq
  rw [List.length_append, List.length_map, List.length_range] at hlen
  obtain rfl : rest = [] := List.eq_nil_of_length_eq_zero (by omega)
  rwa [List.append_nil] at hperm

theorem candidates_eq_id {i : Nat} (hi : i < totalBlocks) :
    candidateBlocks rand .sequential totalBlocks totalBlocks memory i = i := by
  have heq : (List.range totalBlocks).map
      (candidateBlocks rand .sequential totalBlocks totalBlocks memory) = List.range totalBlocks :=
    List.Perm.eq_of_pairwise (fun _ _ _ _ => Nat.le_antisymm)
      (candidates_sorted rand memory totalBlocks totalBlocks)
      (List.pairwise_lt_range.imp Nat.le_of_lt)
      (candidates_perm_range rand .sequential memory totalBlocks)
  have hget : _ = (List.range totalBlocks).getD i 0 := congrArg (·.getD i 0) heq
  rwa [List.getD_eq_getElem _ _ (by simpa using hi), List.getD_eq_getElem _ _ (by simpa using hi),
    List.getElem_map, List.getElem_range] at hget

/-- What `generate_offsets` can return: an error, with the offsets untouched, or the offsets of the
    candidates. -/
theorem generateOffsets_cases (malloc : Nat → Option (Nat → Nat)) (rand : Nat → Nat)
    (pattern : AccessPattern) (fileSize blockSize numBlocks : Nat) (out : Option (Nat → Nat)) :
    ((generateOffsets malloc rand pattern fileSize blockSize numBlocks out).1 ≠ .ok ∧
      (generateOffsets malloc rand pattern fileSize blockSize numBlocks out).2 = out) ∨
    ∃ offsets memory, out = some offsets ∧ 0 < blockSize ∧ numBlocks ≤ fileSize / blockSize ∧
      malloc (u64 (fileSize / blockSize * 8)) = some memory ∧
      generateOffsets malloc rand pattern fileSize blockSize numBlocks out =
        (.ok, some (fill numBlocks (fun i =>
          u64 (candidateBlocks rand pattern (fileSize / blockSize) numBlocks memory i * blockSize))
          offsets)) := by
  unfold generateOffsets
  cases out with
  | none => exact Or.inl ⟨nofun, rfl⟩
  | some offsets =>
      by_cases hblock : blockSize = 0
      · exact Or.inl ⟨by simp [hblock], by simp [hblock]⟩
      · by_cases hnum : numBlocks > fileSize / blockSize
        · exact Or.inl ⟨by simp [hblock, hnum], by simp [hblock, hnum]⟩
        · cases hmalloc : malloc (u64 (fileSize / blockSize * 8)) with
          | none => exact Or.inl ⟨by simp [hblock, hnum, hmalloc], by simp [hblock, hnum, hmalloc]⟩
          | some memory =>
              refine Or.inr ⟨offsets, memory, rfl, by omega, by omega, rfl, ?_⟩
              simp [hblock, hnum, hmalloc]

/-- A block of the file ends inside the file, so its offset is exact. -/
theorem block_end_le {b : Nat} (hb : b < fileSize / blockSize) :
    b * blockSize + blockSize ≤ fileSize := by
  have h : (b + 1) * blockSize ≤ fileSize / blockSize * blockSize := Nat.mul_le_mul_right _ hb
  rw [Nat.add_one_mul] at h
  exact h.trans (Nat.div_mul_le_self _ _)

/-- **`generate_offsets` draws a valid sample without replacement.** On success the offsets are those of
    distinct blocks that lie in the file, and no product wraps; for the sequential pattern they ascend; when
    as many blocks are asked for as the file has, they are the offsets of all its blocks, in order for the
    sequential pattern. An error leaves the offsets untouched, and a block size of zero, or more blocks than
    fit into the file, is an error. -/
theorem generate_offsets_sample (malloc : Nat → Option (Nat → Nat)) (rand : Nat → Nat)
    (pattern : AccessPattern) (blockSize numBlocks : Nat) (out : Option (Nat → Nat))
    (hfile : fileSize < 2 ^ 64) :
    let result := generateOffsets malloc rand pattern fileSize blockSize numBlocks out
    let totalBlocks := fileSize / blockSize
    (result.1 = .ok → ∃ memory offsets, malloc (u64 (totalBlocks * 8)) = some memory ∧
      result.2 = some offsets ∧
      (∀ i < numBlocks, i + rand i % (totalBlocks - i) < totalBlocks ∧
        offsets i = candidateBlocks rand pattern totalBlocks numBlocks memory i * blockSize ∧
        offsets i + blockSize ≤ fileSize) ∧
      (∀ i < numBlocks, ∀ j < numBlocks, offsets i = offsets j → i = j) ∧
      (pattern = .sequential → ∀ i j, i < j → j < numBlocks → offsets i < offsets j) ∧
      (numBlocks = totalBlocks →
        ((List.range numBlocks).map offsets).Perm ((List.range totalBlocks).map (· * blockSize)) ∧
        (pattern = .sequential → ∀ i < numBlocks, offsets i = i * blockSize))) ∧
    (result.1 ≠ .ok → result.2 = out) ∧
    (blockSize = 0 ∨ fileSize < numBlocks * blockSize → result.1 ≠ .ok) := by
  intro result totalBlocks
  rcases generateOffsets_cases malloc rand pattern fileSize blockSize numBlocks out with
    ⟨herr, hout⟩ | ⟨given, memory, rfl, hpos, hle, hmalloc, hok⟩
  · exact ⟨fun h => absurd h herr, fun _ => hout, fun _ => herr⟩
  · have hresult : result = _ := hok
    let blocks := candidateBlocks rand pattern totalBlocks numBlocks memory
    let offsets := fill numBlocks (fun i => u64 (blocks i * blockSize)) given
    have hend : ∀ i < numBlocks, blocks i * blockSize + blockSize ≤ fileSize := fun i hi =>
      block_end_le (candidates_lt hle hi)
    have hoffset : ∀ i < numBlocks, offsets i = blocks i * blockSize := by
      intro i hi
      have := hend i hi
      rw [show offsets i = _ from fill_apply _ _ _ _, if_pos hi, u64_of_lt (by omega)]
    refine ⟨fun _ => ⟨memory, offsets, hmalloc, by rw [hresult], ?_, ?_, ?_, ?_⟩, ?_, ?_⟩
    · intro i hi
      have hmod : rand i % (totalBlocks - i) < totalBlocks - i := Nat.mod_lt _ (by omega)
      exact ⟨by omega, hoffset i hi, hoffset i hi ▸ hend i hi⟩
    · intro i hi j hj h
      rw [hoffset i hi, hoffset j hj] at h
      exact candidates_inj hle hi hj (Nat.eq_of_mul_eq_mul_right hpos h)
    · rintro rfl i j hij hj
      rw [hoffset i (hij.trans hj), hoffset j hj]
      exact Nat.mul_lt_mul_of_pos_right (candidates_lt_candidates hle hij hj) hpos
    · intro hall
      constructor
      · have hmap : (List.range numBlocks).map offsets =
            ((List.range numBlocks).map blocks).map (· * blockSize) := by
          rw [List.map_map]
          exact List.map_congr_left fun i hi => hoffset i (List.mem_range.mp hi)
        rw [hmap]
        refine List.Perm.map _ ?_
        rw [hall]
        simpa only [blocks, hall] using candidates_perm_range rand pattern memory totalBlocks
      · rintro rfl i hi
        rw [hoffset i hi]
        simp only [blocks, hall]
        rw [candidates_eq_id (by omega)]
    · intro herr
      exact absurd (by rw [hresult]) herr
    · rintro (hzero | hlarge)
      · omega
      · have := Nat.le_trans (Nat.mul_le_mul_right blockSize hle) (Nat.div_mul_le_self _ _)
        omega

/-- Three of the four blocks of a file, in ascending order. -/
theorem generate_offsets_sample_three :
    (35 : Nat) < 2 ^ 64 ∧
    ∃ offsets : Nat → Nat,
      (generateOffsets (fun _ => some fun _ => 0) (fun i => 7 * i + 3) .sequential 35 8 3
        (some fun _ => 0)).2 = some offsets ∧
      offsets 0 < offsets 1 ∧ offsets 1 < offsets 2 ∧ offsets 2 + 8 ≤ 35 := by
  have hfile : (35 : Nat) < 2 ^ 64 := by decide
  obtain ⟨_, offsets, -, hout, hblocks, -, hsorted, -⟩ :=
    (generate_offsets_sample (fun _ => some fun _ => 0) (fun i => 7 * i + 3) .sequential 8 3
      (some fun _ => 0) hfile).1 rfl
  exact ⟨hfile, offsets, hout, hsorted rfl 0 1 (by decide) (by decide),
    hsorted rfl 1 2 (by decide) (by decide), (hblocks 2 (by decide)).2.2⟩

end Sample

end Prefetch
end SystemsPlayground
