import Mathlib.Data.List.Nodup
import Mathlib.Data.List.Perm.Basic
import Mathlib.Data.Set.Function
import Mathlib.Logic.Equiv.Basic
import Mathlib.Order.Interval.Set.Basic

/-!
# `Lib.Shuffle` — drawing without replacement by exchanging entries

An array is a function on the indices. A shuffle walks up from an index `i`, and at each index exchanges
its entry with the one at a chosen index that is not below it (`shuffle`, with the list of choices). After
the exchange the entry at `i` is final, so the entries left behind are those of a draw without replacement
(`draw`), and the draws are in one-to-one correspondence with the choices (`draw_bijOn`).
-/

namespace SystemsPlayground
namespace Shuffle

variable {α : Type*} {a : Nat → α} {i j k n x : Nat} {js : List Nat}

/-! ## Exchanging two entries -/

/-- The array with the entries at `i` and `j` exchanged. -/
def swapAt (a : Nat → α) (i j : Nat) : Nat → α := Function.update (Function.update a i (a j)) j (a i)

theorem swapAt_eq (a : Nat → α) (i j : Nat) : swapAt a i j = a ∘ Equiv.swap i j := by
  funext x
  rw [swapAt, Function.comp_apply]
  by_cases hj : x = j
  · rw [hj, Function.update_self, Equiv.swap_apply_right]
  · rw [Function.update_of_ne hj]
    by_cases hi : x = i
    · rw [hi, Function.update_self, Equiv.swap_apply_left]
    · rw [Function.update_of_ne hi, Equiv.swap_apply_of_ne_of_ne hi hj]

theorem swapAt_left (a : Nat → α) (i j : Nat) : swapAt a i j i = a j := by
  rw [swapAt_eq, Function.comp_apply, Equiv.swap_apply_left]

theorem swapAt_of_ne (hi : x ≠ i) (hj : x ≠ j) : swapAt a i j x = a x := by
  rw [swapAt_eq, Function.comp_apply, Equiv.swap_apply_of_ne_of_ne hi hj]

/-- The exchange permutes the entries below `n`. -/
theorem swapAt_perm (hi : i < n) (hj : j < n) :
    ((List.range n).map (swapAt a i j)).Perm ((List.range n).map a) := by
  have hindices : ((List.range n).map (Equiv.swap i j)).Perm (List.range n) := by
    have hnodup : ((List.range n).map (Equiv.swap i j)).Nodup :=
      List.Nodup.map (Equiv.swap i j).injective List.nodup_range
    refine (List.perm_ext_iff_of_nodup hnodup List.nodup_range).mpr ?_
    intro y
    have hswap : ∀ z, z < n → Equiv.swap i j z < n := by
      intro z hz
      rw [Equiv.swap_apply_def]
      split_ifs
      · exact hj
      · exact hi
      · exact hz
    rw [List.mem_map, List.mem_range]
    constructor
    · rintro ⟨z, hz, rfl⟩
      exact hswap z (List.mem_range.mp hz)
    · intro hy
      exact ⟨Equiv.swap i j y, List.mem_range.mpr (hswap y hy), Equiv.swap_apply_self i j y⟩
  rw [swapAt_eq, ← List.map_map]
  exact hindices.map a

/-- What the exchange leaves above `i` is what was there from `i` on, without the chosen entry. -/
theorem swapAt_image (ha : Set.InjOn a (Set.Ico i n)) (hij : i ≤ j) (hj : j < n) {y : α} :
    y ∈ swapAt a i j '' Set.Ico (i + 1) n ↔ y ∈ a '' Set.Ico i n ∧ y ≠ a j := by
  constructor
  · rintro ⟨m, ⟨hm, hmn⟩, rfl⟩
    by_cases hmj : m = j
    · rw [hmj, swapAt_eq, Function.comp_apply, Equiv.swap_apply_right]
      refine ⟨⟨i, ⟨Nat.le_refl i, by omega⟩, rfl⟩, fun he => ?_⟩
      have := ha ⟨Nat.le_refl i, by omega⟩ ⟨hij, hj⟩ he
      omega
    · rw [swapAt_of_ne (by omega) hmj]
      exact ⟨⟨m, ⟨by omega, hmn⟩, rfl⟩, fun he => hmj (ha ⟨by omega, hmn⟩ ⟨hij, hj⟩ he)⟩
  · rintro ⟨⟨m, ⟨hm, hmn⟩, rfl⟩, hne⟩
    have hmj : m ≠ j := fun he => hne (by rw [he])
    by_cases hmi : m = i
    · refine ⟨j, ⟨by omega, hj⟩, ?_⟩
      rw [hmi, swapAt_eq, Function.comp_apply, Equiv.swap_apply_right]
    · exact ⟨m, ⟨by omega, hmn⟩, swapAt_of_ne hmi hmj⟩

theorem swapAt_injOn (ha : Set.InjOn a (Set.Ico i n)) (hij : i ≤ j) (hj : j < n) :
    Set.InjOn (swapAt a i j) (Set.Ico (i + 1) n) := by
  have hmaps : ∀ m ∈ Set.Ico (i + 1) n, Equiv.swap i j m ∈ Set.Ico i n := by
    rintro m ⟨hm, hmn⟩
    rw [Equiv.swap_apply_def]
    split_ifs
    · exact ⟨hij, hj⟩
    · exact ⟨Nat.le_refl i, by omega⟩
    · exact ⟨by omega, hmn⟩
  intro m hm m' hm' he
  rw [swapAt_eq, Function.comp_apply, Function.comp_apply] at he
  exact (Equiv.swap i j).injective (ha (hmaps m hm) (hmaps m' hm') he)

/-! ## The shuffle -/

/-- Exchange the entries at `i`, `i + 1`, … with those at the chosen indices, one after the other. -/
def shuffle : Nat → List Nat → (Nat → α) → Nat → α
  | _, [], a => a
  | i, j :: js, a => shuffle (i + 1) js (swapAt a i j)

/-- The choices for the indices from `i` on: each is below `n` and not below its own index. -/
def Choices (n : Nat) : Nat → List Nat → Prop
  | _, [] => True
  | i, j :: js => (i ≤ j ∧ j < n) ∧ Choices n (i + 1) js

/-- The entries that the choices select, in the order in which they are selected. -/
def draw : Nat → List Nat → (Nat → α) → List α
  | _, [], _ => []
  | i, j :: js, a => a j :: draw (i + 1) js (swapAt a i j)

theorem choices_iff : Choices n i js ↔ ∀ m < js.length, i + m ≤ js.getD m 0 ∧ js.getD m 0 < n := by
  induction js generalizing i with
  | nil => simp [Choices]
  | cons j js ih =>
      rw [Choices, ih]
      constructor
      · rintro ⟨hj, hjs⟩ m hm
        cases m with
        | zero => exact hj
        | succ m =>
            have := hjs m (by simpa using hm)
            rw [List.getD_cons_succ]
            omega
      · intro h
        refine ⟨h 0 (by simp), fun m hm => ?_⟩
        have := h (m + 1) (by simpa using hm)
        rw [List.getD_cons_succ] at this
        omega

/-- An index that the walk has passed keeps its entry. -/
theorem shuffle_of_lt (hjs : Choices n i js) (hx : x < i) : shuffle i js a x = a x := by
  induction js generalizing i a with
  | nil => rfl
  | cons j js ih =>
      obtain ⟨⟨hij, -⟩, hjs⟩ := hjs
      rw [shuffle, ih hjs (by omega), swapAt_of_ne (by omega) (by omega)]

theorem length_draw : (draw i js a).length = js.length := by
  induction js generalizing i a with
  | nil => rfl
  | cons j js ih => rw [draw, List.length_cons, ih, List.length_cons]

/-- The shuffle leaves behind what it draws. -/
theorem map_shuffle (hjs : Choices n i js) :
    (List.range' i js.length).map (shuffle i js a) = draw i js a := by
  induction js generalizing i a with
  | nil => rfl
  | cons j js ih =>
      obtain ⟨hj, hjs⟩ := hjs
      have hfirst : shuffle (i + 1) js (swapAt a i j) i = a j := by
        rw [shuffle_of_lt hjs (Nat.lt_succ_self i), swapAt_left]
      rw [List.length_cons, List.range'_succ, List.map_cons, shuffle, hfirst, draw, ih hjs]

/-- **The array stays a permutation of itself.** -/
theorem shuffle_perm (hjs : Choices n i js) :
    ((List.range n).map (shuffle i js a)).Perm ((List.range n).map a) := by
  induction js generalizing i a with
  | nil => exact List.Perm.refl _
  | cons j js ih =>
      obtain ⟨⟨hij, hj⟩, hjs⟩ := hjs
      exact (ih hjs).trans (swapAt_perm (by omega) hj)

/-! ## Choices and draws -/

theorem draw_mem (ha : Set.InjOn a (Set.Ico i n)) (hjs : Choices n i js) :
    (draw i js a).Nodup ∧ ∀ y ∈ draw i js a, y ∈ a '' Set.Ico i n := by
  induction js generalizing i a with
  | nil => exact ⟨List.nodup_nil, by simp [draw]⟩
  | cons j js ih =>
      obtain ⟨⟨hij, hj⟩, hjs⟩ := hjs
      obtain ⟨hnodup, hmem⟩ := ih (swapAt_injOn ha hij hj) hjs
      have hrest : ∀ y ∈ draw (i + 1) js (swapAt a i j), y ∈ a '' Set.Ico i n ∧ y ≠ a j := fun y hy =>
        (swapAt_image ha hij hj).mp (hmem y hy)
      refine ⟨List.nodup_cons.mpr ⟨fun h => (hrest _ h).2 rfl, hnodup⟩, ?_⟩
      intro y hy
      rcases List.mem_cons.mp hy with rfl | hy
      · exact ⟨j, ⟨hij, hj⟩, rfl⟩
      · exact (hrest y hy).1

/-- Each draw comes from one sequence of choices only: its first entry tells the first choice. -/
theorem draw_inj {js' : List Nat} (ha : Set.InjOn a (Set.Ico i n)) (hjs : Choices n i js)
    (hjs' : Choices n i js') (h : draw i js a = draw i js' a) : js = js' := by
  induction js generalizing i a js' with
  | nil =>
      cases js' with
      | nil => rfl
      | cons j' js' => exact absurd h (by simp [draw])
  | cons j js ih =>
      cases js' with
      | nil => exact absurd h (by simp [draw])
      | cons j' js' =>
          obtain ⟨⟨hij, hj⟩, hjs⟩ := hjs
          obtain ⟨⟨hij', hj'⟩, hjs'⟩ := hjs'
          obtain ⟨hfirst, hrest⟩ := List.cons.inj h
          obtain rfl : j = j' := ha ⟨hij, hj⟩ ⟨hij', hj'⟩ hfirst
          rw [ih (swapAt_injOn ha hij hj) hjs hjs' hrest]

/-- Every list of distinct entries is drawn. -/
theorem draw_surj {l : List α} (ha : Set.InjOn a (Set.Ico i n)) (hl : l.Nodup)
    (hmem : ∀ y ∈ l, y ∈ a '' Set.Ico i n) : ∃ js, Choices n i js ∧ draw i js a = l := by
  induction l generalizing i a with
  | nil => exact ⟨[], trivial, rfl⟩
  | cons y l ih =>
      obtain ⟨hy, hl'⟩ := List.nodup_cons.mp hl
      obtain ⟨j, ⟨hij, hj⟩, rfl⟩ := hmem y List.mem_cons_self
      have hrest : ∀ z ∈ l, z ∈ swapAt a i j '' Set.Ico (i + 1) n := fun z hz =>
        (swapAt_image ha hij hj).mpr ⟨hmem z (List.mem_cons_of_mem _ hz), fun he => hy (he ▸ hz)⟩
      obtain ⟨js, hjs, rfl⟩ := ih (swapAt_injOn ha hij hj) hl' hrest
      exact ⟨j :: js, ⟨⟨hij, hj⟩, hjs⟩, rfl⟩

/-- **Choices and draws correspond one to one.** -/
theorem draw_bijOn (ha : Set.InjOn a (Set.Ico i n)) (k : Nat) :
    Set.BijOn (fun js => draw i js a) {js | js.length = k ∧ Choices n i js}
      {l | l.length = k ∧ l.Nodup ∧ ∀ y ∈ l, y ∈ a '' Set.Ico i n} := by
  refine ⟨?_, ?_, ?_⟩
  · rintro js ⟨hlen, hjs⟩
    exact ⟨length_draw.trans hlen, draw_mem ha hjs⟩
  · rintro js ⟨-, hjs⟩ js' ⟨-, hjs'⟩ h
    exact draw_inj ha hjs hjs' h
  · rintro l ⟨hlen, hl, hmem⟩
    obtain ⟨js, hjs, rfl⟩ := draw_surj ha hl hmem
    exact ⟨js, ⟨length_draw.symm.trans hlen, hjs⟩, rfl⟩

end Shuffle
end SystemsPlayground
