import Mathlib.Data.List.Basic
import Mathlib.Data.List.Induction

/-!
# `Lib.Saturating` — counters that stop at both ends

A counter goes up and down by one and stops at 0 and at a bound `N`. Where it stands depends on the whole
history, since what is cut off at either end is forgotten. `le_run_iff` says when it is at least `t` in terms
of the history alone: some last part of the history has gone up by `t` more than down, and nothing within that
part was so long a descent that the bound would have been forgotten.
-/

namespace SystemsPlayground
namespace Saturating

/-- One step of a counter with the bound `N`: up for `true`, down for `false`. -/
def step (N c : Nat) : Bool → Nat
  | true => if c < N then c + 1 else c
  | false => c - 1

/-- The counter after the steps `l`, from 0 on. -/
def run (N : Nat) (l : List Bool) : Nat := l.foldl (step N) 0

/-- The number of steps up less the number of steps down. -/
def net : List Bool → Int
  | [] => 0
  | true :: l => net l + 1
  | false :: l => net l - 1

theorem run_concat (N : Nat) (l : List Bool) (b : Bool) : run N (l ++ [b]) = step N (run N l) b := by
  simp [run]

theorem net_concat (l : List Bool) (b : Bool) : net (l ++ [b]) = net l + if b then 1 else -1 := by
  induction l with
  | nil => cases b <;> rfl
  | cons c l ih =>
      cases c
      · rw [List.cons_append, net, net, ih]
        omega
      · rw [List.cons_append, net, net, ih]
        omega

theorem run_le (N : Nat) (l : List Bool) : run N l ≤ N := by
  induction l using List.reverseRecOn with
  | nil => exact Nat.zero_le N
  | append_singleton l b ih =>
      rw [run_concat]
      cases b
      · exact Nat.le_trans (Nat.sub_le _ _) ih
      · rw [step]
        split_ifs with h
        · exact h
        · exact ih

/-- The last part `s` of a history has gone up by `t`, and no last part of it has gone down by more than
    `N - t`. -/
def Rises (N : Nat) (t : Int) (s : List Bool) : Prop := t ≤ net s ∧ ∀ s', s' <:+ s → t - N ≤ net s'

/-- One more step shifts the height by that step. -/
theorem rises_concat {N : Nat} {t : Int} (ht : t ≤ N) (s : List Bool) (b : Bool) :
    Rises N t (s ++ [b]) ↔ Rises N (t - if b then 1 else -1) s := by
  unfold Rises
  rw [net_concat]
  constructor
  · rintro ⟨h₁, h₂⟩
    refine ⟨by omega, fun s' hs' => ?_⟩
    have := h₂ (s' ++ [b]) (List.suffix_concat_iff.mpr (Or.inr ⟨s', rfl, hs'⟩))
    rw [net_concat] at this
    omega
  · rintro ⟨h₁, h₂⟩
    refine ⟨by omega, fun s' hs' => ?_⟩
    rcases List.suffix_concat_iff.mp hs' with rfl | ⟨s'', rfl, hs''⟩
    · simp only [net]
      omega
    · have := h₂ s'' hs''
      rw [net_concat]
      omega

/-- For a height above 0, the part of the history cannot be empty. -/
theorem exists_rises_concat {N : Nat} {t : Int} (hpos : 0 < t) (ht : t ≤ N) (l : List Bool) (b : Bool) :
    (∃ s, s <:+ l ++ [b] ∧ Rises N t s) ↔ ∃ s, s <:+ l ∧ Rises N (t - if b then 1 else -1) s := by
  constructor
  · rintro ⟨s, hs, hr⟩
    rcases List.suffix_concat_iff.mp hs with rfl | ⟨s', rfl, hs'⟩
    · have := hr.1
      simp only [net] at this
      omega
    · exact ⟨s', hs', (rises_concat ht s' b).mp hr⟩
  · rintro ⟨s, hs, hr⟩
    exact ⟨s ++ [b], List.suffix_concat_iff.mpr (Or.inr ⟨s, rfl, hs⟩), (rises_concat ht s b).mpr hr⟩

/-- **Where a saturating counter stands.** It is at least `t` exactly if some last part of the history rises
    to `t`. -/
theorem le_run_iff {N : Nat} (l : List Bool) :
    ∀ {t : Int}, 0 < t → t ≤ N → (t ≤ run N l ↔ ∃ s, s <:+ l ∧ Rises N t s) := by
  induction l using List.reverseRecOn with
  | nil =>
      intro t hpos ht
      constructor
      · intro h
        simp only [run, List.foldl_nil] at h
        omega
      · rintro ⟨s, hs, hr⟩
        obtain rfl := List.suffix_nil.mp hs
        have := hr.1
        simp only [net] at this
        omega
  | append_singleton l b ih =>
      intro t hpos ht
      rw [exists_rises_concat hpos ht, run_concat]
      have hle := run_le N l
      cases b with
      | true =>
          simp only [if_true]
          have hstep : t ≤ (step N (run N l) true : Nat) ↔ t - 1 ≤ (run N l : Nat) := by
            rw [step]
            split_ifs <;> omega
          rw [hstep]
          rcases Int.lt_or_le 0 (t - 1) with hpos' | hzero
          · exact ih hpos' (by omega)
          · -- the height is 1: the empty history is enough
            refine ⟨fun _ => ⟨[], List.nil_suffix, by simp only [net]; omega, ?_⟩, fun _ => by omega⟩
            intro s' hs'
            obtain rfl := List.suffix_nil.mp hs'
            simp only [net]
            omega
      | false =>
          simp only [Bool.false_eq_true, if_false]
          have hstep : t ≤ (step N (run N l) false : Nat) ↔ t - -1 ≤ (run N l : Nat) := by
            rw [step]
            omega
          rw [hstep]
          rcases Int.lt_or_le t N with hlt | htop
          · exact ih (by omega) (by omega)
          · -- at the bound a step down always counts
            refine ⟨fun h => by omega, ?_⟩
            rintro ⟨s, -, hr⟩
            have := hr.2 [] List.nil_suffix
            simp only [net] at this
            omega

end Saturating
end SystemsPlayground
