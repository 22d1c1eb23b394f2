import Mathlib.Data.List.Basic
import Mathlib.Logic.Relation

/-!
# `Lib.Runs` — runs of a transition system

A transition system is a relation `step s a t`: in the state `s` the action `a` can lead to `t`. `Reaches`
is its reachability, and `Reaches.inv` the rule that what every step preserves holds in every state reached.

A `Run` keeps its trace, the actions with the state before each of them. Its invariant rule is relative to
a condition on the actions (`Run.inv`). If moreover an action that does not meet the condition always
destroys the property in question, the condition is exact: the property holds all along a run if and only
if every action of the run meets the condition (`Run.always_iff`).
-/

namespace SystemsPlayground
namespace Runs

variable {σ α : Type*} {step : σ → α → σ → Prop} {s t u : σ} {tr : List (σ × α)}

/-! ## Reachability -/

/-- Some sequence of actions leads from `s` to `t`. -/
def Reaches (step : σ → α → σ → Prop) : σ → σ → Prop :=
  Relation.ReflTransGen fun s t => ∃ a, step s a t

theorem Reaches.refl : Reaches step s s := Relation.ReflTransGen.refl

theorem Reaches.tail {a : α} (h : Reaches step s t) (hstep : step t a u) : Reaches step s u :=
  Relation.ReflTransGen.tail h ⟨a, hstep⟩

theorem Reaches.trans (h : Reaches step s t) (h' : Reaches step t u) : Reaches step s u :=
  Relation.ReflTransGen.trans h h'

/-- **Invariant rule.** What every step preserves holds in every state reached. -/
theorem Reaches.inv {I : σ → Prop} (h : Reaches step s t) (hi : I s)
    (hkeep : ∀ {s a t}, I s → step s a t → I t) : I t := by
  induction h with
  | refl => exact hi
  | tail _ hstep ih =>
      obtain ⟨a, hstep⟩ := hstep
      exact hkeep ih hstep

/-! ## Runs with their trace -/

/-- Runs, with the state before each action. -/
inductive Run (step : σ → α → σ → Prop) : σ → List (σ × α) → σ → Prop where
  | nil {s : σ} : Run step s [] s
  | snoc {s t u : σ} {a : α} {tr : List (σ × α)} :
      Run step s tr t → step t a u → Run step s (tr ++ [(t, a)]) u

theorem Run.reaches (h : Run step s tr t) : Reaches step s t := by
  induction h with
  | nil => exact Reaches.refl
  | snoc _ hstep ih => exact ih.tail hstep

theorem Run.cons {a : α} (hstep : step s a t) (h : Run step t tr u) : Run step s ((s, a) :: tr) u := by
  induction h with
  | nil => exact Run.snoc Run.nil hstep
  | snoc _ hlast ih => exact Run.snoc ih hlast

/-- The states and actions that a function goes through. -/
def plays (next : σ → α → σ) : σ → List α → List (σ × α)
  | _, []      => []
  | s, a :: as => (s, a) :: plays next (next s a) as

/-- A function that steps as the system does makes a run. -/
theorem Run.play {next : σ → α → σ} (as : List α) (h : ∀ x ∈ plays next s as, step x.1 x.2 (next x.1 x.2)) :
    Run step s (plays next s as) (as.foldl next s) := by
  induction as generalizing s with
  | nil => exact Run.nil
  | cons a as ih =>
      obtain ⟨hfirst, hrest⟩ := List.forall_mem_cons.mp h
      exact Run.cons hfirst (ih hrest)

/-- A run of a system whose actions are a kind of those of another one. -/
theorem Run.map {β : Type*} {step' : σ → β → σ → Prop} (f : β → α) (hstep : ∀ {s b t}, step' s b t → step s (f b) t)
    {tr : List (σ × β)} (h : Run step' s tr t) : Run step s (tr.map (Prod.map id f)) t := by
  induction h with
  | nil => exact Run.nil
  | snoc _ hlast ih =>
      rw [List.map_append]
      exact Run.snoc ih (hstep hlast)

section Condition

variable {I P : σ → Prop} {C : σ → α → Prop}

/-- **Invariant rule under a condition.** If the steps that meet `C` preserve `I`, then `I` holds all along
    a run whose actions meet `C`. -/
theorem Run.inv (h : Run step s tr t) (hi : I s) (hkeep : ∀ {s a t}, I s → C s a → step s a t → I t)
    (hc : ∀ x ∈ tr, C x.1 x.2) : (∀ x ∈ tr, I x.1) ∧ I t := by
  induction h with
  | nil => exact ⟨by simp, hi⟩
  | @snoc t u a tr _ hstep ih =>
      obtain ⟨htr, ht⟩ := ih fun x hx => hc x (List.mem_append_left _ hx)
      refine ⟨?_, hkeep ht (hc (t, a) (by simp)) hstep⟩
      intro x hx
      rcases List.mem_append.mp hx with hx | hx
      · exact htr x hx
      · rw [List.mem_singleton.mp hx]
        exact ht

/-- **Exact conditions.** Let `I` be an invariant under `C` that implies `P`. If a step from a state with
    `I` that does not meet `C` always leads out of `P`, then `P` holds all along a run exactly when all
    its actions meet `C`. -/
theorem Run.always_iff (h : Run step s tr t) (hi : I s) (himp : ∀ {s}, I s → P s)
    (hkeep : ∀ {s a t}, I s → C s a → step s a t → I t)
    (hbreak : ∀ {s a t}, I s → ¬ C s a → step s a t → ¬ P t) :
    ((∀ x ∈ tr, P x.1) ∧ P t) ↔ ∀ x ∈ tr, C x.1 x.2 := by
  constructor
  · induction h with
    | nil => simp
    | @snoc t u a tr hpre hstep ih =>
        rintro ⟨htr, hu⟩ x hx
        have hc := ih ⟨fun y hy => htr y (List.mem_append_left _ hy), htr (t, a) (by simp)⟩
        rcases List.mem_append.mp hx with hx | hx
        · exact hc x hx
        · rw [List.mem_singleton.mp hx]
          -- up to here all actions met the condition, so the first that does not leads out of `P`
          by_contra hbad
          exact hbreak (hpre.inv hi hkeep hc).2 hbad hstep hu
  · intro hc
    obtain ⟨htr, ht⟩ := h.inv hi hkeep hc
    exact ⟨fun x hx => himp (htr x hx), himp ht⟩

end Condition

end Runs
end SystemsPlayground
