import Mathlib.Data.List.Basic

/-!
# `Lib.Checked` — programs that may stop

A program is a value of `Except ε α`: it ends with a value, or stops for a reason. `Ends E x P` says that `x`
ends with a value that satisfies `P`, or stops for a reason in `E`; it goes through binds (`Ends.bind`) and
loops (`Ends.foldlM`). A loop whose steps cannot stop is a plain fold (`foldlM_eq_ok`).
-/

namespace SystemsPlayground
namespace Checked

universe u v

variable {ε : Type u} {α β : Type v} {E : ε → Prop} {P : α → Prop} {Q : β → Prop}

/-- The program ends with a value that satisfies `P`, or stops for a reason in `E`. -/
def Ends (E : ε → Prop) (x : Except ε α) (P : α → Prop) : Prop :=
  match x with
  | .ok a    => P a
  | .error e => E e

@[simp] theorem ok_bind (a : α) (f : α → Except ε β) : (Except.ok a >>= f) = f a := rfl

@[simp] theorem error_bind (e : ε) (f : α → Except ε β) : (Except.error e >>= f) = Except.error e := rfl

theorem Ends.bind {x : Except ε α} {f : α → Except ε β} (hx : Ends E x P)
    (hf : ∀ a, P a → Ends E (f a) Q) : Ends E (x >>= f) Q := by
  cases x with
  | error e => exact hx
  | ok a => exact hf a hx

/-- What every step of a loop keeps. -/
theorem Ends.foldlM {ι : Type*} {f : α → ι → Except ε α} {l : List ι} {a : α} (ha : P a)
    (hstep : ∀ i ∈ l, ∀ a, P a → Ends E (f a i) P) : Ends E (l.foldlM f a) P := by
  induction l generalizing a with
  | nil => exact ha
  | cons i l ih =>
      rw [List.foldlM_cons]
      refine Ends.bind (hstep i List.mem_cons_self a ha) ?_
      intro a' ha'
      exact ih ha' fun j hj => hstep j (List.mem_cons_of_mem i hj)

/-- A loop whose steps do not stop as long as `P` holds. -/
theorem foldlM_eq_ok {ι : Type*} {f : α → ι → Except ε α} {g : α → ι → α} {l : List ι} {a : α} (ha : P a)
    (hstep : ∀ i ∈ l, ∀ a, P a → f a i = .ok (g a i) ∧ P (g a i)) :
    l.foldlM f a = .ok (l.foldl g a) := by
  induction l generalizing a with
  | nil => rfl
  | cons i l ih =>
      obtain ⟨hok, hkeep⟩ := hstep i List.mem_cons_self a ha
      rw [List.foldlM_cons, hok, List.foldl_cons]
      exact ih hkeep fun j hj => hstep j (List.mem_cons_of_mem i hj)

end Checked
end SystemsPlayground
