import Mathlib.Data.List.Nodup
import Mathlib.Data.List.Perm.Basic
import Mathlib.Logic.Function.Basic

/-!
# `Lib.Custody` — tokens that wait in places

Tokens wait in places, in a list at each, and whoever moves some of them has these in hand meanwhile. `Kept`
says that no token is lost or doubled: each is in hand or at one place only, and there once; and that it is
at a place where it belongs. What is done to tokens is `put` and `take`, in whatever order the list at the
place has afterwards.
-/

namespace SystemsPlayground
namespace Custody

variable {P α : Type*}

/-- Every token of `all` is in hand or at exactly one place, once, and at a place where it belongs. -/
structure Kept (Belongs : P → α → Prop) (place : P → List α) (hand : List α) (all : List α) : Prop where
  nodup : ∀ p, (place p).Nodup
  hand_nodup : hand.Nodup
  unique : ∀ {p p' x}, x ∈ place p → x ∈ place p' → p = p'
  apart : ∀ {p x}, x ∈ place p → x ∉ hand
  mem_all : ∀ x, x ∈ all ↔ x ∈ hand ∨ ∃ p, x ∈ place p
  home : ∀ {p x}, x ∈ place p → Belongs p x

namespace Kept

variable {Belongs : P → α → Prop} {place : P → List α} {hand hand' xs rest all : List α} {p : P} {x : α}

/-- Nothing anywhere. -/
theorem empty : Kept Belongs (fun _ => []) [] [] :=
  ⟨fun _ => List.nodup_nil, List.nodup_nil, fun h => absurd h List.not_mem_nil,
    fun h => absurd h List.not_mem_nil, fun x => by simp, fun h => absurd h List.not_mem_nil⟩

/-- The order in the hand does not matter. -/
theorem perm (h : Kept Belongs place hand all) (hp : hand'.Perm hand) : Kept Belongs place hand' all where
  nodup := h.nodup
  hand_nodup := hp.nodup_iff.mpr h.hand_nodup
  unique := h.unique
  apart := fun hx => hp.mem_iff.not.mpr (h.apart hx)
  mem_all := fun x => by rw [h.mem_all, hp.mem_iff]
  home := h.home

theorem mem_of_hand (h : Kept Belongs place hand all) (hx : x ∈ hand) : x ∈ all :=
  (h.mem_all x).mpr (Or.inl hx)

theorem mem_of_place (h : Kept Belongs place hand all) (hx : x ∈ place p) : x ∈ all :=
  (h.mem_all x).mpr (Or.inr ⟨p, hx⟩)

/-- A new token. -/
theorem arrive (h : Kept Belongs place hand all) (hx : x ∉ all) :
    Kept Belongs place (x :: hand) (x :: all) where
  nodup := h.nodup
  hand_nodup := List.nodup_cons.mpr ⟨fun hm => hx (h.mem_of_hand hm), h.hand_nodup⟩
  unique := h.unique
  apart := fun hy hm => by
    rcases List.mem_cons.mp hm with rfl | hm
    · exact hx (h.mem_of_place hy)
    · exact h.apart hy hm
  mem_all := fun y => by rw [List.mem_cons, List.mem_cons, h.mem_all, or_assoc]
  home := h.home

/-- With nothing in hand, every token is at exactly one place. -/
theorem existsUnique (h : Kept Belongs place [] all) (hx : x ∈ all) : ∃! p, x ∈ place p := by
  obtain ⟨p, hp⟩ := ((h.mem_all x).mp hx).resolve_left List.not_mem_nil
  exact ⟨p, hp, fun q hq => h.unique hq hp⟩

variable [DecidableEq P]

/-- **Put.** Tokens of the hand go to a place where they belong. -/
theorem put (xs : List α) {l : List α} (h : Kept Belongs place (xs ++ hand) all) (hl : l.Perm (xs ++ place p))
    (hb : ∀ x ∈ xs, Belongs p x) : Kept Belongs (Function.update place p l) hand all := by
  obtain ⟨hxs, hhand, hdis⟩ := List.nodup_append'.mp h.hand_nodup
  -- a token at a place afterwards is one that was put, or was there before
  have hmem : ∀ {q x}, x ∈ Function.update place p l q → (q = p ∧ x ∈ xs) ∨ x ∈ place q := by
    intro q x hx
    rw [Function.update_apply] at hx
    split_ifs at hx with hq
    · rw [hl.mem_iff, List.mem_append] at hx
      rcases hx with hx | hx
      · exact Or.inl ⟨hq, hx⟩
      · exact Or.inr (hq ▸ hx)
    · exact Or.inr hx
  have hput : ∀ {x}, x ∈ xs → x ∈ Function.update place p l p := by
    intro x hx
    rw [Function.update_self, hl.mem_iff, List.mem_append]
    exact Or.inl hx
  have hold : ∀ {q x}, x ∈ place q → x ∈ Function.update place p l q := by
    intro q x hx
    rw [Function.update_apply]
    split_ifs with hq
    · rw [hl.mem_iff, List.mem_append]
      exact Or.inr (hq ▸ hx)
    · exact hx
  refine ⟨?_, hhand, ?_, ?_, ?_, ?_⟩
  · intro q
    rw [Function.update_apply]
    split_ifs
    · rw [hl.nodup_iff, List.nodup_append']
      exact ⟨hxs, h.nodup p, fun x hx hx' => h.apart hx' (List.mem_append_left _ hx)⟩
    · exact h.nodup q
  · intro q q' x hx hx'
    rcases hmem hx with ⟨hq, hput⟩ | hput <;> rcases hmem hx' with ⟨hq', hput'⟩ | hput'
    · rw [hq, hq']
    · exact absurd (List.mem_append_left _ hput) (h.apart hput')
    · exact absurd (List.mem_append_left _ hput') (h.apart hput)
    · exact h.unique hput hput'
  · intro q x hx
    rcases hmem hx with ⟨-, hx⟩ | hx
    · exact hdis hx
    · exact fun hm => h.apart hx (List.mem_append_right _ hm)
  · intro x
    rw [h.mem_all, List.mem_append]
    constructor
    · rintro ((hx | hx) | ⟨q, hx⟩)
      · exact Or.inr ⟨p, hput hx⟩
      · exact Or.inl hx
      · exact Or.inr ⟨q, hold hx⟩
    · rintro (hx | ⟨q, hx⟩)
      · exact Or.inl (Or.inr hx)
      · rcases hmem hx with ⟨-, hx⟩ | hx
        · exact Or.inl (Or.inl hx)
        · exact Or.inr ⟨q, hx⟩
  · intro q x hx
    rcases hmem hx with ⟨hq, hput⟩ | hold
    · exact hq ▸ hb x hput
    · exact h.home hold

/-- **Take.** Tokens of a place go into the hand. -/
theorem take (xs rest : List α) (h : Kept Belongs place hand all) (hl : (place p).Perm (xs ++ rest)) :
    Kept Belongs (Function.update place p rest) (xs ++ hand) all := by
  obtain ⟨hxs, hrest, hdis⟩ := List.nodup_append'.mp (hl.nodup_iff.mp (h.nodup p))
  have hmem : ∀ {q x}, x ∈ Function.update place p rest q → x ∈ place q := by
    intro q x hx
    rw [Function.update_apply] at hx
    split_ifs at hx with hq
    · rw [hq, hl.mem_iff]
      exact List.mem_append_right _ hx
    · exact hx
  have htaken : ∀ {x}, x ∈ xs → x ∈ place p := fun hx => hl.mem_iff.mpr (List.mem_append_left _ hx)
  refine ⟨?_, ?_, fun hx hx' => h.unique (hmem hx) (hmem hx'), ?_, ?_, fun hx => h.home (hmem hx)⟩
  · intro q
    rw [Function.update_apply]
    split_ifs
    · exact hrest
    · exact h.nodup q
  · exact List.nodup_append'.mpr ⟨hxs, h.hand_nodup, fun x hx hx' => h.apart (htaken hx) hx'⟩
  · intro q x hx hm
    rcases List.mem_append.mp hm with hm | hm
    · obtain rfl := h.unique (hmem hx) (htaken hm)
      rw [Function.update_self] at hx
      exact hdis hm hx
    · exact h.apart (hmem hx) hm
  · intro x
    rw [h.mem_all, List.mem_append]
    constructor
    · rintro (hx | ⟨q, hx⟩)
      · exact Or.inl (Or.inr hx)
      · by_cases hq : q = p
        · rw [hq, hl.mem_iff, List.mem_append] at hx
          rcases hx with hx | hx
          · exact Or.inl (Or.inl hx)
          · exact Or.inr ⟨p, by rwa [Function.update_self]⟩
        · exact Or.inr ⟨q, by rwa [Function.update_of_ne hq]⟩
    · rintro ((hx | hx) | ⟨q, hx⟩)
      · exact Or.inr ⟨p, htaken hx⟩
      · exact Or.inl hx
      · exact Or.inr ⟨q, hmem hx⟩

end Kept

end Custody
end SystemsPlayground
