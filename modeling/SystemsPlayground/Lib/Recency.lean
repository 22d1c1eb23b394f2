import Mathlib.Data.List.Nodup
import Mathlib.Data.List.Perm.Lattice
import Mathlib.Data.List.Dedup

/-!
# `Lib.Recency` — bounded lists in order of recency

A recency list holds distinct elements, the most recently used first. `touch` moves an element to the
front, adding it if it is absent; `insert c` does so in a list bounded by `c`, which drops its last
element to make room. `recent log` is the unbounded recency list of a whole log of touches (latest
touch first), and `insert_take` says that the bounded list is always its first `c` elements.
-/

namespace SystemsPlayground
namespace Recency

variable {α : Type*} [DecidableEq α] {c : Nat} {l : List α} {b : α}

/-- Move `b` to the front. -/
def touch (l : List α) (b : α) : List α := b :: l.erase b

/-- Insert `b` into the list `l` bounded by `c`. -/
def insert (c : Nat) (l : List α) (b : α) : List α :=
  if b ∈ l then touch l b
  else if l.length < c then b :: l
  else b :: l.dropLast

/-- The elements of a log, latest touch first, in order of their latest touch. -/
def recent : List α → List α
  | []       => []
  | b :: log => touch (recent log) b

theorem nodup_touch (h : l.Nodup) : (touch l b).Nodup :=
  List.nodup_cons.mpr ⟨fun hm => (List.Nodup.mem_erase_iff h).mp hm |>.1 rfl, h.erase b⟩

theorem mem_touch {x : α} : x ∈ touch l b ↔ x = b ∨ x ∈ l := by
  unfold touch
  rw [List.mem_cons]
  by_cases hx : x = b
  · simp [hx]
  · simp [hx, List.mem_erase_of_ne hx]

/-- Touching an element of a list without duplicates takes it out of its place. -/
theorem touch_append_cons {A B : List α} (h : (A ++ b :: B).Nodup) :
    touch (A ++ b :: B) b = b :: (A ++ B) := by
  have hA : b ∉ A := fun hb => (List.nodup_append.mp h).2.2 b hb b List.mem_cons_self rfl
  rw [touch, List.erase_append_right _ hA, List.erase_cons_head]

theorem nodup_recent (log : List α) : (recent log).Nodup := by
  induction log with
  | nil => exact List.nodup_nil
  | cons b log ih => exact nodup_touch ih

theorem mem_recent {log : List α} {x : α} : x ∈ recent log ↔ x ∈ log := by
  induction log with
  | nil => simp [recent]
  | cons b log ih => rw [recent, mem_touch, ih, List.mem_cons]

/-- The recency list is ordered by the position of the latest touch in the log. -/
theorem pairwise_recent (log : List α) :
    (recent log).Pairwise fun x y => log.idxOf x < log.idxOf y := by
  induction log with
  | nil => exact List.Pairwise.nil
  | cons b log ih =>
      have hne : ∀ x ∈ (recent log).erase b, x ≠ b := fun x hx =>
        ((List.Nodup.mem_erase_iff (nodup_recent log)).mp hx).1
      refine List.Pairwise.cons ?_ ?_
      · intro x hx
        rw [List.idxOf_cons_self, List.idxOf_cons_ne _ (Ne.symm (hne x hx))]
        omega
      · refine List.Pairwise.imp_of_mem ?_ (ih.sublist List.erase_sublist)
        intro x y hx hy hxy
        rw [List.idxOf_cons_ne _ (Ne.symm (hne x hx)), List.idxOf_cons_ne _ (Ne.symm (hne y hy))]
        omega

/-- The recency list of a log has as many elements as the log has distinct ones. -/
theorem length_recent (log : List α) : (recent log).length = log.dedup.length := by
  apply List.Perm.length_eq
  rw [List.perm_ext_iff_of_nodup (nodup_recent log) (List.nodup_dedup log)]
  intro x
  rw [mem_recent, List.mem_dedup]

/-- Touching an element among the first `c` of a list moves it to the front of these. -/
theorem touch_take_of_mem (hb : b ∈ l.take c) : touch (l.take c) b = (touch l b).take c := by
  obtain ⟨k, rfl⟩ : ∃ k, c = k + 1 := by
    cases c with
    | zero => simp at hb
    | succ k => exact ⟨k, rfl⟩
  unfold touch
  rw [List.take_succ_cons]
  congr 1
  induction l generalizing k with
  | nil => simp
  | cons a l ih =>
      rw [List.take_succ_cons] at hb ⊢
      by_cases ha : a = b
      · subst ha
        simp
      · have hne : ¬ (a == b) = true := by simpa using ha
        have hb' : b ∈ l.take k := (List.mem_cons.mp hb).resolve_left (Ne.symm ha)
        rw [List.erase_cons_tail hne, List.erase_cons_tail hne]
        cases k with
        | zero => simp at hb'
        | succ k => rw [List.take_succ_cons, ih k hb']

/-- Adding an element that is not among the first `c` of a list pushes the last of these out. -/
theorem cons_take_of_not_mem (hc : 1 ≤ c) (hb : b ∉ l.take c) :
    (if (l.take c).length < c then b :: l.take c else b :: (l.take c).dropLast) =
      (touch l b).take c := by
  obtain ⟨k, rfl⟩ : ∃ k, c = k + 1 := ⟨c - 1, by omega⟩
  -- if `b` occurs at all, it does so behind the part that is looked at
  have herase : (l.erase b).take k = l.take k := by
    clear hc
    induction l generalizing k with
    | nil => simp
    | cons a l ih =>
        rw [List.take_succ_cons, List.mem_cons, not_or] at hb
        have hne : ¬ (a == b) = true := by simpa using Ne.symm hb.1
        rw [List.erase_cons_tail hne]
        cases k with
        | zero => simp
        | succ k => rw [List.take_succ_cons, List.take_succ_cons, ih k hb.2]
  unfold touch
  rw [List.take_succ_cons, herase]
  by_cases hlen : l.length < k + 1
  · have h₁ : (l.take (k + 1)).length < k + 1 := by simp; omega
    rw [if_pos h₁, List.take_of_length_le (by omega), List.take_of_length_le (by omega)]
  · have h₁ : ¬ (l.take (k + 1)).length < k + 1 := by simp; omega
    rw [if_neg h₁, List.dropLast_eq_take, List.take_take]
    congr 2
    simp
    omega

/-- **The bounded list is a prefix of the unbounded one**, before and after an insertion. -/
theorem insert_take (hc : 1 ≤ c) : insert c (l.take c) b = (touch l b).take c := by
  unfold insert
  by_cases hb : b ∈ l.take c
  · rw [if_pos hb, touch_take_of_mem hb]
  · rw [if_neg hb, cons_take_of_not_mem hc hb]

/-! ## Touching several elements in a row -/

/-- Touching the elements of `bs` in order brings them to the front, the last one first; the others keep
    their order. -/
theorem foldl_touch {bs : List α} (hbs : bs.Nodup) (hl : l.Nodup) :
    bs.foldl touch l = bs.reverse ++ l.filter (· ∉ bs) := by
  induction bs generalizing l with
  | nil => simp
  | cons b bs ih =>
      obtain ⟨hb, hbs⟩ := List.nodup_cons.mp hbs
      rw [List.foldl_cons, ih hbs (nodup_touch hl), touch, List.filter_cons_of_pos (by simpa using hb),
        hl.erase_eq_filter, List.filter_filter, List.reverse_cons, List.append_assoc]
      congr 2
      apply List.filter_congr
      intro x _
      rw [Bool.eq_iff_iff]
      simp [and_comm]

/-- The bounded list is a prefix of the unbounded one, over several insertions. -/
theorem foldl_insert_take (hc : 1 ≤ c) (bs : List α) :
    bs.foldl (insert c) (l.take c) = (bs.foldl touch l).take c := by
  induction bs generalizing l with
  | nil => rfl
  | cons b bs ih => rw [List.foldl_cons, insert_take hc, ih, List.foldl_cons]

theorem recent_append (bs log : List α) : recent (bs.reverse ++ log) = bs.foldl touch (recent log) := by
  induction bs generalizing log with
  | nil => rfl
  | cons b bs ih =>
      rw [List.reverse_cons, List.append_assoc, ih, List.foldl_cons]
      rfl

/-- Inserting distinct elements into a bounded list: they come first, in reverse, and of the others stay
    those most recently used, as many as fit. -/
theorem foldl_insert {bs : List α} (hc : 1 ≤ c) (hbs : bs.Nodup) (hl : l.Nodup) (hlen : l.length ≤ c) :
    bs.foldl (insert c) l = bs.reverse.take c ++ (l.filter (· ∉ bs)).take (c - bs.length) := by
  have hins := foldl_insert_take (l := l) hc bs
  rw [List.take_of_length_le hlen, foldl_touch hbs hl, List.take_append, List.length_reverse] at hins
  exact hins

end Recency
end SystemsPlayground
