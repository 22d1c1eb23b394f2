import Mathlib.Data.Finset.Card
import Mathlib.Data.List.DropRight
import Mathlib.Data.List.Nodup

/-!
# `Lib.Fifo` — bounded FIFO queues without duplicates

A queue is a list, oldest element first. `push c` inserts into a queue of capacity `c`: an element that
is present is left where it is, an absent one goes to the back, and a full queue loses its front.

The second half describes a queue by its *history*, the list of the insertions that took effect: the
queue always holds the latest `c` of them (`push_rtake`). On the history, inserting a run of new
elements is plain concatenation (`record_fresh`), whatever the queue evicts meanwhile.

The last part asks when inserting a batch leaves the whole batch in the queue. An element that is present
when its turn comes keeps its age, so later insertions of the same batch may drop it; `Fits` says on the
queue before the batch when that does not happen (`mem_pushAll_iff`).
-/

namespace SystemsPlayground
namespace Fifo

variable {α : Type*} [DecidableEq α] {c : Nat} {q : List α} {b : α}

/-- Insert `b` into the queue `q` of capacity `c`. -/
def push (c : Nat) (q : List α) (b : α) : List α :=
  if b ∈ q then q
  else (if q.length < c then q else q.tail) ++ [b]

theorem push_of_mem (h : b ∈ q) : push c q b = q := if_pos h

theorem push_of_room (h : b ∉ q) (hc : q.length < c) : push c q b = q ++ [b] := by
  rw [push, if_neg h, if_pos hc]

theorem push_of_full (h : b ∉ q) (hc : ¬ q.length < c) : push c q b = q.tail ++ [b] := by
  rw [push, if_neg h, if_neg hc]

/-! ## Queues by their history -/

/-- The history after inserting `b`: it grows only when `b` was not in the queue. -/
def record (c : Nat) (H : List α) (b : α) : List α :=
  if b ∈ H.rtake c then H else H ++ [b]

omit [DecidableEq α] in
theorem mem_of_mem_rtake {H : List α} (h : b ∈ H.rtake c) : b ∈ H :=
  List.mem_of_mem_drop h

/-- The queue with history `H` is the latest `c` elements of `H`, and stays so. -/
theorem push_rtake (hc : 1 ≤ c) (H : List α) (b : α) :
    push c (H.rtake c) b = (record c H b).rtake c := by
  obtain ⟨k, rfl⟩ : ∃ k, c = k + 1 := ⟨c - 1, by omega⟩
  unfold record
  by_cases hb : b ∈ H.rtake (k + 1)
  · rw [push_of_mem hb, if_pos hb]
  · rw [if_neg hb, List.rtake_concat_succ]
    have hlen : (H.rtake (k + 1)).length = H.length - (H.length - (k + 1)) := List.length_drop
    by_cases hroom : (H.rtake (k + 1)).length < k + 1
    · rw [push_of_room hb hroom]
      have h₁ : H.length - (k + 1) = 0 := by omega
      have h₂ : H.length - k = 0 := by omega
      simp only [List.rtake, h₁, h₂]
    · rw [push_of_full hb hroom, List.rtake, List.rtake, List.tail_drop]
      congr 2
      omega

/-- Elements that occur nowhere in the history are appended to it, in order. -/
theorem record_fresh {bs : List α} (hbs : bs.Nodup) {H : List α} (hH : ∀ b ∈ bs, b ∉ H) :
    bs.foldl (record c) H = H ++ bs := by
  induction bs generalizing H with
  | nil => simp
  | cons b bs ih =>
      obtain ⟨hb, hbs⟩ := List.nodup_cons.mp hbs
      have hrec : record c H b = H ++ [b] :=
        if_neg (fun hm => hH b List.mem_cons_self (mem_of_mem_rtake hm))
      rw [List.foldl_cons, hrec, ih hbs, List.append_assoc]
      · rfl
      · intro x hx hm
        rcases List.mem_append.mp hm with hm | hm
        · exact hH x (List.mem_cons_of_mem b hx) hm
        · exact hb (List.mem_singleton.mp hm ▸ hx)

omit [DecidableEq α] in
/-- The latest elements of a history that ends in at least as many. -/
theorem rtake_append_of_le {H D : List α} (h : c ≤ D.length) : (H ++ D).rtake c = D.rtake c := by
  unfold List.rtake
  rw [List.length_append, show H.length + D.length - c = H.length + (D.length - c) by omega,
    List.drop_append]
  simp

omit [DecidableEq α] in
/-- The latest elements of a history that ends in fewer. -/
theorem rtake_append_of_ge {H D : List α} (h : D.length ≤ c) :
    (H ++ D).rtake c = H.rtake (c - D.length) ++ D := by
  unfold List.rtake
  rw [List.length_append, show H.length + D.length - c = H.length - (c - D.length) by omega,
    List.drop_append_of_le_length (by omega)]

omit [DecidableEq α] in
/-- **Scanning a batch.** A batch `R` of new elements is inserted and then demanded in order, where a
    demanded element that is gone is inserted again. If the batch fits, nothing of it is ever gone; if it
    does not, the element demanded next always is: it is dropped by the elements demanded before it. -/
theorem mem_scan_iff {H R : List α} (hR : R.Nodup) {d : Nat} (hd : d < R.length) :
    R[d] ∈ (H ++ (R ++ if R.length ≤ c then [] else R.take d)).rtake c ↔ R.length ≤ c := by
  by_cases hfit : R.length ≤ c
  · rw [if_pos hfit, List.append_nil, rtake_append_of_ge hfit]
    exact iff_of_true (List.mem_append_right _ (List.getElem_mem hd)) hfit
  · refine iff_of_false ?_ hfit
    have hlen : (R.take d).length = d := by rw [List.length_take]; omega
    have htake : R[d] ∉ R.take d := by
      rw [List.mem_take_iff_getElem]
      rintro ⟨i, hi, heq⟩
      have := (List.Nodup.getElem_inj_iff hR).mp heq
      omega
    rw [if_neg hfit, rtake_append_of_le (by rw [List.length_append]; omega)]
    intro hmem
    -- either the queue holds only elements demanded before, or also the end of the batch
    by_cases hdc : c ≤ d
    · rw [rtake_append_of_le (by omega)] at hmem
      exact htake (mem_of_mem_rtake hmem)
    · rw [rtake_append_of_ge (by omega), hlen] at hmem
      rcases List.mem_append.mp hmem with hmem | hmem
      · obtain ⟨i, hi, heq⟩ := List.mem_drop_iff_getElem.mp hmem
        have := (List.Nodup.getElem_inj_iff hR).mp heq
        omega
      · exact htake hmem

/-! ## Batches that stay -/

section Batch

variable {P R q₀ : List α} {a x y : α}

/-- `P` has been inserted, `R` is still to be inserted, and `q` is the queue now. Whenever an element of the
    batch that is in `q` is still there at its turn (the elements inserted by then, together with it and
    the younger ones, are at most `c`), it stays: the same holds of the whole batch. -/
def Fits (c : Nat) (P q R : List α) : Prop :=
  ∀ x older younger, q = older ++ x :: younger →
    (x ∈ P ∨ ∃ A B, R = A ++ x :: B ∧ (P ++ A ++ x :: younger).toFinset.card ≤ c) →
    (P ++ R ++ x :: younger).toFinset.card ≤ c

theorem card_le_of_subset {l₁ l₂ : List α} (hsub : ∀ z ∈ l₁, z ∈ l₂) (h : l₂.toFinset.card ≤ c) :
    l₁.toFinset.card ≤ c :=
  (Finset.card_le_card fun z hz => List.mem_toFinset.mpr (hsub z (List.mem_toFinset.mp hz))).trans h

/-- The element between the two parts of a batch may count for either. -/
theorem card_middle (t : List α) :
    (a :: P ++ R ++ t).toFinset.card = (P ++ a :: R ++ t).toFinset.card := by
  have hperm : (P ++ a :: R ++ t).Perm (a :: P ++ R ++ t) := List.perm_middle.append_right t
  rw [List.toFinset_eq_of_perm _ _ hperm]

/-- An element of the batch is not counted twice. -/
theorem card_snoc (t : List α) :
    (a :: P ++ R ++ (t ++ [a])).toFinset.card = (P ++ a :: R ++ t).toFinset.card := by
  have hsub : [a].toFinset ⊆ (P ++ a :: R ++ t).toFinset := by simp
  rw [card_middle, ← List.append_assoc, List.toFinset_append, Finset.union_eq_left.mpr hsub]

/-- What is in the queue fits. -/
theorem card_le_of_queue {older younger : List α} (hlen : q.length ≤ c) (hP : ∀ x ∈ P, x ∈ q)
    (hq : q = older ++ x :: younger) : (P ++ [] ++ x :: younger).toFinset.card ≤ c := by
  have hsub : ∀ z ∈ P ++ [] ++ x :: younger, z ∈ q := by
    intro z hz
    rw [List.append_nil, List.mem_append] at hz
    rcases hz with hz | hz
    · exact hP z hz
    · exact hq ▸ List.mem_append_right older hz
  exact card_le_of_subset hsub ((List.toFinset_card_le q).trans hlen)

/-- An element in the queue keeps its place. -/
theorem fits_of_mem (hlen : q.length ≤ c) (hP : ∀ x ∈ P, x ∈ q) :
    Fits c (a :: P) q R ↔ Fits c P q (a :: R) := by
  constructor
  · intro h x older younger hq hx
    rw [← card_middle]
    apply h x older younger hq
    rcases hx with hx | ⟨A, B, hR, hcard⟩
    · exact Or.inl (List.mem_cons_of_mem a hx)
    · cases A with
      | nil => exact Or.inl ((List.cons.inj hR).1 ▸ List.mem_cons_self)
      | cons a' A =>
          obtain ⟨rfl, rfl⟩ := List.cons.inj hR
          exact Or.inr ⟨A, B, rfl, (card_middle _).trans_le hcard⟩
  · intro h x older younger hq hx
    rw [card_middle]
    apply h x older younger hq
    rcases hx with hx | ⟨A, B, rfl, hcard⟩
    · rcases List.mem_cons.mp hx with rfl | hx
      · -- at its own turn, everything considered is in the queue
        exact Or.inr ⟨[], R, rfl, card_le_of_queue hlen hP hq⟩
      · exact Or.inl hx
    · exact Or.inr ⟨a :: A, B, rfl, (card_middle _).symm.trans_le hcard⟩

/-- An element that is not in the queue becomes its youngest. -/
theorem fits_snoc (ha : a ∉ q₀) (hcard : (P ++ a :: R).toFinset.card ≤ c) :
    Fits c (a :: P) (q₀ ++ [a]) R ↔ Fits c P q₀ (a :: R) := by
  constructor
  · rintro h x older younger rfl hx
    have hne : x ≠ a := fun he => ha (by simp [he])
    refine (card_snoc (x :: younger)).symm.trans_le (h x older (younger ++ [a]) (by simp) ?_)
    rcases hx with hx | ⟨A, B, hR, hle⟩
    · exact Or.inl (List.mem_cons_of_mem a hx)
    · cases A with
      | nil => exact absurd (List.cons.inj hR).1.symm hne
      | cons a' A =>
          obtain ⟨rfl, rfl⟩ := List.cons.inj hR
          exact Or.inr ⟨A, B, rfl, (card_snoc (x :: younger)).trans_le hle⟩
  · intro h x older younger hq hx
    rcases List.eq_nil_or_concat' younger with rfl | ⟨younger, z, rfl⟩
    · -- the youngest element is the one just inserted
      obtain rfl : a = x := by simpa using (List.append_inj' hq rfl).2
      refine (card_snoc []).trans_le ?_
      rw [List.append_nil]
      exact hcard
    · have hq' : q₀ ++ [a] = (older ++ x :: younger) ++ [z] := by simpa using hq
      obtain ⟨rfl, hz⟩ := List.append_inj' hq' rfl
      obtain rfl : a = z := by simpa using hz
      have hne : x ≠ a := fun he => ha (by simp [he])
      refine (card_snoc (x :: younger)).trans_le (h x older younger rfl ?_)
      rcases hx with hx | ⟨A, B, rfl, hle⟩
      · exact Or.inl ((List.mem_cons.mp hx).resolve_left hne)
      · exact Or.inr ⟨a :: A, B, rfl, (card_snoc (x :: younger)).symm.trans_le hle⟩

/-- A full queue and an element that is not in it are more than `c` elements. -/
theorem lt_card_of_full {l : List α} (hq : q.Nodup) (hfull : c ≤ q.length) (ha : a ∉ q)
    (hsub : ∀ z ∈ a :: q, z ∈ l) : c < l.toFinset.card := by
  have hcard : (a :: q).toFinset.card = q.length + 1 :=
    List.toFinset_card_of_nodup (List.nodup_cons.mpr ⟨ha, hq⟩)
  have := card_le_of_subset hsub (Nat.le_refl _)
  omega

omit [DecidableEq α] in
theorem mem_batch : ∀ z ∈ a :: q, z ∈ P ++ a :: R ++ q := by
  intro z hz
  rcases List.mem_cons.mp hz with rfl | hz
  · simp
  · exact List.mem_append_right _ hz

/-- The oldest element of a full queue does not matter, unless it has been inserted by the batch. -/
theorem fits_tail (hq : (y :: q₀).Nodup) (hfull : c ≤ (y :: q₀).length) (ha : a ∉ y :: q₀) (hy : y ∉ P) :
    Fits c P (y :: q₀) (a :: R) ↔ Fits c P q₀ (a :: R) := by
  constructor
  · rintro h x older younger rfl hx
    exact h x (y :: older) younger rfl hx
  · intro h x older younger hsplit hx
    cases older with
    | cons y' older =>
        obtain ⟨rfl, rfl⟩ := List.cons.inj hsplit
        exact h x older younger rfl hx
    | nil =>
        obtain ⟨rfl, rfl⟩ := List.cons.inj hsplit
        rcases hx with hx | ⟨A, B, hR, hle⟩
        · exact absurd hx hy
        · cases A with
          | nil => exact absurd ((List.cons.inj hR).1 ▸ List.mem_cons_self) ha
          | cons a' A =>
              -- it is dropped right away, before its turn
              obtain ⟨rfl, rfl⟩ := List.cons.inj hR
              exact absurd hle (Nat.not_le.mpr (lt_card_of_full hq hfull ha mem_batch))

theorem mem_pushAll {bs : List α} (h : x ∈ bs.foldl (push c) q) : x ∈ q ∨ x ∈ bs := by
  induction bs generalizing q with
  | nil => exact Or.inl h
  | cons b bs ih =>
      rcases ih h with hx | hx
      · unfold push at hx
        split_ifs at hx with hb hroom
        · exact Or.inl hx
        · simp only [List.mem_append, List.mem_singleton] at hx
          exact hx.imp id (by rintro rfl; exact List.mem_cons_self)
        · simp only [List.mem_append, List.mem_singleton] at hx
          exact hx.imp List.mem_of_mem_tail (by rintro rfl; exact List.mem_cons_self)
      · exact Or.inr (List.mem_cons_of_mem b hx)

/-- An element that has been dropped does not come back, if it is not inserted again. -/
theorem dropped_absent (hq : (y :: q₀).Nodup) (ha : a ∉ y :: q₀) (hy : y ∉ R) :
    y ∉ R.foldl (push c) (q₀ ++ [a]) := by
  intro hmem
  rcases mem_pushAll hmem with hmem | hmem
  · rcases List.mem_append.mp hmem with hmem | hmem
    · exact (List.nodup_cons.mp hq).1 hmem
    · exact ha (List.mem_singleton.mp hmem ▸ List.mem_cons_self)
  · exact hy hmem

/-- A batch that is about to drop its own element does not fit. -/
theorem not_fits_of_dropped (hq : (y :: q₀).Nodup) (hfull : c ≤ (y :: q₀).length) (ha : a ∉ y :: q₀)
    (hy : y ∈ P) : ¬ Fits c P (y :: q₀) (a :: R) := by
  intro h
  have hle := h y [] q₀ rfl (Or.inl hy)
  exact absurd hle (Nat.not_le.mpr (lt_card_of_full hq hfull ha mem_batch))

/-- **When a batch stays.** The batch `P ++ R`, of which `P` is inserted and in the queue, is in the queue
    after the insertion of `R` exactly when it fits. -/
theorem mem_pushAll_iff (hc : 1 ≤ c) (hq : q.Nodup) (hlen : q.length ≤ c) (hP : ∀ x ∈ P, x ∈ q)
    (hR : R.Nodup) (hdisj : ∀ x ∈ P, x ∉ R) (hcard : (P ++ R).toFinset.card ≤ c) :
    (∀ x ∈ P ++ R, x ∈ R.foldl (push c) q) ↔ Fits c P q R := by
  induction R generalizing P q with
  | nil =>
      refine iff_of_true (fun x hx => hP x (by simpa using hx)) ?_
      intro x older younger hsplit _
      exact card_le_of_queue hlen hP hsplit
  | cons a R ih =>
      obtain ⟨haR, hR⟩ := List.nodup_cons.mp hR
      have hdisj' : ∀ x ∈ a :: P, x ∉ R := by
        intro x hx hxR
        rcases List.mem_cons.mp hx with rfl | hx
        · exact haR hxR
        · exact hdisj x hx (List.mem_cons_of_mem a hxR)
      have hmem : ∀ z, z ∈ a :: P ++ R ↔ z ∈ P ++ a :: R := fun z => List.perm_middle.mem_iff.symm
      have hcard' : (a :: P ++ R).toFinset.card ≤ c := card_le_of_subset (fun z => (hmem z).mp) hcard
      -- the goal for the queue after the insertion of `a`
      have hnext : (∀ x ∈ P ++ a :: R, x ∈ (a :: R).foldl (push c) q) ↔
          ∀ x ∈ a :: P ++ R, x ∈ R.foldl (push c) (push c q a) :=
        forall_congr' fun x => imp_congr (hmem x).symm Iff.rfl
      rw [hnext]
      by_cases ha : a ∈ q
      · rw [push_of_mem ha, ih hq hlen ?_ hR hdisj' hcard', fits_of_mem hlen hP]
        intro x hx
        rcases List.mem_cons.mp hx with rfl | hx
        · exact ha
        · exact hP x hx
      · by_cases hroom : q.length < c
        · have hnodup : (q ++ [a]).Nodup := by
            rw [← List.concat_eq_append]
            exact hq.concat ha
          rw [push_of_room ha hroom, ih hnodup (by simp; omega) ?_ hR hdisj' hcard', fits_snoc ha hcard]
          intro x hx
          rcases List.mem_cons.mp hx with rfl | hx
          · simp
          · exact List.mem_append_left _ (hP x hx)
        · obtain ⟨y, q₀, rfl⟩ : ∃ y q₀, q = y :: q₀ := by
            refine List.exists_cons_of_ne_nil ?_
            rintro rfl
            exact hroom hc
          have hfull : c ≤ (y :: q₀).length := Nat.not_lt.mp hroom
          obtain ⟨-, hq₀⟩ := List.nodup_cons.mp hq
          have ha₀ : a ∉ q₀ := fun h => ha (List.mem_cons_of_mem y h)
          rw [push_of_full ha hroom, List.tail_cons]
          by_cases hy : y ∈ P
          · refine iff_of_false (fun h => ?_) (not_fits_of_dropped hq hfull ha hy)
            exact dropped_absent hq ha (hdisj' y (List.mem_cons_of_mem a hy)) (h y (by simp [hy]))
          · have hnodup : (q₀ ++ [a]).Nodup := by
              rw [← List.concat_eq_append]
              exact hq₀.concat ha₀
            rw [ih hnodup (by simpa using hlen) ?_ hR hdisj' hcard', fits_snoc ha₀ hcard,
              fits_tail hq hfull ha hy]
            intro x hx
            rcases List.mem_cons.mp hx with rfl | hx
            · simp
            · refine List.mem_append_left _ ((List.mem_cons.mp (hP x hx)).resolve_left ?_)
              rintro rfl
              exact hy hx

end Batch

end Fifo
end SystemsPlayground
