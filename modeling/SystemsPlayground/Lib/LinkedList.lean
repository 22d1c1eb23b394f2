import Mathlib.Data.List.Basic
import Mathlib.Data.List.Nodup
import Mathlib.Logic.Function.Iterate

/-!
# `Lib.LinkedList` — doubly linked lists threaded through two link functions

A doubly linked list lives in a memory whose cells carry two links, given here as functions
`next prev : α → α` over an arbitrary type of addresses with a distinguished `nil`. `Linked` says that
the addresses of a list are linked in order; the three lemmas a client needs are the frame rule
(`Linked.congr`), insertion at the head (`Linked.push`) and removal of an arbitrary node
(`Linked.unlink`). Nothing here mentions how the links are stored.
-/

namespace SystemsPlayground
namespace LinkedList

variable {α : Type*} {nil : α} {next prev next' prev' : α → α}

/-- `l` is linked in order, its first node pointing back to `q` and its last one forward to `nil`. -/
def Linked (nil : α) (next prev : α → α) : α → List α → Prop
  | _, []     => True
  | q, a :: l => prev a = q ∧ next a = l.headD nil ∧ Linked nil next prev a l

/-- **Frame rule.** Links that agree on the nodes of `l` link it in the same way. -/
theorem Linked.congr {q : α} {l : List α} (h : Linked nil next prev q l)
    (hn : ∀ x ∈ l, next' x = next x) (hp : ∀ x ∈ l, prev' x = prev x) :
    Linked nil next' prev' q l := by
  induction l generalizing q with
  | nil => trivial
  | cons a l ih =>
      obtain ⟨hpa, hna, hl⟩ := h
      refine ⟨?_, ?_, ?_⟩
      · rw [hp a List.mem_cons_self, hpa]
      · rw [hn a List.mem_cons_self, hna]
      · exact ih hl (fun x hx => hn x (List.mem_cons_of_mem a hx))
          (fun x hx => hp x (List.mem_cons_of_mem a hx))

/-- **Insertion at the head.** The new node `a` points forward to the old head and back to `nil`; the
    old head, if any, points back to `a`; every other link is kept. -/
theorem Linked.push {a : α} {l : List α} (h : Linked nil next prev nil l)
    (hna : next' a = l.headD nil) (hpa : prev' a = nil)
    (hn : ∀ x ∈ l, next' x = next x)
    (hph : ∀ b ∈ l.head?, prev' b = a) (hp : ∀ x ∈ l.tail, prev' x = prev x) :
    Linked nil next' prev' nil (a :: l) := by
  refine ⟨hpa, hna, ?_⟩
  cases l with
  | nil => trivial
  | cons b l =>
      obtain ⟨-, hnb, hl'⟩ := h
      refine ⟨hph b rfl, ?_, ?_⟩
      · rw [hn b List.mem_cons_self, hnb]
      · exact hl'.congr (fun x hx => hn x (List.mem_cons_of_mem b hx)) hp

/-- The forward link of a node is the head of what follows it. -/
theorem Linked.next_eq {q a : α} {l₁ l₂ : List α} (h : Linked nil next prev q (l₁ ++ a :: l₂)) :
    next a = l₂.headD nil := by
  induction l₁ generalizing q with
  | nil => exact h.2.1
  | cons c l₁ ih => exact ih h.2.2

/-- The backward link of a node is the last node before it, or `q` for the first one. -/
theorem Linked.prev_eq {q a : α} {l₁ l₂ : List α} (h : Linked nil next prev q (l₁ ++ a :: l₂)) :
    prev a = l₁.getLastD q := by
  induction l₁ generalizing q with
  | nil => exact h.1
  | cons c l₁ ih => rw [ih h.2.2, List.getLastD_cons]

theorem headD_mem_or (nil : α) (l : List α) : l.headD nil ∈ l ∨ l.headD nil = nil := by
  cases l with
  | nil => exact Or.inr rfl
  | cons a l => exact Or.inl List.mem_cons_self

theorem getLastD_mem_or (q : α) (l : List α) : l.getLastD q ∈ l ∨ l = [] ∧ l.getLastD q = q := by
  induction l generalizing q with
  | nil => exact Or.inr ⟨rfl, rfl⟩
  | cons a l ih =>
      left
      rw [List.getLastD_cons]
      rcases ih a with hm | ⟨-, he⟩
      · exact List.mem_cons_of_mem a hm
      · rw [he]; exact List.mem_cons_self

/-- Following the forward links from the head leaves the list after as many steps as it has nodes. -/
theorem Linked.iterate_length {q : α} {l : List α} (h : Linked nil next prev q l) :
    next^[l.length] (l.headD nil) = nil := by
  induction l generalizing q with
  | nil => rfl
  | cons a l ih =>
      rw [List.length_cons, Function.iterate_succ_apply, List.headD_cons, h.2.1]
      exact ih h.2.2

/-- Along a list the two links are inverse to each other. -/
theorem Linked.next_eq_iff {l : List α} (h : Linked nil next prev nil l) (hnil : nil ∉ l) {a b : α}
    (ha : a ∈ l) (hb : b ∈ l) : next a = b ↔ prev b = a := by
  constructor
  · intro he
    obtain ⟨l₁, l₂, rfl⟩ := List.append_of_mem ha
    have hn := h.next_eq
    cases l₂ with
    | nil => exact absurd (show nil = b from hn.symm.trans he) (fun hc => hnil (hc ▸ hb))
    | cons c l₂ =>
        obtain rfl : b = c := he.symm.trans hn
        have hp : Linked nil next prev nil ((l₁ ++ [a]) ++ b :: l₂) := by simpa using h
        simpa using hp.prev_eq
  · intro he
    obtain ⟨l₁, l₂, rfl⟩ := List.append_of_mem hb
    have hp := h.prev_eq
    rcases List.eq_nil_or_concat l₁ with rfl | ⟨m, c, rfl⟩
    · exact absurd (show a = nil from he.symm.trans hp) (fun hc => hnil (hc ▸ ha))
    · obtain rfl : a = c := by simpa using he.symm.trans hp
      have hn : Linked nil next prev nil (m ++ a :: b :: l₂) := by simpa using h
      exact hn.next_eq

variable [DecidableEq α]

/-- **Removal.** Bypassing `a` — its predecessor's forward link and its successor's backward link are
    redirected, everything else on the list is kept — leaves the rest of the list linked in order. -/
theorem Linked.unlink {q a : α} {l₁ l₂ : List α} (h : Linked nil next prev q (l₁ ++ a :: l₂))
    (hnd : (q :: (l₁ ++ a :: l₂)).Nodup) (hnil : nil ∉ l₁ ++ a :: l₂)
    (hn : ∀ x ∈ l₁ ++ l₂, next' x = if x = prev a then next a else next x)
    (hp : ∀ x ∈ l₁ ++ l₂, prev' x = if x = next a then prev a else prev x) :
    Linked nil next' prev' q (l₁ ++ l₂) := by
  induction l₁ generalizing q with
  | nil =>
      obtain ⟨hpa, hna, hl⟩ := h
      simp only [List.nil_append, List.nodup_cons, List.mem_cons, not_or] at hnd hnil hn hp ⊢
      cases l₂ with
      | nil => trivial
      | cons b m =>
          -- `a` is the first node: its successor `b` now points back to `q`
          obtain ⟨hpb, hnb, hm⟩ := hl
          have hnab : next a = b := hna
          have hnq : ∀ x ∈ b :: m, next' x = next x := by
            intro x hx
            rw [hn x hx, if_neg]
            rintro rfl
            exact hnd.1.2 (hpa ▸ hx)
          refine ⟨?_, ?_, ?_⟩
          · rw [hp b List.mem_cons_self, if_pos hnab.symm, hpa]
          · rw [hnq b List.mem_cons_self, hnb]
          · refine hm.congr (fun x hx => hnq x (List.mem_cons_of_mem b hx)) ?_
            intro x hx
            rw [hp x (List.mem_cons_of_mem b hx), if_neg]
            rintro rfl
            exact (List.nodup_cons.mp hnd.2.2).1 (hnab ▸ hx)
  | cons c l₁ ih =>
      obtain ⟨hpc, hnc, hl⟩ := h
      have hnext := hl.next_eq
      have hprev := hl.prev_eq
      simp only [List.cons_append] at hnd hnil hn hp ⊢
      have hnd' : (c :: (l₁ ++ a :: l₂)).Nodup := (List.nodup_cons.mp hnd).2
      have hc : c ∉ l₁ ++ a :: l₂ := (List.nodup_cons.mp hnd').1
      -- `c` stands before `a`, so its backward link is not the one redirected
      have hcn : c ≠ next a := by
        rw [hnext]
        rcases headD_mem_or nil l₂ with hm | hm
        · intro he
          exact hc (he ▸ List.mem_append_right l₁ (List.mem_cons_of_mem a hm))
        · rw [hm]
          rintro rfl
          exact hnil List.mem_cons_self
      refine ⟨?_, ?_, ?_⟩
      · rw [hp c List.mem_cons_self, if_neg hcn, hpc]
      · rw [hn c List.mem_cons_self]
        rcases getLastD_mem_or c l₁ with hm | ⟨he, hlast⟩
        · -- `a`'s predecessor is deeper in the list: `c` keeps its forward link
          rw [if_neg, hnc]
          · cases l₁ with
            | nil => simp at hm
            | cons d m => rfl
          · rw [hprev]
            intro he
            exact hc (List.mem_append_left _ (he ▸ hm))
        · -- `c` is `a`'s predecessor and now points past it
          subst he
          rw [if_pos (hprev.trans hlast).symm, hnext]
          rfl
      · exact ih hl hnd' (fun hm => hnil (List.mem_cons_of_mem c hm))
          (fun x hx => hn x (List.mem_cons_of_mem c hx))
          (fun x hx => hp x (List.mem_cons_of_mem c hx))

end LinkedList
end SystemsPlayground
