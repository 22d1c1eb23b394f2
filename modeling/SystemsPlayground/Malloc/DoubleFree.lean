import SystemsPlayground.Malloc.Correctness

/-!
# `Malloc.DoubleFree` — freeing a block again, later

A block that was freed keeps its flag until it is handed out again, whatever other blocks are pushed and
unlinked around it on the list (`Freed.step`). As long as no call returns the pointer, a further `my_free`
of it is therefore caught by the guard, and the allocator cannot tell a run with such calls from the run
without them (`double_free_harmless`).
-/

namespace SystemsPlayground
namespace Malloc

open Word Runs

/-- A sequence of allowed calls, all of which return: the pointers that the calls of `my_malloc` returned
    (`NULL` included), in order, and the state after them. -/
inductive Executes : Sys → List Call → List Nat → Sys → Prop where
  | nil {s : Sys} : Executes s [] [] s
  | malloc {s s' t : Sys} {size fuel : Nat} {os : Os} {r : Nat × Heap} {cs : List Call} {ps : List Nat} :
      Allowed s (.malloc size os) → myMalloc os fuel size s.heap = some r →
      s.step fuel (.malloc size os) = some s' → Executes s' cs ps t →
      Executes s (.malloc size os :: cs) (r.1 :: ps) t
  | free {s s' t : Sys} {ptr fuel : Nat} {cs : List Call} {ps : List Nat} :
      Allowed s (.free ptr) → s.step fuel (.free ptr) = some s' → Executes s' cs ps t →
      Executes s (.free ptr :: cs) ps t

/-- The call is `my_free(p)`. -/
def Call.frees (p : Nat) : Call → Bool
  | .malloc _ _ => false
  | .free ptr   => ptr == p

/-! ## Sequences of calls -/

section Executes

variable {s t u : Sys} {cs cs' : List Call} {ps ps' : List Nat}

theorem Executes.append (h : Executes s cs ps t) (h' : Executes t cs' ps' u) :
    Executes s (cs ++ cs') (ps ++ ps') u := by
  induction h with
  | nil => exact h'
  | malloc ha hm hs _ ih => exact .malloc ha hm hs (ih h')
  | free ha hs _ ih => exact .free ha hs (ih h')

/-- The calls decide what they return and what they leave: the fuel does not matter. -/
theorem Executes.deterministic (h : Executes s cs ps t) (h' : Executes s cs ps' u) :
    ps' = ps ∧ u = t := by
  induction h generalizing ps' u with
  | nil =>
      cases h'
      exact ⟨rfl, rfl⟩
  | @malloc s s₁ t size fuel os r cs ps ha hm hs _ ih =>
      cases h' with
      | @malloc _ s₂ _ _ fuel' _ r' _ ps' _ hm' hs' hrest =>
          have hr : r' = r := by
            have h₁ := myMalloc_mono (k := fuel') hm
            have h₂ := myMalloc_mono (k := fuel) hm'
            rw [Nat.add_comm] at h₂
            exact Option.some.inj (h₂.symm.trans h₁)
          have hstate : s₂ = s₁ := by
            simp only [Sys.step, hm, Option.map_some] at hs
            simp only [Sys.step, hm', Option.map_some, hr] at hs'
            exact (Option.some.inj hs').symm.trans (Option.some.inj hs)
          subst hr hstate
          obtain ⟨rfl, rfl⟩ := ih hrest
          exact ⟨rfl, rfl⟩
  | free _ hs _ ih =>
      cases h' with
      | free _ hs' hrest =>
          obtain rfl := Option.some.inj hs
          obtain rfl := Option.some.inj hs'
          exact ih hrest

/-- What a sequence returns and leaves, once one way to execute it is known. -/
theorem Executes.iff (h : Executes s cs ps t) (ps' : List Nat) (u : Sys) :
    Executes s cs ps' u ↔ ps' = ps ∧ u = t := by
  refine ⟨h.deterministic, ?_⟩
  rintro ⟨rfl, rfl⟩
  exact h

end Executes

/-! ## A freed block -/

/-- `p` was returned once, and is the payload of a block that has been freed since. -/
structure Freed (p : Nat) (s : Sys) : Prop where
  inv : ∃ F, Inv s F
  issued : p ∈ s.issued
  flag : (s.heap.mem (p - sizeofBlock)).free ≠ 0
  dead : ∀ e ∈ s.live, e.1 ≠ p

section Freed

variable {s t : Sys} {p : Nat} {c : Call} {cs : List Call} {ps : List Nat}

/-- Freeing it again changes nothing. -/
theorem Freed.step_free {fuel : Nat} (h : Freed p s) (hs : s.step fuel (.free p) = some t) : t = s := by
  obtain rfl := Option.some.inj hs
  have hlive : s.live.filter (fun e => e.1 ≠ p) = s.live :=
    List.filter_eq_self.mpr fun e he => by simpa using h.dead e he
  rw [myFree_noop (Or.inr h.flag), hlive]

/-- Freeing another block leaves it freed. -/
theorem Freed.of_free {ptr fuel : Nat} (h : Freed p s) (ha : Allowed s (.free ptr))
    (hs : s.step fuel (.free ptr) = some t) (hne : ptr ≠ p) : Freed p t := by
  obtain ⟨F, hF⟩ := h.inv
  have hinv := step_inv hF ha ⟨fuel, hs⟩
  obtain rfl := Option.some.inj hs
  refine ⟨hinv, h.issued, ?_, fun e he => h.dead e (List.mem_of_mem_filter he)⟩
  rcases myFree_guard ptr s.heap with hn | ⟨hp, hf⟩
  · rw [myFree_noop hn]
    exact h.flag
  · -- two pointers with one header are the same pointer
    have hother : p - sizeofBlock ≠ ptr - sizeofBlock := by
      have := (hF.issued p h.issued).1
      have := (hF.issued ptr (ha.resolve_left hp)).1
      omega
    show ((myFree ptr s.heap).mem (p - sizeofBlock)).free ≠ 0
    rw [myFree_free hp hf, if_neg hother]
    exact h.flag

/-- An allocation that does not return it leaves it freed. -/
theorem Freed.of_malloc {size fuel : Nat} {os : Os} {r : Nat × Heap} (h : Freed p s)
    (ha : Allowed s (.malloc size os)) (hm : myMalloc os fuel size s.heap = some r)
    (hs : s.step fuel (.malloc size os) = some t) (hne : r.1 ≠ p) : Freed p t := by
  obtain ⟨F, hF⟩ := h.inv
  have hinv := step_inv hF ha ⟨fuel, hs⟩
  have hissued := step_issued ⟨fuel, hs⟩ p h.issued
  obtain ⟨q, h'⟩ := r
  have ho := myMalloc_outcome hF.heap.rep hF.heap.free_ne_zero ha.2.ne_sizeMax hm
  obtain ⟨hle, hblk⟩ := hF.issued p h.issued
  have hflag : (h'.mem (p - sizeofBlock)).free ≠ 0 := by
    cases ho with
    | refused _ => exact h.flag
    | failed _ _ _ _ => exact h.flag
    | @reused l₁ l₂ b _ _ _ _ _ =>
        have hb : p - sizeofBlock ≠ b := fun he => hne (by simp only; omega)
        rw [setFree_free, removeFreeBlock_free, if_neg hb]
        exact h.flag
    | @grown b brk' _ hsize _ hans _ =>
        -- a new block is none of the earlier ones
        have hb : p - sizeofBlock ≠ b := fun he => ha.2.not_mem hsize hans (he ▸ hblk)
        rw [setFree_free, setSize_free, record_mem, if_neg hb]
        exact h.flag
  simp only [Sys.step, hm, Option.map_some, Option.some.injEq] at hs
  split_ifs at hs
  · subst hs
    exact ⟨hinv, hissued, hflag, h.dead⟩
  · subst hs
    refine ⟨hinv, hissued, hflag, fun e he => ?_⟩
    rcases List.mem_cons.mp he with rfl | he
    · exact hne
    · exact h.dead e he

/-- **The repeated calls do not show.** -/
theorem Freed.executes (h : Freed p s) (hex : Executes s cs ps t) (hnot : p ∉ ps) :
    Freed p t ∧ Executes s (cs.filter fun c => !c.frees p) ps t := by
  induction hex with
  | nil => exact ⟨h, .nil⟩
  | malloc ha hm hs _ ih =>
      obtain ⟨ht, hrest⟩ := ih (h.of_malloc ha hm hs fun he => hnot (he ▸ List.mem_cons_self))
        fun hmem => hnot (List.mem_cons_of_mem _ hmem)
      exact ⟨ht, .malloc ha hm hs hrest⟩
  | @free s s₁ t ptr fuel cs ps ha hs _ ih =>
      by_cases hp : ptr = p
      · subst hp
        obtain rfl := h.step_free hs
        obtain ⟨ht, hrest⟩ := ih h hnot
        refine ⟨ht, ?_⟩
        rw [List.filter_cons_of_neg (by simp [Call.frees])]
        exact hrest
      · obtain ⟨ht, hrest⟩ := ih (h.of_free ha hs hp) hnot
        refine ⟨ht, ?_⟩
        rw [List.filter_cons_of_pos (by simp [Call.frees, hp])]
        exact .free ha hs hrest

end Freed

/-- **A delayed double free is harmless.** Take a reachable state in which the block of `p` is in use, and
    calls `my_free(p)` and then `cs`, none of which returns `p`. With one more `my_free(p)` at the end, and
    also without all the further ones, the calls return the same pointers and leave the same state. -/
theorem double_free_harmless {s t : Sys} {p : Nat} {cs : List Call} {ps : List Nat} (hs : Reachable s)
    (hp : p ∈ s.issued) (huse : (s.heap.mem (p - sizeofBlock)).free = 0)
    (hex : Executes s (.free p :: cs) ps t) (hnot : p ∉ ps) :
    (∀ ps' u, Executes s (.free p :: cs ++ [.free p]) ps' u ↔ ps' = ps ∧ u = t) ∧
    ∀ ps' u, Executes s (.free p :: cs.filter fun c => !c.frees p) ps' u ↔ ps' = ps ∧ u = t := by
  obtain ⟨F, hF⟩ := reachable_inv hs
  cases hex with
  | @free _ s₁ _ _ fuel _ _ ha hfree hrest =>
      have hfreed : Freed p s₁ := by
        have hinv := step_inv hF ha ⟨fuel, hfree⟩
        have hnull : p ≠ null := by
          have := (hF.issued p hp).1
          simp only [sizeofBlock, null] at this ⊢
          omega
        obtain rfl := Option.some.inj hfree
        refine ⟨hinv, hp, ?_, ?_⟩
        · show ((myFree p s.heap).mem (p - sizeofBlock)).free ≠ 0
          rw [myFree_free hnull huse, if_pos rfl]
          decide
        · intro e he
          simpa using List.of_mem_filter he
      obtain ⟨ht, hfiltered⟩ := hfreed.executes hrest hnot
      have hlast : Executes t [.free p] [] t := by
        have hself : t.step 0 (.free p) = some t := by
          obtain ⟨u, hu⟩ : ∃ u, t.step 0 (.free p) = some u := ⟨_, rfl⟩
          rw [hu, ht.step_free hu]
        exact .free (Or.inr ht.issued) hself .nil
      have htwice : Executes s (.free p :: cs ++ [.free p]) (ps ++ []) t :=
        (Executes.free ha hfree hrest).append hlast
      rw [List.append_nil] at htwice
      exact ⟨htwice.iff, (Executes.free ha hfree hfiltered).iff⟩

/-- What a call that is granted returns. -/
def Granted.returned (s : Sys) : Granted → List Nat
  | .malloc size => [((myMalloc grantOs 4 size s.heap).map Prod.fst).getD null]
  | .free _      => []

theorem grant_executes {s : Sys} (cs : List Granted) (h : ∀ x ∈ plays Sys.grant s cs, x.2.Fine x.1) :
    Executes s (cs.map Granted.toCall) ((plays Sys.grant s cs).flatMap fun x => x.2.returned x.1)
      (cs.foldl Sys.grant s) := by
  induction cs generalizing s with
  | nil => exact .nil
  | cons c cs ih =>
      obtain ⟨hfirst, hrest⟩ := List.forall_mem_cons.mp h
      cases c with
      | free ptr => exact .free hfirst.step.1 hfirst.step.2 (ih hrest)
      | malloc size =>
          obtain ⟨r, hr⟩ := Option.isSome_iff_exists.mp hfirst.2.2
          have hret : Granted.returned s (.malloc size) = [r.1] := by rw [Granted.returned, hr]; rfl
          rw [plays, List.flatMap_cons, hret]
          exact .malloc hfirst.step.1 hr hfirst.step.2 (ih hrest)

/-- Three blocks in use. -/
def threeBlocks : Sys := [.malloc 16, .malloc 32, .malloc 16].foldl Sys.grant zeroed

/-- The first one is freed, a larger block is obtained and the second one freed. -/
def oneFreed : Sys := [.free 4128, .malloc 48, .free 4128, .free 4176].foldl Sys.grant threeBlocks

/-- In between and at the end the first block may be freed once more. -/
theorem double_free_harmless_between :
    oneFreed.issued = [4288, 4240, 4176, 4128] ∧
    Executes threeBlocks [.free 4128, .malloc 48 grantOs, .free 4128, .free 4176, .free 4128] [4288] oneFreed ∧
    Executes threeBlocks [.free 4128, .malloc 48 grantOs, .free 4176] [4288] oneFreed := by
  have hs : Reachable threeBlocks := grant_reachable _ (by decide)
  have hex : Executes threeBlocks [.free 4128, .malloc 48 grantOs, .free 4128, .free 4176] [4288] oneFreed :=
    grant_executes [.free 4128, .malloc 48, .free 4128, .free 4176] (by decide)
  obtain ⟨hagain, hwithout⟩ := double_free_harmless hs (by decide) rfl hex (by decide)
  exact ⟨rfl, (hagain _ _).mpr ⟨rfl, rfl⟩, (hwithout _ _).mpr ⟨rfl, rfl⟩⟩

end Malloc
end SystemsPlayground
