import SystemsPlayground.Block.Outcome

/-!
# `Block.Transfer` — what success means for the data

A split shares the sectors of a bio out between the new piece and what is left of it, and any piece may be
split again. Whatever the order of splits and completions, the bios that come from one that was handed in
have its sectors among them, each in exactly one. With the results about completion this says what the owner
can rely on when he finds success: each sector was transferred, once (`endio_transfer`).
-/

namespace SystemsPlayground
namespace Block

open Runs Word

/-! ## The data -/

/-- The sector `x` is one of those of the bio. -/
def Bio.Contains (bio : Bio) (x : Nat) : Prop := bio.sector ≤ x ∧ x < bio.sector + bio.sectors

/-- A split divides the sectors of a bio between the two parts. -/
theorem bioSplit_ok {alloc : Bool} {bio front rest : Bio} {sectors : Nat} (hsized : bio.Sized)
    (h : bioSplit alloc bio sectors = .ok (front, rest)) :
    front.Sized ∧ rest.Sized ∧ (∀ x, bio.Contains x ↔ front.Contains x ∨ rest.Contains x) ∧
    ∀ x, front.Contains x → ¬ rest.Contains x := by
  obtain ⟨hmod, hsize, hsector⟩ := hsized
  have hcut : 0 < sectors ∧ sectors < bio.sectors ∧ front = { bio with size := u32 (sectors * 512) } ∧
      rest = bio.advance (u32 (sectors * 512)) := by
    unfold bioSplit at h
    split_ifs at h with h₁ h₂ h₃ h₄ h₅
    · obtain ⟨rfl, rfl⟩ := Prod.mk.inj (Except.ok.inj h)
      exact ⟨by omega, by omega, rfl, rfl⟩
  obtain ⟨hpos, hlt, hfront, hrest⟩ := hcut
  unfold Bio.sectors at hlt hsector
  have hbytes : u32 (sectors * 512) = sectors * 512 := u32_of_lt (by omega)
  have hfs : front.sector = bio.sector ∧ front.size = sectors * 512 := by
    rw [hfront]
    exact ⟨rfl, hbytes⟩
  have hrs : rest.sector = bio.sector + sectors ∧ rest.size = bio.size - sectors * 512 := by
    rw [hrest, hbytes]
    refine ⟨?_, rfl⟩
    show u64 (bio.sector + sectors * 512 / 512) = _
    rw [Nat.mul_div_cancel _ (by decide), u64_of_lt (by omega)]
  unfold Bio.Sized Bio.Contains Bio.sectors
  rw [hfs.1, hfs.2, hrs.1, hrs.2]
  refine ⟨⟨by omega, by omega, by omega⟩, ⟨by omega, by omega, by omega⟩, ?_, ?_⟩
  · intro x
    omega
  · intro x
    omega

namespace Machine

variable {m m' : Machine} {b c p x : Nat}

/-- **The pieces are a partition.** The bios that come from one that was handed in are below it, and their
    sectors are those that it was handed in with, each in one of them. -/
structure Cover (m : Machine) : Prop where
  sized : ∀ b ∈ m.used, (m.bio b).data.Sized
  source_used : ∀ b ∈ m.used, m.source b ∈ m.used ∧ m.source (m.source b) = m.source b
  source_below : ∀ b ∈ m.used, m.Below b (m.source b)
  source_self : ∀ b ∈ m.used, m.parent b = none → m.source b = b
  covered : ∀ r ∈ m.used, m.source r = r → ∀ x, (m.submitted r).Contains x →
    ∃ c ∈ m.used, m.source c = r ∧ (m.bio c).data.Contains x
  disjoint : ∀ c ∈ m.used, ∀ d ∈ m.used, m.source c = m.source d → ∀ x, (m.bio c).data.Contains x →
    (m.bio d).data.Contains x → c = d

/-- The partition does not depend on the progress of completion. -/
theorem Cover.congr (h : m.Cover) (hused : m'.used = m.used) (hsource : m'.source = m.source)
    (hsubmitted : m'.submitted = m.submitted) (hdata : ∀ x, (m'.bio x).data = (m.bio x).data)
    (hparent : m'.parent = m.parent) : m'.Cover := by
  have hchained : ∀ c p, m.Chained c p → m'.Chained c p := by
    intro c p hc
    unfold Chained at hc ⊢
    rwa [hused, hparent]
  refine ⟨?_, ?_, ?_, ?_, ?_, ?_⟩
  · intro b hb
    rw [hdata]
    exact h.sized b (hused ▸ hb)
  · rw [hused, hsource]
    exact h.source_used
  · rw [hused, hsource]
    intro b hb
    exact (h.source_below b hb).mono hchained
  · rw [hused, hsource, hparent]
    exact h.source_self
  · rw [hused, hsource, hsubmitted]
    intro r hr hs x hx
    obtain ⟨c, hc, hcs, hcx⟩ := h.covered r hr hs x hx
    exact ⟨c, hc, hcs, by rwa [hdata]⟩
  · rw [hused, hsource]
    intro c hc d hd hs x hcx hdx
    rw [hdata] at hcx hdx
    exact h.disjoint c hc d hd hs x hcx hdx

/-- A bio that is handed in by itself is its own source. -/
theorem Cover.fresh (h : m.Cover) (hg : Grows m c m')
    (hsource : m'.source = Function.update m.source c c)
    (hsubmitted : m'.submitted = Function.update m.submitted c (m'.bio c).data)
    (hsized : (m'.bio c).data.Sized) (hdata : ∀ x, x ≠ c → (m'.bio x).data = (m.bio x).data) : m'.Cover := by
  have hused : ∀ x ∈ m.used, x ≠ c := by
    rintro x hx rfl
    exact hg.fresh hx
  have hmem : ∀ x, x ∈ m'.used → x = c ∨ x ∈ m.used ∧ x ≠ c := by
    intro x hx
    rcases List.mem_cons.mp (hg.used ▸ hx) with hx | hx
    · exact Or.inl hx
    · exact Or.inr ⟨hx, hused x hx⟩
  have hself : m'.source c = c := by rw [hsource, Function.update_self]
  have hother : ∀ x, x ≠ c → m'.source x = m.source x := fun x hx => by
    rw [hsource, Function.update_of_ne hx]
  have hin : ∀ x ∈ m.used, x ∈ m'.used := fun x hx => hg.used ▸ List.mem_cons_of_mem _ hx
  have hcin : c ∈ m'.used := hg.used ▸ List.mem_cons_self
  refine ⟨?_, ?_, ?_, ?_, ?_, ?_⟩
  · intro b hb
    rcases hmem b hb with rfl | ⟨hb, hbc⟩
    · exact hsized
    · rw [hdata b hbc]
      exact h.sized b hb
  · intro b hb
    rcases hmem b hb with rfl | ⟨hb, hbc⟩
    · rw [hself]
      exact ⟨hcin, hself⟩
    · obtain ⟨hs, hss⟩ := h.source_used b hb
      rw [hother b hbc, hother _ (hused _ hs)]
      exact ⟨hin _ hs, hss⟩
  · intro b hb
    rcases hmem b hb with rfl | ⟨hb, hbc⟩
    · rw [hself]
      exact Relation.ReflTransGen.refl
    · rw [hother b hbc]
      exact (h.source_below b hb).mono fun _ _ => hg.chained_mono
  · intro b hb hp
    rcases hmem b hb with rfl | ⟨hb, hbc⟩
    · exact hself
    · rw [hother b hbc]
      refine h.source_self b hb ?_
      by_contra hne
      obtain ⟨p, hp'⟩ := Option.ne_none_iff_exists'.mp hne
      rw [hg.parent_mono hbc hp'] at hp
      cases hp
  · intro r hr hs x hx
    rcases hmem r hr with rfl | ⟨hr, hrc⟩
    · rw [hsubmitted, Function.update_self] at hx
      exact ⟨r, hcin, hself, hx⟩
    · rw [hsubmitted, Function.update_of_ne hrc] at hx
      rw [hother r hrc] at hs
      obtain ⟨d, hd, hds, hdx⟩ := h.covered r hr hs x hx
      exact ⟨d, hin d hd, by rw [hother d (hused d hd), hds], by rwa [hdata d (hused d hd)]⟩
  · intro d hd e he hs x hdx hex
    have hsrc : ∀ y ∈ m.used, m'.source y ≠ c := by
      intro y hy
      rw [hother y (hused y hy)]
      exact hused _ (h.source_used y hy).1
    rcases hmem d hd with rfl | ⟨hd, hdc⟩
    · rcases hmem e he with rfl | ⟨he, -⟩
      · rfl
      · exact absurd (hs.symm.trans hself) (hsrc e he)
    · rcases hmem e he with rfl | ⟨he, hec⟩
      · exact absurd (hs.trans hself) (hsrc d hd)
      · rw [hother d hdc, hother e hec] at hs
        rw [hdata d hdc] at hdx
        rw [hdata e hec] at hex
        exact h.disjoint d hd e he hs x hdx hex

/-- **A split.** The new piece has the source of the bio from which it is cut. -/
theorem Cover.split (hi : m.Inv) (h : m.Cover) {sectors : Nat} {front rest : Bio} (hb : b ∈ m.outstanding)
    (hc : c ∉ m.used) (hsplit : bioSplit true (m.bio b).data sectors = .ok (front, rest)) :
    (((m.alloc c front .none (m.source b)).set b fun s => { s with data := rest }).bioChain c b).Cover := by
  have hbu : b ∈ m.used := hi.live_used b (hi.outstanding_live b hb)
  have hne : c ≠ b := fun he => hc (he ▸ hbu)
  obtain ⟨hfront, hrest, hboth, hapart⟩ := bioSplit_ok (h.sized b hbu) hsplit
  have hg := grows_split front rest (m.source b) hb hc hne
  have hbio := bio_split m front rest (m.source b) hne
  generalize hm' : ((m.alloc c front .none (m.source b)).set b fun s => { s with data := rest }).bioChain c b
    = m' at hg hbio ⊢
  have hsource : m'.source = Function.update m.source c (m.source b) := by
    rw [← hm']
    rfl
  have hsubmitted : m'.submitted = Function.update m.submitted c front := by
    rw [← hm']
    rfl
  have hused : ∀ x ∈ m.used, x ≠ c := by
    rintro x hx rfl
    exact hc hx
  have hmem : ∀ x, x ∈ m'.used → x = c ∨ x ∈ m.used ∧ x ≠ c := by
    intro x hx
    rcases List.mem_cons.mp (hg.used ▸ hx) with hx | hx
    · exact Or.inl hx
    · exact Or.inr ⟨hx, hused x hx⟩
  have hin : ∀ x ∈ m.used, x ∈ m'.used := fun x hx => hg.used ▸ List.mem_cons_of_mem _ hx
  have hcin : c ∈ m'.used := hg.used ▸ List.mem_cons_self
  have hself : m'.source c = m.source b := by rw [hsource, Function.update_self]
  have hother : ∀ x, x ≠ c → m'.source x = m.source x := fun x hx => by
    rw [hsource, Function.update_of_ne hx]
  have hdc : (m'.bio c).data = front := by rw [hbio, if_pos rfl]
  have hdb : (m'.bio b).data = rest := by rw [hbio, if_neg fun he => hne he.symm, if_pos rfl]
  have hdx : ∀ x, x ≠ c → x ≠ b → (m'.bio x).data = (m.bio x).data := by
    intro x hxc hxb
    rw [hbio, if_neg hxc, if_neg hxb]
  -- the bio before the split that a sector of the piece or of the rest belonged to
  have hback : ∀ x ∈ m'.used, ∀ s, (m'.bio x).data.Contains s →
      ∃ y ∈ m.used, m.source y = m'.source x ∧ (m.bio y).data.Contains s ∧ (x = y ∨ x = c ∧ y = b) := by
    intro x hx s hs
    rcases hmem x hx with rfl | ⟨hx, hxc⟩
    · rw [hdc] at hs
      exact ⟨b, hbu, hself.symm, (hboth s).mpr (Or.inl hs), Or.inr ⟨rfl, rfl⟩⟩
    · refine ⟨x, hx, (hother x hxc).symm, ?_, Or.inl rfl⟩
      by_cases hxb : x = b
      · rw [hxb, hdb] at hs
        rw [hxb]
        exact (hboth s).mpr (Or.inr hs)
      · rwa [hdx x hxc hxb] at hs
  refine ⟨?_, ?_, ?_, ?_, ?_, ?_⟩
  · intro x hx
    rcases hmem x hx with rfl | ⟨hx, hxc⟩
    · rwa [hdc]
    · by_cases hxb : x = b
      · rwa [hxb, hdb]
      · rw [hdx x hxc hxb]
        exact h.sized x hx
  · have hold : ∀ x ∈ m.used, m.source x ∈ m'.used ∧ m'.source (m.source x) = m.source x := by
      intro x hx
      obtain ⟨hs, hss⟩ := h.source_used x hx
      exact ⟨hin _ hs, by rw [hother _ (hused _ hs), hss]⟩
    intro x hx
    rcases hmem x hx with rfl | ⟨hx, hxc⟩
    · rw [hself]
      exact hold b hbu
    · rw [hother x hxc]
      exact hold x hx
  · have hold : ∀ x ∈ m.used, m'.Below x (m.source x) := fun x hx =>
      (h.source_below x hx).mono fun _ _ => hg.chained_mono
    intro x hx
    rcases hmem x hx with rfl | ⟨hx, hxc⟩
    · rw [hself]
      refine Relation.ReflTransGen.head ⟨hx, ?_⟩ (hold b hbu)
      rw [Machine.parent, hbio, if_pos rfl]
      rfl
    · rw [hother x hxc]
      exact hold x hx
  · intro x hx hp
    rcases hmem x hx with rfl | ⟨hx, hxc⟩
    · rw [Machine.parent, hbio, if_pos rfl] at hp
      cases hp
    · rw [hother x hxc]
      refine h.source_self x hx ?_
      by_contra hsome
      obtain ⟨p, hp'⟩ := Option.ne_none_iff_exists'.mp hsome
      rw [hg.parent_mono hxc hp'] at hp
      cases hp
  · intro r hr hs x hx
    rcases hmem r hr with rfl | ⟨hr, hrc⟩
    · -- a piece is not its own source
      rw [hself] at hs
      exact absurd hs (hused _ (h.source_used b hbu).1)
    · rw [hsubmitted, Function.update_of_ne hrc] at hx
      rw [hother r hrc] at hs
      obtain ⟨d, hd, hds, hdx'⟩ := h.covered r hr hs x hx
      by_cases hdb' : d = b
      · rw [hdb'] at hdx' hds
        rcases (hboth x).mp hdx' with hfx | hrx
        · exact ⟨c, hcin, hself.trans hds, by rwa [hdc]⟩
        · exact ⟨b, hin b hbu, by rw [hother b fun he => hne he.symm, hds], by rwa [hdb]⟩
      · exact ⟨d, hin d hd, by rw [hother d (hused d hd), hds], by rwa [hdx d (hused d hd) hdb']⟩
  · intro d hd e he hs x hdx' hex
    obtain ⟨y, hy, hys, hyx, hyd⟩ := hback d hd x hdx'
    obtain ⟨z, hz, hzs, hzx, hze⟩ := hback e he x hex
    obtain rfl := h.disjoint y hy z hz (by rw [hys, hzs, hs]) x hyx hzx
    rcases hyd with rfl | ⟨rfl, rfl⟩
    · rcases hze with rfl | ⟨rfl, rfl⟩
      · rfl
      · rw [hdc] at hex
        rw [hdb] at hdx'
        exact absurd hdx' (hapart x hex)
    · rcases hze with rfl | ⟨rfl, -⟩
      · rw [hdc] at hdx'
        rw [hdb] at hex
        exact absurd hex (hapart x hdx')
      · rfl

theorem Cover.step (hi : m.Inv) (h : m.Cover) (hmove : m.Move m') : m'.Cover := by
  cases hmove with
  | @alloc b data owned hfresh hsized =>
      have hbio := bio_alloc m b data (if owned then .owner else .none) b
      refine h.fresh (grows_alloc hfresh data owned) rfl ?_ ?_ ?_
      · rw [hbio, if_pos rfl]
        rfl
      · rw [hbio, if_pos rfl]
        exact hsized
      · intro x hx
        rw [hbio, if_neg hx]
  | @setEndIo b hb hnone =>
      refine h.congr rfl rfl rfl (fun x => ?_) (parent_setEndIo hnone)
      exact set_bio_eq m b x (fun s => { s with endIo := .owner }) BioState.data fun _ => rfl
  | split hb hc hsplit => exact h.split hi hb hc hsplit
  | @nextBio b new data hb hnone hfresh hsized =>
      have hne : b ≠ new := by
        rintro rfl
        exact hfresh (hi.live_used b (hi.outstanding_live b hb))
      have hbio := bio_nextBio m data new hne
      refine h.fresh (grows_nextBio hb hnone hfresh hne) rfl ?_ ?_ ?_
      · rw [hbio, if_neg fun he => hne he.symm, if_pos rfl]
        rfl
      · rw [hbio, if_neg fun he => hne he.symm, if_pos rfl]
        exact hsized
      · intro x hx
        rw [hbio, if_neg hx]
        split_ifs with hxb
        · rw [hxb]
        · rfl
  | @complete b status hb =>
      refine h.congr rfl rfl rfl (fun x => ?_) (parent_complete m b status)
      exact set_bio_eq m b x (·.note status) BioState.data fun _ => rfl
  | @endio l₁ l₂ pc hcalls =>
      obtain ⟨hused, -, -, hsubmitted, hsource, hbio⟩ := bioEndio_frame m pc
      exact h.congr hused hsource hsubmitted (fun x => (hbio x).2) (parent_bioEndio m pc)

theorem Reachable.cover (h : m.Reachable) : m.Cover := by
  obtain ⟨junk, h⟩ := h
  have hstart : (start junk).Inv ∧ (start junk).Cover := by
    refine ⟨start_inv junk, ?_⟩
    refine ⟨?_, ?_, ?_, ?_, ?_, ?_⟩ <;> simp [start]
  refine (h.inv (I := fun m => m.Inv ∧ m.Cover) hstart ?_).2
  rintro m a m' ⟨hi, hc⟩ hstep
  exact ⟨hi.step hstep.move, hc.step hi hstep.move⟩

/-- **Success means that the data was transferred.** When the owner of a bio finds success, each sector that
    the bio was handed in with was transferred by exactly one of the bios split from it, whose completion was
    a success. -/
theorem endio_transfer (h : m.Reachable) {r : Nat} (he : (r, 0) ∈ m.ended) {x : Nat}
    (hx : (m.submitted r).Contains x) :
    ∃! c, m.source c = r ∧ (c, 0) ∈ m.completed ∧ (m.bio c).data.Contains x := by
  have hs := h.sound
  have hi := hs.inv
  have hl := hs.ledger
  have hcov := h.cover
  obtain ⟨hused, hdead, hown⟩ := (hl.ended_iff r).mp (List.mem_map_of_mem he)
  have hsrc : m.source r = r := hcov.source_self r hused (by rw [Machine.parent, hown]; rfl)
  obtain ⟨c, hc, hcs, hcx⟩ := hcov.covered r hused hsrc x hx
  have hbelow : m.Below c r := hcs ▸ hcov.source_below c hc
  obtain ⟨status, hmem⟩ := hl.completed_of_dead hi hc (hi.below_dead hbelow hdead)
  obtain rfl : status = 0 := by
    by_contra hne
    exact hs.status_ne_zero hbelow hdead hmem hne (hl.ended_status _ he)
  refine ⟨c, ⟨hcs, hmem, hcx⟩, ?_⟩
  rintro d ⟨hds, hdmem, hdx⟩
  have hd : d ∈ m.used := ((hl.completed_iff d).mp (List.mem_map_of_mem hdmem)).1
  exact hcov.disjoint d hd c hc (hds.trans hcs.symm) x hdx hcx

/-- The split read: its sector 2200 is one of those of the rest. -/
theorem endio_transfer_split :
    ∃ m, (start sampleState).run (splitRun 0) = some m ∧ (0, 0) ∈ m.ended ∧ (m.submitted 0).Contains 2200 ∧
      ∃! c, m.source c = 0 ∧ (c, 0) ∈ m.completed ∧ (m.bio c).data.Contains 2200 := by
  obtain ⟨m, hrun, he⟩ : ∃ m, (start sampleState).run (splitRun 0) = some m ∧
      (m.ended, m.submitted 0) = ([(0, 0)], sampleBio) :=
    Option.map_eq_some_iff.mp (by decide :
      ((start sampleState).run (splitRun 0)).map (fun m => (m.ended, m.submitted 0)) =
        some ([(0, 0)], sampleBio))
  simp only [Prod.mk.injEq] at he
  obtain ⟨hended, hsub⟩ := he
  have hmem : (0, 0) ∈ m.ended := by simp [hended]
  have hx : (m.submitted 0).Contains 2200 := by
    rw [hsub]
    exact ⟨by decide, by decide⟩
  exact ⟨m, hrun, hmem, hx, endio_transfer (reachable_of_run hrun) hmem hx⟩

end Machine
end Block
end SystemsPlayground
