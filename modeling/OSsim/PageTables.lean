import OSsim.Conservation

/-!
# The page table and the replacement list

Whether a page is resident is recorded twice, in its entry and in `fifo_pgn`. The two
agree in every state of a run and also in the middle of a call, while the frames the
call has taken are in neither. So the tail of the list is always a page in RAM, and an
eviction never copies a frame that its page no longer owns.
-/

namespace OSsim

/-- The states in which a call of the process asks for a frame: it has got every frame
that it asked for before. -/
def Pcb.Acquires : Pcb → Pcb → Prop :=
  Relation.ReflTransGen fun c c' => ∃ f, c.grabFrame = (some f, c')

structure Mm.Consistent (mm : Mm) (v : VmArea) : Prop where
  present : ∀ k, pagingPagePresent (mm.pgd k) ↔ k < v.vmEnd / 256
  fifoNodup : mm.fifoPgn.Nodup
  fifoMem : ∀ k, k ∈ mm.fifoPgn ↔ Resident (mm.pgd k)

/-- What `find_victim_page` and `__swap_out_page` do in a state: they work on a page in
RAM, and leave the pages that are in swap alone. -/
structure Pcb.EvictsResident (c : Pcb) : Prop where
  finds : (∃ k, Resident (c.mm.pgd k)) → c.mm.findVictimPage.isSome
  victim : ∀ k mm, c.mm.findVictimPage = some (k, mm) → Resident (c.mm.pgd k)
  gaveUp : ∀ c', c.swapOutPage = (none, c') →
    c'.mm.pgd = c.mm.pgd ∧ c'.mram = c.mram ∧ c'.mswp = c.mswp
  evicts : ∀ f c', c.swapOutPage = (some f, c') → ∃ k w, Resident (c.mm.pgd k) ∧
    f = pagingFpn (c.mm.pgd k) ∧
    c'.mm.pgd = Function.update c.mm.pgd k (pteSetSwap (c.mm.pgd k) activeMswpId w) ∧
    ∀ i < 256, (c'.mswp activeMswpId).storage (w * 256 + i) = c.mram.storage (f * 256 + i)
  swapped : ∀ k, Swapped (c.mm.pgd k) → c.swapOutPage.2.mm.pgd k = c.mm.pgd k

section
variable {nr ns : ℕ} {ramExt swpExt : ℕ → ℕ} {c c' : Pcb} {hand : List ℕ} {f : ℕ}

theorem Pcb.grabbed_of_grabFrame (hg : c.grabFrame = (some f, c')) : Pcb.Grabbed c f c' := by
  rcases c.grabFrame_cases with ⟨c1, hg', _⟩ | ⟨f', c1, hg', hgr⟩
  · rw [hg] at hg'
    cases hg'
  · rw [hg, Prod.mk.injEq, Option.some.injEq] at hg'
    obtain ⟨rfl, rfl⟩ := hg'
    exact hgr

theorem FrameInv.acquires (h : FrameInv nr ns ramExt swpExt c hand) (hc : c.Acquires c') :
    (∃ hand', FrameInv nr ns ramExt swpExt c' hand') ∧ GrabKeeps ramExt swpExt c c' := by
  induction hc with
  | refl => exact ⟨⟨hand, h⟩, GrabKeeps.refl c⟩
  | tail _ hg ih =>
    obtain ⟨⟨hand', h1⟩, hk⟩ := ih
    obtain ⟨f, hg⟩ := hg
    obtain ⟨h2, hk2⟩ := h1.grabbed (Pcb.grabbed_of_grabFrame hg)
    exact ⟨⟨_, h2⟩, hk.trans hk2⟩

theorem FrameInv.consistent {v : VmArea} (h : FrameInv nr ns ramExt swpExt c hand)
    (hp : ∀ k, pagingPagePresent (c.mm.pgd k) ↔ k < v.vmEnd / 256) : c.mm.Consistent v :=
  ⟨hp, h.fifoNodup, h.fifoMem⟩

theorem FrameInv.evicted_bytes {l rest : List ℕ} {v w : ℕ}
    (h : FrameInv nr ns ramExt swpExt c hand) (hf : c.mm.fifoPgn = l ++ [v])
    (hs : (c.mswp activeMswpId).freeFpList = w :: rest) {i : ℕ} (hi : i < 256) :
    ((c.evicted l v w rest).mswp activeMswpId).storage (w * 256 + i) =
      c.mram.storage (pagingFpn (c.mm.pgd v) * 256 + i) := by
  simp only [Pcb.evicted, Function.update_self]
  apply swapCpPage_inside _ _ _ _ _ _ hi
  · rw [h.ramDim]
    exact h.resident_lt (h.victim_resident hf)
  · have hw := (h.swap_frame_lt hs).1
    rw [← h.swpDim] at hw
    exact hw

theorem FrameInv.evictsResident (h : FrameInv nr ns ramExt swpExt c hand) : c.EvictsResident where
  finds hex := by
    obtain ⟨k, hk⟩ := hex
    have hmem := (h.fifoMem k).mpr hk
    rcases List.eq_nil_or_concat c.mm.fifoPgn with hf | ⟨l, v, hf⟩
    · rw [hf] at hmem
      exact absurd hmem List.not_mem_nil
    · rw [List.concat_eq_append] at hf
      rw [findVictimPage_concat hf]
      rfl
  victim k mm hk := by
    rcases List.eq_nil_or_concat c.mm.fifoPgn with hf | ⟨l, v, hf⟩
    · simp [Mm.findVictimPage, hf] at hk
    · rw [List.concat_eq_append] at hf
      rw [findVictimPage_concat hf, Option.some.injEq, Prod.mk.injEq] at hk
      exact hk.1 ▸ h.victim_resident hf
  gaveUp c' he := by
    have hout := c.swapOutPage_cases
    rw [he] at hout
    cases hout with
    | noVictim => exact ⟨rfl, rfl, rfl⟩
    | full => exact ⟨rfl, rfl, rfl⟩
  evicts f c' he := by
    have hout := c.swapOutPage_cases
    rw [he] at hout
    cases hout with
    | @evicts l rest v w hf hs =>
      refine ⟨v, w, h.victim_resident hf, rfl, rfl, fun i hi => ?_⟩
      simpa only [Pcb.evicted] using h.evicted_bytes hf hs hi
  swapped k hk := by
    have hout := c.swapOutPage_cases
    generalize c.swapOutPage = r at hout ⊢
    obtain ⟨o, c'⟩ := r
    cases hout with
    | noVictim => rfl
    | full => rfl
    | @evicts l rest v w hf hs =>
      have hkv : k ≠ v := by
        intro he
        subst he
        exact (h.victim_resident hf).2 hk.2
      exact Function.update_of_ne hkv _ _

end

namespace Kernel
variable {ι : Type*} [Fintype ι] [DecidableEq ι] {s : Kernel ι} {p : ι} {mm : Mm}
  {memramsz : ℤ} {memswpsz : ℕ → ℤ} {ops : List (Op ι)}

/-- In every state of every run, and at every point of a call where a frame is asked
for, the mapped pages are those below the end of area 0, the replacement list holds the
resident ones, and an eviction picks one of them. -/
theorem run_pageTables (hram : framesOf memramsz ≤ 8192) (hswp : framesOf (memswpsz 0) ≤ 2 ^ 21)
    (hrun : Run NextBounded (boot memramsz memswpsz) ops s) (hp : s.mm p = some mm) :
    ∃ v, mm.mmap = [v] ∧ v.vmId = 0 ∧ mm.Consistent v ∧
      ∀ c, (s.caller mm).Acquires c → c.mm.Consistent v ∧ c.EvictsResident := by
  have h := hrun.invariant _ (inv_boot hram hswp) Inv.step
  obtain ⟨v, hv⟩ := h.housed p mm hp
  refine ⟨v, hv.packed.space.mmap, hv.packed.space.vmId,
    ⟨hv.paged.present, hv.fifoNodup, hv.fifoMem⟩, fun c hc => ?_⟩
  obtain ⟨⟨hand, hf⟩, hk⟩ := (h.frameInv hp).acquires hc
  refine ⟨hf.consistent fun k => ?_, hf.evictsResident⟩
  rw [hk.shuffles.present]
  exact hv.paged.present k

theorem run_pageTables_evicting :
    ∃ (s : Kernel Unit) (mm : Mm), Run NextBounded (boot 512 fun _ => 256)
        [.exec () (.alloc 256 1), .exec () (.alloc 512 0), .create ()] s ∧
      s.mm () = some mm ∧ mm.fifoPgn = [2, 1] ∧
      Swapped (mm.pgd 0) ∧ ∃ v, mm.mmap = [v] ∧ mm.Consistent v ∧
        (s.caller mm).EvictsResident := by
  have hrun : Run NextBounded (boot 512 fun _ => 256 : Kernel Unit)
      [.exec () (.alloc 256 1), .exec () (.alloc 512 0), .create ()] _ :=
    .snoc (.snoc (.snoc .nil ⟨rfl, by decide +kernel⟩) ⟨rfl, by decide +kernel⟩)
      ⟨rfl, by decide +kernel⟩
  generalize hs : (Kernel.step (Kernel.step (Kernel.step (boot 512 fun _ => 256) (.create ())).2
    (.exec () (.alloc 512 0))).2 (.exec () (.alloc 256 1))).2 = s at hrun
  have hmm : (s.mm ()).map (fun mm => (mm.fifoPgn, decide (Swapped (mm.pgd 0)))) =
      some ([2, 1], true) := by
    rw [← hs]
    decide +kernel
  obtain ⟨mm, hp, hval⟩ := Option.map_eq_some_iff.mp hmm
  rw [Prod.mk.injEq] at hval
  obtain ⟨v, hm, _, hc, hall⟩ := run_pageTables (by decide) (by decide) hrun hp
  exact ⟨s, mm, hrun, hp, hval.1, of_decide_eq_true hval.2, v, hm, hc, (hall _ .refl).2⟩

end Kernel
end OSsim
