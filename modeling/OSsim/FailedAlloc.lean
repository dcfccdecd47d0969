import OSsim.FlatMemory

/-!
# A failed allocation changes nothing visible

An ALLOC that runs out of frames has already evicted pages of its caller and taken
frames. It returns the frames and leaves the evicted pages in swap, with their bytes.
-/

namespace OSsim
section
variable {nr ns : ℕ} {ramExt swpExt : ℕ → ℕ} {c c' : Pcb} {v : VmArea}

theorem Pcb.Effect.alloc_failed {size rgid : BitVec 32}
    (hf : FrameInv nr ns ramExt swpExt c [])
    (he : Pcb.Effect c v (.alloc size rgid) .failed c') :
    Pcb.Shuffles c c' ∧ Keeps ramExt swpExt c c' := by
  generalize hinst : Instr.alloc size rgid = inst at he
  generalize hout : Outcome.failed = out at he
  cases he with
  | refused => exact ⟨Pcb.Shuffles.refl c, Keeps.refl c⟩
  | outOfFrames _ _ ha =>
    obtain ⟨r, c1, he, _, hk, _⟩ := hf.allocPagesRange (growPages inst.growth)
    rw [ha, Prod.mk.injEq] at he
    obtain ⟨_, rfl⟩ := he
    exact ⟨hk.shuffles, hk.keeps⟩
  | placed => cases hout
  | allocGrown => cases hout
  | grown => cases hout
  | freed => cases hout
  | reads => cases hinst
  | writes => cases hinst

end

namespace Kernel
variable {ι : Type*} [Fintype ι] [DecidableEq ι] {s s' : Kernel ι} {p : ι} {mm : Mm}
  {memramsz : ℤ} {memswpsz : ℕ → ℤ} {ops : List (Op ι)}

/-- The bytes of every mapped page are the same in both states, for the page tables of both. -/
def SameBytes (c c' : Pcb) : Prop :=
  ∀ k, pagingPagePresent (c.mm.pgd k) → ∀ i < 256, c'.pageByte k i = c.pageByte k i

theorem run_failed_alloc (hram : framesOf memramsz ≤ 8192) (hswp : framesOf (memswpsz 0) ≤ 2 ^ 21)
    (hrun : Run NextBounded (boot memramsz memswpsz) ops s) (hp : s.mm p = some mm)
    {size rgid : BitVec 32} (hfail : s.step (.exec p (.alloc size rgid)) = (.failed, s')) :
    (∃ mm', s'.mm p = some mm' ∧ mm'.symrgtbl = mm.symrgtbl ∧ mm'.mmap = mm.mmap ∧
      (∀ k, pagingPagePresent (mm'.pgd k) ↔ pagingPagePresent (mm.pgd k)) ∧
      SameBytes (s.caller mm) (s'.caller mm')) ∧
    ∀ q, q ≠ p → s'.mm q = s.mm q ∧
      ∀ mmq, s.mm q = some mmq → SameBytes (s.caller mmq) (s'.caller mmq) := by
  have h := hrun.invariant _ (inv_boot hram hswp) Inv.step
  obtain ⟨v, hv⟩ := h.housed p mm hp
  have hs : Space (s.caller mm).mm v := hv.packed.space
  have he := hs.exec_cases (.alloc size rgid)
  rw [step_exec hp, Prod.mk.injEq] at hfail
  obtain ⟨hout, rfl⟩ := hfail
  rw [hout] at he
  generalize ((s.caller mm).exec (.alloc size rgid)).2 = c at he ⊢
  obtain ⟨hsh, hk⟩ := he.alloc_failed (h.frameInv hp)
  refine ⟨⟨c.mm, commit_mm_self _ _ _, hsh.symrgtbl, hsh.mmap, hsh.present, hk.bytes⟩,
    fun q hqp => ⟨commit_mm_of_ne _ _ hqp, fun mmq hq k hpres i hi => ?_⟩⟩
  exact pageByte_other h hqp hq hpres hi hk.ramOut hk.swpOut

/-- Two pages of RAM and one of swap. The ALLOC of three pages evicts one page and takes
one frame before it gives up. -/
theorem run_failed_alloc_evicts :
    ∃ (s s' : Kernel Unit) (mm mm' : Mm), Run NextBounded (boot 512 fun _ => 256)
        [.exec () (.alloc 512 0), .create ()] s ∧ s.mm () = some mm ∧
      s.step (.exec () (.alloc 768 1)) = (.failed, s') ∧ s'.mm () = some mm' ∧
      Resident (mm.pgd 0) ∧ Swapped (mm'.pgd 0) ∧ mm'.mmap = mm.mmap ∧
      SameBytes (s.caller mm) (s'.caller mm') := by
  have hrun : Run NextBounded (boot 512 fun _ => 256 : Kernel Unit)
      [.exec () (.alloc 512 0), .create ()] _ :=
    .snoc (.snoc .nil ⟨rfl, by decide +kernel⟩) ⟨rfl, by decide +kernel⟩
  generalize hs : (Kernel.step (Kernel.step (boot 512 fun _ => 256) (.create ())).2
    (.exec () (.alloc 512 0))).2 = s at hrun
  have hmm : (s.mm ()).map (fun mm => decide (Resident (mm.pgd 0))) = some true := by
    rw [← hs]
    decide +kernel
  have hfail : (s.step (.exec () (.alloc 768 1))).1 = .failed := by
    rw [← hs]
    decide +kernel
  have hmm' : ((s.step (.exec () (.alloc 768 1))).2.mm ()).map
      (fun mm => decide (Swapped (mm.pgd 0))) = some true := by
    rw [← hs]
    decide +kernel
  obtain ⟨mm, hp, hres⟩ := Option.map_eq_some_iff.mp hmm
  obtain ⟨mm₁, hp₁, hswapped⟩ := Option.map_eq_some_iff.mp hmm'
  obtain ⟨⟨mm', hp', _, hmap, _, hbytes⟩, _⟩ :=
    run_failed_alloc (by decide) (by decide) hrun hp (Prod.ext hfail rfl)
  obtain rfl : mm₁ = mm' := Option.some.inj (hp₁.symm.trans hp')
  exact ⟨s, _, mm, mm₁, hrun, hp, Prod.ext hfail rfl, hp', of_decide_eq_true hres,
    of_decide_eq_true hswapped, hmap, hbytes⟩

end Kernel
end OSsim
