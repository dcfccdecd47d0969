import OSsim.KernelInv

/-!
# Conservation of frames in every run

Runs in which no address space outgrows the page table, on devices whose frame
numbers fit a page table entry.
-/

open scoped BigOperators
namespace OSsim

namespace Kernel
variable {ι : Type*}

def VmBounded (s : Kernel ι) : Prop :=
  s.All fun mm => ∀ v ∈ mm.mmap, v.vmEnd ≤ pagingMaxPgn * pagingPagesz

instance [Fintype ι] (s : Kernel ι) : Decidable s.VmBounded :=
  decidable_of_iff (∀ p, ∀ mm ∈ s.mm p, ∀ v ∈ mm.mmap, v.vmEnd ≤ pagingMaxPgn * pagingPagesz)
    Iff.rfl

variable [DecidableEq ι]

def NextBounded (s : Kernel ι) (op : Op ι) (s' : Kernel ι) : Prop := Next s op s' ∧ s'.VmBounded

variable [Fintype ι] {nr ns : ℕ} {s s' : Kernel ι} {p : ι} {mm : Mm} {memramsz : ℤ}
  {memswpsz : ℕ → ℤ} {ops : List (Op ι)}

omit [DecidableEq ι] in
theorem inv_boot (hram : framesOf memramsz ≤ 8192) (hswp : framesOf (memswpsz 0) ≤ 2 ^ 21) :
    Inv (framesOf memramsz) (framesOf (memswpsz 0)) (boot memramsz memswpsz : Kernel ι) where
  ramDim := by simp only [boot, Memphy.numfp, Memphy.fresh_maxsz, framesOf]
  swpDim := by simp only [boot, Memphy.numfp, Memphy.fresh_maxsz, framesOf, activeMswpId]
  ramLe := hram
  swpLe := hswp
  ramAcct f := by
    simp [boot, Memphy.fresh_freeFpList, ramOwn, framesOf]
  swpAcct w := by
    simp [boot, Memphy.fresh_freeFpList, swpOwn, framesOf, activeMswpId]
  housed := all_boot _ _ _

theorem Inv.exec (h : Inv nr ns s) (hp : s.mm p = some mm) (i : Instr)
    (hb : (s.commit p ((s.caller mm).exec i).2).VmBounded) :
    Inv nr ns (s.commit p ((s.caller mm).exec i).2) ∧
      Moved (s.ramExt p) (s.swpExt p) (s.caller mm) i ((s.caller mm).exec i).1
        ((s.caller mm).exec i).2 := by
  obtain ⟨v, hv⟩ := h.housed p mm hp
  have hv' : Housed (s.caller mm).mm v := hv
  have hf := h.frameInv hp
  have he := hv'.packed.space.exec_cases i
  obtain ⟨v', hp'⟩ := hv'.packed.exec i
  have hlim := hb p _ (commit_mm_self _ _ _) v'
    (by rw [hp'.space.mmap]; exact List.mem_singleton_self v')
  obtain ⟨hf', hm⟩ := he.moved hv' hf hp'.space hlim
  exact ⟨h.commit hf' (he.housed hv' hf hp' hlim), hm⟩

theorem Inv.step (s : Kernel ι) (op : Op ι) (s' : Kernel ι) (h : Inv nr ns s)
    (hn : NextBounded s op s') : Inv nr ns s' := by
  obtain ⟨hn, hb⟩ := hn
  have hs := s.step_cases op
  rw [Next] at hn
  rw [← hn] at hs
  cases hs with
  | idle => exact h
  | created hp => exact h.created hp
  | executed i hp => exact (h.exec hp i hb).1
  | released hp => exact h.released hp

/-- Every frame of RAM and of the active swap device has exactly one holder in every
state of every run; when all processes are gone the holders are the free lists. -/
theorem run_frames_conserved (hram : framesOf memramsz ≤ 8192)
    (hswp : framesOf (memswpsz 0) ≤ 2 ^ 21)
    (hrun : Run NextBounded (boot memramsz memswpsz) ops s) :
    (∀ f, s.mram.freeFpList.count f + ∑ q, s.ramOwn q f =
        if f < framesOf memramsz then 1 else 0) ∧
      (∀ w, (s.mswp activeMswpId).freeFpList.count w + ∑ q, s.swpOwn q w =
        if w < framesOf (memswpsz 0) then 1 else 0) ∧
      ((∀ q, s.mm q = none) →
        s.mram.freeFpList.Perm (List.range (framesOf memramsz)) ∧
        (s.mswp activeMswpId).freeFpList.Perm (List.range (framesOf (memswpsz 0)))) := by
  have h := hrun.invariant _ (inv_boot hram hswp) Inv.step
  refine ⟨h.ramAcct, h.swpAcct, fun hnone => ⟨?_, ?_⟩⟩
  · refine List.perm_iff_count.mpr fun f => ?_
    have ha := h.ramAcct f
    simp only [ramOwn, hnone, Option.elim_none, Finset.sum_const_zero, Nat.add_zero] at ha
    rw [ha, List.count_range]
  · refine List.perm_iff_count.mpr fun w => ?_
    have ha := h.swpAcct w
    simp only [swpOwn, hnone, Option.elim_none, Finset.sum_const_zero, Nat.add_zero] at ha
    rw [ha, List.count_range]

theorem run_frames_conserved_alloc :
    ∃ s : Kernel Unit, Run NextBounded (boot 512 fun _ => 256)
        [.exec () (.alloc 300 0), .create ()] s ∧
      s.mram.freeFpList = [] ∧ s.mram.freeFpList.count 1 + ∑ q, s.ramOwn q 1 = 1 := by
  have hrun : Run NextBounded (boot 512 fun _ => 256 : Kernel Unit)
      [.exec () (.alloc 300 0), .create ()] _ :=
    .snoc (.snoc .nil ⟨rfl, by decide +kernel⟩) ⟨rfl, by decide +kernel⟩
  refine ⟨_, hrun, by decide +kernel, ?_⟩
  exact (run_frames_conserved (by decide) (by decide) hrun).1 1

end Kernel
end OSsim
