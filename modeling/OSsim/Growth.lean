import OSsim.FrameMoves

/-!
# What the library calls do to an address space

`Space mm v` is the shape every address space keeps: area 0 is its only area, it
starts at 0, its break is its end, and all bounds fit an `int`. On such a space the
outcomes of `inc_vma_limit`, `__alloc`, `__free`, `__read` and `__write` are listed
once; the conversions between `int` and `unsigned long` are the identity there,
because `validate_overlap_vm_area` refuses a growth whose end leaves the `int` range.
-/

namespace OSsim

structure Space (mm : Mm) (v : VmArea) : Prop where
  mmap : mm.mmap = [v]
  vmId : v.vmId = 0
  vmStart : v.vmStart = 0
  sbrk : v.sbrk = v.vmEnd
  aligned : 256 ∣ v.vmEnd
  bound : v.vmEnd < 2 ^ 31
  freeWf : ∀ r ∈ v.vmFreergList, r.Wf
  symWf : ∀ i, (mm.symrgtbl i).Wf

theorem space_initMm : Space initMm ⟨0, 0, 0, 0, [⟨0, 0⟩]⟩ := by
  refine ⟨rfl, rfl, rfl, rfl, by simp, by simp, ?_, ?_⟩
  · simp [VmRg.Wf]
  · intro i
    exact ⟨le_rfl, by simp [initMm]⟩

def growPages (incSz : ℤ) : ℕ := (pagingPageAlignsz incSz / 256).toNat

/-- The planned growth is positive and keeps the end of the area an `int`. -/
def VmArea.GrowthInRange (v : VmArea) (incSz : ℤ) : Prop :=
  0 < pagingPageAlignsz incSz ∧ v.vmEnd + pagingPageAlignsz incSz < 2 ^ 31

theorem growPages_mul {incSz : ℤ} (hpos : 0 < pagingPageAlignsz incSz) :
    0 < growPages incSz ∧ (growPages incSz : ℤ) * 256 = pagingPageAlignsz incSz := by
  have halign := dvd_pagingPageAlignsz incSz
  simp only [growPages]
  omega

theorem tdiv_pagesz_eq_growPages {incSz : ℤ} (hpos : 0 < pagingPageAlignsz incSz) :
    (pagingPageAlignsz incSz).tdiv (pagingPagesz : ℤ) = growPages incSz := by
  rw [← (growPages_mul hpos).2, pagingPagesz]
  exact Int.mul_tdiv_cancel _ (by decide)

theorem growthInRange_iff {v : VmArea} {incSz : ℤ} (hpos : 0 < pagingPageAlignsz incSz) :
    v.GrowthInRange incSz ↔ v.vmEnd + growPages incSz * 256 < 2 ^ 31 := by
  have hn := growPages_mul hpos
  simp only [VmArea.GrowthInRange, hpos, true_and]
  omega

def VmArea.grown (v : VmArea) (n : ℕ) : VmArea :=
  { v with
    vmEnd := v.vmEnd + n * 256
    sbrk := v.vmEnd + n * 256
    vmFreergList := enlistFreerg v.vmFreergList ⟨v.vmEnd, v.vmEnd + n * 256⟩ }

namespace Pcb

def extended (c : Pcb) (v : VmArea) (n : ℕ) (fs : List ℕ) : Pcb :=
  { c with mm := { vmapLoop (pagingPgn v.vmEnd) n 0 fs c.mm with mmap := [v.grown n] } }

def placed (c : Pcb) (v : VmArea) (i : Fin pagingMaxSymtblSz) (rg : VmRg) (l : List VmRg) : Pcb :=
  { c with mm := { c.mm with
      mmap := [{ v with vmFreergList := l }]
      symrgtbl := Function.update c.mm.symrgtbl i rg } }

inductive Grow (c : Pcb) (v : VmArea) (vmaid incSz : ℤ) : Bool → Pcb → Prop
  | refused : toULong vmaid ≠ 0 ∨ ¬ v.GrowthInRange incSz → Grow c v vmaid incSz false c
  | outOfFrames {c' : Pcb} : toULong vmaid = 0 → v.GrowthInRange incSz →
      c.allocPagesRange (growPages incSz) = (none, c') → Grow c v vmaid incSz false c'
  | grown {c' : Pcb} {fs : List ℕ} : toULong vmaid = 0 → v.GrowthInRange incSz →
      c.allocPagesRange (growPages incSz) = (some fs, c') →
      Grow c v vmaid incSz true (c'.extended v (growPages incSz) fs)

end Pcb

section
variable {c c' : Pcb} {v : VmArea}

theorem grabFrame_space (c : Pcb) :
    c.grabFrame.2.mm.mmap = c.mm.mmap ∧ c.grabFrame.2.mm.symrgtbl = c.mm.symrgtbl := by
  rcases c.grabFrame_cases with ⟨c1, hg, hst⟩ | ⟨f, c1, hg, hgr⟩
  · rw [hg]
    exact ⟨hst.shuffles.mmap, hst.shuffles.symrgtbl⟩
  · rw [hg]
    cases hgr with
    | free => exact ⟨rfl, rfl⟩
    | evict => exact ⟨rfl, rfl⟩

theorem allocPagesLoop_space (n : ℕ) (l : List ℕ) (c : Pcb) :
    (Pcb.allocPagesLoop n l c).2.mm.mmap = c.mm.mmap ∧
      (Pcb.allocPagesLoop n l c).2.mm.symrgtbl = c.mm.symrgtbl := by
  induction n generalizing l c with
  | zero => exact ⟨rfl, rfl⟩
  | succ n ih =>
    have hg := grabFrame_space c
    rcases hr : c.grabFrame with ⟨_ | f, c1⟩
    · simp only [hr] at hg
      simp only [Pcb.allocPagesLoop, hr]
      exact hg
    · simp only [hr] at hg
      simp only [Pcb.allocPagesLoop, hr]
      obtain ⟨h1, h2⟩ := ih (f :: l) c1
      exact ⟨h1.trans hg.1, h2.trans hg.2⟩

namespace Space

theorem modifyVma {mm : Mm} (h : Space mm v) {vmaid : ℤ} (hv : toULong vmaid = 0)
    (f : VmArea → VmArea) : mm.modifyVma vmaid f = { mm with mmap := [f v] } := by
  simp only [Mm.modifyVma, h.mmap, Mm.modifyVma.go, h.vmId, hv, if_true]

variable (h : Space c.mm v)
include h

theorem getVmaByNum (vmaid : ℤ) :
    c.mm.getVmaByNum vmaid = if toULong vmaid = 0 then some v else none := by
  simp only [Mm.getVmaByNum, h.mmap, List.find?_cons, List.find?_nil, h.vmId]
  by_cases hv : toULong vmaid = 0
  · simp [hv]
  · simp [hv, Ne.symm hv]

theorem of_mm {mm : Mm} (hm : mm.mmap = c.mm.mmap) (hs : mm.symrgtbl = c.mm.symrgtbl) :
    Space mm v := by
  refine ⟨hm.trans h.mmap, h.vmId, h.vmStart, h.sbrk, h.aligned, h.bound, h.freeWf, ?_⟩
  intro i
  rw [hs]
  exact h.symWf i

theorem grown {n : ℕ} (hb : v.vmEnd + n * 256 < 2 ^ 31) (fs : List ℕ) :
    Space (c.extended v n fs).mm (v.grown n) := by
  obtain ⟨d, hd⟩ := h.aligned
  refine ⟨rfl, h.vmId, h.vmStart, rfl, ⟨d + n, ?_⟩, hb, enlistFreerg_wf hb h.freeWf, ?_⟩
  · simp only [VmArea.grown]
    omega
  · intro i
    have hs := (vmapLoop_frame (pagingPgn v.vmEnd) n 0 fs c.mm).2
    simp only [Pcb.extended, hs]
    exact h.symWf i

theorem placed {size : ℤ} (h₀ : 0 < size) (h₁ : size < 2 ^ 31) {rg : VmRg} {l : List VmRg}
    (hf : firstFit size v.vmFreergList = some (rg, l)) (i : Fin pagingMaxSymtblSz) :
    Space (c.placed v i rg l).mm { v with vmFreergList := l } := by
  obtain ⟨_, hrg, hl, _⟩ := firstFit_spec h₀ h₁ h.freeWf hf
  refine ⟨rfl, h.vmId, h.vmStart, h.sbrk, h.aligned, h.bound, hl, ?_⟩
  intro j
  simp only [Pcb.placed]
  by_cases hj : j = i
  · subst hj
    rw [Function.update_self]
    exact hrg
  · rw [Function.update_of_ne hj]
    exact h.symWf j

theorem getFreeVmrgArea (size : ℤ) :
    c.mm.getFreeVmrgArea 0 size = (firstFit size v.vmFreergList).map fun r =>
      (r.1, { c.mm with mmap := [{ v with vmFreergList := r.2 }] }) := by
  have hz : toULong 0 = 0 := rfl
  simp only [Mm.getFreeVmrgArea, h.getVmaByNum, hz, if_true, h.modifyVma hz]

theorem validateOverlap {vmaid : ℤ} (hv : toULong vmaid = 0) (a b : ℤ) :
    c.mm.validateOverlapVmArea vmaid a b = decide (a < b) := by
  simp [Mm.validateOverlapVmArea, h.mmap, h.vmId, hv]

theorem incVmaLimit_of_ne {vmaid : ℤ} (hv : toULong vmaid ≠ 0) (incSz : ℤ) :
    c.incVmaLimit vmaid incSz = (false, c) := by
  simp only [Pcb.incVmaLimit, h.getVmaByNum, if_neg hv]

section Area
variable {vmaid incSz : ℤ} (hv : toULong vmaid = 0)
include hv

theorem getVmAreaNodeAtBrk :
    c.mm.getVmAreaNodeAtBrk vmaid (pagingPageAlignsz incSz) =
      some ⟨v.vmEnd, toULong (v.vmEnd + pagingPageAlignsz incSz)⟩ := by
  simp only [Mm.getVmAreaNodeAtBrk, h.getVmaByNum, if_pos hv, Option.map_some, h.sbrk]

theorem incVmaLimit_of_nonpos (hpos : pagingPageAlignsz incSz ≤ 0) :
    c.incVmaLimit vmaid incSz = (false, c) := by
  simp only [Pcb.incVmaLimit, h.getVmaByNum, if_pos hv, h.getVmAreaNodeAtBrk hv, if_pos hpos]

variable (hpos : 0 < pagingPageAlignsz incSz)
include hpos

omit hv in
theorem planned_end :
    toULong (v.vmEnd + pagingPageAlignsz incSz) = v.vmEnd + growPages incSz * 256 := by
  have hn := growPages_mul hpos
  have hb := h.bound
  have hlt := pagingPageAlignsz_lt incSz
  rw [← hn.2]
  simp only [toULong]
  omega

/-- A sum that leaves the `int` range turns the planned end negative, and the
overlap check refuses it. -/
theorem validateOverlap_planned :
    c.mm.validateOverlapVmArea vmaid (toInt v.vmEnd)
      (toInt ((v.vmEnd + growPages incSz * 256 : ℕ) : ℤ)) =
        decide (v.vmEnd + growPages incSz * 256 < 2 ^ 31) := by
  have hn := growPages_mul hpos
  have hb := h.bound
  have hlt := pagingPageAlignsz_lt incSz
  rw [h.validateOverlap hv, toInt_natCast hb]
  apply decide_eq_decide.mpr
  simp only [toInt]
  omega

theorem incVmaLimit_of_pos :
    c.incVmaLimit vmaid incSz =
      if v.vmEnd + growPages incSz * 256 < 2 ^ 31 then
        match c.allocPagesRange (growPages incSz) with
        | (none, c') => (false, c')
        | (some fs, c') => (true, c'.extended v (growPages incSz) fs)
      else (false, c) := by
  have hn := growPages_mul hpos
  have hnp : ¬ pagingPageAlignsz incSz ≤ 0 := by omega
  simp only [Pcb.incVmaLimit, h.getVmaByNum, if_pos hv, h.getVmAreaNodeAtBrk hv, if_neg hnp,
    h.planned_end hpos, h.validateOverlap_planned hv hpos, Pcb.vmMapRam,
    tdiv_pagesz_eq_growPages hpos]
  by_cases hfit : v.vmEnd + growPages incSz * 256 < 2 ^ 31
  swap
  · simp only [hfit, decide_false, if_false, Bool.false_eq_true, not_false_eq_true, if_true]
  simp only [hfit, decide_true, not_true_eq_false, if_false, if_true]
  have hsp := allocPagesLoop_space (growPages incSz) [] c
  rcases hr : c.allocPagesRange (growPages incSz) with ⟨_ | fs, c1⟩
  · rfl
  · simp only [Pcb.allocPagesRange, Int.toNat_natCast] at hr
    rw [hr] at hsp
    have hmul : toInt ((growPages incSz : ℤ) * (pagingPagesz : ℤ)) =
        ((growPages incSz * 256 : ℕ) : ℤ) := by
      simp only [pagingPagesz, toInt]
      omega
    have hfr := vmapLoop_frame (pagingPgn v.vmEnd) (growPages incSz) 0 fs c1.mm
    have hsp2 : Space (vmapLoop (pagingPgn v.vmEnd) (growPages incSz) 0 fs c1.mm) v :=
      h.of_mm (hfr.1.trans hsp.1) (hfr.2.trans hsp.2)
    have hb := h.bound
    simp only [Pcb.vmapPageRange, hmul, toInt_natCast hb, ← Nat.cast_add, toInt_natCast hfit,
      toULong_natCast (show v.vmEnd < 2 ^ 64 by omega),
      toULong_natCast (show v.vmEnd + growPages incSz * 256 < 2 ^ 64 by omega)]
    rw [hsp2.modifyVma hv]
    simp only [Pcb.extended, VmArea.grown, h.sbrk, h.planned_end hpos]

end Area

theorem incVmaLimit_cases (vmaid incSz : ℤ) :
    Pcb.Grow c v vmaid incSz (c.incVmaLimit vmaid incSz).1 (c.incVmaLimit vmaid incSz).2 := by
  by_cases hv : toULong vmaid = 0
  swap
  · rw [h.incVmaLimit_of_ne hv]
    exact .refused (Or.inl hv)
  by_cases hpos : pagingPageAlignsz incSz ≤ 0
  · rw [h.incVmaLimit_of_nonpos hv hpos]
    exact .refused (Or.inr fun hr => absurd hr.1 (not_lt.mpr hpos))
  rw [not_le] at hpos
  rw [h.incVmaLimit_of_pos hv hpos]
  by_cases hfit : v.vmEnd + growPages incSz * 256 < 2 ^ 31
  swap
  · rw [if_neg hfit]
    exact .refused (Or.inr fun hr => hfit ((growthInRange_iff hpos).mp hr))
  have hr := (growthInRange_iff hpos).mpr hfit
  rw [if_pos hfit]
  rcases ha : c.allocPagesRange (growPages incSz) with ⟨_ | fs, c1⟩
  · exact .outOfFrames hv hr ha
  · exact .grown hv hr ha

end Space
end
end OSsim
