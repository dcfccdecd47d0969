import OSsim.RegionRuns

/-!
# Filling memory one page at a time

One process that repeats an ALLOC of a single page reaches every fill level of the
devices: first it uses up the frames of RAM in ascending order, then the frames of
the active swap device. The states of this run show what the devices can be made to
hand out and how far an address space can grow.
-/

namespace OSsim
open Interval

structure Filled (nr ns n : ℕ) (c : Pcb) (v : VmArea) : Prop where
  space : Space c.mm v
  vmEnd : v.vmEnd = n * 256
  free : ∀ a, regionCover v.vmFreergList a = 0
  fifo : 0 < n → c.mm.fifoPgn ≠ []
  ram : c.mram.freeFpList = (List.range nr).drop n
  swp : (c.mswp activeMswpId).freeFpList = (List.range ns).drop (n - nr)

section
variable {nr ns n : ℕ} {c : Pcb} {v : VmArea}

theorem growPages_page : pagingPageAlignsz 256 = 256 ∧ growPages 256 = 1 := by decide

theorem Filled.supply_pos (h : Filled nr ns n c v) (hnr : 0 < nr) (hn : n < nr + ns) :
    0 < c.supply := by
  have hram := congrArg List.length h.ram
  have hswp := congrArg List.length h.swp
  rw [List.length_drop, List.length_range] at hram hswp
  simp only [Pcb.supply]
  by_cases hlt : n < nr
  · omega
  · have hf := List.length_pos_iff.mpr (h.fifo (by omega))
    omega

theorem Filled.grabs (h : Filled nr ns n c v) (hnr : 0 < nr) (hn : n < nr + ns) :
    ∃ f c', c.grabFrame = (some f, c') ∧ Pcb.Grabbed c f c' := by
  rcases c.grabFrame_cases with ⟨c1, _, hst⟩ | hgr
  · have hpos := h.supply_pos hnr hn
    rw [hst.supply] at hpos
    exact absurd hpos (Nat.lt_irrefl 0)
  · exact hgr

theorem Filled.grabs_free (h : Filled nr ns n c v) (hn : n < nr) :
    c.grabFrame = (some n, c.taken ((List.range nr).drop (n + 1))) ∧
      Pcb.Grabbed c n (c.taken ((List.range nr).drop (n + 1))) := by
  have hm : c.mram.freeFpList = n :: (List.range nr).drop (n + 1) := by
    rw [h.ram, List.drop_eq_getElem_cons (by rw [List.length_range]; exact hn), List.getElem_range]
  refine ⟨?_, .free hm⟩
  simp only [Pcb.grabFrame, Memphy.getFreefp, hm, Pcb.taken]

theorem drop_range_cons {m k x : ℕ} {rest : List ℕ} (hd : (List.range m).drop k = x :: rest) :
    k < m ∧ rest = (List.range m).drop (k + 1) := by
  have hlt : k < m := by
    have hl := congrArg List.length hd
    rw [List.length_drop, List.length_range, List.length_cons] at hl
    omega
  refine ⟨hlt, ?_⟩
  rw [← List.tail_drop, hd, List.tail_cons]

theorem Filled.grabbed {f : ℕ} {c' : Pcb} (h : Filled nr ns n c v) (hg : Pcb.Grabbed c f c') :
    c'.mram.freeFpList = (List.range nr).drop (n + 1) ∧
      (c'.mswp activeMswpId).freeFpList = (List.range ns).drop (n + 1 - nr) := by
  cases hg with
  | free hm =>
    obtain ⟨hlt, hrest⟩ := drop_range_cons (h.ram.symm.trans hm)
    refine ⟨hrest, ?_⟩
    have hz : n + 1 - nr = n - nr := by omega
    rw [hz]
    exact h.swp
  | evict hm _ hs =>
    obtain ⟨hlt, hrest⟩ := drop_range_cons (h.swp.symm.trans hs)
    have hle : nr ≤ n := by
      have hl := congrArg List.length (h.ram.symm.trans hm)
      rw [List.length_drop, List.length_range, List.length_nil] at hl
      omega
    have hsucc : n + 1 - nr = n - nr + 1 := by omega
    simp only [Pcb.evicted, Function.update_self, swapCpPage_fst_freeFpList,
      swapCpPage_snd_freeFpList]
    refine ⟨?_, by rw [hsucc]; exact hrest⟩
    rw [hm, List.drop_eq_nil_of_le (by rw [List.length_range]; omega)]

section Page
variable (h : Space c.mm v) (hfree : ∀ a, regionCover v.vmFreergList a = 0)
  (hb : v.vmEnd + 1 * 256 < 2 ^ 31)
include h hfree hb

theorem Space.taken_page {rg : VmRg} {l : List VmRg}
    (hf : firstFit 256 (v.grown 1).vmFreergList = some (rg, l)) :
    rg = ⟨v.vmEnd, v.vmEnd + 256⟩ ∧ ∀ a, regionCover l a = 0 := by
  have hw : ∀ r ∈ (v.grown 1).vmFreergList, r.Wf := enlistFreerg_wf hb h.freeWf
  obtain ⟨hlen, _, _, hc⟩ := firstFit_spec (by decide) (by decide) hw hf
  have hcov : ∀ x, ind v.vmEnd (v.vmEnd + 1 * 256) x = rg.ind x + regionCover l x := by
    intro x
    rw [← hc x, VmArea.grown, enlistFreerg_cover h.freeWf, hfree x]
    rfl
  have hsize : (256 : ℤ).toNat = 256 := rfl
  rw [hsize] at hlen
  -- the region found is as long as the new page and lies inside it
  have hlo : v.vmEnd ≤ rg.rgStart := by
    have hx := hcov rg.rgStart
    have hone : 0 < rg.ind rg.rgStart := ind_pos.mpr ⟨le_rfl, by omega⟩
    exact (ind_pos.mp (show 0 < ind v.vmEnd (v.vmEnd + 1 * 256) rg.rgStart by omega)).1
  have hhi : rg.rgEnd ≤ v.vmEnd + 256 := by
    have hx := hcov (rg.rgEnd - 1)
    have hone : 0 < rg.ind (rg.rgEnd - 1) := ind_pos.mpr ⟨by omega, by omega⟩
    have hin := ind_pos.mp (show 0 < ind v.vmEnd (v.vmEnd + 1 * 256) (rg.rgEnd - 1) by omega)
    omega
  have hrg : rg = ⟨v.vmEnd, v.vmEnd + 256⟩ := by
    obtain ⟨lo, hi⟩ := rg
    simp only [VmRg.mk.injEq] at hlen hlo hhi ⊢
    omega
  refine ⟨hrg, fun a => ?_⟩
  have ha := hcov a
  have heq : rg.ind a = ind v.vmEnd (v.vmEnd + 1 * 256) a := by
    rw [hrg]
    rfl
  omega

theorem Space.alloc_page {f : ℕ} {c' : Pcb} (hg : c.grabFrame = (some f, c'))
    (regIndex : BitVec 32) {i : Fin pagingMaxSymtblSz} (hi : symIndex regIndex.toInt = some i) :
    ∃ l, (∀ a, regionCover l a = 0) ∧ c.exec (.alloc 256 regIndex) =
        (.done, (c'.extended v 1 [f]).placed (v.grown 1) i ⟨v.vmEnd, v.vmEnd + 256⟩ l) ∧
      Space ((c'.extended v 1 [f]).placed (v.grown 1) i ⟨v.vmEnd, v.vmEnd + 256⟩ l).mm
        { v.grown 1 with vmFreergList := l } := by
  have hz : (256 : BitVec 32).toInt = 256 := by decide
  have hpg := growPages_page
  have hrange : v.GrowthInRange 256 := ⟨by rw [hpg.1]; decide, by rw [hpg.1]; omega⟩
  have hloop : c.allocPagesRange (1 : ℕ) = (some [f], c') := by
    change Pcb.allocPagesLoop 1 [] c = _
    simp only [Pcb.allocPagesLoop, hg]
  have hsup : 1 ≤ c.supply := (Pcb.allocPagesLoop_isSome 1 [] c).mp (by
    rw [show Pcb.allocPagesLoop 1 [] c = (some [f], c') from hloop]
    rfl)
  have hdone : (c.exec (.alloc 256 regIndex)).1 = .done :=
    (h.alloc_done_iff 256 regIndex).mpr ⟨by rw [hi]; rfl, by decide,
      Or.inr ⟨by rw [hz]; exact hrange, by rw [hz, hpg.2]; exact hsup⟩⟩
  have he := h.exec_cases (.alloc 256 regIndex)
  generalize hr : c.exec (.alloc 256 regIndex) = r at hdone he ⊢
  obtain ⟨o, c2⟩ := r
  dsimp only at hdone he
  subst hdone
  cases he with
  | placed hi' hpos hf =>
    -- no free region holds even one byte
    rw [hz] at hf
    have hsome := (firstFit_isSome (by decide) (by decide) h.freeWf).mp
      (by rw [hf]; rfl : (firstFit 256 v.vmFreergList).isSome)
    obtain ⟨r, hr, hlen⟩ := hsome
    have hsize : (256 : ℤ).toNat = 256 := rfl
    rw [hsize] at hlen
    have hpos := regionCover_pos.mpr ⟨r, hr, le_rfl, (by omega : r.rgStart < r.rgEnd)⟩
    have hnone := hfree r.rgStart
    omega
  | @allocGrown _ _ j fs c1 rg l hj _ _ _ ha hf =>
    rw [hz, hpg.2] at ha hf
    have hs1 := (h.allocPages_space ha).grown hb fs
    rw [hloop, Prod.mk.injEq, Option.some.injEq] at ha
    obtain ⟨rfl, rfl⟩ := ha
    obtain ⟨rfl, hl⟩ := h.taken_page hfree hb hf
    obtain rfl : i = j := Option.some.inj (hi.symm.trans hj)
    exact ⟨l, hl, by rw [hz, hpg.2], hs1.placed (by decide) (by decide) hf i⟩

end Page

theorem Filled.alloc {f : ℕ} {c' : Pcb} (h : Filled nr ns n c v) (hb : n + 1 < 2 ^ 23)
    (hg : c.grabFrame = (some f, c')) (hgr : Pcb.Grabbed c f c') (regIndex : BitVec 32)
    {i : Fin pagingMaxSymtblSz} (hi : symIndex regIndex.toInt = some i) :
    ∃ l, c.exec (.alloc 256 regIndex) =
        (.done, (c'.extended v 1 [f]).placed (v.grown 1) i ⟨v.vmEnd, v.vmEnd + 256⟩ l) ∧
      Filled nr ns (n + 1)
        ((c'.extended v 1 [f]).placed (v.grown 1) i ⟨v.vmEnd, v.vmEnd + 256⟩ l)
        { v.grown 1 with vmFreergList := l } := by
  have hend := h.vmEnd
  obtain ⟨l, hl, he, hs⟩ := h.space.alloc_page h.free (by omega) hg regIndex hi
  obtain ⟨hram, hswp⟩ := h.grabbed hgr
  refine ⟨l, he, hs, ?_, hl, fun _ => ?_, hram, hswp⟩
  · simp only [VmArea.grown]
    omega
  · simp only [Pcb.placed, Pcb.extended]
    rw [vmapLoop_cons (by decide), vmapLoop]
    exact List.cons_ne_nil _ _

end

namespace Kernel
variable {ι : Type*} [DecidableEq ι]

theorem next_exec {s : Kernel ι} {p : ι} {mm : Mm} (hp : s.mm p = some mm) {i : Instr} {o : Outcome}
    {c : Pcb} (he : (s.caller mm).exec i = (o, c)) : Next s (.exec p i) (s.commit p c) := by
  rw [Next, step_exec hp, he]

theorem created_filled (memramsz : ℤ) (memswpsz : ℕ → ℤ) (p : ι) :
    ∃ s, Run Next (boot memramsz memswpsz : Kernel ι) [.create p] s ∧ s.mm p = some initMm ∧
      Filled (framesOf memramsz) (framesOf (memswpsz 0)) 0 (s.caller initMm)
        ⟨0, 0, 0, 0, [⟨0, 0⟩]⟩ := by
  have hfree : ∀ a, regionCover [⟨0, 0⟩] a = 0 := by
    intro a
    have hz : (⟨0, 0⟩ : VmRg).ind a = 0 := ind_empty le_rfl a
    rw [regionCover_cons, hz, regionCover_nil]
  have hnone : (boot memramsz memswpsz : Kernel ι).mm p = none := rfl
  have hrun : Run Next (boot memramsz memswpsz) [.create p]
      { (boot memramsz memswpsz : Kernel ι) with
        mm := Function.update (boot memramsz memswpsz).mm p (some initMm) } :=
    .snoc .nil (by rw [Next, step_create hnone])
  have hempty : 0 < 0 → initMm.fifoPgn ≠ [] := fun hlt => absurd hlt (Nat.lt_irrefl 0)
  exact ⟨_, hrun, Function.update_self _ _ _, space_initMm, rfl, hfree, hempty,
    Memphy.fresh_freeFpList _ _, by rw [Nat.zero_sub]; exact Memphy.fresh_freeFpList _ _⟩

theorem exists_filled (memramsz : ℤ) (memswpsz : ℕ → ℤ) (p : ι) (hnr : 0 < framesOf memramsz)
    (n : ℕ) (hn : n ≤ framesOf memramsz + framesOf (memswpsz 0)) (hb : n < 2 ^ 23) :
    ∃ ops s mm v, Run Next (boot memramsz memswpsz : Kernel ι) ops s ∧ s.mm p = some mm ∧
      Filled (framesOf memramsz) (framesOf (memswpsz 0)) n (s.caller mm) v := by
  induction n with
  | zero =>
    obtain ⟨s, hrun, hp, hf⟩ := created_filled memramsz memswpsz p
    exact ⟨_, s, initMm, _, hrun, hp, hf⟩
  | succ n ih =>
    obtain ⟨ops, s, mm, v, hrun, hp, hf⟩ := ih (by omega) (by omega)
    obtain ⟨f, c', hg, hgr⟩ := hf.grabs hnr (by omega)
    obtain ⟨l, he, hf'⟩ := hf.alloc hb hg hgr 0 (i := 0) (by decide)
    exact ⟨_, _, _, _, .snoc hrun (next_exec hp he), commit_mm_self _ _ _, hf'⟩

end Kernel
end OSsim
