import OSsim.FrameCalls
import OSsim.Release

/-!
# Frame conservation across processes

The processes share one RAM and one active swap device. Over all of them each frame
number has exactly one holder: the free list of its device or one page table entry
of one live process. A call of one process sees the holdings of the others as the
external part of its own invariant and hands them back unchanged.
-/

open scoped BigOperators
namespace OSsim.Kernel
variable {ι : Type*}

def ramOwn (s : Kernel ι) (q : ι) (f : ℕ) : ℕ := (s.mm q).elim 0 fun mm => mm.ramOwn f

def swpOwn (s : Kernel ι) (q : ι) (w : ℕ) : ℕ := (s.mm q).elim 0 fun mm => mm.swpOwn w

theorem ramOwn_some {s : Kernel ι} {q : ι} {mm : Mm} (hq : s.mm q = some mm) (f : ℕ) :
    s.ramOwn q f = mm.ramOwn f := by
  rw [ramOwn, hq, Option.elim_some]

theorem swpOwn_some {s : Kernel ι} {q : ι} {mm : Mm} (hq : s.mm q = some mm) (w : ℕ) :
    s.swpOwn q w = mm.swpOwn w := by
  rw [swpOwn, hq, Option.elim_some]

variable [Fintype ι] [DecidableEq ι]

def ramExt (s : Kernel ι) (p : ι) (f : ℕ) : ℕ := ∑ q ∈ Finset.univ.erase p, s.ramOwn q f

def swpExt (s : Kernel ι) (p : ι) (w : ℕ) : ℕ := ∑ q ∈ Finset.univ.erase p, s.swpOwn q w

structure Inv (nr ns : ℕ) (s : Kernel ι) : Prop where
  ramDim : s.mram.numfp = nr
  swpDim : (s.mswp activeMswpId).numfp = ns
  ramLe : nr ≤ 2 ^ 13
  swpLe : ns ≤ 2 ^ 21
  ramAcct : ∀ f, s.mram.freeFpList.count f + ∑ q, s.ramOwn q f = if f < nr then 1 else 0
  swpAcct : ∀ w, (s.mswp activeMswpId).freeFpList.count w + ∑ q, s.swpOwn q w =
    if w < ns then 1 else 0
  housed : s.All fun mm => ∃ v, Housed mm v

section
variable {nr ns : ℕ} {s s' : Kernel ι} {p : ι} {mm : Mm} {c : Pcb}

theorem sum_ramOwn (s : Kernel ι) (p : ι) (f : ℕ) :
    ∑ q, s.ramOwn q f = s.ramOwn p f + s.ramExt p f :=
  (Finset.add_sum_erase Finset.univ (fun q => s.ramOwn q f) (Finset.mem_univ p)).symm

theorem sum_swpOwn (s : Kernel ι) (p : ι) (w : ℕ) :
    ∑ q, s.swpOwn q w = s.swpOwn p w + s.swpExt p w :=
  (Finset.add_sum_erase Finset.univ (fun q => s.swpOwn q w) (Finset.mem_univ p)).symm

theorem ramExt_congr (hs : ∀ q, q ≠ p → s'.mm q = s.mm q) (f : ℕ) :
    s'.ramExt p f = s.ramExt p f := by
  apply Finset.sum_congr rfl
  intro q hq
  simp only [ramOwn, hs q (Finset.ne_of_mem_erase hq)]

theorem swpExt_congr (hs : ∀ q, q ≠ p → s'.mm q = s.mm q) (w : ℕ) :
    s'.swpExt p w = s.swpExt p w := by
  apply Finset.sum_congr rfl
  intro q hq
  simp only [swpOwn, hs q (Finset.ne_of_mem_erase hq)]

theorem Inv.frameInv (h : Inv nr ns s) (hp : s.mm p = some mm) :
    FrameInv nr ns (s.ramExt p) (s.swpExt p) (s.caller mm) [] := by
  obtain ⟨v, hv⟩ := h.housed p mm hp
  have hlim := hv.paged.limit
  refine ⟨h.ramDim, h.swpDim, h.ramLe, h.swpLe, fun f => ?_, fun w => ?_, hv.fifoNodup,
    hv.fifoMem, hv.paged.tidy.swpTyp, fun k hk => ?_⟩
  · have ha := h.ramAcct f
    rw [s.sum_ramOwn p, ramOwn_some hp] at ha
    simp only [caller, List.count_nil]
    omega
  · have ha := h.swpAcct w
    rw [s.sum_swpOwn p, swpOwn_some hp] at ha
    simp only [caller]
    omega
  · have hk' := (hv.paged.present k).mp hk
    simp only [pagingMaxPgn, pagingPagesz] at hlim ⊢
    omega

theorem Inv.commit (h : Inv nr ns s) (hf : FrameInv nr ns (s.ramExt p) (s.swpExt p) c [])
    {v : VmArea} (hv : Housed c.mm v) : Inv nr ns (s.commit p c) := by
  have hself : (s.commit p c).mm p = some c.mm := commit_mm_self s p c
  have hother : ∀ q, q ≠ p → (s.commit p c).mm q = s.mm q := fun q hq => commit_mm_of_ne s c hq
  refine ⟨hf.ramDim, hf.swpDim, h.ramLe, h.swpLe, fun f => ?_, fun w => ?_, ?_⟩
  · rw [← hf.ramAcct f, sum_ramOwn _ p, ramOwn_some hself, ramExt_congr hother, List.count_nil]
    simp only [Kernel.commit]
    omega
  · rw [← hf.swpAcct w, sum_swpOwn _ p, swpOwn_some hself, swpExt_congr hother]
    simp only [Kernel.commit]
    omega
  · intro q mm' hq
    by_cases hqp : q = p
    · subst hqp
      rw [hself, Option.some.injEq] at hq
      exact ⟨v, hq ▸ hv⟩
    · rw [hother q hqp] at hq
      exact h.housed q mm' hq

theorem ramOwn_initMm (f : ℕ) : initMm.ramOwn f = 0 := by
  rw [Mm.ramOwn]
  exact Finset.sum_eq_zero fun k _ => ramHold_of_not_resident (fun hr => not_present_zero hr.1) f

theorem swpOwn_initMm (w : ℕ) : initMm.swpOwn w = 0 := by
  rw [Mm.swpOwn]
  exact Finset.sum_eq_zero fun k _ => swpHold_of_not_swapped (fun hr => not_present_zero hr.1) w

theorem Inv.created (h : Inv nr ns s) (hp : s.mm p = none) :
    Inv nr ns { s with mm := Function.update s.mm p (some initMm) } := by
  have hother : ∀ q, q ≠ p → Function.update s.mm p (some initMm) q = s.mm q :=
    fun q hq => Function.update_of_ne hq _ _
  have hnone : ∀ f, s.ramOwn p f = 0 := fun f => by rw [ramOwn, hp, Option.elim_none]
  have hnone' : ∀ w, s.swpOwn p w = 0 := fun w => by rw [swpOwn, hp, Option.elim_none]
  refine ⟨h.ramDim, h.swpDim, h.ramLe, h.swpLe, fun f => ?_, fun w => ?_, ?_⟩
  · rw [← h.ramAcct f, sum_ramOwn _ p, s.sum_ramOwn p, ramExt_congr hother, hnone,
      ramOwn_some (Function.update_self _ _ _), ramOwn_initMm]
  · rw [← h.swpAcct w, sum_swpOwn _ p, s.sum_swpOwn p, swpExt_congr hother, hnone',
      swpOwn_some (Function.update_self _ _ _), swpOwn_initMm]
  · intro q mm' hq
    by_cases hqp : q = p
    · subst hqp
      simp only [Function.update_self, Option.some.injEq] at hq
      exact ⟨_, hq ▸ housed_initMm⟩
    · exact h.housed q mm' ((hother q hqp).symm.trans hq)

theorem Inv.returned {c' : Pcb} (h : Inv nr ns s) (hp : s.mm p = some mm)
    (hr : Returns (s.caller mm) c') (hram : ∀ f, c'.mm.ramOwn f = 0)
    (hswp : ∀ w, c'.mm.swpOwn w = 0) :
    Inv nr ns ⟨c'.mram, c'.mswp, Function.update s.mm p none⟩ := by
  have hf := h.frameInv hp
  have hother : ∀ q, q ≠ p → Function.update s.mm p none q = s.mm q :=
    fun q hq => Function.update_of_ne hq _ _
  refine ⟨?_, ?_, h.ramLe, h.swpLe, fun f => ?_, fun w => ?_, ?_⟩
  · rw [← hf.ramDim]
    simp only [Memphy.numfp, hr.ramMaxsz]
  · rw [← hf.swpDim]
    simp only [Memphy.numfp, hr.swpMaxsz]
  · have ha := hf.ramAcct f
    have hc := hr.ram f
    rw [hram f] at hc
    rw [sum_ramOwn _ p, ramExt_congr hother]
    simp only [ramOwn, Function.update_self, Option.elim_none]
    rw [List.count_nil] at ha
    omega
  · have ha := hf.swpAcct w
    have hc := hr.swp w
    rw [hswp w] at hc
    rw [sum_swpOwn _ p, swpExt_congr hother]
    simp only [swpOwn, Function.update_self, Option.elim_none]
    omega
  · intro q mm' hq
    by_cases hqp : q = p
    · subst hqp
      simp at hq
    · exact h.housed q mm' ((hother q hqp).symm.trans hq)

theorem Inv.released (h : Inv nr ns s) (hp : s.mm p = some mm) :
    Inv nr ns ⟨(s.caller mm).freePcbMemph.mram, (s.caller mm).freePcbMemph.mswp,
      Function.update s.mm p none⟩ := by
  obtain ⟨hr, hram, hswp, _⟩ := freePcbMemph_returns (c := s.caller mm) (h.frameInv hp).swpTyp
  exact h.returned hp hr hram hswp

end
end OSsim.Kernel
