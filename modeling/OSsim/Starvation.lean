import OSsim.Access
import OSsim.AddressLimit

/-!
# Whether a process gets its frames

A process acquires free frames of RAM, and when there are none it moves a page of its own
to swap; the pages of the others stay where they are. An instruction starves if this does
not give it the frames it needs. Counting the pages of all processes tells when it does:
what RAM cannot give are the pages that others have there, and what cannot be moved is
what swap has no room for.
-/

open scoped BigOperators
namespace OSsim

def Instr.access : Instr → Option (BitVec 32 × BitVec 32)
  | .read source offset => some (source, offset)
  | .write _ destination offset => some (destination, offset)
  | _ => none

theorem VmArea.WantsGrowth.access {v : VmArea} {i : Instr} (h : v.WantsGrowth i) :
    i.access = none := by
  cases i with
  | read => exact h.elim
  | write => exact h.elim
  | _ => rfl

namespace Pcb
variable {c : Pcb}

/-- The instruction needs more frames than the caller can acquire. -/
inductive Starves (c : Pcb) : Instr → Prop
  | growth {i : Instr} {v : VmArea} : v ∈ c.mm.mmap → v.WantsGrowth i →
      v.GrowthInRange i.growth → c.supply < growPages i.growth → Starves c i
  | fetch {i : Instr} {rgid offset : BitVec 32} {va : ℕ} : i.access = some (rgid, offset) →
      c.Accesses rgid.toInt offset.toInt va → Swapped (c.mm.pgd (va / 256)) → c.supply = 0 →
      Starves c i

theorem allocPagesRange_isSome (n : ℕ) (c : Pcb) :
    (c.allocPagesRange n).1.isSome ↔ n ≤ c.supply := by
  rw [allocPagesRange, Int.toNat_natCast]
  exact allocPagesLoop_isSome n [] c

theorem pgGetpage_isSome {v : VmArea} (h : Housed c.mm v) {rgid offset : BitVec 32} {va : ℕ}
    (hacc : c.Accesses rgid.toInt offset.toInt va) :
    (c.pgGetpage (pagingPgn va)).1.isSome ↔ Resident (c.mm.pgd (va / 256)) ∨ 0 < c.supply := by
  obtain ⟨hpgn, _, hpres⟩ := h.access_page hacc
  have hlt := (h.access_lt hacc).2
  rw [hpgn]
  refine (c.pgGetpage_cases (va / 256)).isSome_iff ?_ hpres
  simp only [pagingMaxPgn]
  omega

end Pcb

namespace Housed
variable {c : Pcb} {v : VmArea} (h : Housed c.mm v)
include h

theorem starves_growth_iff {i : Instr} (hi : i.access = none) :
    c.Starves i ↔ v.WantsGrowth i ∧ v.GrowthInRange i.growth ∧ c.supply < growPages i.growth := by
  have hmmap := h.packed.space.mmap
  constructor
  · intro hs
    cases hs with
    | growth hv hw hr hlt =>
      rw [hmmap, List.mem_singleton] at hv
      subst hv
      exact ⟨hw, hr, hlt⟩
    | fetch hacc =>
      rw [hi] at hacc
      cases hacc
  · rintro ⟨hw, hr, hlt⟩
    exact .growth (by rw [hmmap]; exact List.mem_singleton_self v) hw hr hlt

theorem starves_access_iff {i : Instr} {rgid offset : BitVec 32} {va : ℕ}
    (hi : i.access = some (rgid, offset)) (hacc : c.Accesses rgid.toInt offset.toInt va) :
    c.Starves i ↔ (c.pgGetpage (pagingPgn va)).1 = none := by
  have hpage := Pcb.pgGetpage_isSome h hacc
  obtain ⟨_, _, hpres⟩ := h.access_page hacc
  rw [← Option.not_isSome_iff_eq_none, hpage]
  constructor
  · intro hs
    cases hs with
    | growth _ hw =>
      rw [hw.access] at hi
      cases hi
    | fetch hi' hacc' hsw hzero =>
      rw [hi, Option.some.injEq, Prod.mk.injEq] at hi'
      obtain ⟨rfl, rfl⟩ := hi'
      rw [hacc'.unique hacc] at hsw
      exact fun hor => hor.elim (fun hr => hr.2 hsw.2) fun hpos => by omega
  · intro hno
    refine .fetch hi hacc ⟨hpres, ?_⟩ (by omega)
    by_contra hns
    exact hno (Or.inl ⟨hpres, hns⟩)

theorem failed_iff (i : Instr) : (c.exec i).1 = .failed ↔ c.Refused v i ∨ c.Starves i := by
  have he := h.packed.space.exec_cases i
  generalize (c.exec i).1 = o, (c.exec i).2 = c' at he ⊢
  cases he with
  | refused hr => exact iff_of_true rfl (Or.inl hr)
  | outOfFrames hw hr ha =>
    have hno := mt (Pcb.allocPagesRange_isSome _ _).mpr (by rw [ha]; simp)
    have hv : v ∈ c.mm.mmap := by
      rw [h.packed.space.mmap]
      exact List.mem_singleton_self v
    exact iff_of_true rfl (Or.inr (.growth hv hw hr (not_le.mp hno)))
  | placed hi hpos hf =>
    refine iff_of_false (by simp) ?_
    rw [h.starves_growth_iff rfl]
    rintro ((hr | hr | ⟨hr, _⟩) | ⟨⟨_, _, hr⟩, _⟩)
    · rw [hi] at hr
      cases hr
    · omega
    · rw [hf] at hr
      cases hr
    · rw [hf] at hr
      cases hr
  | allocGrown hi hpos hnone hrange ha hf =>
    refine iff_of_false (by simp) ?_
    have hle := (Pcb.allocPagesRange_isSome _ c).mp (by rw [ha]; rfl)
    rw [h.starves_growth_iff rfl]
    rintro ((hr | hr | ⟨_, hr⟩) | ⟨_, _, hlt⟩)
    · rw [hi] at hr
      cases hr
    · omega
    · exact hr hrange
    · simp only [Instr.growth] at hlt
      omega
  | grown hv hrange ha =>
    refine iff_of_false (by simp) ?_
    have hle := (Pcb.allocPagesRange_isSome _ c).mp (by rw [ha]; rfl)
    rw [h.starves_growth_iff rfl]
    rintro ((hr | hr) | ⟨_, _, hlt⟩)
    · exact hr hv
    · exact hr hrange
    · simp only [Instr.growth] at hlt
      omega
  | freed hi hlt =>
    refine iff_of_false (by simp) ?_
    rw [h.starves_growth_iff rfl]
    rintro (hr | ⟨hw, _⟩)
    · exact absurd (hr _ hi) (not_le.mpr hlt)
    · exact hw
  | @reads _ _ va hacc =>
    have hpage := Pcb.pgGetval_isSome (c := c) va
    rw [h.starves_access_iff rfl hacc, ← Option.not_isSome_iff_eq_none, ← hpage]
    cases (c.pgGetval va).1 with
    | none => exact iff_of_true rfl (Or.inr (by simp))
    | some b => exact iff_of_false (by simp) fun hor => hor.elim (fun hr => hr va hacc) (by simp)
  | @writes data _ _ va hacc =>
    have hpage := Pcb.pgSetval_isSome (c := c) va data
    rw [h.starves_access_iff rfl hacc, ← Option.not_isSome_iff_eq_none, ← hpage]
    cases (c.pgSetval va data).1 with
    | false => exact iff_of_true rfl (Or.inr (by simp))
    | true => exact iff_of_false (by simp [outcomeOf]) fun hor =>
        hor.elim (fun hr => hr va hacc) (by simp)

end Housed

def Mm.residents (mm : Mm) : ℕ :=
  ((Finset.range pagingMaxPgn).filter fun k => Resident (mm.pgd k)).card

def Mm.inSwap (mm : Mm) : ℕ :=
  ((Finset.range pagingMaxPgn).filter fun k => Swapped (mm.pgd k)).card

theorem resident_add_swapped (pte : Pte) :
    (if Resident pte then 1 else 0) + (if Swapped pte then 1 else 0) = pageHold pte := by
  by_cases hp : pagingPagePresent pte
  · by_cases hs : pagingPageSwapped pte
    · simp [Resident, Swapped, pageHold, hp, hs]
    · simp [Resident, Swapped, pageHold, hp, hs]
  · simp [Resident, Swapped, pageHold, hp]

theorem Mm.residents_add_inSwap (mm : Mm) : mm.residents + mm.inSwap = mm.pages := by
  rw [Mm.residents, Mm.inSwap, Finset.card_filter, Finset.card_filter, ← Finset.sum_add_distrib]
  exact Finset.sum_congr rfl fun k _ => resident_add_swapped (mm.pgd k)

theorem Mm.sum_ramOwn {mm : Mm} {nr : ℕ}
    (hlt : ∀ k, Resident (mm.pgd k) → pagingFpn (mm.pgd k) < nr) :
    ∑ f ∈ Finset.range nr, mm.ramOwn f = mm.residents := by
  simp only [Mm.ramOwn, ramHold, Mm.residents]
  exact Accounting.sum_holds fun k _ hk => hlt k hk

theorem Mm.sum_swpOwn {mm : Mm} {ns : ℕ}
    (hlt : ∀ k, Swapped (mm.pgd k) → pagingPteSwp (mm.pgd k) < ns) :
    ∑ w ∈ Finset.range ns, mm.swpOwn w = mm.inSwap := by
  simp only [Mm.swpOwn, swpHold, Mm.inSwap]
  exact Accounting.sum_holds fun k _ hk => hlt k hk

theorem FrameInv.fifo_length {nr ns : ℕ} {ramExt swpExt : ℕ → ℕ} {c : Pcb} {hand : List ℕ}
    (h : FrameInv nr ns ramExt swpExt c hand) : c.mm.fifoPgn.length = c.mm.residents := by
  have hset : c.mm.fifoPgn.toFinset =
      (Finset.range pagingMaxPgn).filter fun k => Resident (c.mm.pgd k) := by
    ext k
    rw [List.mem_toFinset, h.fifoMem, Finset.mem_filter, Finset.mem_range]
    exact ⟨fun hr => ⟨h.inTable k hr.1, hr⟩, fun hk => hk.2⟩
  rw [← List.toFinset_card_of_nodup h.fifoNodup, hset, Mm.residents]

namespace Kernel
variable {ι : Type*} {s : Kernel ι} {p q : ι} {mm : Mm} {nr ns : ℕ}

def residents (s : Kernel ι) (q : ι) : ℕ := (s.mm q).elim 0 Mm.residents

def inSwap (s : Kernel ι) (q : ι) : ℕ := (s.mm q).elim 0 Mm.inSwap

theorem residents_some (hq : s.mm q = some mm) : s.residents q = mm.residents := by
  rw [residents, hq, Option.elim_some]

theorem inSwap_some (hq : s.mm q = some mm) : s.inSwap q = mm.inSwap := by
  rw [inSwap, hq, Option.elim_some]

theorem residents_add_inSwap (s : Kernel ι) (q : ι) :
    s.residents q + s.inSwap q = s.pagesOf q := by
  rcases hq : s.mm q with _ | mm
  · rw [residents, inSwap, pagesOf, hq, Option.elim_none, Option.elim_none, Option.elim_none]
  · rw [residents_some hq, inSwap_some hq, pagesOf_some hq, mm.residents_add_inSwap]

variable [Fintype ι] [DecidableEq ι]

theorem Inv.sum_ramOwn (h : Inv nr ns s) (q : ι) :
    ∑ f ∈ Finset.range nr, s.ramOwn q f = s.residents q := by
  rcases hq : s.mm q with _ | mm
  · simp only [ramOwn, residents, hq, Option.elim_none, Finset.sum_const_zero]
  · have hsum : ∑ f ∈ Finset.range nr, mm.ramOwn f = mm.residents :=
      Mm.sum_ramOwn fun k hk => (h.frameInv hq).resident_lt hk
    rw [residents_some hq, ← hsum]
    exact Finset.sum_congr rfl fun f _ => ramOwn_some hq f

theorem Inv.sum_swpOwn (h : Inv nr ns s) (q : ι) :
    ∑ w ∈ Finset.range ns, s.swpOwn q w = s.inSwap q := by
  rcases hq : s.mm q with _ | mm
  · simp only [swpOwn, inSwap, hq, Option.elim_none, Finset.sum_const_zero]
  · have hsum : ∑ w ∈ Finset.range ns, mm.swpOwn w = mm.inSwap :=
      Mm.sum_swpOwn fun k hk => (h.frameInv hq).swapped_lt hk
    rw [inSwap_some hq, ← hsum]
    exact Finset.sum_congr rfl fun w _ => swpOwn_some hq w

theorem Inv.free_add_residents (h : Inv nr ns s) :
    s.mram.freeFpList.length + ∑ q, s.residents q = nr := by
  have hsum := Accounting.length_add_sum h.ramAcct
  rwa [Finset.sum_congr rfl fun q _ => h.sum_ramOwn q] at hsum

theorem Inv.free_add_inSwap (h : Inv nr ns s) :
    (s.mswp activeMswpId).freeFpList.length + ∑ q, s.inSwap q = ns := by
  have hsum := Accounting.length_add_sum h.swpAcct
  rwa [Finset.sum_congr rfl fun q _ => h.sum_swpOwn q] at hsum

theorem Inv.le_supply (h : Inv nr ns s) (hp : s.mm p = some mm) {k : ℕ}
    (hram : ∑ q ∈ Finset.univ.erase p, s.pagesOf q + k ≤ nr)
    (hall : ∑ q, s.pagesOf q + k ≤ nr + ns) : k ≤ (s.caller mm).supply := by
  have hfree := h.free_add_residents
  have hswp := h.free_add_inSwap
  have hpages : ∑ q, s.residents q + ∑ q, s.inSwap q = ∑ q, s.pagesOf q := by
    rw [← Finset.sum_add_distrib]
    exact Finset.sum_congr rfl fun q _ => s.residents_add_inSwap q
  have hothers : ∑ q ∈ Finset.univ.erase p, s.residents q ≤
      ∑ q ∈ Finset.univ.erase p, s.pagesOf q :=
    Finset.sum_le_sum fun q _ => by
      have := s.residents_add_inSwap q
      omega
  have hsplit := Finset.add_sum_erase Finset.univ s.residents (Finset.mem_univ p)
  have hfifo : mm.fifoPgn.length = s.residents p := by
    rw [residents_some hp]
    exact (h.frameInv hp).fifo_length
  simp only [Pcb.supply, caller]
  omega

theorem Inv.not_starves (h : Inv nr ns s) (hp : s.mm p = some mm) {i : Instr}
    (hgrowth : ∀ v ∈ mm.mmap, v.WantsGrowth i → v.GrowthInRange i.growth →
      ∑ q ∈ Finset.univ.erase p, s.pagesOf q + growPages i.growth ≤ nr ∧
        ∑ q, s.pagesOf q + growPages i.growth ≤ nr + ns)
    (hfetch : 0 < s.pagesOf p → 0 < ns → ∑ q ∈ Finset.univ.erase p, s.pagesOf q + 1 ≤ nr ∧
      ∑ q, s.pagesOf q + 1 ≤ nr + ns) : ¬ (s.caller mm).Starves i := by
  intro hs
  cases hs with
  | growth hv hw hr hlt =>
    obtain ⟨hram, hall⟩ := hgrowth _ hv hw hr
    have hle := h.le_supply hp hram hall
    omega
  | @fetch rgid offset va _ hacc hsw hzero =>
    have hf := h.frameInv hp
    have hpos : 0 < mm.inSwap :=
      Finset.card_pos.mpr ⟨va / 256, Finset.mem_filter.mpr
        ⟨Finset.mem_range.mpr (hf.inTable _ hsw.1), hsw⟩⟩
    have hpages := mm.residents_add_inSwap
    have hns := hf.swapped_lt hsw
    obtain ⟨hram, hall⟩ := hfetch (by rw [pagesOf_some hp]; omega) (by omega)
    have hle := h.le_supply hp hram hall
    omega

end Kernel
end OSsim
