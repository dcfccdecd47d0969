import OSsim.Lib.Logged
import OSsim.Syscall

/-!
# The arithmetic of a growth

`__alloc` and `inc_vma_limit` with every `int` computation on the way noted before it is
stored: the sum, quotient and product of `PAGING_PAGE_ALIGNSZ`, the page count, the
bounds of the planned region and of the area as arguments, the end that
`vmap_page_range` computes, and the address that `__alloc` stores. Neither function
compares the size with what an `int` can still hold. The sum overflows for sizes from
`2^31 - 256` on, and a planned end from `2^31` on is no `int`; below that everything is
exact.
-/

namespace OSsim
namespace Ints

/-- The exact result of a computation is noted and stored in an `int`. -/
def int (x : ℤ) : Logged ℤ ℤ := .note x (toInt x)

def pagingPageAlignsz (sz : ℤ) : Logged ℤ ℤ := do
  let sum ← int (sz + pagingPagesz)
  let sum ← int (sum - 1)
  let quotient ← int (sum.tdiv pagingPagesz)
  int (quotient * pagingPagesz)

def vmapPageRange (c : Pcb) (addr pgnum : ℤ) (frames : List ℕ) : Logged ℤ (VmRg × Pcb) := do
  let len ← int (pgnum * pagingPagesz)
  let rgEnd ← int (addr + len)
  pure (⟨toULong addr, toULong rgEnd⟩,
    { c with mm := vmapLoop (pagingPgn addr) pgnum 0 frames c.mm })

def vmMapRam (c : Pcb) (_astart _aend mapstart incpgnum : ℤ) : Logged ℤ (Option VmRg × Pcb) :=
  match c.allocPagesRange incpgnum with
  | (none, c) => pure (none, c)
  | (some frmLst, c) => do
    let r ← vmapPageRange c mapstart incpgnum frmLst
    pure (some r.1, r.2)

def incVmaLimit (c : Pcb) (vmaid incSz : ℤ) : Logged ℤ (Bool × Pcb) := do
  let incAmt ← pagingPageAlignsz incSz
  let incnumpage ← int (incAmt.tdiv pagingPagesz)
  match c.mm.getVmaByNum vmaid, c.mm.getVmAreaNodeAtBrk vmaid incAmt with
  | some curVma, some area =>
    if incAmt ≤ 0 then pure (false, c)
    else do
      let vmastart ← int area.rgStart
      let vmaend ← int area.rgEnd
      match c.mm.validateOverlapVmArea vmaid vmastart vmaend with
      | false => pure (false, c)
      | true => do
        let astart ← int area.rgStart
        let aend ← int area.rgEnd
        let mapstart ← int curVma.vmEnd
        let r ← vmMapRam c astart aend mapstart incnumpage
        match r with
        | (none, c) => pure (false, c)
        | (some area, c) =>
          pure (true, { c with mm := c.mm.modifyVma vmaid fun v =>
            { v with
              vmEnd := toULong (v.vmEnd + incAmt)
              sbrk := toULong (v.sbrk + incAmt)
              vmFreergList := enlistFreerg v.vmFreergList area } })
  | _, _ => pure (false, c)

def alloc (c : Pcb) (vmaid rgid size : ℤ) : Logged ℤ (Option ℤ × Pcb) :=
  match symIndex rgid with
  | none => pure (none, c)
  | some i =>
    if size ≤ 0 then pure (none, c)
    else
      match c.mm.getFreeVmrgArea vmaid size with
      | some (rgnode, mm) => do
        let allocAddr ← int rgnode.rgStart
        pure (some allocAddr, { c with mm := mm.setSym i rgnode })
      | none =>
        match c.mm.getVmaByNum vmaid with
        | none => pure (none, c)
        | some _ => do
          let r ← incVmaLimit c vmaid size
          match r.2.mm.getFreeVmrgArea vmaid size with
          | some (rgnode, mm) => do
            let allocAddr ← int rgnode.rgStart
            pure (some allocAddr, { r.2 with mm := mm.setSym i rgnode })
          | none => pure (none, r.2)

@[simp] theorem value_int (x : ℤ) : (int x).value = toInt x := Logged.value_note x _

@[simp] theorem every_int (P : ℤ → Prop) (x : ℤ) : (int x).Every P ↔ P x := Logged.every_note x _

theorem fitsInt_toInt (x : ℤ) : FitsInt (toInt x) := by
  unfold FitsInt toInt
  omega

theorem fitsInt_tdiv {x : ℤ} (hx : FitsInt x) :
    FitsInt (x.tdiv pagingPagesz) ∧ FitsInt (x.tdiv pagingPagesz * pagingPagesz) := by
  simp only [FitsInt, pagingPagesz] at hx ⊢
  by_cases h : 0 ≤ x
  · rw [Int.tdiv_eq_ediv_of_nonneg h]
    omega
  · have hneg : x.tdiv ((256 : ℕ) : ℤ) = -(-x / 256) := by
      rw [← Int.tdiv_eq_ediv_of_nonneg (by omega), Int.neg_tdiv, neg_neg]
      rfl
    rw [hneg]
    omega

theorem value_pagingPageAlignsz (sz : ℤ) :
    (pagingPageAlignsz sz).value = OSsim.pagingPageAlignsz sz := by
  obtain ⟨hquot, hprod⟩ := fitsInt_tdiv (fitsInt_toInt (toInt (sz + pagingPagesz) - 1))
  simp only [pagingPageAlignsz, Logged.value_bind, value_int]
  rw [toInt_of_mem hquot.1 hquot.2, toInt_of_mem hprod.1 hprod.2]
  rfl

theorem fitsInt_pagingPageAlignsz (sz : ℤ) : FitsInt (OSsim.pagingPageAlignsz sz) :=
  (fitsInt_tdiv (fitsInt_toInt (toInt (sz + pagingPagesz) - 1))).2

theorem toInt_pageCount (sz : ℤ) : toInt ((OSsim.pagingPageAlignsz sz).tdiv pagingPagesz) =
    (OSsim.pagingPageAlignsz sz).tdiv pagingPagesz := by
  have hquot := (fitsInt_tdiv (fitsInt_pagingPageAlignsz sz)).1
  exact toInt_of_mem hquot.1 hquot.2

theorem value_vmMapRam (c : Pcb) (astart aend mapstart incpgnum : ℤ) :
    (vmMapRam c astart aend mapstart incpgnum).value =
      c.vmMapRam astart aend mapstart incpgnum := by
  simp only [vmMapRam, Pcb.vmMapRam]
  rcases c.allocPagesRange incpgnum with ⟨_ | frmLst, c'⟩ <;> rfl

theorem value_incVmaLimit (c : Pcb) (vmaid incSz : ℤ) :
    (incVmaLimit c vmaid incSz).value = c.incVmaLimit vmaid incSz := by
  simp only [incVmaLimit, Pcb.incVmaLimit, Logged.value_bind, value_int, value_pagingPageAlignsz,
    toInt_pageCount]
  rcases c.mm.getVmaByNum vmaid with _ | curVma
  · exact Logged.value_pure _
  rcases c.mm.getVmAreaNodeAtBrk vmaid (OSsim.pagingPageAlignsz incSz) with _ | area
  · exact Logged.value_pure _
  by_cases hpos : OSsim.pagingPageAlignsz incSz ≤ 0
  · simp only [if_pos hpos, Logged.value_pure]
  simp only [if_neg hpos, Logged.value_bind, value_int]
  rcases c.mm.validateOverlapVmArea vmaid (toInt area.rgStart) (toInt area.rgEnd) with _ | _
  · simp only [Bool.false_eq_true, not_false_eq_true, if_true, Logged.value_pure]
  · simp only [not_true_eq_false, if_false, Logged.value_bind, value_int, value_vmMapRam]
    rcases c.vmMapRam (toInt area.rgStart) (toInt area.rgEnd) (toInt curVma.vmEnd)
      ((OSsim.pagingPageAlignsz incSz).tdiv pagingPagesz) with ⟨_ | rg, c'⟩
    · exact Logged.value_pure _
    · exact Logged.value_pure _

theorem value_alloc (c : Pcb) (vmaid rgid size : ℤ) :
    (alloc c vmaid rgid size).value = c.alloc vmaid rgid size := by
  simp only [alloc, Pcb.alloc]
  rcases symIndex rgid with _ | i
  · rfl
  by_cases hsize : size ≤ 0
  · simp only [if_pos hsize, Logged.value_pure]
  simp only [if_neg hsize]
  rcases c.mm.getFreeVmrgArea vmaid size with _ | ⟨rgnode, mm⟩
  swap
  · rfl
  rcases c.mm.getVmaByNum vmaid with _ | vma
  · rfl
  simp only [Logged.value_bind, value_incVmaLimit]
  rcases (c.incVmaLimit vmaid size).2.mm.getFreeVmrgArea vmaid size with _ | ⟨rgnode, mm⟩ <;> rfl

theorem every_pagingPageAlignsz {sz : ℤ} (hsz : FitsInt sz) :
    (pagingPageAlignsz sz).Every FitsInt ↔ sz < 2 ^ 31 - 256 := by
  obtain ⟨hquot, hprod⟩ := fitsInt_tdiv (fitsInt_toInt (toInt (sz + pagingPagesz) - 1))
  simp only [pagingPageAlignsz, Logged.every_bind, every_int, value_int]
  rw [toInt_of_mem hquot.1 hquot.2]
  simp only [hquot, hprod, and_true]
  simp only [FitsInt, toInt, pagingPagesz] at hsz ⊢
  omega

theorem pagingPageAlignsz_of_lt {sz : ℤ} (hpos : 0 < sz) (hlt : sz < 2 ^ 31 - 256) :
    OSsim.pagingPageAlignsz sz = (sz + 255) / 256 * 256 := by
  have hsum : toInt (toInt (sz + pagingPagesz) - 1) = sz + 255 := by
    simp only [toInt, pagingPagesz]
    omega
  rw [OSsim.pagingPageAlignsz, hsum, pagingPagesz, Int.tdiv_eq_ediv_of_nonneg (by omega)]
  rfl

theorem pagingPageAlignsz_nonpos {sz : ℤ} (hsz : FitsInt sz) (hle : sz ≤ 0) :
    OSsim.pagingPageAlignsz sz ≤ 0 := by
  have hsum : toInt (toInt (sz + pagingPagesz) - 1) = sz + 255 := by
    simp only [FitsInt] at hsz
    simp only [toInt, pagingPagesz]
    omega
  have hmax := tdiv_mul_le (sz + 255)
  have hdvd := dvd_pagingPageAlignsz sz
  simp only [OSsim.pagingPageAlignsz, hsum] at hdvd ⊢
  omega

/-- `inc_amt` is the size in whole pages and `incnumpage` counts them. -/
def Aligned (incSz : ℤ) : Prop :=
  IsLeast {n : ℤ | 256 ∣ n ∧ incSz ≤ n} (OSsim.pagingPageAlignsz incSz) ∧
    (OSsim.pagingPageAlignsz incSz).tdiv pagingPagesz * 256 = OSsim.pagingPageAlignsz incSz

theorem aligned_of_lt {sz : ℤ} (hpos : 0 < sz) (hlt : sz < 2 ^ 31 - 256) : Aligned sz := by
  rw [Aligned, pagingPageAlignsz_of_lt hpos hlt]
  refine ⟨⟨⟨Int.dvd_mul_left _ _, by omega⟩, ?_⟩, ?_⟩
  · intro n hn
    obtain ⟨⟨k, rfl⟩, hle⟩ := hn
    omega
  · rw [pagingPagesz, Int.tdiv_eq_ediv_of_nonneg (by omega)]
    omega

theorem every_vmMapRam (c : Pcb) (astart aend : ℤ) {mapstart incpgnum : ℤ}
    (hlen : FitsInt (incpgnum * pagingPagesz))
    (hend : FitsInt (mapstart + incpgnum * pagingPagesz)) :
    (vmMapRam c astart aend mapstart incpgnum).Every FitsInt := by
  rw [vmMapRam]
  rcases c.allocPagesRange incpgnum with ⟨_ | frmLst, c'⟩
  · exact Logged.every_pure _
  · simp only [vmapPageRange, Logged.every_bind, every_int, value_int, Logged.every_pure, and_true]
    rw [toInt_of_mem hlen.1 hlen.2]
    exact ⟨hlen, hend⟩

section
variable {c : Pcb} {v : VmArea} {vmaid incSz : ℤ}

theorem every_incVmaLimit_of_pos (h : Space c.mm v) (hv : toULong vmaid = 0)
    (hpos : 0 < OSsim.pagingPageAlignsz incSz) : (incVmaLimit c vmaid incSz).Every FitsInt ↔
      (pagingPageAlignsz incSz).Every FitsInt ∧ v.vmEnd + growPages incSz * 256 < 2 ^ 31 := by
  have hcount := (fitsInt_tdiv (fitsInt_pagingPageAlignsz incSz)).1
  have hbound := h.bound
  have hvend : FitsInt v.vmEnd := ⟨by omega, by omega⟩
  simp only [incVmaLimit, Logged.every_bind, every_int, value_pagingPageAlignsz, value_int,
    toInt_pageCount, h.getVmaByNum, if_pos hv, h.getVmAreaNodeAtBrk hv, if_neg (not_le.mpr hpos),
    h.planned_end hpos, h.validateOverlap_planned hv hpos, hcount, hvend, true_and]
  refine and_congr_right fun _ => ?_
  by_cases hfit : v.vmEnd + growPages incSz * 256 < 2 ^ 31
  · have hfits : FitsInt ((v.vmEnd + growPages incSz * 256 : ℕ) : ℤ) := ⟨by omega, by omega⟩
    have hlen : FitsInt ((growPages incSz : ℤ) * pagingPagesz) := by
      simp only [FitsInt, pagingPagesz]
      omega
    have hend : FitsInt ((v.vmEnd : ℤ) + growPages incSz * pagingPagesz) := by
      simp only [FitsInt, pagingPagesz]
      omega
    rw [tdiv_pagesz_eq_growPages hpos]
    simp only [hfit, decide_true, Logged.every_bind, every_int, value_int, hfits, hvend, true_and,
      iff_true]
    refine ⟨every_vmMapRam c _ _ hlen (by rwa [toInt_natCast hbound]), ?_⟩
    split <;> exact Logged.every_pure _
  · have hnot : ¬ FitsInt ((v.vmEnd + growPages incSz * 256 : ℕ) : ℤ) := fun hf => by
      have := hf.2
      omega
    simp only [hnot, hfit, false_and]

def GrowsExactly (c : Pcb) (vmaid incSz : ℤ) : Prop :=
  (incVmaLimit c vmaid incSz).Every FitsInt ∧ (0 < incSz → Aligned incSz)

/-- Neither the rounding of the size nor the new end of the area leaves the range. -/
def GrowthFits (mm : Mm) (vmaid incSz : ℤ) : Prop :=
  incSz < 2 ^ 31 - 256 ∧
    ∀ v, mm.getVmaByNum vmaid = some v → v.sbrk + incSz ≤ 2 ^ 31 - 256

theorem every_incVmaLimit_of_stops
    (hstops : c.mm.getVmaByNum vmaid = none ∨ OSsim.pagingPageAlignsz incSz ≤ 0) :
    (incVmaLimit c vmaid incSz).Every FitsInt ↔ (pagingPageAlignsz incSz).Every FitsInt := by
  have hcount := (fitsInt_tdiv (fitsInt_pagingPageAlignsz incSz)).1
  simp only [incVmaLimit, Logged.every_bind, every_int, value_pagingPageAlignsz, hcount, true_and]
  refine and_iff_left ?_
  split
  · next curVma area hvma _ =>
    rcases hstops with hnone | hle
    · rw [hnone] at hvma
      cases hvma
    · rw [if_pos hle]
      exact Logged.every_pure _
  · exact Logged.every_pure _

theorem growsExactly_iff (h : Space c.mm v) (hsz : FitsInt incSz) :
    GrowsExactly c vmaid incSz ↔ GrowthFits c.mm vmaid incSz := by
  have hbound := h.bound
  have haligned := h.aligned
  have hround := every_pagingPageAlignsz hsz
  by_cases hv : toULong vmaid = 0
  swap
  · have hnone : c.mm.getVmaByNum vmaid = none := by rw [h.getVmaByNum, if_neg hv]
    rw [GrowsExactly, every_incVmaLimit_of_stops (Or.inl hnone), hround]
    constructor
    · intro hg
      refine ⟨hg.1, fun v' hv' => ?_⟩
      rw [hnone] at hv'
      cases hv'
    · intro hg
      exact ⟨hg.1, fun hpos => aligned_of_lt hpos hg.1⟩
  have hfits : GrowthFits c.mm vmaid incSz ↔
      incSz < 2 ^ 31 - 256 ∧ v.vmEnd + incSz ≤ 2 ^ 31 - 256 := by
    simp only [GrowthFits, h.getVmaByNum, if_pos hv, Option.some.injEq, forall_eq', h.sbrk]
  rw [hfits, GrowsExactly]
  by_cases hpos : 0 < incSz
  swap
  · -- nothing is added, and the call stops behind the rounding
    have hle := pagingPageAlignsz_nonpos hsz (not_lt.mp hpos)
    rw [every_incVmaLimit_of_stops (Or.inr hle), hround]
    constructor
    · intro hg
      exact ⟨hg.1, by omega⟩
    · intro hg
      exact ⟨hg.1, fun hp => absurd hp hpos⟩
  by_cases hlt : incSz < 2 ^ 31 - 256
  swap
  · refine iff_of_false (fun hg => hlt ?_) fun hg => hlt hg.1
    by_cases halign : 0 < OSsim.pagingPageAlignsz incSz
    · exact hround.mp ((every_incVmaLimit_of_pos h hv halign).mp hg.1).1
    · exact hround.mp ((every_incVmaLimit_of_stops (Or.inr (not_lt.mp halign))).mp hg.1)
  have hamount := pagingPageAlignsz_of_lt hpos hlt
  have halign : 0 < OSsim.pagingPageAlignsz incSz := by omega
  have hpages := (growPages_mul halign).2
  rw [every_incVmaLimit_of_pos h hv halign, hround]
  constructor
  · intro hg
    have := hg.1.2
    exact ⟨hlt, by omega⟩
  · intro hg
    exact ⟨⟨hlt, by omega⟩, fun _ => aligned_of_lt hpos hlt⟩

def AllocGrows (c : Pcb) (rgid size : ℤ) : Prop :=
  (symIndex rgid).isSome ∧ 0 < size ∧ c.mm.getFreeVmrgArea 0 size = none

/-- The same for `__alloc`; it computes an amount if it has to grow the area. -/
def AllocsExactly (c : Pcb) (rgid size : ℤ) : Prop :=
  (alloc c 0 rgid size).Every FitsInt ∧ (AllocGrows c rgid size → Aligned size)

theorem fitsInt_rgStart (h : Space c.mm v) {size : ℤ} (hpos : 0 < size) (hlt : size < 2 ^ 31)
    {rg : VmRg} {mm : Mm} (hfound : c.mm.getFreeVmrgArea 0 size = some (rg, mm)) :
    FitsInt rg.rgStart := by
  rw [h.getFreeVmrgArea, Option.map_eq_some_iff] at hfound
  obtain ⟨r, hfit, hr⟩ := hfound
  obtain ⟨_, hwf, _⟩ := firstFit_spec hpos hlt h.freeWf hfit
  rw [← (Prod.mk.inj hr).1]
  have := hwf.1
  have := hwf.2
  exact ⟨by omega, by omega⟩

theorem every_alloc (h : Packed c.mm v) (rgid : ℤ) (size : BitVec 32) :
    (alloc c 0 rgid size.toInt).Every FitsInt ↔
      (AllocGrows c rgid size.toInt → (incVmaLimit c 0 size.toInt).Every FitsInt) := by
  have hlt : size.toInt < 2 ^ 31 := BitVec.toInt_lt
  rw [alloc, AllocGrows]
  rcases symIndex rgid with _ | i
  · simp
  by_cases hpos : size.toInt ≤ 0
  · simp only [if_pos hpos, Logged.every_pure, true_iff]
    exact fun hg => absurd hg.2.1 (not_lt.mpr hpos)
  simp only [if_neg hpos]
  rcases hfree : c.mm.getFreeVmrgArea 0 size.toInt with _ | ⟨rg, mm⟩
  swap
  · have hstart := fitsInt_rgStart h.space (not_le.mp hpos) hlt hfree
    simp [hstart]
  have hvma : c.mm.getVmaByNum 0 = some v := by
    rw [h.space.getVmaByNum]
    rfl
  -- the region found in the grown area starts in range
  obtain ⟨v', h'⟩ := h.exec (.grow 0 size)
  have hspace : Space (c.incVmaLimit 0 size.toInt).2.mm v' := h'.space
  simp only [hvma, Logged.every_bind, value_incVmaLimit, Option.isSome_some, not_le.mp hpos,
    true_and, true_imp_iff]
  refine and_iff_left ?_
  rcases hfree' : (c.incVmaLimit 0 size.toInt).2.mm.getFreeVmrgArea 0 size.toInt with
    _ | ⟨rg, mm⟩
  · exact Logged.every_pure _
  · have hstart := fitsInt_rgStart hspace (not_le.mp hpos) hlt hfree'
    simp [hstart]

theorem allocsExactly_iff (h : Packed c.mm v) (rgid : ℤ) (size : BitVec 32) :
    AllocsExactly c rgid size.toInt ↔
      (AllocGrows c rgid size.toInt → GrowthFits c.mm 0 size.toInt) := by
  have hsz : FitsInt size.toInt := ⟨BitVec.le_toInt size, BitVec.toInt_lt⟩
  have hgrow : GrowsExactly c 0 size.toInt ↔ GrowthFits c.mm 0 size.toInt :=
    growsExactly_iff h.space hsz
  rw [AllocsExactly, every_alloc h, ← imp_and]
  refine imp_congr_right fun hg => ?_
  rw [← hgrow, GrowsExactly]
  simp only [hg.2.1, true_imp_iff]

end

end Ints

namespace Kernel
variable {ι : Type*} [DecidableEq ι]

def NextCall (s : Kernel ι) (op : SysOp ι) (s' : Kernel ι) : Prop := s' = s.sysStep op

section
variable {P : Mm → Prop} {s : Kernel ι}

theorem All.commit (hs : s.All P) (p : ι) {c : Pcb} (hc : P c.mm) : (s.commit p c).All P := by
  intro q mm hq
  by_cases hqp : q = p
  · subst hqp
    rw [commit_mm_self, Option.some.injEq] at hq
    exact hq ▸ hc
  · rw [commit_mm_of_ne _ _ hqp] at hq
    exact hs q mm hq

theorem procName_all (hexec : ∀ c i, P c.mm → P (Pcb.exec c i).2.mm) (memrg : BitVec 32) (n i : ℕ)
    (hi : i + n < 2 ^ 31) {c : Pcb} (hc : P c.mm) : P (c.procName memrg.toInt n i).2.mm := by
  induction n generalizing i c with
  | zero => exact hc
  | succ n ih =>
    have hread := hexec c (.read memrg (BitVec.ofNat 32 i)) hc
    simp only [Pcb.exec, toInt_ofNat_word (show i < 2 ^ 31 by omega)] at hread
    rcases hr : c.read 0 memrg.toInt i with ⟨_ | data, c'⟩
    · rw [hr] at hread
      simpa only [Pcb.procName, hr] using hread
    · rw [hr] at hread
      simp only [Pcb.procName, hr]
      split_ifs
      · exact hread
      · exact ih (i + 1) (by omega) hread

theorem sysMemmap_all (hexec : ∀ c i, P c.mm → P (Pcb.exec c i).2.mm) {c : Pcb} (hc : P c.mm)
    (junk : ℕ → Byte) (a1 a2 a3 : BitVec 32) : P (c.sysMemmap junk a1 a2 a3).mm := by
  rw [Pcb.sysMemmap]
  cases Memop.ofCode a1 with
  | inc => exact hexec c (.grow a2 a3) hc
  | map => exact hc
  | swp => exact hc
  | ioRead => exact hc
  | ioWrite => exact hc
  | unknown => exact hc

theorem all_sysStep (hinit : P initMm) (hexec : ∀ c i, P c.mm → P (Pcb.exec c i).2.mm)
    (s : Kernel ι) (op : SysOp ι) (s' : Kernel ι) (hs : s.All P) (hn : NextCall s op s') :
    s'.All P := by
  rw [NextCall] at hn
  subst hn
  cases op with
  | op op => exact all_step hinit hexec s op _ hs rfl
  | syscall kill junk p nr a1 a2 a3 =>
    simp only [sysStep, syscall]
    rcases hp : s.mm p with _ | mm
    · exact hs
    cases SyscallEntry.ofNr nr with
    | listsyscall => exact hs
    | memmap =>
      exact hs.commit p (sysMemmap_all hexec (c := s.caller mm) (hs p mm hp) junk a1 a2 a3)
    | niSyscall => exact hs
    | killall =>
      have hname :=
        procName_all hexec a1 procNameRounds 0 (by decide) (c := s.caller mm) (hs p mm hp)
      simp only
      generalize kill _ = victims
      have hstart := hs.commit p hname
      generalize s.commit p _ = s₁ at hstart
      induction victims generalizing s₁ with
      | nil => exact hstart
      | cons v victims ih => exact ih _ (all_step hinit hexec s₁ (.release v) _ hstart rfl)

end

open Ints
variable {s : Kernel ι} {p : ι} {mm : Mm} {memramsz : ℤ} {memswpsz : ℕ → ℤ}

/-- The arithmetic of a growth is exact in every state of every run, exactly for the sizes
that fit below the end of the `int` range. -/
theorem run_growsExactly_iff {ops : List (SysOp ι)}
    (hrun : Run NextCall (boot memramsz memswpsz) ops s) (hp : s.mm p = some mm) :
    (∀ vmaid incSz : BitVec 32, GrowsExactly (s.caller mm) vmaid.toInt incSz.toInt ↔
      GrowthFits mm vmaid.toInt incSz.toInt) ∧
    ∀ rgid size : BitVec 32, AllocsExactly (s.caller mm) rgid.toInt size.toInt ↔
      (AllocGrows (s.caller mm) rgid.toInt size.toInt → GrowthFits mm 0 size.toInt) := by
  have hpacked : s.All fun mm => ∃ v, Packed mm v := by
    refine hrun.invariant _ (all_boot _ _ _) (all_sysStep ⟨_, packed_initMm⟩ fun c i hc => ?_)
    obtain ⟨v, hv⟩ := hc
    exact hv.exec i
  obtain ⟨v, hv⟩ := hpacked p mm hp
  have hv' : Packed (s.caller mm).mm v := hv
  refine ⟨fun vmaid incSz => ?_, fun rgid size => allocsExactly_iff hv' rgid.toInt size⟩
  exact growsExactly_iff hv'.space ⟨BitVec.le_toInt incSz, BitVec.toInt_lt⟩

/-- The first growth of a new process by one page. -/
theorem run_growsExactly_iff_page :
    ∃ s : Kernel Unit, Run NextCall (boot 256 fun _ => 256) [.op (.create ())] s ∧
      GrowsExactly (s.caller initMm) 0 256 := by
  have hrun : Run NextCall (boot 256 fun _ => 256 : Kernel Unit) [.op (.create ())] _ :=
    .snoc .nil rfl
  have hp : (Kernel.sysStep (boot 256 fun _ => 256) (.op (.create ()))).mm () = some initMm := rfl
  have hiff := (run_growsExactly_iff hrun hp).1 0 256
  refine ⟨_, hrun, hiff.mpr ⟨by decide, fun v hv => ?_⟩⟩
  obtain rfl : (⟨0, 0, 0, 0, [⟨0, 0⟩]⟩ : VmArea) = v := Option.some.inj hv
  decide

/-- ALLOC 2147483647 in a new process: the rounding adds 256 to the size first. -/
theorem alloc_sum_overflows :
    ∃ s : Kernel Unit, Run NextCall (boot 256 fun _ => 256) [.op (.create ())] s ∧
      (2 ^ 31 + 255 : ℤ) ∈ (Ints.alloc (s.caller initMm) 0 0 2147483647).log ∧
      ¬ AllocsExactly (s.caller initMm) 0 2147483647 := by
  have hrun : Run NextCall (boot 256 fun _ => 256 : Kernel Unit) [.op (.create ())] _ :=
    .snoc .nil rfl
  generalize hs : Kernel.sysStep _ (.op (.create ())) = s at hrun
  have hmem : (2 ^ 31 + 255 : ℤ) ∈ (Ints.alloc (s.caller initMm) 0 0 2147483647).log := by
    rw [← hs]
    decide +kernel
  refine ⟨s, hrun, hmem, fun hexact => ?_⟩
  have hfits := (hexact.1 _ hmem).2
  omega

end Kernel
end OSsim
