import OSsim.Conservation
import OSsim.Exhaust

/-!
# Address spaces and the page table

Nothing in `inc_vma_limit` compares the new end of an area with the 4 MB that the
page table covers. What bounds an address space is the number of frames: growth
costs one token a page. The page table is therefore large enough in all runs exactly
if the devices together have no more frames than the table has entries.
-/

open scoped BigOperators
namespace OSsim

structure VmapCall where
  addr : ℤ
  pgnum : ℤ
  frames : List ℕ
  mm : Mm

def VmapCall.Writes (call : VmapCall) (k : ℕ) : Prop :=
  ∃ pgit, pgit < call.frames.length ∧ (pgit : ℤ) < call.pgnum ∧ k = pagingPgn call.addr + pgit

/-- The call that `inc_vma_limit` makes, if it gets that far. -/
def Pcb.vmapCall (c : Pcb) (vmaid incSz : ℤ) : Option VmapCall :=
  let incAmt := pagingPageAlignsz incSz
  let incnumpage := incAmt.tdiv pagingPagesz
  match c.mm.getVmaByNum vmaid, c.mm.getVmAreaNodeAtBrk vmaid incAmt with
  | some curVma, some area =>
    if incAmt ≤ 0 then none
    else if ¬ c.mm.validateOverlapVmArea vmaid (toInt area.rgStart) (toInt area.rgEnd) then none
    else
      match c.allocPagesRange incnumpage with
      | (none, _) => none
      | (some frames, c) => some ⟨toInt curVma.vmEnd, incnumpage, frames, c.mm⟩
  | _, _ => none

/-- The call that an instruction makes: ALLOC grows the area only after it has found
no free region. -/
def Pcb.vmapCallOf (c : Pcb) : Instr → Option VmapCall
  | .alloc size regIndex =>
    if (symIndex regIndex.toInt).isSome ∧ 0 < size.toInt ∧
      (c.mm.getFreeVmrgArea 0 size.toInt).isNone then c.vmapCall 0 size.toInt else none
  | .grow vmaid incSz => c.vmapCall vmaid.toInt incSz.toInt
  | _ => none

theorem vmapLoop_pgd_of_not_writes (call : VmapCall) {k : ℕ} (hk : ¬ call.Writes k) :
    (vmapLoop (pagingPgn call.addr) call.pgnum 0 call.frames call.mm).pgd k = call.mm.pgd k := by
  obtain ⟨addr, pgnum, frames, mm⟩ := call
  have hloop : ∀ (fs : List ℕ) (pgit : ℕ) (mm : Mm),
      (∀ j, pgit ≤ j → j < pgit + fs.length → (j : ℤ) < pgnum → k ≠ pagingPgn addr + j) →
        (vmapLoop (pagingPgn addr) pgnum pgit fs mm).pgd k = mm.pgd k := by
    intro fs
    induction fs with
    | nil => exact fun _ _ _ => rfl
    | cons f fs ih =>
      intro pgit mm hno
      by_cases hlt : (pgit : ℤ) < pgnum
      · rw [vmapLoop_cons hlt, ih (pgit + 1)]
        · exact Function.update_of_ne (hno pgit le_rfl (by rw [List.length_cons]; omega) hlt) _ _
        · intro j h1 h2
          exact hno j (by omega) (by rw [List.length_cons]; omega)
      · rw [vmapLoop, if_neg hlt]
  refine hloop frames 0 mm fun j _ h2 h3 he => hk ⟨j, by simpa using h2, h3, he⟩

theorem incVmaLimit_vmapCall (c : Pcb) (vmaid incSz : ℤ) :
    (c.incVmaLimit vmaid incSz).1 = (c.vmapCall vmaid incSz).isSome ∧
      ∀ call, c.vmapCall vmaid incSz = some call → (c.incVmaLimit vmaid incSz).2.mm.pgd =
        (vmapLoop (pagingPgn call.addr) call.pgnum 0 call.frames call.mm).pgd := by
  simp only [Pcb.incVmaLimit, Pcb.vmapCall]
  rcases c.mm.getVmaByNum vmaid with _ | curVma
  · exact ⟨rfl, nofun⟩
  rcases c.mm.getVmAreaNodeAtBrk vmaid (pagingPageAlignsz incSz) with _ | area
  · exact ⟨rfl, nofun⟩
  dsimp only
  split_ifs
  · exact ⟨rfl, nofun⟩
  · simp only [Pcb.vmMapRam]
    rcases c.allocPagesRange ((pagingPageAlignsz incSz).tdiv pagingPagesz) with ⟨_ | fs, c1⟩
    · exact ⟨rfl, nofun⟩
    · refine ⟨rfl, fun call hc => ?_⟩
      rw [Option.some.injEq] at hc
      subst hc
      rfl
  · exact ⟨rfl, nofun⟩

section
variable {c c' : Pcb} {v v' : VmArea}

theorem Space.vmapCall (h : Space c.mm v) {vmaid incSz : ℤ} {call : VmapCall}
    (hc : c.vmapCall vmaid incSz = some call) :
    0 < growPages incSz ∧ ∃ fs c1, c.allocPagesRange (growPages incSz) = (some fs, c1) ∧
      call = ⟨v.vmEnd, growPages incSz, fs, c1.mm⟩ := by
  by_cases hv : toULong vmaid = 0
  swap
  · simp only [Pcb.vmapCall, h.getVmaByNum, if_neg hv] at hc
    cases hc
  by_cases hpos : pagingPageAlignsz incSz ≤ 0
  · simp only [Pcb.vmapCall, h.getVmaByNum, if_pos hv, h.getVmAreaNodeAtBrk hv, if_pos hpos] at hc
    cases hc
  rw [not_le] at hpos
  have hn := growPages_mul hpos
  simp only [Pcb.vmapCall, h.getVmaByNum, if_pos hv, h.getVmAreaNodeAtBrk hv,
    if_neg (not_le.mpr hpos), h.planned_end hpos, tdiv_pagesz_eq_growPages hpos,
    toInt_natCast h.bound] at hc
  split_ifs at hc
  rcases hr : c.allocPagesRange (growPages incSz) with ⟨_ | fs, c1⟩
  · rw [hr] at hc
    cases hc
  · rw [hr, Option.some.injEq] at hc
    exact ⟨hn.1, fs, c1, rfl, hc.symm⟩

theorem Space.vmapCallOf (h : Space c.mm v) {i : Instr} {call : VmapCall}
    (hc : c.vmapCallOf i = some call) :
    0 < growPages i.growth ∧ ∃ fs c1, c.allocPagesRange (growPages i.growth) = (some fs, c1) ∧
      call = ⟨v.vmEnd, growPages i.growth, fs, c1.mm⟩ := by
  cases i with
  | alloc size regIndex =>
    simp only [Pcb.vmapCallOf] at hc
    split_ifs at hc
    exact h.vmapCall hc
  | grow vmaid incSz => exact h.vmapCall hc
  | free => cases hc
  | read => cases hc
  | write => cases hc

theorem Paged.vmap_fresh (h : Paged c.mm v) (hs : Space c.mm v)
    (hN : v.vmEnd / 256 + c.tokens ≤ pagingMaxPgn) {i : Instr} {call : VmapCall}
    (hc : c.vmapCallOf i = some call) {k : ℕ} (hk : call.Writes k) :
    k < pagingMaxPgn ∧ ¬ pagingPagePresent (call.mm.pgd k) := by
  obtain ⟨hpos, fs, c1, ha, rfl⟩ := hs.vmapCallOf hc
  obtain ⟨_, hsh, _, hsome⟩ := h.tidy.allocPagesRange ha
  obtain ⟨hlen, htok⟩ := hsome fs rfl
  obtain ⟨pgit, hlt, _, rfl⟩ := hk
  dsimp only at hlt ⊢
  have hpgn : pagingPgn v.vmEnd = v.vmEnd / 256 := by
    apply pagingPgn_of_lt
    simp only [pagingMaxPgn] at hN
    obtain ⟨d, hd⟩ := hs.aligned
    omega
  rw [hsh.present, h.present, hpgn]
  omega

theorem Pcb.Effect.vmEnd_le {i : Instr} {o : Outcome} (h : Space c.mm v) (ht : Tidy c.mm)
    (he : Pcb.Effect c v i o c') (hs : Space c'.mm v') :
    v'.vmEnd ≤ v.vmEnd + c.tokens * 256 := by
  have hsame : c'.mm.mmap = c.mm.mmap → v'.vmEnd ≤ v.vmEnd + c.tokens * 256 := by
    intro hm
    have hv : v' = v := List.singleton_inj.mp (hs.mmap.symm.trans (hm.trans h.mmap))
    subst hv
    omega
  cases he with
  | refused => exact hsame rfl
  | outOfFrames _ _ ha => exact hsame (allocPagesRange_space ha).1
  | @placed size _ j rg l =>
    obtain rfl : { v with vmFreergList := l } = v' := List.singleton_inj.mp hs.mmap
    exact Nat.le_add_right _ _
  | @allocGrown size _ j fs c1 rg l _ _ _ _ ha _ =>
    obtain rfl : { v.grown (growPages size.toInt) with vmFreergList := l } = v' :=
      List.singleton_inj.mp hs.mmap
    obtain ⟨_, htok⟩ := (ht.allocPagesRange ha).2.2.2 fs rfl
    simp only [VmArea.grown]
    omega
  | @grown _ incSz fs c1 _ _ ha =>
    obtain rfl : v.grown (growPages incSz.toInt) = v' := List.singleton_inj.mp hs.mmap
    obtain ⟨_, htok⟩ := (ht.allocPagesRange ha).2.2.2 fs rfl
    simp only [VmArea.grown]
    omega
  | @freed _ j =>
    obtain rfl : { v with vmFreergList := enlistFreerg v.vmFreergList (c.mm.symrgtbl j) } = v' :=
      List.singleton_inj.mp hs.mmap
    exact Nat.le_add_right _ _
  | @reads _ _ va _ => exact hsame (pgGetval_space c va).1
  | @writes data _ _ va _ => exact hsame (pgSetval_space c va data).1

end

namespace Kernel
variable {ι : Type*}

def tokens (s : Kernel ι) : ℕ := (s.caller initMm).tokens

def pagesOf (s : Kernel ι) (q : ι) : ℕ := (s.mm q).elim 0 Mm.pages

theorem pagesOf_some {s : Kernel ι} {q : ι} {mm : Mm} (hq : s.mm q = some mm) :
    s.pagesOf q = mm.pages := by
  rw [pagesOf, hq, Option.elim_some]

variable [Fintype ι]

structure TokenInv (N : ℕ) (s : Kernel ι) : Prop where
  spaces : s.All fun mm => ∃ v, Space mm v ∧ Paged mm v
  total : s.tokens + ∑ q, s.pagesOf q = N

variable [DecidableEq ι] {N : ℕ} {s s' : Kernel ι} {p : ι} {mm : Mm} {memramsz : ℤ}
  {memswpsz : ℕ → ℤ} {ops : List (Op ι)}

theorem sum_pagesOf (s : Kernel ι) (p : ι) :
    ∑ q, s.pagesOf q = s.pagesOf p + ∑ q ∈ Finset.univ.erase p, s.pagesOf q :=
  (Finset.add_sum_erase Finset.univ s.pagesOf (Finset.mem_univ p)).symm

theorem sum_pagesOf_congr (s s' : Kernel ι) (hs : ∀ q, q ≠ p → s'.mm q = s.mm q) :
    ∑ q, s'.pagesOf q + s.pagesOf p = ∑ q, s.pagesOf q + s'.pagesOf p := by
  have hrest : ∑ q ∈ Finset.univ.erase p, s'.pagesOf q =
      ∑ q ∈ Finset.univ.erase p, s.pagesOf q := by
    apply Finset.sum_congr rfl
    intro q hq
    simp only [pagesOf, hs q (Finset.ne_of_mem_erase hq)]
  rw [sum_pagesOf s' p, sum_pagesOf s p, hrest]
  omega

theorem pages_initMm : initMm.pages = 0 := by
  rw [Mm.pages]
  exact Finset.sum_eq_zero fun k _ => if_neg not_present_zero

namespace TokenInv
variable (h : TokenInv N s)
include h

theorem room (hp : s.mm p = some mm) {v : VmArea} (hv : Paged mm v) :
    v.vmEnd / 256 + (s.caller mm).tokens ≤ N := by
  have ht := h.total
  rw [s.sum_pagesOf p, pagesOf_some hp, hv.pages_eq] at ht
  have htok : s.tokens = (s.caller mm).tokens := rfl
  omega

theorem exec (hN : N ≤ pagingMaxPgn) (hp : s.mm p = some mm) (i : Instr) :
    TokenInv N (s.commit p ((s.caller mm).exec i).2) := by
  obtain ⟨v, hs, hv⟩ := h.spaces p mm hp
  have hs' : Space (s.caller mm).mm v := hs
  have he := hs'.exec_cases i
  obtain ⟨v', hsp, _, _⟩ := he.accounts hs'
  have hroom := h.room hp hv
  have hgrow := he.vmEnd_le hs' hv.tidy hsp
  have hlim : v'.vmEnd ≤ pagingMaxPgn * pagingPagesz := by
    obtain ⟨d, hd⟩ := hs.aligned
    simp only [pagingPagesz]
    omega
  obtain ⟨hv', htok⟩ := he.paged hs' hv hsp hlim
  have hcongr := sum_pagesOf_congr s (s.commit p ((s.caller mm).exec i).2)
    fun q hq => commit_mm_of_ne s _ hq
  rw [pagesOf_some hp, hv.pages_eq, pagesOf_some (commit_mm_self _ _ _), hv'.pages_eq] at hcongr
  refine ⟨?_, ?_⟩
  · intro q mm' hq
    by_cases hqp : q = p
    · subst hqp
      rw [commit_mm_self, Option.some.injEq] at hq
      exact ⟨v', hq ▸ hsp, hq ▸ hv'⟩
    · rw [commit_mm_of_ne _ _ hqp] at hq
      exact h.spaces q mm' hq
  · have ht := h.total
    have h1 : s.tokens = (s.caller mm).tokens := rfl
    have h2 : (s.commit p ((s.caller mm).exec i).2).tokens = ((s.caller mm).exec i).2.tokens := rfl
    omega

theorem created (hp : s.mm p = none) :
    TokenInv N { s with mm := Function.update s.mm p (some initMm) } := by
  have hother : ∀ q, q ≠ p → Function.update s.mm p (some initMm) q = s.mm q :=
    fun q hq => Function.update_of_ne hq _ _
  have hcongr := sum_pagesOf_congr s { s with mm := Function.update s.mm p (some initMm) } hother
  refine ⟨?_, ?_⟩
  · intro q mm' hq
    by_cases hqp : q = p
    · subst hqp
      simp only [Function.update_self, Option.some.injEq] at hq
      exact ⟨_, hq ▸ space_initMm, hq ▸ housed_initMm.paged⟩
    · exact h.spaces q mm' ((hother q hqp).symm.trans hq)
  · have ht := h.total
    have h1 : ({ s with mm := Function.update s.mm p (some initMm) } : Kernel ι).tokens =
        s.tokens := rfl
    have h2 : s.pagesOf p = 0 := by rw [pagesOf, hp, Option.elim_none]
    have h3 : ({ s with mm := Function.update s.mm p (some initMm) } : Kernel ι).pagesOf p = 0 :=
      (pagesOf_some (Function.update_self _ _ _)).trans pages_initMm
    omega

theorem returned {c : Pcb} (hp : s.mm p = some mm) (hr : Returns (s.caller mm) c)
    (hz : c.mm.pages = 0) : TokenInv N ⟨c.mram, c.mswp, Function.update s.mm p none⟩ := by
  have hother : ∀ q, q ≠ p → Function.update s.mm p none q = s.mm q :=
    fun q hq => Function.update_of_ne hq _ _
  have hcongr := sum_pagesOf_congr s ⟨c.mram, c.mswp, Function.update s.mm p none⟩ hother
  refine ⟨?_, ?_⟩
  · intro q mm' hq
    by_cases hqp : q = p
    · subst hqp
      simp at hq
    · exact h.spaces q mm' ((hother q hqp).symm.trans hq)
  · have ht := h.total
    have hk := hr.tokens
    have h1 : s.tokens = (s.caller mm).tokens := rfl
    have h2 : (⟨c.mram, c.mswp, Function.update s.mm p none⟩ : Kernel ι).tokens = c.tokens := rfl
    have h3 : s.pagesOf p = mm.pages := pagesOf_some hp
    have h4 : (⟨c.mram, c.mswp, Function.update s.mm p none⟩ : Kernel ι).pagesOf p = 0 := by
      simp only [pagesOf, Function.update_self, Option.elim_none]
    have h5 : (s.caller mm).mm.pages = mm.pages := rfl
    omega

theorem step (hN : N ≤ pagingMaxPgn) (op : Op ι) : TokenInv N (s.step op).2 := by
  have hs := s.step_cases op
  generalize (s.step op).2 = s' at hs ⊢
  cases hs with
  | idle => exact h
  | created hp => exact h.created hp
  | executed i hp => exact h.exec hN hp i
  | @released p mm hp =>
    obtain ⟨v, _, hv⟩ := h.spaces p mm hp
    obtain ⟨hr, _, _, hz⟩ := freePcbMemph_returns (c := s.caller mm) hv.tidy.swpTyp
    exact h.returned hp hr hz

end TokenInv

/-- The page table covers every address space, and mapping never hits an entry that is
in use. -/
structure WithinTable (s : Kernel ι) : Prop where
  bounded : s.VmBounded
  fresh : ∀ p mm i call, s.mm p = some mm → (s.caller mm).vmapCallOf i = some call →
    ∀ k, call.Writes k → k < pagingMaxPgn ∧ ¬ pagingPagePresent (call.mm.pgd k)
  distinct : ∀ p mm v, s.mm p = some mm → v ∈ mm.mmap → ∀ a b : ℕ, a < v.vmEnd → b < v.vmEnd →
    pagingPgn a = pagingPgn b → a / 256 = b / 256

theorem TokenInv.withinTable (h : TokenInv N s) (hN : N ≤ pagingMaxPgn) : s.WithinTable := by
  refine ⟨?_, ?_, ?_⟩
  · intro p mm hp v hv
    obtain ⟨w, hs, hw⟩ := h.spaces p mm hp
    rw [hs.mmap, List.mem_singleton] at hv
    exact hv ▸ hw.limit
  · intro p mm i call hp hc k hk
    obtain ⟨v, hs, hv⟩ := h.spaces p mm hp
    exact Paged.vmap_fresh (c := s.caller mm) hv hs ((h.room hp hv).trans hN) hc hk
  · intro p mm v hp hv a b ha hb hab
    obtain ⟨w, hs, hw⟩ := h.spaces p mm hp
    rw [hs.mmap, List.mem_singleton] at hv
    subst hv
    have hlim := hw.limit
    simp only [pagingMaxPgn, pagingPagesz] at hlim
    rwa [pagingPgn_of_lt (by omega), pagingPgn_of_lt (by omega)] at hab

omit [DecidableEq ι] in
theorem tokenInv_boot :
    TokenInv (framesOf memramsz + framesOf (memswpsz 0)) (boot memramsz memswpsz : Kernel ι) := by
  refine ⟨all_boot _ _ _, ?_⟩
  simp [tokens, Pcb.tokens, caller, boot, pagesOf, Memphy.fresh_freeFpList, activeMswpId]

omit [Fintype ι] in
theorem exists_outgrown (memramsz : ℤ) (memswpsz : ℕ → ℤ) (p : ι) (h₀ : 0 < framesOf memramsz)
    (hlt : pagingMaxPgn < framesOf memramsz + framesOf (memswpsz 0)) :
    ∃ ops s, Run Next (boot memramsz memswpsz : Kernel ι) ops s ∧ ¬ s.VmBounded := by
  obtain ⟨ops, s, mm, v, hrun, hp, hf⟩ := exists_filled memramsz memswpsz p h₀
    (pagingMaxPgn + 1) hlt (by decide)
  refine ⟨ops, s, hrun, fun hb => ?_⟩
  have hmmap : mm.mmap = [v] := hf.space.mmap
  have hle := hb p mm hp v (by rw [hmmap]; exact List.mem_singleton_self v)
  rw [hf.vmEnd] at hle
  simp only [pagingMaxPgn, pagingPagesz] at hle
  omega

/-- For an accepted memory configuration, no run outgrows the page table exactly if
RAM and the active swap device have at most as many frames as the table has entries. -/
theorem within_table_iff [Inhabited ι] (hacc : AcceptedMemory memramsz memswpsz) :
    (∀ ops s, Run Next (boot memramsz memswpsz : Kernel ι) ops s → s.WithinTable) ↔
      memramsz / 256 + memswpsz 0 / 256 ≤ pagingMaxPgn := by
  have hr := framesOf_eq hacc.ramLe
  have hw := framesOf_eq hacc.swpLe
  constructor
  · intro hall
    by_contra hlt
    have hpos : 0 < framesOf memramsz := by
      have := hacc.ramLe
      simp only [pagingPagesz] at this
      omega
    obtain ⟨ops, s, hrun, hno⟩ := exists_outgrown memramsz memswpsz (default : ι) hpos
      (by omega)
    exact hno (hall ops s hrun).bounded
  · intro hle ops s hrun
    have hN : framesOf memramsz + framesOf (memswpsz 0) ≤ pagingMaxPgn := by omega
    refine (hrun.invariant _ tokenInv_boot ?_).withinTable hN
    intro s op s' h hn
    rw [Next] at hn
    subst hn
    exact h.step hN op

theorem within_table_small :
    AcceptedMemory 512 (fun _ => 256) ∧
      ∀ ops s, Run Next (boot 512 fun _ => 256 : Kernel Unit) ops s → s.WithinTable := by
  have hacc : AcceptedMemory 512 (fun _ => 256) :=
    ⟨by decide, by decide, by decide, by decide, by decide⟩
  exact ⟨hacc, (within_table_iff hacc).mpr (by decide)⟩

def defaultMemswpsz (sit : ℕ) : ℤ := if sit = 0 then 0x1000000 else 0

theorem default_sizes_outgrow :
    AcceptedMemory 0x100000 defaultMemswpsz ∧
      ∃ ops s, Run Next (boot 0x100000 defaultMemswpsz : Kernel Unit) ops s ∧
        ¬ s.WithinTable := by
  have hr : framesOf 0x100000 = 4096 := by decide
  have hw : framesOf (defaultMemswpsz 0) = 65536 := by decide
  obtain ⟨ops, s, hrun, hno⟩ := exists_outgrown 0x100000 defaultMemswpsz ()
    (by rw [hr]; decide) (by rw [hr, hw]; decide)
  exact ⟨⟨by decide, by decide, by decide, by decide, by decide⟩, ops, s, hrun,
    fun h => hno h.bounded⟩

end Kernel
end OSsim
