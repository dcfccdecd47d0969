import OSsim.Conservation

/-!
# The order of replacement

`__swap_out_page` takes the tail of `fifo_pgn`. To say that this is the page that has
been in RAM longest, the calls of a process keep a log: a clock that counts the calls
of `pte_set_fpn`, for every page the count at its last one, and every eviction with
what was known when it happened. The functions of the log follow those of the memory
library and read nothing but the state of the model; the model does not read the log.

The list is ordered by the log as long as `__swap_out_page` does not give up: with
swap full it enlists the victim again, at the head, and an older page becomes the
newest of the list.
-/

namespace OSsim

structure Eviction where
  mm : Mm
  since : ℕ → ℕ
  vicpgn : ℕ

/-- Of the pages in RAM, the victim is the one that became resident first. -/
structure Eviction.Oldest (e : Eviction) : Prop where
  resident : Resident (e.mm.pgd e.vicpgn)
  first : ∀ k, Resident (e.mm.pgd k) → k ≠ e.vicpgn → e.since e.vicpgn < e.since k

structure PageLog where
  clock : ℕ
  since : ℕ → ℕ
  evictions : List Eviction

namespace PageLog

def empty : PageLog := ⟨0, fun _ => 0, []⟩

def pteSetFpn (g : PageLog) (pgn : ℕ) : PageLog :=
  { g with clock := g.clock + 1, since := Function.update g.since pgn g.clock }

def swapOutPage (c : Pcb) (g : PageLog) : PageLog :=
  match c.mm.findVictimPage, c.swapOutPage.1 with
  | some (vicpgn, _), some _ => { g with evictions := ⟨c.mm, g.since, vicpgn⟩ :: g.evictions }
  | _, _ => g

def grabFrame (c : Pcb) (g : PageLog) : PageLog :=
  match c.mram.getFreefp with
  | some _ => g
  | none => g.swapOutPage c

def pgGetpage (c : Pcb) (pgn : ℕ) (g : PageLog) : PageLog :=
  if pgn < pagingMaxPgn ∧ Swapped (c.mm.pgd pgn) then
    match c.grabFrame.1 with
    | none => g.grabFrame c
    | some _ => (g.grabFrame c).pteSetFpn pgn
  else g

def access (c : Pcb) (vmaid rgid offset : ℤ) (g : PageLog) : PageLog :=
  match symIndex rgid, c.mm.getVmaByNum vmaid with
  | some i, some _ =>
    let currg := c.mm.symrgtbl i
    if offset < 0 ∨ currg.rgEnd ≤ toULong (currg.rgStart + offset) then g
    else g.pgGetpage c (pagingPgn (toInt (currg.rgStart + offset)))
  | _, _ => g

def allocPagesLoop : ℕ → Pcb → PageLog → PageLog
  | 0, _, g => g
  | n + 1, c, g =>
    match c.grabFrame with
    | (some _, c') => allocPagesLoop n c' (g.grabFrame c)
    | (none, _) => g.grabFrame c

def vmapLoop (pgn : ℕ) (pgnum : ℤ) : ℕ → List ℕ → PageLog → PageLog
  | _, [], g => g
  | pgit, _ :: fpit, g =>
    if (pgit : ℤ) < pgnum then vmapLoop pgn pgnum (pgit + 1) fpit (g.pteSetFpn (pgn + pgit))
    else g

def vmMapRam (c : Pcb) (mapstart incpgnum : ℤ) (g : PageLog) : PageLog :=
  match (c.allocPagesRange incpgnum).1 with
  | none => g.allocPagesLoop incpgnum.toNat c
  | some frmLst =>
    (g.allocPagesLoop incpgnum.toNat c).vmapLoop (pagingPgn mapstart) incpgnum 0 frmLst

def incVmaLimit (c : Pcb) (vmaid incSz : ℤ) (g : PageLog) : PageLog :=
  let incAmt := pagingPageAlignsz incSz
  match c.mm.getVmaByNum vmaid, c.mm.getVmAreaNodeAtBrk vmaid incAmt with
  | some curVma, some area =>
    if incAmt ≤ 0 then g
    else if ¬ c.mm.validateOverlapVmArea vmaid (toInt area.rgStart) (toInt area.rgEnd) then g
    else g.vmMapRam c (toInt curVma.vmEnd) (incAmt.tdiv pagingPagesz)
  | _, _ => g

/-- ALLOC grows the area only after it has found no free region. -/
def exec (c : Pcb) (g : PageLog) : Instr → PageLog
  | .alloc size regIndex =>
    if (symIndex regIndex.toInt).isSome ∧ 0 < size.toInt ∧
      (c.mm.getFreeVmrgArea 0 size.toInt).isNone then g.incVmaLimit c 0 size.toInt else g
  | .free _ => g
  | .read source offset => g.access c 0 source.toInt offset.toInt
  | .write _ destination offset => g.access c 0 destination.toInt offset.toInt
  | .grow vmaid incSz => g.incVmaLimit c vmaid.toInt incSz.toInt

end PageLog

structure Aged (g : PageLog) (mm : Mm) : Prop where
  order : mm.fifoPgn.Pairwise fun a b => g.since b < g.since a
  past : ∀ k ∈ mm.fifoPgn, g.since k < g.clock
  oldest : ∀ e ∈ g.evictions, e.Oldest

section
variable {nr ns : ℕ} {ramExt swpExt : ℕ → ℕ} {c c' : Pcb} {hand : List ℕ} {g : PageLog} {f k : ℕ}

theorem Aged.of_fifo {mm mm' : Mm} (h : Aged g mm) (hf : mm'.fifoPgn = mm.fifoPgn) : Aged g mm' :=
  ⟨by rw [hf]; exact h.order, by rw [hf]; exact h.past, h.oldest⟩

theorem log_grabFrame_nil (hm : c.mram.freeFpList = []) : g.grabFrame c = g.swapOutPage c := by
  simp only [PageLog.grabFrame, Memphy.getFreefp, hm]

theorem Aged.grabbed (h : Aged g c.mm) (hi : FrameInv nr ns ramExt swpExt c hand)
    (hg : Pcb.Grabbed c f c') : Aged (g.grabFrame c) c'.mm := by
  cases hg with
  | free hm =>
    have hlog : g.grabFrame c = g := by simp only [PageLog.grabFrame, Memphy.getFreefp, hm]
    rw [hlog]
    exact h.of_fifo rfl
  | @evict l rest v w hm hf hs =>
    have hlog : g.grabFrame c = { g with evictions := ⟨c.mm, g.since, v⟩ :: g.evictions } := by
      rw [log_grabFrame_nil hm, PageLog.swapOutPage, findVictimPage_concat hf,
        c.swapOutPage_evicts hf hs]
    have horder := h.order
    rw [hf] at horder
    obtain ⟨hl, _, hlast⟩ := List.pairwise_append.mp horder
    rw [hlog]
    refine ⟨hl, fun k hk => h.past k (by rw [hf]; exact List.mem_append_left _ hk), ?_⟩
    intro e he
    rcases List.mem_cons.mp he with rfl | he
    · -- the victim is the tail of a list that is ordered by age
      refine ⟨hi.victim_resident hf, fun k hk hne => ?_⟩
      have hmem := (hi.fifoMem k).mpr hk
      rw [hf, List.mem_append, List.mem_singleton] at hmem
      exact hlast k (hmem.resolve_right hne) v (List.mem_singleton_self v)
    · exact h.oldest e he

theorem Aged.stuck (h : Aged g c.mm) (hs : Pcb.Stuck c c') (hone : c.mm.fifoPgn.length ≤ 1) :
    Aged (g.grabFrame c) c'.mm := by
  cases hs with
  | noVictim hm hf =>
    have hlog : g.grabFrame c = g := by
      rw [log_grabFrame_nil hm, PageLog.swapOutPage, c.swapOutPage_nil hf]
      split <;> simp_all
    rw [hlog]
    exact h
  | @swapFull l v hm hf hs =>
    have hlog : g.grabFrame c = g := by
      rw [log_grabFrame_nil hm, PageLog.swapOutPage, c.swapOutPage_full hf hs]
      split <;> simp_all
    rw [hf, List.length_append, List.length_singleton] at hone
    obtain rfl : l = [] := List.eq_nil_of_length_eq_zero (by omega)
    rw [hlog]
    exact h.of_fifo hf.symm

theorem Aged.mapPage {mm : Mm} (h : Aged g mm) (hk : k ∉ mm.fifoPgn) (f : ℕ) :
    Aged (g.pteSetFpn k) (mm.mapPage k f) := by
  have hsame : ∀ j ∈ mm.fifoPgn, (g.pteSetFpn k).since j = g.since j := by
    intro j hj
    have hjk : j ≠ k := by
      intro he
      subst he
      exact hk hj
    exact Function.update_of_ne hjk _ _
  have hself : (g.pteSetFpn k).since k = g.clock := Function.update_self _ _ _
  refine ⟨List.pairwise_cons.mpr ⟨fun j hj => ?_, ?_⟩, fun j hj => ?_, h.oldest⟩
  · rw [hself, hsame j hj]
    exact h.past j hj
  · refine h.order.imp_of_mem fun ha hb hlt => ?_
    rw [hsame _ ha, hsame _ hb]
    exact hlt
  · rcases List.mem_cons.mp hj with rfl | hj
    · rw [hself]
      exact Nat.lt_succ_self _
    · rw [hsame j hj]
      exact (h.past j hj).trans (Nat.lt_succ_self _)

def Pcb.Fits (c : Pcb) (n : ℕ) : Prop :=
  n ≤ c.mram.freeFpList.length + (c.mswp activeMswpId).freeFpList.length ∨
    c.mm.fifoPgn.length ≤ (c.mswp activeMswpId).freeFpList.length + 1

theorem Pcb.Fits.stuck {n : ℕ} (h : c.Fits (n + 1)) (hs : Pcb.Stuck c c') :
    c.mm.fifoPgn.length ≤ 1 := by
  rw [Pcb.Fits] at h
  cases hs with
  | noVictim hm hf =>
    rw [hf]
    exact Nat.zero_le 1
  | swapFull hm hf hs =>
    rw [hm, hs, List.length_nil] at h
    omega

theorem Pcb.Fits.grabbed {n : ℕ} (h : c.Fits (n + 1)) (hg : Pcb.Grabbed c f c') : c'.Fits n := by
  rw [Pcb.Fits] at h ⊢
  cases hg with
  | free hm =>
    rw [hm, List.length_cons] at h
    simp only [Pcb.taken]
    omega
  | evict hm hf hs =>
    rw [hm, hf, hs, List.length_nil, List.length_append, List.length_singleton,
      List.length_cons] at h
    simp only [Pcb.evicted, Function.update_self, swapCpPage_fst_freeFpList,
      swapCpPage_snd_freeFpList, hm, List.length_nil]
    omega

theorem Aged.allocPagesLoop (n : ℕ) (h : Aged g c.mm) (hi : FrameInv nr ns ramExt swpExt c hand)
    (hfit : c.Fits n) :
    Aged (g.allocPagesLoop n c) (Pcb.allocPagesLoop n hand c).2.mm := by
  induction n generalizing c hand g with
  | zero => exact h
  | succ n ih =>
    rcases c.grabFrame_cases with ⟨c1, hg, hst⟩ | ⟨f, c1, hg, hgr⟩
    · simp only [Pcb.allocPagesLoop, PageLog.allocPagesLoop, hg]
      exact h.stuck hst (hfit.stuck hst)
    · simp only [Pcb.allocPagesLoop, PageLog.allocPagesLoop, hg]
      exact ih (h.grabbed hi hgr) (hi.grabbed hgr).1 (hfit.grabbed hgr)

theorem Aged.vmapLoop {mm : Mm} {pgn pgit : ℕ} {pgnum : ℤ} (fs : List ℕ) (h : Aged g mm)
    (hnew : ∀ k, pgn + pgit ≤ k → k ∉ mm.fifoPgn) :
    Aged (g.vmapLoop pgn pgnum pgit fs) (vmapLoop pgn pgnum pgit fs mm) := by
  induction fs generalizing pgit mm g with
  | nil => exact h
  | cons f fs ih =>
    by_cases hlt : (pgit : ℤ) < pgnum
    · rw [vmapLoop_cons hlt, PageLog.vmapLoop, if_pos hlt]
      refine ih (h.mapPage (hnew _ le_rfl) f) fun k hk hmem => ?_
      rcases List.mem_cons.mp hmem with he | hmem
      · omega
      · exact hnew k (by omega) hmem
    · rw [OSsim.vmapLoop, PageLog.vmapLoop, if_neg hlt, if_neg hlt]
      exact h

theorem Aged.pgGetpage (h : Aged g c.mm) (hi : FrameInv nr ns ramExt swpExt c [])
    (hfit : Swapped (c.mm.pgd k) → c.Fits 1) :
    Aged (g.pgGetpage c k) (c.pgGetpage k).2.mm := by
  by_cases hk : k < pagingMaxPgn ∧ Swapped (c.mm.pgd k)
  · rw [PageLog.pgGetpage, if_pos hk]
    rcases c.grabFrame_cases with ⟨c1, hg, hst⟩ | ⟨f, c1, hg, hgr⟩
    · rw [Pcb.pgGetpage_stuck hk.1 hk.2 hg]
      simp only [hg]
      exact h.stuck hst ((hfit hk.2).stuck hst)
    · rw [Pcb.pgGetpage_loads hk.1 hk.2 hg]
      simp only [hg]
      obtain ⟨h1, hkeep⟩ := hi.grabbed hgr
      refine (h.grabbed hi hgr).mapPage (fun hmem => ?_) f
      have hres := (h1.fifoMem k).mp hmem
      rw [hkeep.swapped k hk.2] at hres
      exact hres.2 hk.2.2
  · rw [PageLog.pgGetpage, if_neg hk]
    have hpage := c.pgGetpage_cases k
    generalize (c.pgGetpage k).1 = r, (c.pgGetpage k).2 = c1 at hpage
    cases hpage with
    | unmapped => exact h
    | resident => exact h
    | stuck hlt hsw => exact absurd ⟨hlt, hsw⟩ hk
    | loaded hlt hsw => exact absurd ⟨hlt, hsw⟩ hk

end

/-- The instruction asks for `n` frames: for the pages it adds to its area, or for the
page in swap that it accesses. -/
def Pcb.Wants (c : Pcb) (v : VmArea) : Instr → ℕ → Prop
  | .read source offset, n => n = 1 ∧ ∃ va, c.Accesses source.toInt offset.toInt va ∧
      Swapped (c.mm.pgd (pagingPgn va))
  | .write _ destination offset, n => n = 1 ∧ ∃ va, c.Accesses destination.toInt offset.toInt va ∧
      Swapped (c.mm.pgd (pagingPgn va))
  | i, n => n = growPages i.growth ∧ v.WantsGrowth i ∧ v.GrowthInRange i.growth

section
variable {c c' : Pcb} {v : VmArea} (h : Space c.mm v) (g : PageLog)
include h

theorem Space.log_incVmaLimit {vmaid incSz : ℤ} (hv : toULong vmaid = 0)
    (hr : v.GrowthInRange incSz) :
    g.incVmaLimit c vmaid incSz = g.vmMapRam c v.vmEnd (growPages incSz) := by
  have hpos := hr.1
  have hfit := (growthInRange_iff hpos).mp hr
  simp only [PageLog.incVmaLimit, h.getVmaByNum, if_pos hv, h.getVmAreaNodeAtBrk hv,
    if_neg (not_le.mpr hpos), h.planned_end hpos, h.validateOverlap_planned hv hpos, hfit,
    decide_true, not_true_eq_false, if_false, tdiv_pagesz_eq_growPages hpos]
  rw [toInt_natCast h.bound]

theorem Space.log_incVmaLimit_refused {vmaid incSz : ℤ}
    (hno : toULong vmaid ≠ 0 ∨ ¬ v.GrowthInRange incSz) : g.incVmaLimit c vmaid incSz = g := by
  by_cases hv : toULong vmaid = 0
  swap
  · simp only [PageLog.incVmaLimit, h.getVmaByNum, if_neg hv]
  by_cases hpos : pagingPageAlignsz incSz ≤ 0
  · simp only [PageLog.incVmaLimit, h.getVmaByNum, if_pos hv, h.getVmAreaNodeAtBrk hv, if_pos hpos]
  rw [not_le] at hpos
  have hfit : ¬ v.vmEnd + growPages incSz * 256 < 2 ^ 31 :=
    fun hlt => (hno.resolve_left (not_not.mpr hv)) ((growthInRange_iff hpos).mpr hlt)
  simp only [PageLog.incVmaLimit, h.getVmaByNum, if_pos hv, h.getVmAreaNodeAtBrk hv,
    if_neg (not_le.mpr hpos), h.planned_end hpos, h.validateOverlap_planned hv hpos, hfit,
    decide_false, Bool.false_eq_true, not_false_eq_true, if_true]

theorem Space.log_alloc (size regIndex : BitVec 32) :
    g.exec c (.alloc size regIndex) = if (symIndex regIndex.toInt).isSome ∧ 0 < size.toInt ∧
      firstFit size.toInt v.vmFreergList = none then g.incVmaLimit c 0 size.toInt else g := by
  simp only [PageLog.exec, h.getFreeVmrgArea, Option.isNone_map, Option.isNone_iff_eq_none]

theorem Space.log_grows {i : Instr} (hw : v.WantsGrowth i) (hr : v.GrowthInRange i.growth) :
    g.exec c i = g.vmMapRam c v.vmEnd (growPages i.growth) := by
  cases i with
  | alloc size regIndex =>
    simp only [VmArea.WantsGrowth] at hw
    rw [h.log_alloc, if_pos hw]
    exact h.log_incVmaLimit g rfl hr
  | grow vmaid incSz => exact h.log_incVmaLimit g hw hr
  | free => exact hw.elim
  | read => exact hw.elim
  | write => exact hw.elim

theorem Space.log_accesses {rgid offset : BitVec 32} {va : ℕ}
    (ha : c.Accesses rgid.toInt offset.toInt va) :
    g.access c 0 rgid.toInt offset.toInt = g.pgGetpage c (pagingPgn va) := by
  have hz : toULong 0 = 0 := rfl
  obtain ⟨i, hi, h₀, hva, hlt⟩ := ha
  obtain ⟨hu, hin⟩ := h.access_address hi h₀ BitVec.toInt_lt
  rw [hva] at hlt
  have hok : ¬ (offset.toInt < 0 ∨
      (c.mm.symrgtbl i).rgEnd ≤ toULong ((c.mm.symrgtbl i).rgStart + offset.toInt)) := by
    rw [hu]
    omega
  simp only [PageLog.access, hi, h.getVmaByNum, if_pos hz]
  rw [if_neg hok, (hin hlt).1, hva]

theorem Space.log_outside {rgid offset : BitVec 32}
    (hno : ∀ va, ¬ c.Accesses rgid.toInt offset.toInt va) :
    g.access c 0 rgid.toInt offset.toInt = g := by
  have hz : toULong 0 = 0 := rfl
  simp only [PageLog.access, h.getVmaByNum, if_pos hz]
  rcases hi : symIndex rgid.toInt with _ | i
  · rfl
  dsimp only
  by_cases hout : offset.toInt < 0 ∨
      (c.mm.symrgtbl i).rgEnd ≤ toULong ((c.mm.symrgtbl i).rgStart + offset.toInt)
  · rw [if_pos hout]
  · rw [not_or, not_lt, not_le] at hout
    obtain ⟨hu, hin⟩ := h.access_address hi hout.1 BitVec.toInt_lt
    exact absurd (hin (hu ▸ hout.2)).2 (hno _)

theorem Space.log_refused {i : Instr} (hr : c.Refused v i) : g.exec c i = g := by
  cases i with
  | alloc size regIndex =>
    rw [h.log_alloc]
    split_ifs with hw
    · rcases hr with hr | hr | hr
      · rw [hr] at hw
        cases hw.1
      · omega
      · exact h.log_incVmaLimit_refused g (Or.inr hr.2)
    · rfl
  | free => rfl
  | read => exact h.log_outside g hr
  | write => exact h.log_outside g hr
  | grow => exact h.log_incVmaLimit_refused g hr

end

section
variable {nr ns : ℕ} {ramExt swpExt : ℕ → ℕ} {c c' : Pcb} {v v' : VmArea} {g : PageLog}

theorem pgGetval_mm (c : Pcb) (addr : ℤ) :
    (c.pgGetval addr).2.mm = (c.pgGetpage (pagingPgn addr)).2.mm := by
  rcases hr : c.pgGetpage (pagingPgn addr) with ⟨_ | f, c1⟩
  · simp only [Pcb.pgGetval, hr]
  · simp only [Pcb.pgGetval, hr]

theorem pgSetval_mm (c : Pcb) (addr : ℤ) (value : Byte) :
    (c.pgSetval addr value).2.mm = (c.pgGetpage (pagingPgn addr)).2.mm := by
  rcases hr : c.pgGetpage (pagingPgn addr) with ⟨_ | f, c1⟩
  · simp only [Pcb.pgSetval, hr]
  · simp only [Pcb.pgSetval, hr]

theorem Aged.extended {n : ℕ} {fs : List ℕ} (h : Aged g c.mm) (hh : Housed c.mm v)
    (hi : FrameInv nr ns ramExt swpExt c []) (hfit : c.Fits n) (hn : 0 < n)
    (hlim : v.vmEnd + n * 256 ≤ pagingMaxPgn * pagingPagesz)
    (ha : c.allocPagesRange n = (some fs, c')) :
    Aged (g.vmMapRam c v.vmEnd n) (c'.extended v n fs).mm := by
  obtain ⟨r, c1, he, h1, hk, _⟩ := hi.allocPagesRange n
  rw [ha, Prod.mk.injEq] at he
  obtain ⟨rfl, rfl⟩ := he
  have hloop := h.allocPagesLoop n hi hfit
  have hc : Pcb.allocPagesLoop n [] c = (some fs, c') := ha
  rw [hc] at hloop
  simp only [pagingMaxPgn, pagingPagesz] at hlim
  have hnew : ∀ k, pagingPgn v.vmEnd + 0 ≤ k → k ∉ c'.mm.fifoPgn := by
    intro k hle hmem
    have hpres := ((h1.fifoMem k).mp hmem).1
    rw [hk.shuffles.present, hh.paged.present] at hpres
    rw [pagingPgn_of_lt (by omega)] at hle
    omega
  simp only [PageLog.vmMapRam, ha, Int.toNat_natCast]
  exact (hloop.vmapLoop fs hnew).of_fifo rfl

theorem Aged.effect {i : Instr} {o : Outcome} (h : Aged g c.mm) (hh : Housed c.mm v)
    (hi : FrameInv nr ns ramExt swpExt c []) (hfit : ∀ n, c.Wants v i n → c.Fits n)
    (he : Pcb.Effect c v i o c') (hs : Space c'.mm v')
    (hlim : v'.vmEnd ≤ pagingMaxPgn * pagingPagesz) : Aged (g.exec c i) c'.mm := by
  have hsp := hh.packed.space
  cases he with
  | refused hr =>
    rw [hsp.log_refused g hr]
    exact h
  | outOfFrames hw hr ha =>
    have hloop := h.allocPagesLoop (growPages i.growth) hi (hfit _ ?_)
    · have hc : Pcb.allocPagesLoop (growPages i.growth) [] c = (none, c') := ha
      rw [hc] at hloop
      rw [hsp.log_grows g hw hr]
      simp only [PageLog.vmMapRam, ha, Int.toNat_natCast]
      exact hloop
    · cases i with
      | alloc => exact ⟨rfl, hw, hr⟩
      | grow => exact ⟨rfl, hw, hr⟩
      | free => exact hw.elim
      | read => exact hw.elim
      | write => exact hw.elim
  | @placed size regIndex j rg l hj hpos hf =>
    have hlog : g.exec c (.alloc size regIndex) = g := by
      rw [hsp.log_alloc, if_neg]
      intro hc
      rw [hf] at hc
      cases hc.2.2
    rw [hlog]
    exact h.of_fifo rfl
  | @allocGrown size regIndex j fs c1 rg l hj hpos hnone hr ha hrg =>
    obtain rfl : { v.grown (growPages size.toInt) with vmFreergList := l } = v' :=
      List.singleton_inj.mp hs.mmap
    have hw : v.WantsGrowth (.alloc size regIndex) := ⟨by rw [hj]; rfl, hpos, hnone⟩
    rw [hsp.log_grows g hw hr]
    exact (h.extended hh hi (hfit _ ⟨rfl, hw, hr⟩) (growPages_mul hr.1).1 hlim ha).of_fifo rfl
  | @grown vmaid incSz fs c1 hv hr ha =>
    obtain rfl : v.grown (growPages incSz.toInt) = v' := List.singleton_inj.mp hs.mmap
    have hw : v.WantsGrowth (.grow vmaid incSz) := hv
    rw [hsp.log_grows g hw hr]
    exact h.extended hh hi (hfit _ ⟨rfl, hw, hr⟩) (growPages_mul hr.1).1 hlim ha
  | freed => exact h.of_fifo rfl
  | @reads source offset va hacc =>
    rw [PageLog.exec, hsp.log_accesses g hacc, pgGetval_mm]
    exact h.pgGetpage hi fun hsw => hfit 1 ⟨rfl, va, hacc, hsw⟩
  | @writes data destination offset va hacc =>
    rw [PageLog.exec, hsp.log_accesses g hacc, pgSetval_mm]
    exact h.pgGetpage hi fun hsw => hfit 1 ⟨rfl, va, hacc, hsw⟩

end

namespace Kernel
variable {ι : Type*} [DecidableEq ι]

def logStep (s : Kernel ι) (logs : ι → PageLog) : Op ι → ι → PageLog
  | .exec p i =>
    match s.mm p with
    | none => logs
    | some mm => Function.update logs p ((logs p).exec (s.caller mm) i)
  | _ => logs

def NextLogged (x : Kernel ι × (ι → PageLog)) (op : Op ι) (x' : Kernel ι × (ι → PageLog)) : Prop :=
  NextBounded x.1 op x'.1 ∧ x'.2 = x.1.logStep x.2 op

/-- No instruction runs out of swap while its process has a choice of pages to evict:
the frames it asks for are there, or at most one page remains in RAM. -/
def Fits (s : Kernel ι) : Op ι → Prop
  | .exec p i => ∀ mm v n, s.mm p = some mm → mm.mmap = [v] → (s.caller mm).Wants v i n →
      (s.caller mm).Fits n
  | _ => True

def logged (op : Op ι) (x : Kernel ι × (ι → PageLog)) : Kernel ι × (ι → PageLog) :=
  ((x.1.step op).2, x.1.logStep x.2 op)

theorem nextLogged_logged {x : Kernel ι × (ι → PageLog)} {op : Op ι}
    (hb : (logged op x).1.VmBounded) : NextLogged x op (logged op x) := ⟨⟨rfl, hb⟩, rfl⟩

def NextFits (x : Kernel ι × (ι → PageLog)) (op : Op ι) (x' : Kernel ι × (ι → PageLog)) : Prop :=
  NextLogged x op x' ∧ x.1.Fits op

variable [Fintype ι] {nr ns : ℕ} {memramsz : ℤ} {memswpsz : ℕ → ℤ} {ops : List (Op ι)}
  {s s' : Kernel ι} {logs : ι → PageLog} {g : PageLog}

structure FifoInv (nr ns : ℕ) (x : Kernel ι × (ι → PageLog)) : Prop where
  inv : Inv nr ns x.1
  aged : ∀ p mm, x.1.mm p = some mm → Aged (x.2 p) mm
  oldest : ∀ p, ∀ e ∈ (x.2 p).evictions, e.Oldest

theorem FifoInv.executed {p : ι} {mm : Mm} {i : Instr} (h : FifoInv nr ns (s, logs))
    (hp : s.mm p = some mm) (hb : (s.commit p ((s.caller mm).exec i).2).VmBounded)
    (hfit : s.Fits (.exec p i)) :
    FifoInv nr ns (s.commit p ((s.caller mm).exec i).2, s.logStep logs (.exec p i)) := by
  obtain ⟨v, hv⟩ := h.inv.housed p mm hp
  have hv' : Housed (s.caller mm).mm v := hv
  obtain ⟨v', hp'⟩ := hv'.packed.exec i
  have hlim := hb p _ (commit_mm_self _ _ _) v'
    (by rw [hp'.space.mmap]; exact List.mem_singleton_self v')
  have haged : Aged ((logs p).exec (s.caller mm) i) ((s.caller mm).exec i).2.mm :=
    Aged.effect (c := s.caller mm) (h.aged p mm hp) hv' (h.inv.frameInv hp)
      (fun n hw => hfit mm v n hp hv.packed.space.mmap hw) (hv'.packed.space.exec_cases i)
      hp'.space hlim
  have hlog : s.logStep logs (.exec p i) =
      Function.update logs p ((logs p).exec (s.caller mm) i) := by
    simp only [logStep, hp]
  rw [hlog]
  refine ⟨(h.inv.exec hp i hb).1, fun q mmq hq => ?_, fun q => ?_⟩
  · dsimp only at hq ⊢
    by_cases hqp : q = p
    · subst hqp
      rw [commit_mm_self, Option.some.injEq] at hq
      rw [Function.update_self, ← hq]
      exact haged
    · rw [commit_mm_of_ne _ _ hqp] at hq
      rw [Function.update_of_ne hqp]
      exact h.aged q mmq hq
  · dsimp only
    by_cases hqp : q = p
    · subst hqp
      rw [Function.update_self]
      exact haged.oldest
    · rw [Function.update_of_ne hqp]
      exact h.oldest q

theorem aged_initMm (horder : ∀ e ∈ g.evictions, e.Oldest) : Aged g initMm :=
  ⟨List.Pairwise.nil, fun _ hk => absurd hk List.not_mem_nil, horder⟩

theorem FifoInv.kept {op : Op ι} (h : FifoInv nr ns (s, logs)) (hinv : Inv nr ns (s.step op).2)
    (hop : ∀ p i, op ≠ .exec p i) : FifoInv nr ns ((s.step op).2, logs) := by
  refine ⟨hinv, fun q mm hq => ?_, h.oldest⟩
  rcases live_after (s.step_cases op) hq with hq | ⟨_, rfl⟩ | ⟨_, i, he, _⟩
  · exact h.aged q mm hq
  · exact aged_initMm (h.oldest q)
  · exact absurd he (hop q i)

theorem FifoInv.step (x : Kernel ι × (ι → PageLog)) (op : Op ι) (x' : Kernel ι × (ι → PageLog))
    (h : FifoInv nr ns x) (hn : NextFits x op x') : FifoInv nr ns x' := by
  obtain ⟨s, logs⟩ := x
  obtain ⟨s', logs'⟩ := x'
  obtain ⟨⟨hnext, rfl⟩, hfit⟩ := hn
  have hinv := Inv.step s op s' h.inv hnext
  obtain ⟨hnext, hb⟩ := hnext
  rw [Next] at hnext
  dsimp only at hnext hb hfit
  subst hnext
  cases op with
  | create p => exact h.kept hinv fun _ _ he => by cases he
  | release p => exact h.kept hinv fun _ _ he => by cases he
  | exec p i =>
    rcases hp : s.mm p with _ | mm
    · have hlog : s.logStep logs (.exec p i) = logs := by simp only [logStep, hp]
      have hidle : (s.step (.exec p i)).2 = s := by simp only [Kernel.step, hp]
      rw [hlog, hidle]
      exact h
    · rw [step_exec hp] at hb ⊢
      exact h.executed hp hb hfit

/-- In every run in which no instruction runs out of swap with a choice of pages left,
every page that is moved to swap is the one that became resident first. -/
theorem run_fifo (hram : framesOf memramsz ≤ 8192) (hswp : framesOf (memswpsz 0) ≤ 2 ^ 21)
    (hrun : Run NextFits (boot memramsz memswpsz, fun _ => PageLog.empty) ops (s, logs)) (p : ι) :
    ∀ e ∈ (logs p).evictions, e.Oldest := by
  have hboot : FifoInv (framesOf memramsz) (framesOf (memswpsz 0))
      (boot memramsz memswpsz, fun _ : ι => PageLog.empty) :=
    ⟨inv_boot hram hswp, fun _ _ hp => (by cases hp), fun _ e he => absurd he List.not_mem_nil⟩
  exact (hrun.invariant _ hboot FifoInv.step).oldest p

omit [Fintype ι] [DecidableEq ι] in
theorem fits_alloc {p : ι} {size regIndex : BitVec 32}
    (h : growPages size.toInt ≤
      s.mram.freeFpList.length + (s.mswp activeMswpId).freeFpList.length) :
    s.Fits (.exec p (.alloc size regIndex)) := by
  intro mm v n _ _ hw
  left
  rw [hw.1]
  exact h

/-- Two frames of RAM and one of swap; the second ALLOC evicts page 0 and swap suffices. -/
theorem run_fifo_evicting :
    ∃ (s : Kernel Unit) (logs : Unit → PageLog), Run NextFits
        (boot 512 fun _ => 256, fun _ => PageLog.empty)
        [.exec () (.alloc 256 1), .exec () (.alloc 512 0), .create ()] (s, logs) ∧
      (logs ()).evictions.map Eviction.vicpgn = [0] ∧ ∀ e ∈ (logs ()).evictions, e.Oldest := by
  have hcreate : Run NextFits (boot 512 fun _ => 256, fun _ : Unit => PageLog.empty)
      [.create ()] _ := .snoc .nil ⟨nextLogged_logged (by decide +kernel), trivial⟩
  have hfill : Run NextFits (boot 512 fun _ => 256, fun _ : Unit => PageLog.empty)
      [.exec () (.alloc 512 0), .create ()] _ :=
    .snoc hcreate ⟨nextLogged_logged (by decide +kernel), fits_alloc (by decide +kernel)⟩
  have hrun : Run NextFits (boot 512 fun _ => 256, fun _ : Unit => PageLog.empty)
      [.exec () (.alloc 256 1), .exec () (.alloc 512 0), .create ()] _ :=
    .snoc hfill ⟨nextLogged_logged (by decide +kernel), fits_alloc (by decide +kernel)⟩
  exact ⟨_, _, hrun, by decide +kernel, run_fifo (by decide) (by decide) hrun ()⟩

/-- Three frames of RAM and one of swap. The second ALLOC evicts page 0 and gives up on page
1, which moves to the head of the list; so after the READ the last ALLOC evicts page 2. -/
theorem gave_up_reorders :
    ∃ (s : Kernel Unit) (logs : Unit → PageLog) (e : Eviction), Run NextLogged
        (boot 768 fun _ => 256, fun _ => PageLog.empty)
        [.exec () (.alloc 256 2), .exec () (.read 0 0), .exec () (.alloc 768 1),
          .exec () (.alloc 768 0), .create ()] (s, logs) ∧
      e ∈ (logs ()).evictions ∧ ¬ e.Oldest := by
  have hrun : Run NextLogged (boot 768 fun _ => 256, fun _ : Unit => PageLog.empty)
      [.exec () (.alloc 256 2), .exec () (.read 0 0), .exec () (.alloc 768 1),
        .exec () (.alloc 768 0), .create ()] _ :=
    .snoc (.snoc (.snoc (.snoc (.snoc .nil (nextLogged_logged (by decide +kernel)))
      (nextLogged_logged (by decide +kernel))) (nextLogged_logged (by decide +kernel)))
      (nextLogged_logged (by decide +kernel))) (nextLogged_logged (by decide +kernel))
  generalize hx : logged (.exec () (.alloc 256 2)) _ = x at hrun
  have hval : (x.2 ()).evictions.head?.map (fun e => (e.vicpgn, decide (Resident (e.mm.pgd 1)),
      e.since 1, e.since 2)) = some (2, true, 1, 2) := by
    rw [← hx]
    decide +kernel
  obtain ⟨e, he, hval⟩ := Option.map_eq_some_iff.mp hval
  simp only [Prod.mk.injEq, decide_eq_true_eq] at hval
  obtain ⟨hvic, hres, h1, h2⟩ := hval
  refine ⟨x.1, x.2, e, hrun, List.mem_of_mem_head? he, fun hold => ?_⟩
  have hlt := hold.first 1 hres (by rw [hvic]; decide)
  rw [hvic, h1, h2] at hlt
  exact absurd hlt (by decide)

end Kernel
end OSsim
