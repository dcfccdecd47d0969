import OSsim.Access
import OSsim.PageTables
import OSsim.FlatMemory
import OSsim.Exhaust

/-!
# How far an allocation of frames gets

`alloc_pages_range` takes the free frames of RAM first and then one frame for each page
of the caller that it can move to swap. Both sources are counted before the call, so
the number of frames that it can get is known exactly, and so is what it leaves behind
when it gets them and when it does not.
-/

namespace OSsim

namespace Pcb
variable (c : Pcb)

def allocPagesCode (reqPgnum : ℤ) : ℤ :=
  match (c.allocPagesRange reqPgnum).1 with
  | some _ => 0
  | none => -3000

/-- The frames that the loop of `alloc_pages_range` gets, in this order, before it ends. -/
def framesTaken : ℕ → Pcb → List ℕ
  | 0, _ => []
  | n + 1, c =>
    match c.grabFrame with
    | (some fpn, c) => fpn :: framesTaken n c
    | (none, _) => []

end Pcb

def Mm.movedOut (mm mm' : Mm) : Finset ℕ :=
  (Finset.range pagingMaxPgn).filter fun k => Resident (mm.pgd k) ∧ Swapped (mm'.pgd k)

section
variable {nr ns n : ℕ} {ramExt swpExt : ℕ → ℕ} {c c' : Pcb} {hand fs : List ℕ}

theorem allocPagesLoop_putBack (hand : List ℕ) (ha : Pcb.allocPagesLoop n hand c = (none, c')) :
    ∀ f, f ∈ hand ∨ f ∈ Pcb.framesTaken n c → f ∈ c'.mram.freeFpList := by
  induction n generalizing hand c with
  | zero => cases ha
  | succ n ih =>
    intro f hf
    rcases c.grabFrame_cases with ⟨c1, hg, _⟩ | ⟨x, c1, hg, _⟩
    · simp only [Pcb.allocPagesLoop, hg, Prod.mk.injEq, true_and] at ha
      simp only [Pcb.framesTaken, hg, List.not_mem_nil, or_false] at hf
      rw [← ha, foldl_putFreefp]
      exact List.mem_append_left _ (List.mem_reverse.mpr hf)
    · simp only [Pcb.allocPagesLoop, hg] at ha
      simp only [Pcb.framesTaken, hg, List.mem_cons] at hf
      apply ih _ ha
      rw [List.mem_cons]
      tauto

theorem FrameInv.grabbed_moved {f : ℕ} (h : FrameInv nr ns ramExt swpExt c hand)
    (hg : Pcb.Grabbed c f c') :
    (c'.mm.pgd = c.mm.pgd ∧ c'.mram.freeFpList.length + 1 = c.mram.freeFpList.length) ∨
      (c.mram.freeFpList = [] ∧ c'.mram.freeFpList = [] ∧ ∃ v, Resident (c.mm.pgd v) ∧
        Swapped (c'.mm.pgd v) ∧ ∀ k, k ≠ v → c'.mm.pgd k = c.mm.pgd k) := by
  cases hg with
  | free hm =>
    left
    exact ⟨rfl, by rw [hm]; rfl⟩
  | @evict l rest v w hm hf hs =>
    right
    have hm' : (c.evicted l v w rest).mram.freeFpList = [] := by
      simp only [Pcb.evicted, swapCpPage_fst_freeFpList, hm]
    have hsw : Swapped ((c.evicted l v w rest).mm.pgd v) := by
      simp only [Pcb.evicted, Function.update_self]
      exact swapped_pteSetSwap _ _ _
    exact ⟨hm, hm', v, h.victim_resident hf, hsw, fun k hk => Function.update_of_ne hk _ _⟩

theorem FrameInv.allocPagesLoop_moved (h : FrameInv nr ns ramExt swpExt c hand)
    (ha : Pcb.allocPagesLoop n hand c = (some fs, c')) :
    ∃ ks : Finset ℕ, ks.card = n - c.mram.freeFpList.length ∧
      (∀ k ∈ ks, Resident (c.mm.pgd k) ∧ Swapped (c'.mm.pgd k)) ∧
      ∀ k, k ∉ ks → c'.mm.pgd k = c.mm.pgd k := by
  induction n generalizing c hand with
  | zero =>
    obtain ⟨_, rfl⟩ := Prod.mk.inj ha
    exact ⟨∅, by simp, by simp, fun _ _ => rfl⟩
  | succ n ih =>
    rcases c.grabFrame_cases with ⟨c1, hg, _⟩ | ⟨x, c1, hg, hgr⟩
    · simp [Pcb.allocPagesLoop, hg] at ha
    · simp only [Pcb.allocPagesLoop, hg] at ha
      obtain ⟨ks, hcard, hmoved, hkept⟩ := ih (h.grabbed hgr).1 ha
      rcases h.grabbed_moved hgr with ⟨hpgd, hlen⟩ | ⟨hm, hm1, v, hv, hv1, hne⟩
      · rw [hpgd] at hmoved hkept
        exact ⟨ks, by omega, hmoved, hkept⟩
      · -- the victim of this round is in swap, so it is not among the later ones
        have hnot : v ∉ ks := fun hmem => (hmoved v hmem).1.2 hv1.2
        refine ⟨insert v ks, ?_, ?_, ?_⟩
        · rw [Finset.card_insert_of_notMem hnot, hcard, hm, hm1]
          rfl
        · intro k hk
          rcases Finset.mem_insert.mp hk with rfl | hks
          · rw [hkept k hnot]
            exact ⟨hv, hv1⟩
          · have hkv : k ≠ v := by
              intro he
              subst he
              exact hnot hks
            rw [← hne k hkv]
            exact hmoved k hks
        · intro k hk
          rw [Finset.mem_insert, not_or] at hk
          rw [hkept k hk.2, hne k hk.1]

theorem FrameInv.card_movedOut (h : FrameInv nr ns ramExt swpExt c [])
    (ha : c.allocPagesRange n = (some fs, c')) :
    (c.mm.movedOut c'.mm).card = n - c.mram.freeFpList.length := by
  rw [Pcb.allocPagesRange, Int.toNat_natCast] at ha
  obtain ⟨ks, hcard, hmoved, hkept⟩ := h.allocPagesLoop_moved ha
  have heq : c.mm.movedOut c'.mm = ks := by
    ext k
    rw [Mm.movedOut, Finset.mem_filter, Finset.mem_range]
    constructor
    · intro hk
      by_contra hnot
      rw [hkept k hnot] at hk
      exact hk.2.1.2 hk.2.2.2
    · intro hk
      exact ⟨h.inTable k (hmoved k hk).1.1, hmoved k hk⟩
  rw [heq, hcard]

theorem Pcb.allocPagesCode_eq_zero (c : Pcb) (n : ℕ) :
    c.allocPagesCode n = 0 ↔ n ≤ c.supply := by
  rw [← Pcb.allocPagesLoop_isSome n [] c, Pcb.allocPagesCode, Pcb.allocPagesRange,
    Int.toNat_natCast]
  cases (Pcb.allocPagesLoop n [] c).1 with
  | none => simp
  | some fs => simp

end

namespace Kernel
variable {ι : Type*} [DecidableEq ι]

/-- What `alloc_pages_range` should do for `n` frames on behalf of process `p`, whose
address space is `mm`. -/
structure ExactGrowth (s : Kernel ι) (p : ι) (mm : Mm) (n : ℕ) : Prop where
  succeeds : (s.caller mm).allocPagesCode n = 0 ↔
    n ≤ s.mram.freeFpList.length + min mm.fifoPgn.length (s.mswp activeMswpId).freeFpList.length
  frames : ∀ fs c, (s.caller mm).allocPagesRange n = (some fs, c) → fs.length = n ∧ fs.Nodup ∧
    ∀ f ∈ fs, f < s.mram.numfp ∧ f ∉ c.mram.freeFpList ∧
      ∀ q mmq, (s.commit p c).mm q = some mmq → ∀ k < pagingMaxPgn, Resident (mmq.pgd k) →
        pagingFpn (mmq.pgd k) ≠ f
  moved : ∀ fs c, (s.caller mm).allocPagesRange n = (some fs, c) →
    (mm.movedOut c.mm).card = n - s.mram.freeFpList.length
  failed : (s.caller mm).allocPagesCode n ≠ 0 → (s.caller mm).allocPagesCode n = -3000 ∧
    ∀ f ∈ Pcb.framesTaken n (s.caller mm),
      ((s.caller mm).allocPagesRange n).2.mram.freeFpList.count f = 1

variable [Fintype ι] {s : Kernel ι} {p : ι} {mm : Mm} {nr ns : ℕ} {memramsz : ℤ}
  {memswpsz : ℕ → ℤ} {ops : List (Op ι)}

theorem Inv.not_held {c : Pcb} {fs : List ℕ} (h : Inv nr ns s) (hp : s.mm p = some mm)
    (hf : FrameInv nr ns (s.ramExt p) (s.swpExt p) c fs) {f : ℕ} (hmem : f ∈ fs) {q : ι} {mmq : Mm}
    (hq : (s.commit p c).mm q = some mmq) {k : ℕ} (hk : Resident (mmq.pgd k)) :
    pagingFpn (mmq.pgd k) ≠ f := by
  have hcount := List.count_pos_iff.mpr hmem
  obtain ⟨_, hone⟩ := hf.ram_single f (by omega)
  intro he
  by_cases hqp : q = p
  · subst hqp
    rw [commit_mm_self, Option.some.injEq] at hq
    subst hq
    have hpos := hf.ramOwn_pos hk
    rw [he] at hpos
    omega
  · rw [commit_mm_of_ne _ _ hqp] at hq
    have hpos := ramExt_pos (p := p) h hq hqp hk
    rw [he] at hpos
    omega

theorem Inv.exactGrowth (h : Inv nr ns s) (hp : s.mm p = some mm) (n : ℕ) :
    s.ExactGrowth p mm n := by
  have hf := h.frameInv hp
  obtain ⟨r, c', he, hf', _, hlen⟩ := hf.allocPagesRange n
  refine ⟨(s.caller mm).allocPagesCode_eq_zero n, ?_, fun fs c => hf.card_movedOut, ?_⟩
  · intro fs c ha
    rw [he, Prod.mk.injEq] at ha
    obtain ⟨rfl, rfl⟩ := ha
    have hf' : FrameInv nr ns (s.ramExt p) (s.swpExt p) c' fs := hf'
    refine ⟨by simpa using hlen fs rfl, ?_, ?_⟩
    · rw [List.nodup_iff_count_le_one]
      intro f
      by_contra hlt
      obtain ⟨_, hone⟩ := hf'.ram_single f (by omega)
      omega
    · intro f hmem
      have hcount := List.count_pos_iff.mpr hmem
      obtain ⟨hlt, hone⟩ := hf'.ram_single f (by omega)
      refine ⟨by rw [h.ramDim]; exact hlt, ?_, fun q mmq hq k _ hk => h.not_held hp hf' hmem hq hk⟩
      intro hfree
      have hpos := List.count_pos_iff.mpr hfree
      omega
  · intro hcode
    cases r with
    | some fs => exact absurd (by rw [Pcb.allocPagesCode, he]) hcode
    | none =>
      refine ⟨by rw [Pcb.allocPagesCode, he], fun f hmem => ?_⟩
      have hf' : FrameInv nr ns (s.ramExt p) (s.swpExt p) c' [] := hf'
      have hback : f ∈ c'.mram.freeFpList := allocPagesLoop_putBack [] he f (Or.inr hmem)
      have hpos := List.count_pos_iff.mpr hback
      obtain ⟨_, hone⟩ := hf'.ram_single f (by omega)
      rw [he]
      rw [List.count_nil] at hone
      dsimp only
      omega

/-- In runs in which no area outgrows the page table, `alloc_pages_range` gets `n` frames
exactly if the free frames and the pages that can be moved to swap suffice. -/
theorem run_exactGrowth (hram : framesOf memramsz ≤ 8192) (hswp : framesOf (memswpsz 0) ≤ 2 ^ 21)
    (hrun : Run NextBounded (boot memramsz memswpsz) ops s) (hp : s.mm p = some mm) (n : ℕ) :
    s.ExactGrowth p mm n :=
  (hrun.invariant _ (inv_boot hram hswp) Inv.step).exactGrowth hp n

/-- RAM is full and swap has one frame: one more page can be had, two cannot. -/
theorem run_exactGrowth_full :
    ∃ (s : Kernel Unit) (mm : Mm), Run NextBounded (boot 512 fun _ => 256)
        [.exec () (.alloc 512 0), .create ()] s ∧ s.mm () = some mm ∧
      (s.caller mm).allocPagesCode (1 : ℕ) = 0 ∧ (s.caller mm).allocPagesCode (2 : ℕ) = -3000 ∧
      s.ExactGrowth () mm 1 ∧ s.ExactGrowth () mm 2 := by
  have hrun : Run NextBounded (boot 512 fun _ => 256 : Kernel Unit)
      [.exec () (.alloc 512 0), .create ()] _ :=
    .snoc (.snoc .nil ⟨rfl, by decide +kernel⟩) ⟨rfl, by decide +kernel⟩
  generalize hs : (Kernel.step (Kernel.step (boot 512 fun _ => 256) (.create ())).2
    (.exec () (.alloc 512 0))).2 = s at hrun
  have hmm : (s.mm ()).map (fun mm => ((s.caller mm).allocPagesCode (1 : ℕ),
      (s.caller mm).allocPagesCode (2 : ℕ))) = some (0, -3000) := by
    rw [← hs]
    decide +kernel
  obtain ⟨mm, hp, hval⟩ := Option.map_eq_some_iff.mp hmm
  rw [Prod.mk.injEq] at hval
  have hall := run_exactGrowth (by decide) (by decide) hrun hp
  exact ⟨s, mm, hrun, hp, hval.1, hval.2, hall 1, hall 2⟩

end Kernel

section Wrapped
variable {ns n : ℕ} {c c' : Pcb} {v : VmArea}

theorem allocPagesLoop_pgd_of_notMem {k : ℕ} (n : ℕ) (l : List ℕ) (hk : k ∉ c.mm.fifoPgn) :
    (Pcb.allocPagesLoop n l c).2.mm.pgd k = c.mm.pgd k := by
  induction n generalizing l c with
  | zero => rfl
  | succ n ih =>
    rcases c.grabFrame_cases with ⟨c1, hg, hst⟩ | ⟨f, c1, hg, hgr⟩
    · simp only [Pcb.allocPagesLoop, hg]
      cases hst with
      | noVictim => rfl
      | swapFull => rfl
    · simp only [Pcb.allocPagesLoop, hg]
      cases hgr with
      | free => exact ih _ hk
      | @evict fifo rest x w _ hf _ =>
        rw [hf, List.mem_append, List.mem_singleton, not_or] at hk
        have hkeep : (c.evicted fifo x w rest).mm.pgd k = c.mm.pgd k :=
          Function.update_of_ne hk.2 _ _
        rw [ih _ hk.1, hkeep]

theorem extended_one (c : Pcb) (v : VmArea) (f : ℕ) :
    (c.extended v 1 [f]).mm.fifoPgn = pagingPgn v.vmEnd :: c.mm.fifoPgn ∧
      (c.extended v 1 [f]).mm.pgd = Function.update c.mm.pgd (pagingPgn v.vmEnd)
        (pteSetFpn (c.mm.pgd (pagingPgn v.vmEnd)) f) := by
  simp only [Pcb.extended]
  rw [vmapLoop_cons (by decide), vmapLoop]
  exact ⟨rfl, rfl⟩

/-- One process has filled the two frames of RAM and is filling swap, page by page. Its
first page belongs to register 1. -/
structure Rolled (ns n : ℕ) (c : Pcb) (v : VmArea) : Prop where
  filled : Filled 2 ns n c v
  two : 2 ≤ n
  fifo : c.mm.fifoPgn = [n - 1, n - 2]
  region : c.mm.symrgtbl 1 = ⟨0, 256⟩
  first : n = 2 ∨ Swapped (c.mm.pgd 0)

theorem Rolled.grabs (h : Rolled ns n c v) (hn : n < 2 + ns) :
    ∃ w rest, c.grabFrame =
      (some (pagingFpn (c.mm.pgd (n - 2))), c.evicted [n - 1] (n - 2) w rest) ∧
      Pcb.Grabbed c (pagingFpn (c.mm.pgd (n - 2))) (c.evicted [n - 1] (n - 2) w rest) := by
  obtain ⟨f, c', hg, hgr⟩ := h.filled.grabs (by decide) hn
  have hram := h.filled.ram
  rw [List.drop_eq_nil_of_le (by rw [List.length_range]; exact h.two)] at hram
  cases hgr with
  | free hm =>
    rw [hram] at hm
    cases hm
  | @evict l rest x w hm hf hs =>
    have hsplit : [n - 1] ++ [n - 2] = l ++ [x] := h.fifo.symm.trans hf
    obtain ⟨rfl, hx⟩ := List.append_inj' hsplit rfl
    obtain rfl : n - 2 = x := List.singleton_inj.mp hx
    exact ⟨w, rest, hg, .evict hm hf hs⟩

theorem Rolled.alloc (h : Rolled ns n c v) (hn : n < 2 + ns) (hb : n < pagingMaxPgn) :
    ∃ c' v', c.exec (.alloc 256 0) = (.done, c') ∧ Rolled ns (n + 1) c' v' := by
  simp only [pagingMaxPgn] at hb
  have htwo := h.two
  have hpgn : pagingPgn v.vmEnd = n := by
    rw [h.filled.vmEnd, pagingPgn_of_lt (by omega)]
    omega
  obtain ⟨w, rest, hg, hgr⟩ := h.grabs hn
  obtain ⟨l, he, hf'⟩ := h.filled.alloc (by omega) hg hgr 0 (i := 0) (by decide)
  refine ⟨_, _, he, hf', by omega, ?_, ?_, Or.inr ?_⟩
  · simp only [Pcb.placed, extended_one, hpgn]
    have hsub : n + 1 - 2 = n - 1 := by omega
    rw [hsub]
    rfl
  · simp only [Pcb.placed, extended_symrgtbl]
    rw [Function.update_of_ne (by decide)]
    exact h.region
  · simp only [Pcb.placed, extended_one, hpgn]
    rw [Function.update_of_ne (by omega)]
    simp only [Pcb.evicted]
    by_cases hz : n = 2
    · subst hz
      rw [Function.update_self]
      exact swapped_pteSetSwap _ _ _
    · rw [Function.update_of_ne (by omega)]
      exact h.first.resolve_left hz

theorem swappedIn_freeFpList_length (c : Pcb) (pte : Pte) (k f : ℕ) :
    (c.mswp activeMswpId).freeFpList.length ≤
      ((c.swappedIn pte k f).mswp activeMswpId).freeFpList.length := by
  simp only [Pcb.swappedIn]
  by_cases ht : activeMswpId = pagingPteSwptyp pte
  · rw [← ht, Function.update_self, Memphy.putFreefp, swapCpPage_fst_freeFpList, List.length_cons]
    omega
  · rw [Function.update_of_ne ht]

theorem Rolled.read (h : Rolled ns pagingMaxPgn c v) (hn : pagingMaxPgn < ns) :
    ∃ o c', c.exec (.read 1 0) = (o, c') ∧ Space c'.mm v ∧ v.vmEnd = pagingMaxPgn * 256 ∧
      (∀ a, regionCover v.vmFreergList a = 0) ∧ c'.mm.fifoPgn = [0, pagingMaxPgn - 1] ∧
      c'.mram.freeFpList = [] ∧ ns < (c'.mswp activeMswpId).freeFpList.length + pagingMaxPgn := by
  have hacc : c.Accesses (1 : BitVec 32).toInt (0 : BitVec 32).toInt 0 := by
    refine ⟨1, by decide, by decide, ?_, ?_⟩
    · rw [h.region]
      rfl
    · rw [h.region]
      decide
  have hsw : Swapped (c.mm.pgd 0) := h.first.resolve_left (by decide)
  obtain ⟨w, rest, hg, hgr⟩ := h.grabs (by omega)
  have hpage := Pcb.pgGetpage_loads (k := 0) (by decide) hsw hg
  have hzero : pagingPgn ((0 : ℕ) : ℤ) = 0 := by decide
  obtain ⟨hram, hswp⟩ := h.filled.grabbed hgr
  have hlen := congrArg List.length hswp
  rw [List.length_drop, List.length_range] at hlen
  have hgrow := swappedIn_freeFpList_length (c.evicted [pagingMaxPgn - 1] (pagingMaxPgn - 2) w rest)
    (c.mm.pgd 0) 0 (pagingFpn (c.mm.pgd (pagingMaxPgn - 2)))
  have hexec := h.filled.space.exec_read hacc
  simp only [Pcb.pgGetval, hzero, hpage] at hexec
  refine ⟨_, _, hexec, h.filled.space.of_mm rfl rfl, h.filled.vmEnd, h.filled.free, rfl, ?_, ?_⟩
  · simp only [Memphy.read_freeFpList, Pcb.swappedIn, swapCpPage_snd_freeFpList, hram]
    exact List.drop_eq_nil_of_le (by rw [List.length_range]; decide)
  · have hmax : pagingMaxPgn = 16384 := rfl
    dsimp only at hgrow ⊢
    omega

theorem Space.alloc_wrapped (h : Space c.mm v) (hend : v.vmEnd = pagingMaxPgn * 256)
    (hfree : ∀ a, regionCover v.vmFreergList a = 0) (hf : c.mm.fifoPgn = [0, pagingMaxPgn - 1])
    (hm : c.mram.freeFpList = []) {w : ℕ} {rest : List ℕ}
    (hs : (c.mswp activeMswpId).freeFpList = w :: rest) :
    ∃ c', c.exec (.alloc 256 0) = (.done, c') ∧ c'.mm.fifoPgn = [0, 0] ∧
      c'.mram.freeFpList = [] ∧ (c'.mswp activeMswpId).freeFpList = rest := by
  have hg : c.grabFrame = (some (pagingFpn (c.mm.pgd (pagingMaxPgn - 1))),
      c.evicted [0] (pagingMaxPgn - 1) w rest) := by
    simp only [Pcb.grabFrame, Memphy.getFreefp, hm]
    exact c.swapOutPage_evicts hf hs
  have hpgn : pagingPgn v.vmEnd = 0 := by
    rw [hend]
    decide
  have hb : v.vmEnd + 1 * 256 < 2 ^ 31 := by
    rw [hend]
    decide
  obtain ⟨l, _, he, _⟩ := h.alloc_page hfree hb hg 0 (i := 0) (by decide)
  refine ⟨_, he, ?_, ?_, ?_⟩
  · simp only [Pcb.placed, extended_one, hpgn]
    rfl
  · simp only [Pcb.placed, Pcb.extended, Pcb.evicted, swapCpPage_fst_freeFpList, hm]
  · simp only [Pcb.placed, Pcb.extended, Pcb.evicted, Function.update_self,
      swapCpPage_snd_freeFpList]

end Wrapped

namespace Kernel

theorem exists_rolled_two (memswpsz : ℕ → ℤ) : ∃ ops s mm v,
    Run Next (boot 512 memswpsz : Kernel Unit) ops s ∧ s.mm () = some mm ∧
      Rolled (framesOf (memswpsz 0)) 2 (s.caller mm) v := by
  obtain ⟨s, hrun, hp, hf⟩ := created_filled 512 memswpsz ()
  have hnr : framesOf 512 = 2 := by decide
  rw [hnr] at hf
  obtain ⟨hg, hgr⟩ := hf.grabs_free (by decide)
  obtain ⟨l, he, hf1⟩ := hf.alloc (by decide) hg hgr 1 (i := 1) (by decide)
  obtain ⟨hg1, hgr1⟩ := hf1.grabs_free (by decide)
  obtain ⟨l', he', hf2⟩ := hf1.alloc (by decide) hg1 hgr1 0 (i := 0) (by decide)
  refine ⟨_, _, _, _, .snoc (.snoc hrun (next_exec hp he)) (next_exec (commit_mm_self _ _ _) he'),
    commit_mm_self _ _ _, hf2, le_rfl, ?_, ?_, Or.inl rfl⟩
  · simp only [caller, Pcb.placed, Pcb.taken, extended_one]
    rfl
  · simp only [caller, Pcb.placed, Pcb.taken, extended_symrgtbl]
    rw [Function.update_of_ne (by decide), Function.update_self]

theorem exists_rolled (memswpsz : ℕ → ℤ) {n : ℕ} (htwo : 2 ≤ n) (hn : n ≤ 2 + framesOf (memswpsz 0))
    (hb : n ≤ pagingMaxPgn) : ∃ ops s mm v,
    Run Next (boot 512 memswpsz : Kernel Unit) ops s ∧ s.mm () = some mm ∧
      Rolled (framesOf (memswpsz 0)) n (s.caller mm) v := by
  induction n, htwo using Nat.le_induction with
  | base => exact exists_rolled_two memswpsz
  | succ n _ ih =>
    obtain ⟨ops, s, mm, v, hrun, hp, h⟩ := ih (by omega) (by omega)
    obtain ⟨c', v', he, h'⟩ := h.alloc (by omega) (by omega)
    exact ⟨_, _, _, v', .snoc hrun (next_exec hp he), commit_mm_self _ _ _, h'⟩

theorem not_exactGrowth_of_wrapped {s : Kernel Unit} {mm : Mm} (hf : mm.fifoPgn = [0, 0])
    (hm : s.mram.freeFpList = []) (hs : 2 ≤ (s.mswp activeMswpId).freeFpList.length) :
    ¬ s.ExactGrowth () mm 2 := by
  intro h
  have hzero : (s.caller mm).allocPagesCode (2 : ℕ) = 0 := by
    rw [h.succeeds, hf, hm]
    simp only [List.length_nil, List.length_cons]
    omega
  rcases ha : (s.caller mm).allocPagesRange (2 : ℕ) with ⟨_ | fs, c⟩
  · rw [Pcb.allocPagesCode, ha] at hzero
    cases hzero
  · have hcard := h.moved fs c ha
    rw [hm] at hcard
    have hsub : mm.movedOut c.mm ⊆ {0} := by
      intro k hk
      rw [Mm.movedOut, Finset.mem_filter] at hk
      rw [Finset.mem_singleton]
      by_contra hne
      have hkeep : (Pcb.allocPagesLoop 2 [] (s.caller mm)).2.mm.pgd k = mm.pgd k := by
        apply allocPagesLoop_pgd_of_notMem
        simp only [caller, hf, List.mem_cons, List.not_mem_nil, or_false, or_self]
        exact hne
      have he : Pcb.allocPagesLoop 2 [] (s.caller mm) = (some fs, c) := ha
      rw [he] at hkeep
      rw [hkeep] at hk
      exact hk.2.1.2 hk.2.2.2
    have hle := Finset.card_le_card hsub
    rw [Finset.card_singleton, hcard] at hle
    exact absurd hle (by decide)

/-- Two frames of RAM and 16 MB of swap. The process fills its 4 MB, reads its first byte
and allocates one more page. Then its list names page 0 twice, and two frames cost it
only one page. -/
theorem exactGrowth_wrapped :
    AcceptedMemory 512 (fun _ => 0x1000000) ∧ framesOf 512 ≤ 8192 ∧ framesOf 0x1000000 ≤ 2 ^ 21 ∧
      ∃ ops s mm, Run Next (boot 512 fun _ => 0x1000000 : Kernel Unit) ops s ∧
        s.mm () = some mm ∧ ¬ s.ExactGrowth () mm 2 := by
  have hns : framesOf 0x1000000 = 65536 := by decide
  have hmax : pagingMaxPgn = 16384 := rfl
  refine ⟨⟨by decide, by decide, by decide, by decide, by decide⟩, by decide, by decide, ?_⟩
  obtain ⟨ops, s, mm, v, hrun, hp, h⟩ := exists_rolled (fun _ => 0x1000000) (n := pagingMaxPgn)
    (by decide) (by rw [hns, hmax]; decide) le_rfl
  obtain ⟨o, c, he, hsp, hend, hfree, hf, hm, hlen⟩ := h.read (by rw [hns, hmax]; decide)
  rw [hns, hmax] at hlen
  rcases hs : (c.mswp activeMswpId).freeFpList with _ | ⟨w, rest⟩
  · rw [hs, List.length_nil] at hlen
    omega
  · rw [hs, List.length_cons] at hlen
    obtain ⟨c', he', hf', hm', hs'⟩ := hsp.alloc_wrapped hend hfree hf hm hs
    refine ⟨_, _, c'.mm,
      .snoc (.snoc hrun (next_exec hp he)) (next_exec (commit_mm_self _ _ _) he'),
      commit_mm_self _ _ _, not_exactGrowth_of_wrapped hf' hm' ?_⟩
    rw [show (_ : Kernel Unit).mswp activeMswpId = c'.mswp activeMswpId from rfl, hs']
    omega

end Kernel
end OSsim
