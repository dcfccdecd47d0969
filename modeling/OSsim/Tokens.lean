import OSsim.Calls
import OSsim.Lib.Accounting

/-!
# Frames as tokens

A token is a free frame of RAM or of the active swap device. Mapping a page costs
one token, whether its frame was free or had to be emptied first, and nothing else
costs any: a page that comes back from swap gives up its swap frame, and a failed
allocation returns what it took. Hence tokens and mapped pages add up to the size of
the devices, which bounds every address space. None of this looks at the frame
numbers stored in page table entries.
-/

open scoped BigOperators
namespace OSsim

structure Tidy (mm : Mm) : Prop where
  fifoPresent : ∀ k ∈ mm.fifoPgn, pagingPagePresent (mm.pgd k)
  swpTyp : ∀ k, Swapped (mm.pgd k) → pagingPteSwptyp (mm.pgd k) = activeMswpId

/-- The pages of `[0, vm_end)`, and no others, are mapped. -/
structure Paged (mm : Mm) (v : VmArea) : Prop where
  tidy : Tidy mm
  present : ∀ k, pagingPagePresent (mm.pgd k) ↔ k < v.vmEnd / 256
  limit : v.vmEnd ≤ pagingMaxPgn * pagingPagesz

section
variable {c c' : Pcb} {f k : ℕ}

theorem Tidy.stuck (h : Tidy c.mm) (hs : Pcb.Stuck c c') : Tidy c'.mm := by
  refine ⟨hs.fifoPresent h.fifoPresent, ?_⟩
  cases hs with
  | noVictim => exact h.swpTyp
  | swapFull => exact h.swpTyp

theorem Tidy.grabbed (h : Tidy c.mm) (hg : Pcb.Grabbed c f c') : Tidy c'.mm := by
  refine ⟨hg.fifoPresent h.fifoPresent, ?_⟩
  cases hg with
  | free => exact h.swpTyp
  | @evict l rest v w _ hf _ =>
    intro k hk
    simp only [Pcb.evicted] at hk ⊢
    by_cases hkv : k = v
    · subst hkv
      rw [Function.update_self]
      exact pagingPteSwptyp_pteSetSwap (by decide) _ _
    · rw [Function.update_of_ne hkv] at hk ⊢
      exact h.swpTyp k hk

theorem Tidy.mapPage {mm : Mm} (h : Tidy mm) (k f : ℕ) : Tidy (mm.mapPage k f) := by
  refine ⟨?_, ?_⟩
  · intro j hj
    rw [mapPage_present]
    rcases List.mem_cons.mp hj with rfl | hj
    · exact Or.inr rfl
    · exact Or.inl (h.fifoPresent j hj)
  · intro j hj
    simp only [Mm.mapPage, Mm.setPte, Mm.enlistPgnNode] at hj ⊢
    by_cases hjk : j = k
    · subst hjk
      simp at hj
    · rw [Function.update_of_ne hjk] at hj ⊢
      exact h.swpTyp j hj

theorem Tidy.vmapLoop {mm : Mm} (h : Tidy mm) (pgn : ℕ) (pgnum : ℤ) (pgit : ℕ) (fs : List ℕ) :
    Tidy (vmapLoop pgn pgnum pgit fs mm) := by
  induction fs generalizing pgit mm with
  | nil => exact h
  | cons f fs ih =>
    rw [OSsim.vmapLoop]
    split_ifs
    · exact ih (h.mapPage _ f) _
    · exact h

theorem Tidy.allocPagesLoop (n : ℕ) (l : List ℕ) (h : Tidy c.mm) :
    ∃ r c', Pcb.allocPagesLoop n l c = (r, c') ∧ Tidy c'.mm ∧ Pcb.Shuffles c c' ∧
      (r = none → c'.tokens = c.tokens + l.length) ∧
      ∀ fs, r = some fs → fs.length = l.length + n ∧ c'.tokens + n = c.tokens := by
  induction n generalizing c l with
  | zero =>
    refine ⟨some l, c, rfl, h, Pcb.Shuffles.refl c, by simp, ?_⟩
    intro _ hcase
    cases hcase
    exact ⟨rfl, rfl⟩
  | succ n ih =>
    rcases c.grabFrame_cases with ⟨c1, hg, hst⟩ | ⟨f, c1, hg, hgr⟩
    · have hsh := hst.shuffles
      have h1 := h.stuck hst
      refine ⟨none, { c1 with mram := l.foldl Memphy.putFreefp c1.mram }, ?_, h1,
        ⟨hsh.mmap, hsh.symrgtbl, hsh.present⟩, ?_, by simp⟩
      · simp only [Pcb.allocPagesLoop, hg]
      · intro _
        rw [← hst.tokens, foldl_putFreefp]
        simp only [Pcb.tokens, List.length_append, List.length_reverse]
        omega
    · have ht := hgr.tokens
      obtain ⟨r, c2, he, h2, hsh, hn, hs⟩ := ih (f :: l) (h.grabbed hgr)
      refine ⟨r, c2, by simp only [Pcb.allocPagesLoop, hg]; exact he, h2,
        (hgr.shuffles h.fifoPresent).trans hsh, ?_, ?_⟩
      · intro hr
        rw [hn hr, List.length_cons]
        omega
      · intro fs hfs
        obtain ⟨h1, h2⟩ := hs fs hfs
        rw [List.length_cons] at h1
        omega

theorem Tidy.swappedIn {pte : Pte} (h : Tidy c.mm) (ht : pagingPteSwptyp pte = activeMswpId) :
    Tidy (c.swappedIn pte k f).mm ∧ (c.swappedIn pte k f).tokens = c.tokens + 1 := by
  refine ⟨h.mapPage k f, ?_⟩
  simp only [Pcb.tokens, Pcb.swappedIn, ht, Function.update_self, Memphy.putFreefp,
    swapCpPage_snd_freeFpList, swapCpPage_fst_freeFpList, List.length_cons]
  omega

theorem Tidy.fault {r : Option ℕ} (h : Tidy c.mm) (hf : Pcb.Fault c k r c') :
    Tidy c'.mm ∧ Pcb.Shuffles c c' ∧ c'.tokens = c.tokens := by
  cases hf with
  | unmapped => exact ⟨h, Pcb.Shuffles.refl c, rfl⟩
  | resident => exact ⟨h, Pcb.Shuffles.refl c, rfl⟩
  | stuck _ _ hst => exact ⟨h.stuck hst, hst.shuffles, hst.tokens⟩
  | @loaded c1 f _ hsw hgr =>
    have hg := hgr.tokens
    have hsh := hgr.shuffles h.fifoPresent
    obtain ⟨h1, ht⟩ := (h.grabbed hgr).swappedIn (k := k) (f := f) (h.swpTyp k hsw)
    refine ⟨h1, ⟨hsh.mmap, hsh.symrgtbl, fun j => ?_⟩, by omega⟩
    have hm : pagingPagePresent ((c1.swappedIn (c.mm.pgd k) k f).mm.pgd j) ↔
        pagingPagePresent (c1.mm.pgd j) ∨ j = k := mapPage_present c1.mm k f j
    rw [hm, hsh.present j]
    constructor
    · intro hor
      rcases hor with hj | rfl
      · exact hj
      · exact hsw.1
    · exact Or.inl

theorem Tidy.pgGetval (h : Tidy c.mm) (addr : ℤ) :
    Tidy (c.pgGetval addr).2.mm ∧ Pcb.Shuffles c (c.pgGetval addr).2 ∧
      (c.pgGetval addr).2.tokens = c.tokens := by
  have hf := h.fault (c.pgGetpage_cases (pagingPgn addr))
  rcases hr : c.pgGetpage (pagingPgn addr) with ⟨_ | x, c1⟩
  · simp only [hr] at hf
    simp only [Pcb.pgGetval, hr]
    exact hf
  · simp only [hr] at hf
    simp only [Pcb.pgGetval, hr]
    obtain ⟨h1, hs, ht⟩ := hf
    refine ⟨h1, ⟨hs.mmap, hs.symrgtbl, hs.present⟩, ?_⟩
    rw [← ht, Pcb.tokens, Memphy.read_freeFpList]
    rfl

theorem Tidy.pgSetval (h : Tidy c.mm) (addr : ℤ) (value : Byte) :
    Tidy (c.pgSetval addr value).2.mm ∧ Pcb.Shuffles c (c.pgSetval addr value).2 ∧
      (c.pgSetval addr value).2.tokens = c.tokens := by
  have hf := h.fault (c.pgGetpage_cases (pagingPgn addr))
  rcases hr : c.pgGetpage (pagingPgn addr) with ⟨_ | x, c1⟩
  · simp only [hr] at hf
    simp only [Pcb.pgSetval, hr]
    exact hf
  · simp only [hr] at hf
    simp only [Pcb.pgSetval, hr]
    obtain ⟨h1, hs, ht⟩ := hf
    refine ⟨h1, ⟨hs.mmap, hs.symrgtbl, hs.present⟩, ?_⟩
    rw [← ht, Pcb.tokens, Memphy.write_freeFpList]
    rfl

theorem Tidy.allocPagesRange {n : ℕ} {r : Option (List ℕ)} (h : Tidy c.mm)
    (ha : c.allocPagesRange n = (r, c')) :
    Tidy c'.mm ∧ Pcb.Shuffles c c' ∧ (r = none → c'.tokens = c.tokens) ∧
      ∀ fs, r = some fs → fs.length = n ∧ c'.tokens + n = c.tokens := by
  obtain ⟨r', c1, he, h1, hs, hn, hsome⟩ := h.allocPagesLoop n []
  rw [Pcb.allocPagesRange, Int.toNat_natCast, he, Prod.mk.injEq] at ha
  obtain ⟨rfl, rfl⟩ := ha
  refine ⟨h1, hs, hn, fun fs hfs => ?_⟩
  obtain ⟨hl, ht⟩ := hsome fs hfs
  rw [List.length_nil, Nat.zero_add] at hl
  exact ⟨hl, ht⟩

section Paged
variable {v v' : VmArea} {i : Instr} {o : Outcome}

theorem Paged.shuffles (h : Paged c.mm v) (ht : Tidy c'.mm) (hs : Pcb.Shuffles c c') :
    Paged c'.mm v :=
  ⟨ht, fun k => (hs.present k).trans (h.present k), h.limit⟩

theorem Paged.extended {n : ℕ} {fs : List ℕ} (h : Paged c.mm v) (hd : 256 ∣ v.vmEnd) (hn : 0 < n)
    (hlim : v.vmEnd + n * 256 ≤ pagingMaxPgn * pagingPagesz)
    (ha : c.allocPagesRange n = (some fs, c')) :
    Paged (c'.extended v n fs).mm (v.grown n) ∧ (c'.extended v n fs).tokens + n = c.tokens := by
  obtain ⟨h1, hs, _, hsome⟩ := h.tidy.allocPagesRange ha
  obtain ⟨hlen, htok⟩ := hsome fs rfl
  have hlt : v.vmEnd < 2 ^ 22 := by
    simp only [pagingMaxPgn, pagingPagesz] at hlim
    omega
  have ht := h1.vmapLoop (pagingPgn v.vmEnd) n 0 fs
  refine ⟨⟨⟨ht.fifoPresent, ht.swpTyp⟩, fun k => ?_, hlim⟩, htok⟩
  have hv := vmapLoop_present (pagingPgn v.vmEnd) (show ((0 + fs.length : ℕ) : ℤ) ≤ n by omega)
    c'.mm k
  refine Iff.trans hv ?_
  rw [hs.present, h.present, pagingPgn_of_lt hlt, hlen]
  simp only [VmArea.grown]
  omega

theorem Pcb.Effect.paged (h : Space c.mm v) (hp : Paged c.mm v) (he : Pcb.Effect c v i o c')
    (hs : Space c'.mm v') (hlim : v'.vmEnd ≤ pagingMaxPgn * pagingPagesz) :
    Paged c'.mm v' ∧ c'.tokens + v'.vmEnd / 256 = c.tokens + v.vmEnd / 256 := by
  have hsame : ∀ c1 : Pcb, Space c1.mm v' → Tidy c1.mm → Pcb.Shuffles c c1 →
      c1.tokens = c.tokens →
        Paged c1.mm v' ∧ c1.tokens + v'.vmEnd / 256 = c.tokens + v.vmEnd / 256 := by
    intro c1 hs1 ht hsh htok
    have hv : v' = v := List.singleton_inj.mp (hs1.mmap.symm.trans (hsh.mmap.trans h.mmap))
    subst hv
    exact ⟨hp.shuffles ht hsh, by rw [htok]⟩
  cases he with
  | refused => exact hsame c hs hp.tidy (Pcb.Shuffles.refl c) rfl
  | outOfFrames _ _ ha =>
    obtain ⟨h1, hsh, hn, _⟩ := hp.tidy.allocPagesRange ha
    exact hsame c' hs h1 hsh (hn rfl)
  | @placed size _ j rg l hi hpos hf =>
    obtain rfl : { v with vmFreergList := l } = v' := List.singleton_inj.mp hs.mmap
    exact ⟨⟨⟨hp.tidy.fifoPresent, hp.tidy.swpTyp⟩, hp.present, hlim⟩, rfl⟩
  | @allocGrown size _ j fs c1 rg l hi hpos _ hr ha hf =>
    obtain rfl : { v.grown (growPages size.toInt) with vmFreergList := l } = v' :=
      List.singleton_inj.mp hs.mmap
    obtain ⟨h1, ht⟩ := hp.extended h.aligned (growPages_mul hr.1).1 hlim ha
    refine ⟨⟨⟨h1.tidy.fifoPresent, h1.tidy.swpTyp⟩, h1.present, hlim⟩, ?_⟩
    rw [← ht]
    simp only [VmArea.grown, Pcb.placed, Pcb.tokens]
    omega
  | @grown _ incSz fs c1 _ hr ha =>
    obtain rfl : v.grown (growPages incSz.toInt) = v' := List.singleton_inj.mp hs.mmap
    obtain ⟨h1, ht⟩ := hp.extended h.aligned (growPages_mul hr.1).1 hlim ha
    refine ⟨h1, ?_⟩
    rw [← ht]
    simp only [VmArea.grown]
    omega
  | @freed _ j hi hne =>
    obtain rfl : { v with vmFreergList := enlistFreerg v.vmFreergList (c.mm.symrgtbl j) } = v' :=
      List.singleton_inj.mp hs.mmap
    exact ⟨⟨⟨hp.tidy.fifoPresent, hp.tidy.swpTyp⟩, hp.present, hlim⟩, rfl⟩
  | @reads _ _ va _ =>
    obtain ⟨h1, hsh, ht⟩ := hp.tidy.pgGetval va
    exact hsame _ hs h1 hsh ht
  | @writes data _ _ va _ =>
    obtain ⟨h1, hsh, ht⟩ := hp.tidy.pgSetval va data
    exact hsame _ hs h1 hsh ht

end Paged
end
end OSsim
