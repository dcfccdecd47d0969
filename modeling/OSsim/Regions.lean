import OSsim.Calls
import OSsim.Lib.Accounting
import OSsim.Lib.Run

/-!
# Accounting for virtual addresses

Every address below the end of the area is counted once for each symbol and each
free region that contains it. An instruction moves the count by what it grows and
by what it drops: a successful ALLOC drops the region its symbol held before. Hence
the count never exceeds one, which is disjointness, and it stays at one exactly as
long as no ALLOC is served for a symbol that still holds a region.
-/

open scoped BigOperators
namespace OSsim
open Interval

def Mm.addressCount (mm : Mm) (v : VmArea) (a : ℕ) : ℕ :=
  regionCover v.vmFreergList a + ∑ i, (mm.symrgtbl i).ind a

theorem Mm.addressCount_congr {mm mm' : Mm} {v : VmArea} {a : ℕ}
    (hs : mm'.symrgtbl = mm.symrgtbl) : mm'.addressCount v a = mm.addressCount v a := by
  simp only [Mm.addressCount, hs]

/-- What a successful ALLOC drops: the old region of the symbol it fills. -/
def Mm.dropped (mm : Mm) (a : ℕ) : Instr → Outcome → ℕ
  | .alloc _ regIndex, .done => (symIndex regIndex.toInt).elim 0 fun i => (mm.symrgtbl i).ind a
  | _, _ => 0

section
variable {c c' : Pcb} {v : VmArea} {i : Instr} {o : Outcome}

theorem pgGetpage_space (c : Pcb) (k : ℕ) :
    (c.pgGetpage k).2.mm.mmap = c.mm.mmap ∧ (c.pgGetpage k).2.mm.symrgtbl = c.mm.symrgtbl := by
  have hf := c.pgGetpage_cases k
  generalize (c.pgGetpage k).1 = r, (c.pgGetpage k).2 = c1 at hf ⊢
  cases hf with
  | unmapped => exact ⟨rfl, rfl⟩
  | resident => exact ⟨rfl, rfl⟩
  | stuck _ _ hst => exact ⟨hst.shuffles.mmap, hst.shuffles.symrgtbl⟩
  | loaded _ _ hgr =>
    cases hgr with
    | free => exact ⟨rfl, rfl⟩
    | evict => exact ⟨rfl, rfl⟩

theorem pgGetval_space (c : Pcb) (addr : ℤ) :
    (c.pgGetval addr).2.mm.mmap = c.mm.mmap ∧
      (c.pgGetval addr).2.mm.symrgtbl = c.mm.symrgtbl := by
  have hs := pgGetpage_space c (pagingPgn addr)
  rcases hr : c.pgGetpage (pagingPgn addr) with ⟨_ | f, c1⟩
  · simpa only [Pcb.pgGetval, hr] using hs
  · simpa only [Pcb.pgGetval, hr] using hs

theorem pgSetval_space (c : Pcb) (addr : ℤ) (value : Byte) :
    (c.pgSetval addr value).2.mm.mmap = c.mm.mmap ∧
      (c.pgSetval addr value).2.mm.symrgtbl = c.mm.symrgtbl := by
  have hs := pgGetpage_space c (pagingPgn addr)
  rcases hr : c.pgGetpage (pagingPgn addr) with ⟨_ | f, c1⟩
  · simpa only [Pcb.pgSetval, hr] using hs
  · simpa only [Pcb.pgSetval, hr] using hs

theorem sum_symrgtbl_update (sym : Fin pagingMaxSymtblSz → VmRg) (i : Fin pagingMaxSymtblSz)
    (rg : VmRg) (a : ℕ) :
    ∑ j, (Function.update sym i rg j).ind a + (sym i).ind a = ∑ j, (sym j).ind a + rg.ind a :=
  Accounting.sum_update Finset.univ (fun r : VmRg => r.ind a) sym (Finset.mem_univ i) rg

namespace Space
variable (h : Space c.mm v)
include h

theorem addressCount_placed {size : ℤ} (h₀ : 0 < size) (h₁ : size < 2 ^ 31) {rg : VmRg}
    {l : List VmRg} (hf : firstFit size v.vmFreergList = some (rg, l))
    (j : Fin pagingMaxSymtblSz) (a : ℕ) :
    (c.placed v j rg l).mm.addressCount { v with vmFreergList := l } a +
      (c.mm.symrgtbl j).ind a = c.mm.addressCount v a := by
  obtain ⟨_, _, _, hc⟩ := firstFit_spec h₀ h₁ h.freeWf hf
  have hca := hc a
  have hu := sum_symrgtbl_update c.mm.symrgtbl j rg a
  simp only [Mm.addressCount, Pcb.placed]
  omega

theorem addressCount_extended (n : ℕ) (fs : List ℕ) (a : ℕ) :
    (c.extended v n fs).mm.addressCount (v.grown n) a =
      c.mm.addressCount v a + ind v.vmEnd (v.vmEnd + n * 256) a := by
  simp only [Mm.addressCount, extended_symrgtbl, VmArea.grown, enlistFreerg_cover h.freeWf]
  simp only [VmRg.ind]
  omega

theorem addressCount_freed (j : Fin pagingMaxSymtblSz) (a : ℕ) :
    (c.freed v j).mm.addressCount
        { v with vmFreergList := enlistFreerg v.vmFreergList (c.mm.symrgtbl j) } a =
      c.mm.addressCount v a := by
  have hu := sum_symrgtbl_update c.mm.symrgtbl j ⟨0, 0⟩ a
  have hz : (⟨0, 0⟩ : VmRg).ind a = 0 := ind_empty le_rfl a
  simp only [Mm.addressCount, Pcb.freed, enlistFreerg_cover h.freeWf]
  omega

end Space

theorem Pcb.Effect.accounts (h : Space c.mm v) (he : Pcb.Effect c v i o c') :
    ∃ v', Space c'.mm v' ∧ v.vmEnd ≤ v'.vmEnd ∧ ∀ a,
      c'.mm.addressCount v' a + c.mm.dropped a i o =
        c.mm.addressCount v a + ind v.vmEnd v'.vmEnd a := by
  have hstay : ∀ a, ind v.vmEnd v.vmEnd a = 0 := fun a => ind_empty le_rfl a
  -- calls that keep areas and symbols keep the account
  have hsame : ∀ c1 : Pcb, c1.mm.mmap = c.mm.mmap → c1.mm.symrgtbl = c.mm.symrgtbl →
      Space c1.mm v ∧ v.vmEnd ≤ v.vmEnd ∧ ∀ a, c1.mm.addressCount v a + 0 =
        c.mm.addressCount v a + ind v.vmEnd v.vmEnd a := by
    intro c1 hm hs
    refine ⟨h.of_mm hm hs, le_rfl, fun a => ?_⟩
    rw [hstay, Mm.addressCount_congr hs]
  cases he with
  | refused => exact ⟨v, by cases i <;> exact hsame c rfl rfl⟩
  | outOfFrames _ _ ha =>
    obtain ⟨hm, hs⟩ := allocPagesRange_space ha
    exact ⟨v, by cases i <;> exact hsame c' hm hs⟩
  | @placed size _ j rg l hi hpos hf =>
    have hlt : size.toInt < 2 ^ 31 := BitVec.toInt_lt
    refine ⟨{ v with vmFreergList := l }, h.placed hpos hlt hf j, le_rfl, fun a => ?_⟩
    simp only [Mm.dropped, hi, Option.elim_some]
    rw [h.addressCount_placed hpos hlt hf, hstay, Nat.add_zero]
  | @allocGrown size _ j fs c1 rg l hi hpos _ hr ha hf =>
    have hlt : size.toInt < 2 ^ 31 := BitVec.toInt_lt
    have hs := (allocPagesRange_space ha).2
    have h1 := h.allocPages_space ha
    have h2 : Space (c1.extended v (growPages size.toInt) fs).mm (v.grown (growPages size.toInt)) :=
      h1.grown ((growthInRange_iff hr.1).mp hr) fs
    refine ⟨_, h2.placed hpos hlt hf j, Nat.le_add_right _ _, fun a => ?_⟩
    have hp := h2.addressCount_placed hpos hlt hf j a
    rw [h1.addressCount_extended, extended_symrgtbl, hs, Mm.addressCount_congr hs] at hp
    simp only [Mm.dropped, hi, Option.elim_some]
    exact hp
  | @grown _ incSz fs c1 _ hr ha =>
    have h1 := h.allocPages_space ha
    refine ⟨_, h1.grown ((growthInRange_iff hr.1).mp hr) fs, Nat.le_add_right _ _, fun a => ?_⟩
    rw [h1.addressCount_extended, Mm.addressCount_congr (allocPagesRange_space ha).2,
      show c.mm.dropped a (.grow _ _) .done = 0 from rfl, Nat.add_zero]
    rfl
  | freed hi hne =>
    refine ⟨_, h.freed _, le_rfl, fun a => ?_⟩
    rw [h.addressCount_freed, hstay, show c.mm.dropped a (.free _) .done = 0 from rfl]
  | @reads _ _ va _ =>
    have hs := pgGetval_space c va
    exact ⟨v, hsame _ hs.1 hs.2⟩
  | @writes data _ _ va _ =>
    have hs := pgSetval_space c va data
    exact ⟨v, hsame _ hs.1 hs.2⟩

theorem Pcb.Effect.alloc_done {size regIndex : BitVec 32} (h : Space c.mm v)
    (he : Pcb.Effect c v (.alloc size regIndex) .done c') :
    ∃ i rg, symIndex regIndex.toInt = some i ∧ 0 < size.toInt ∧
      c'.mm.symrgtbl = Function.update c.mm.symrgtbl i rg ∧
      (rg.rgEnd : ℤ) = rg.rgStart + size.toInt ∧
      ∀ a, rg.rgStart ≤ a → a < rg.rgEnd →
        (∃ r ∈ v.vmFreergList, r.rgStart ≤ a ∧ a < r.rgEnd) ∨ v.vmEnd ≤ a := by
  have hlt : size.toInt < 2 ^ 31 := BitVec.toInt_lt
  generalize hinst : Instr.alloc size regIndex = inst at he
  generalize hout : Outcome.done = out at he
  cases he with
  | refused => cases hout
  | outOfFrames => cases hout
  | grown => cases hinst
  | freed => cases hinst
  | reads => cases hinst
  | writes => cases hinst
  | @placed _ _ i rg l hi hpos hf =>
    cases hinst
    obtain ⟨hlen, _, _, hc⟩ := firstFit_spec hpos hlt h.freeWf hf
    refine ⟨i, rg, hi, hpos, rfl, by omega, fun a h1 h2 => Or.inl (regionCover_pos.mp ?_)⟩
    have hrg : 0 < rg.ind a := ind_pos.mpr ⟨h1, h2⟩
    have hca := hc a
    omega
  | @allocGrown _ _ i fs c1 rg l hi hpos _ hr ha hf =>
    cases hinst
    have h1 := h.allocPages_space ha
    have h2 := h1.grown ((growthInRange_iff hr.1).mp hr) fs
    obtain ⟨hlen, _, _, hc⟩ := firstFit_spec hpos hlt h2.freeWf hf
    refine ⟨i, rg, hi, hpos, ?_, by omega, fun a ha1 ha2 => ?_⟩
    · rw [← (allocPagesRange_space ha).2, ← extended_symrgtbl c1 v (growPages size.toInt) fs]
      rfl
    · by_cases hold : v.vmEnd ≤ a
      · exact Or.inr hold
      · left
        apply regionCover_pos.mp
        have hrg : 0 < rg.ind a := ind_pos.mpr ⟨ha1, ha2⟩
        have hca := hc a
        have hnew : (⟨v.vmEnd, v.vmEnd + growPages size.toInt * 256⟩ : VmRg).ind a = 0 :=
          ind_eq_zero.mpr fun hx => hold hx.1
        rw [VmArea.grown, enlistFreerg_cover h.freeWf, hnew] at hca
        omega

end
end OSsim
