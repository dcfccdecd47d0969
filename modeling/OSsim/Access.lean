import OSsim.Conservation

/-!
# When an access inside a region succeeds

Bringing a swapped page back needs a frame of RAM first, and its own swap frame is
returned only after the copy. The exact condition under which READ and WRITE of an
allocated byte succeed follows from what a fault can do.
-/

namespace OSsim

namespace Pcb
variable {c c' : Pcb} {k va : ℕ} {r : Option ℕ}

theorem supply_pos : 0 < c.supply ↔ c.mram.freeFpList ≠ [] ∨
    (c.mm.fifoPgn ≠ [] ∧ (c.mswp activeMswpId).freeFpList ≠ []) := by
  have hl : ∀ l : List ℕ, l ≠ [] ↔ 0 < l.length := fun l => List.length_pos_iff.symm
  rw [hl, hl, hl, supply]
  omega

theorem Fault.isSome_iff (hf : Fault c k r c') (hk : k < pagingMaxPgn)
    (hp : pagingPagePresent (c.mm.pgd k)) :
    r.isSome ↔ Resident (c.mm.pgd k) ∨ 0 < c.supply := by
  cases hf with
  | unmapped hno =>
    rcases hno with hno | hno
    · omega
    · exact absurd hp hno
  | resident _ hr => simp [hr]
  | stuck _ hsw hst =>
    have hs := hst.supply
    have hr : ¬ Resident (c.mm.pgd k) := fun hr => hr.2 hsw.2
    simp [hs, hr]
  | loaded _ _ hgr =>
    have hs := hgr.supply
    simp only [Option.isSome_some, true_iff]
    exact Or.inr (by omega)

theorem Accesses.unique {rgid offset : ℤ} {va va' : ℕ} (h : c.Accesses rgid offset va)
    (h' : c.Accesses rgid offset va') : va = va' := by
  obtain ⟨i, hi, _, hva, _⟩ := h
  obtain ⟨j, hj, _, hva', _⟩ := h'
  rw [hi, Option.some.injEq] at hj
  subst hj
  rw [hva, hva']

theorem pgGetval_isSome (addr : ℤ) :
    (c.pgGetval addr).1.isSome ↔ (c.pgGetpage (pagingPgn addr)).1.isSome := by
  rcases hr : c.pgGetpage (pagingPgn addr) with ⟨_ | f, c1⟩
  · simp [pgGetval, hr]
  · simp [pgGetval, hr]

theorem pgSetval_isSome (addr : ℤ) (value : Byte) :
    (c.pgSetval addr value).1 = true ↔ (c.pgGetpage (pagingPgn addr)).1.isSome := by
  rcases hr : c.pgGetpage (pagingPgn addr) with ⟨_ | f, c1⟩
  · simp [pgSetval, hr]
  · simp [pgSetval, hr]

end Pcb

section
variable {c : Pcb} {v : VmArea} {rgid offset : BitVec 32} {va : ℕ}

theorem Space.exec_read (h : Space c.mm v) (ha : c.Accesses rgid.toInt offset.toInt va) :
    c.exec (.read rgid offset) =
      ((c.pgGetval va).1.elim .failed .byte, (c.pgGetval va).2) := by
  have he := h.exec_cases (.read rgid offset)
  rw [← Prod.mk.eta (p := c.exec (.read rgid offset))]
  generalize (c.exec (.read rgid offset)).1 = o, (c.exec (.read rgid offset)).2 = c' at he ⊢
  cases he with
  | refused hr => exact absurd ha (hr va)
  | outOfFrames hw => exact hw.elim
  | reads ha' => rw [ha.unique ha']

theorem Space.exec_write (h : Space c.mm v) (ha : c.Accesses rgid.toInt offset.toInt va)
    (data : Byte) :
    c.exec (.write data rgid offset) =
      (outcomeOf (c.pgSetval va data).1, (c.pgSetval va data).2) := by
  have he := h.exec_cases (.write data rgid offset)
  rw [← Prod.mk.eta (p := c.exec (.write data rgid offset))]
  generalize (c.exec (.write data rgid offset)).1 = o, (c.exec (.write data rgid offset)).2 = c'
    at he ⊢
  cases he with
  | refused hr => exact absurd ha (hr va)
  | outOfFrames hw => exact hw.elim
  | writes ha' => rw [ha.unique ha']

theorem Space.read_outcome (h : Space c.mm v) (ha : c.Accesses rgid.toInt offset.toInt va) :
    (c.exec (.read rgid offset)).1 ≠ .failed ↔ (c.pgGetpage (pagingPgn va)).1.isSome := by
  rw [h.exec_read ha, ← Pcb.pgGetval_isSome]
  cases (c.pgGetval va).1 <;> simp

theorem Space.write_outcome (h : Space c.mm v) (ha : c.Accesses rgid.toInt offset.toInt va)
    (data : Byte) :
    (c.exec (.write data rgid offset)).1 = .done ↔ (c.pgGetpage (pagingPgn va)).1.isSome := by
  rw [h.exec_write ha data, ← Pcb.pgSetval_isSome va data]
  cases (c.pgSetval va data).1 <;> simp [outcomeOf]

end

namespace Kernel
variable {ι : Type*} [Fintype ι] [DecidableEq ι] {s : Kernel ι} {p : ι} {mm : Mm}
  {memramsz : ℤ} {memswpsz : ℕ → ℤ} {ops : List (Op ι)}

/-- Page `k` is in RAM, or RAM has a free frame, or a page of the process can be
evicted to a free frame of the active swap device. -/
def Loadable (s : Kernel ι) (mm : Mm) (k : ℕ) : Prop :=
  Resident (mm.pgd k) ∨ s.mram.freeFpList ≠ [] ∨
    ((∃ j, Resident (mm.pgd j)) ∧ (s.mswp activeMswpId).freeFpList ≠ [])

section
variable {nr ns : ℕ}

omit [DecidableEq ι] in
theorem Inv.loadable_iff (h : Inv nr ns s) (hp : s.mm p = some mm) (k : ℕ) :
    s.Loadable mm k ↔ Resident (mm.pgd k) ∨ 0 < (s.caller mm).supply := by
  obtain ⟨v, hv⟩ := h.housed p mm hp
  have hfifo : (s.caller mm).mm.fifoPgn ≠ [] ↔ ∃ j, Resident (mm.pgd j) := by
    constructor
    · intro hne
      obtain ⟨j, hj⟩ := List.exists_mem_of_ne_nil _ hne
      exact ⟨j, (hv.fifoMem j).mp hj⟩
    · intro hconj
      obtain ⟨j, hj⟩ := hconj
      exact List.ne_nil_of_mem ((hv.fifoMem j).mpr hj)
  rw [Pcb.supply_pos, hfifo]
  rfl

theorem Inv.fault_isSome_iff (h : Inv nr ns s) (hp : s.mm p = some mm) {rgid offset : ℤ} {va : ℕ}
    (ha : (s.caller mm).Accesses rgid offset va) :
    ((s.caller mm).pgGetpage (pagingPgn va)).1.isSome ↔ s.Loadable mm (va / 256) := by
  obtain ⟨v, hv⟩ := h.housed p mm hp
  have hv' : Housed (s.caller mm).mm v := hv
  obtain ⟨hpgn, _, hpres⟩ := hv'.access_page ha
  have hk := (h.frameInv hp).inTable _ hpres
  rw [hpgn, h.loadable_iff hp]
  exact ((s.caller mm).pgGetpage_cases (va / 256)).isSome_iff hk hpres

end

theorem run_access_succeeds_iff (hram : framesOf memramsz ≤ 8192)
    (hswp : framesOf (memswpsz 0) ≤ 2 ^ 21)
    (hrun : Run NextBounded (boot memramsz memswpsz) ops s) (hp : s.mm p = some mm)
    {rgid offset : BitVec 32} {i : Fin pagingMaxSymtblSz} (hi : symIndex rgid.toInt = some i)
    (h₀ : 0 ≤ offset.toInt)
    (h₁ : (mm.symrgtbl i).rgStart + offset.toInt.toNat < (mm.symrgtbl i).rgEnd) :
    ((s.step (.exec p (.read rgid offset))).1 ≠ .failed ↔
        s.Loadable mm (((mm.symrgtbl i).rgStart + offset.toInt.toNat) / 256)) ∧
      ∀ data, (s.step (.exec p (.write data rgid offset))).1 = .done ↔
        s.Loadable mm (((mm.symrgtbl i).rgStart + offset.toInt.toNat) / 256) := by
  have h := hrun.invariant _ (inv_boot hram hswp) Inv.step
  obtain ⟨v, hv⟩ := h.housed p mm hp
  have hs : Space (s.caller mm).mm v := hv.packed.space
  have ha : (s.caller mm).Accesses rgid.toInt offset.toInt
      ((mm.symrgtbl i).rgStart + offset.toInt.toNat) := ⟨i, hi, h₀, rfl, h₁⟩
  have hfault := h.fault_isSome_iff hp ha
  rw [step_exec hp]
  constructor
  · rw [hs.read_outcome ha]
    exact hfault
  · intro data
    rw [step_exec hp, hs.write_outcome ha]
    exact hfault

theorem run_access_succeeds_resident :
    ∃ s : Kernel Unit, Run NextBounded (boot 256 fun _ => 256)
        [.exec () (.alloc 256 0), .create ()] s ∧
      (s.step (.exec () (.read 0 5))).1 ≠ .failed := by
  have hrun : Run NextBounded (boot 256 fun _ => 256 : Kernel Unit)
      [.exec () (.alloc 256 0), .create ()] _ :=
    .snoc (.snoc .nil ⟨rfl, by decide +kernel⟩) ⟨rfl, by decide +kernel⟩
  generalize hs : (Kernel.step (Kernel.step (boot 256 fun _ => 256) (.create ())).2
    (.exec () (.alloc 256 0))).2 = s at hrun
  have hmm : (s.mm ()).map (fun mm => (mm.symrgtbl 0, decide (Resident (mm.pgd 0)))) =
      some (⟨0, 256⟩, true) := by
    rw [← hs]
    decide +kernel
  obtain ⟨mm, hp, hm⟩ := Option.map_eq_some_iff.mp hmm
  obtain ⟨hsym, hres⟩ := Prod.mk.inj hm
  have hoff : (5 : BitVec 32).toInt = 5 := by decide
  refine ⟨s, hrun, (run_access_succeeds_iff (by decide) (by decide) hrun hp (i := 0) (by decide)
    (by decide) ?_).1.mpr (Or.inl ?_)⟩
  · rw [hsym, hoff]
    decide
  · rw [hsym, hoff]
    exact of_decide_eq_true hres

/-- One frame of RAM and one of swap, both taken by the two pages of one process: the
page in swap can never come back, because its own frame counts as occupied. -/
theorem access_fails_when_full :
    ∃ (s : Kernel Unit) (mm : Mm), Run NextBounded (boot 256 fun _ => 256)
        [.exec () (.alloc 256 1), .exec () (.alloc 256 0), .create ()] s ∧
      s.mm () = some mm ∧ mm.symrgtbl 0 = ⟨0, 256⟩ ∧
      (s.step (.exec () (.read 0 0))).1 = .failed ∧
      (s.step (.exec () (.write 1 0 0))).1 = .failed := by
  have hrun : Run NextBounded (boot 256 fun _ => 256 : Kernel Unit)
      [.exec () (.alloc 256 1), .exec () (.alloc 256 0), .create ()] _ :=
    .snoc (.snoc (.snoc .nil ⟨rfl, by decide +kernel⟩) ⟨rfl, by decide +kernel⟩)
      ⟨rfl, by decide +kernel⟩
  generalize hs : (Kernel.step (Kernel.step (Kernel.step (boot 256 fun _ => 256) (.create ())).2
    (.exec () (.alloc 256 0))).2 (.exec () (.alloc 256 1))).2 = s at hrun
  have hmm : (s.mm ()).map (fun mm => mm.symrgtbl 0) = some ⟨0, 256⟩ := by
    rw [← hs]
    decide +kernel
  obtain ⟨mm, hp, hm⟩ := Option.map_eq_some_iff.mp hmm
  refine ⟨s, mm, hrun, hp, hm, ?_, ?_⟩
  · rw [← hs]
    decide +kernel
  · rw [← hs]
    decide +kernel

end Kernel
end OSsim
