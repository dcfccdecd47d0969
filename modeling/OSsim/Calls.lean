import OSsim.Growth

/-!
# What an instruction can do

The outcomes of one memory instruction on a well-shaped address space, each with the
exact condition under which it occurs and the state it leaves. An instruction is
refused without any effect, runs out of frames after it has moved pages, takes a
region from the free list, grows the area first, returns a region, or accesses one
byte. All invariants of the development are proved along these cases.
-/

namespace OSsim

def Instr.growth : Instr → ℤ
  | .alloc size _ => size.toInt
  | .grow _ incSz => incSz.toInt
  | _ => 0

def VmArea.WantsGrowth (v : VmArea) : Instr → Prop
  | .alloc size regIndex => (symIndex regIndex.toInt).isSome ∧ 0 < size.toInt ∧
      firstFit size.toInt v.vmFreergList = none
  | .grow vmaid _ => toULong vmaid.toInt = 0
  | _ => False

namespace Pcb
variable (c : Pcb) (v : VmArea)

def freed (i : Fin pagingMaxSymtblSz) : Pcb :=
  { c with mm := { c.mm with
      mmap := [{ v with vmFreergList := enlistFreerg v.vmFreergList (c.mm.symrgtbl i) }]
      symrgtbl := Function.update c.mm.symrgtbl i ⟨0, 0⟩ } }

/-- The address an in-region access resolves to. -/
def Accesses (rgid offset : ℤ) (va : ℕ) : Prop :=
  ∃ i, symIndex rgid = some i ∧ 0 ≤ offset ∧
    va = (c.mm.symrgtbl i).rgStart + offset.toNat ∧ va < (c.mm.symrgtbl i).rgEnd

def Refused : Instr → Prop
  | .alloc size regIndex => symIndex regIndex.toInt = none ∨ size.toInt ≤ 0 ∨
      (firstFit size.toInt v.vmFreergList = none ∧ ¬ v.GrowthInRange size.toInt)
  | .free regIndex => ∀ i, symIndex regIndex.toInt = some i →
      (c.mm.symrgtbl i).rgEnd ≤ (c.mm.symrgtbl i).rgStart
  | .read source offset => ∀ va, ¬ c.Accesses source.toInt offset.toInt va
  | .write _ destination offset => ∀ va, ¬ c.Accesses destination.toInt offset.toInt va
  | .grow vmaid incSz => toULong vmaid.toInt ≠ 0 ∨ ¬ v.GrowthInRange incSz.toInt

inductive Effect : Instr → Outcome → Pcb → Prop
  | refused {i : Instr} : c.Refused v i → Effect i .failed c
  | outOfFrames {i : Instr} {c' : Pcb} : v.WantsGrowth i → v.GrowthInRange i.growth →
      c.allocPagesRange (growPages i.growth) = (none, c') → Effect i .failed c'
  | placed {size regIndex : BitVec 32} {i : Fin pagingMaxSymtblSz} {rg : VmRg} {l : List VmRg} :
      symIndex regIndex.toInt = some i → 0 < size.toInt →
      firstFit size.toInt v.vmFreergList = some (rg, l) →
      Effect (.alloc size regIndex) .done (c.placed v i rg l)
  | allocGrown {size regIndex : BitVec 32} {i : Fin pagingMaxSymtblSz} {fs : List ℕ} {c' : Pcb}
      {rg : VmRg} {l : List VmRg} :
      symIndex regIndex.toInt = some i → 0 < size.toInt →
      firstFit size.toInt v.vmFreergList = none → v.GrowthInRange size.toInt →
      c.allocPagesRange (growPages size.toInt) = (some fs, c') →
      firstFit size.toInt (v.grown (growPages size.toInt)).vmFreergList = some (rg, l) →
      Effect (.alloc size regIndex) .done
        ((c'.extended v (growPages size.toInt) fs).placed (v.grown (growPages size.toInt)) i rg l)
  | grown {vmaid incSz : BitVec 32} {fs : List ℕ} {c' : Pcb} :
      toULong vmaid.toInt = 0 → v.GrowthInRange incSz.toInt →
      c.allocPagesRange (growPages incSz.toInt) = (some fs, c') →
      Effect (.grow vmaid incSz) .done (c'.extended v (growPages incSz.toInt) fs)
  | freed {regIndex : BitVec 32} {i : Fin pagingMaxSymtblSz} :
      symIndex regIndex.toInt = some i → (c.mm.symrgtbl i).rgStart < (c.mm.symrgtbl i).rgEnd →
      Effect (.free regIndex) .done (c.freed v i)
  | reads {source offset : BitVec 32} {va : ℕ} : c.Accesses source.toInt offset.toInt va →
      Effect (.read source offset) ((c.pgGetval va).1.elim .failed .byte) (c.pgGetval va).2
  | writes {data : Byte} {destination offset : BitVec 32} {va : ℕ} :
      c.Accesses destination.toInt offset.toInt va →
      Effect (.write data destination offset) (outcomeOf (c.pgSetval va data).1)
        (c.pgSetval va data).2

end Pcb

section
variable {c : Pcb} {v : VmArea}

theorem allocPagesRange_space {n : ℤ} {r : Option (List ℕ)} {c' : Pcb}
    (hr : c.allocPagesRange n = (r, c')) :
    c'.mm.mmap = c.mm.mmap ∧ c'.mm.symrgtbl = c.mm.symrgtbl := by
  have hs := allocPagesLoop_space n.toNat [] c
  have he : Pcb.allocPagesLoop n.toNat [] c = (r, c') := hr
  rw [he] at hs
  exact hs

theorem extended_symrgtbl (c : Pcb) (v : VmArea) (n : ℕ) (fs : List ℕ) :
    (c.extended v n fs).mm.symrgtbl = c.mm.symrgtbl :=
  (vmapLoop_frame (pagingPgn v.vmEnd) n 0 fs c.mm).2

namespace Space
variable (h : Space c.mm v)
include h

theorem allocPages_space {n : ℤ} {r : Option (List ℕ)} {c' : Pcb}
    (hr : c.allocPagesRange n = (r, c')) : Space c'.mm v := by
  obtain ⟨hm, hs⟩ := allocPagesRange_space hr
  exact h.of_mm hm hs

theorem fits_grown {size : ℤ} (h₀ : 0 < size) (h₁ : size < 2 ^ 31)
    (hr : v.GrowthInRange size) :
    (firstFit size (v.grown (growPages size)).vmFreergList).isSome := by
  have hb := (growthInRange_iff hr.1).mp hr
  have hn := growPages_mul hr.1
  have hpos := hr.1
  have hsz := pagingPageAlignsz_eq h₀ h₁
  have hw : ∀ r ∈ (v.grown (growPages size)).vmFreergList, r.Wf := enlistFreerg_wf hb h.freeWf
  rw [firstFit_isSome h₀ h₁ hw]
  have hlt : v.vmEnd < v.vmEnd + growPages size * 256 := by omega
  obtain ⟨r, hm, h1, h2⟩ := enlistFreerg_contains (e := ⟨v.vmEnd, v.vmEnd + growPages size * 256⟩)
    hlt hb h.freeWf
  refine ⟨r, hm, ?_⟩
  dsimp only at h1 h2
  omega

theorem freed (i : Fin pagingMaxSymtblSz) :
    Space (c.freed v i).mm
      { v with vmFreergList := enlistFreerg v.vmFreergList (c.mm.symrgtbl i) } := by
  refine ⟨rfl, h.vmId, h.vmStart, h.sbrk, h.aligned, h.bound,
    enlistFreerg_wf (h.symWf i).2 h.freeWf, ?_⟩
  intro j
  simp only [Pcb.freed]
  by_cases hj : j = i
  · subst hj
    rw [Function.update_self]
    exact ⟨le_rfl, by simp⟩
  · rw [Function.update_of_ne hj]
    exact h.symWf j

theorem alloc_cases (size regIndex : BitVec 32) :
    Pcb.Effect c v (.alloc size regIndex) (c.exec (.alloc size regIndex)).1
      (c.exec (.alloc size regIndex)).2 := by
  have hz : toULong 0 = 0 := rfl
  have hlt : size.toInt < 2 ^ 31 := by
    have := BitVec.toInt_lt (x := size)
    omega
  simp only [Pcb.exec, Pcb.alloc]
  rcases hi : symIndex regIndex.toInt with _ | i
  · exact .refused (Or.inl hi)
  dsimp only
  by_cases hpos : size.toInt ≤ 0
  · rw [if_pos hpos]
    exact .refused (Or.inr (Or.inl hpos))
  rw [not_le] at hpos
  rw [if_neg (not_le.mpr hpos), h.getFreeVmrgArea, h.getVmaByNum, if_pos hz]
  rcases hfit : firstFit size.toInt v.vmFreergList with _ | ⟨rg, l⟩
  swap
  · exact .placed hi hpos hfit
  dsimp only [Option.map_none]
  have hwant : v.WantsGrowth (.alloc size regIndex) := ⟨by rw [hi]; rfl, hpos, hfit⟩
  have hg := h.incVmaLimit_cases 0 size.toInt
  rcases hr : c.incVmaLimit 0 size.toInt with ⟨b, c1⟩
  rw [hr] at hg
  dsimp only at hg ⊢
  cases hg with
  | refused hno =>
    -- nothing grew, so the second search fails like the first
    rw [h.getFreeVmrgArea, hfit]
    exact .refused (Or.inr (Or.inr ⟨hfit, hno.resolve_left (not_not.mpr hz)⟩))
  | outOfFrames _ hrange ha =>
    rw [(h.allocPages_space ha).getFreeVmrgArea, hfit]
    exact .outOfFrames hwant hrange ha
  | @grown c2 fs _ hrange ha =>
    have hb := (growthInRange_iff hrange.1).mp hrange
    have hs : Space (c2.extended v (growPages size.toInt) fs).mm (v.grown (growPages size.toInt)) :=
      (h.allocPages_space ha).grown hb fs
    rw [hs.getFreeVmrgArea]
    have hsome : (firstFit size.toInt (v.grown (growPages size.toInt)).vmFreergList).isSome :=
      h.fits_grown hpos hlt hrange
    obtain ⟨⟨rg, l⟩, hrg⟩ := Option.isSome_iff_exists.mp hsome
    rw [hrg]
    exact .allocGrown hi hpos hfit hrange ha hrg

theorem free_cases (regIndex : BitVec 32) :
    Pcb.Effect c v (.free regIndex) (c.exec (.free regIndex)).1
      (c.exec (.free regIndex)).2 := by
  have hz : toULong 0 = 0 := rfl
  simp only [Pcb.exec, Pcb.free, h.getVmaByNum, if_pos hz]
  rcases hi : symIndex regIndex.toInt with _ | i
  · exact .refused fun i hc => by rw [hi] at hc; cases hc
  dsimp only
  by_cases he : (c.mm.symrgtbl i).rgEnd ≤ (c.mm.symrgtbl i).rgStart
  · rw [if_pos he]
    refine .refused fun j hj => ?_
    rw [hi, Option.some.injEq] at hj
    exact hj ▸ he
  · have hw := h.symWf i
    have hs : Space (c.mm.setSym i ⟨0, 0⟩) v :=
      ⟨h.mmap, h.vmId, h.vmStart, h.sbrk, h.aligned, h.bound, h.freeWf, (h.freed i).symWf⟩
    rw [if_neg he, toULong_toInt (hw.1.trans_lt hw.2), toULong_toInt hw.2,
      hs.modifyVma hz]
    exact .freed hi (not_le.mp he)

theorem access_address {rgid offset : ℤ} {i : Fin pagingMaxSymtblSz} (hi : symIndex rgid = some i)
    (h₀ : 0 ≤ offset) (h₁ : offset < 2 ^ 31) :
    toULong ((c.mm.symrgtbl i).rgStart + offset) = (c.mm.symrgtbl i).rgStart + offset.toNat ∧
      ((c.mm.symrgtbl i).rgStart + offset.toNat < (c.mm.symrgtbl i).rgEnd →
        toInt ((c.mm.symrgtbl i).rgStart + offset) =
            (((c.mm.symrgtbl i).rgStart + offset.toNat : ℕ) : ℤ) ∧
          c.Accesses rgid offset ((c.mm.symrgtbl i).rgStart + offset.toNat)) := by
  obtain ⟨hw1, hw2⟩ := h.symWf i
  constructor
  · simp only [toULong]
    omega
  · intro hlt
    refine ⟨?_, i, hi, h₀, rfl, hlt⟩
    simp only [toInt]
    omega

theorem not_accesses {rgid offset : ℤ} {i : Fin pagingMaxSymtblSz} (hi : symIndex rgid = some i)
    (h₁ : offset < 2 ^ 31) (hout : offset < 0 ∨
      (c.mm.symrgtbl i).rgEnd ≤ toULong ((c.mm.symrgtbl i).rgStart + offset)) :
    ∀ va, ¬ c.Accesses rgid offset va := by
  intro va hconj
  obtain ⟨j, hj, hnn, hva, hlt⟩ := hconj
  rw [hi, Option.some.injEq] at hj
  subst hj
  rw [(h.access_address hi hnn h₁).1] at hout
  omega

theorem read_cases (source offset : BitVec 32) :
    Pcb.Effect c v (.read source offset) (c.exec (.read source offset)).1
      (c.exec (.read source offset)).2 := by
  have hz : toULong 0 = 0 := rfl
  have hlt : offset.toInt < 2 ^ 31 := BitVec.toInt_lt
  simp only [Pcb.exec, Pcb.read, h.getVmaByNum, if_pos hz]
  rcases hi : symIndex source.toInt with _ | i
  · refine .refused ?_
    intro va hconj
    obtain ⟨i, hc, _⟩ := hconj
    rw [hi] at hc
    cases hc
  dsimp only
  by_cases hout : offset.toInt < 0 ∨
      (c.mm.symrgtbl i).rgEnd ≤ toULong ((c.mm.symrgtbl i).rgStart + offset.toInt)
  · rw [if_pos hout]
    exact .refused (h.not_accesses hi hlt hout)
  · rw [not_or, not_lt, not_le] at hout
    rw [if_neg (by rw [not_or, not_lt, not_le]; exact hout)]
    obtain ⟨ha, hb⟩ := h.access_address hi hout.1 hlt
    obtain ⟨he, hacc⟩ := hb (ha ▸ hout.2)
    rw [he]
    exact .reads hacc

theorem write_cases (data : Byte) (destination offset : BitVec 32) :
    Pcb.Effect c v (.write data destination offset) (c.exec (.write data destination offset)).1
      (c.exec (.write data destination offset)).2 := by
  have hz : toULong 0 = 0 := rfl
  have hlt : offset.toInt < 2 ^ 31 := BitVec.toInt_lt
  simp only [Pcb.exec, Pcb.write, h.getVmaByNum, if_pos hz]
  rcases hi : symIndex destination.toInt with _ | i
  · refine .refused ?_
    intro va hconj
    obtain ⟨i, hc, _⟩ := hconj
    rw [hi] at hc
    cases hc
  dsimp only
  by_cases hout : offset.toInt < 0 ∨
      (c.mm.symrgtbl i).rgEnd ≤ toULong ((c.mm.symrgtbl i).rgStart + offset.toInt)
  · rw [if_pos hout]
    exact .refused (h.not_accesses hi hlt hout)
  · rw [not_or, not_lt, not_le] at hout
    rw [if_neg (by rw [not_or, not_lt, not_le]; exact hout)]
    obtain ⟨ha, hb⟩ := h.access_address hi hout.1 hlt
    obtain ⟨he, hacc⟩ := hb (ha ▸ hout.2)
    rw [he]
    exact .writes hacc

theorem grow_cases (vmaid incSz : BitVec 32) :
    Pcb.Effect c v (.grow vmaid incSz) (c.exec (.grow vmaid incSz)).1
      (c.exec (.grow vmaid incSz)).2 := by
  have hg := h.incVmaLimit_cases vmaid.toInt incSz.toInt
  simp only [Pcb.exec]
  rcases hr : c.incVmaLimit vmaid.toInt incSz.toInt with ⟨b, c1⟩
  rw [hr] at hg
  dsimp only at hg ⊢
  cases hg with
  | refused hno => exact .refused hno
  | outOfFrames hv hrange ha => exact .outOfFrames hv hrange ha
  | grown hv hrange ha => exact .grown hv hrange ha

theorem exec_cases (i : Instr) : Pcb.Effect c v i (c.exec i).1 (c.exec i).2 := by
  cases i with
  | alloc size regIndex => exact h.alloc_cases size regIndex
  | free regIndex => exact h.free_cases regIndex
  | read source offset => exact h.read_cases source offset
  | write data destination offset => exact h.write_cases data destination offset
  | grow vmaid incSz => exact h.grow_cases vmaid incSz

end Space

/-- The caller's area and the frames in reach can serve a request of `size` bytes. -/
def Pcb.Serves (c : Pcb) (v : VmArea) (size : ℤ) : Prop :=
  (∃ r ∈ v.vmFreergList, r.rgStart + size.toNat ≤ r.rgEnd) ∨
    (v.GrowthInRange size ∧ growPages size ≤ c.supply)

theorem Space.alloc_done_iff (h : Space c.mm v) (size regIndex : BitVec 32) :
    (c.exec (.alloc size regIndex)).1 = .done ↔
      (symIndex regIndex.toInt).isSome ∧ 0 < size.toInt ∧ c.Serves v size.toInt := by
  have hlt : size.toInt < 2 ^ 31 := BitVec.toInt_lt
  have hfit : 0 < size.toInt → ((firstFit size.toInt v.vmFreergList).isSome ↔
      ∃ r ∈ v.vmFreergList, r.rgStart + size.toInt.toNat ≤ r.rgEnd) :=
    fun hpos => firstFit_isSome hpos hlt h.freeWf
  have hloop := Pcb.allocPagesLoop_isSome (growPages size.toInt) [] c
  have he := h.exec_cases (.alloc size regIndex)
  generalize (c.exec (.alloc size regIndex)).1 = o, (c.exec (.alloc size regIndex)).2 = c' at he ⊢
  generalize hinst : Instr.alloc size regIndex = inst at he
  cases he with
  | grown => cases hinst
  | freed => cases hinst
  | reads => cases hinst
  | writes => cases hinst
  | refused hr =>
    subst hinst
    simp only [reduceCtorEq, false_iff]
    intro hconj
    obtain ⟨hsome, hpos, hserve⟩ := hconj
    rcases hr with hr | hr | ⟨hnone, hr⟩
    · rw [hr] at hsome
      cases hsome
    · omega
    · rw [Pcb.Serves, ← hfit hpos, hnone] at hserve
      rcases hserve with hserve | hserve
      · cases hserve
      · exact hr hserve.1
  | outOfFrames hw hr ha =>
    subst hinst
    obtain ⟨_, hpos, hnone⟩ := hw
    have ha' : Pcb.allocPagesLoop (growPages size.toInt) [] c = (none, c') := ha
    simp only [reduceCtorEq, false_iff]
    intro hconj
    obtain ⟨_, _, hserve⟩ := hconj
    rw [Pcb.Serves, ← hfit hpos, hnone, ← hloop, ha'] at hserve
    simp at hserve
  | placed hi hpos hf =>
    cases hinst
    simp only [true_iff]
    refine ⟨by rw [hi]; rfl, hpos, Or.inl ((hfit hpos).mp (by rw [hf]; rfl))⟩
  | allocGrown hi hpos _ hr ha _ =>
    cases hinst
    have ha' : Pcb.allocPagesLoop (growPages size.toInt) [] c = (some _, _) := ha
    simp only [true_iff]
    refine ⟨by rw [hi]; rfl, hpos, Or.inr ⟨hr, hloop.mp (by rw [ha']; rfl)⟩⟩

end
end OSsim
