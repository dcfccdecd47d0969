import OSsim.AddressSpaces
import OSsim.Starvation

/-!
# A process by itself

What a program does to its regions, to the bytes it stores and to its registers when
frames never run out and nobody else is there. There are no pages and no devices here, and
a byte that the program has not stored itself is unknown. An instruction on paged memory
does the same unless it starves, whatever it moves between RAM and swap on the way.
-/

namespace OSsim

instance (v : VmArea) (incSz : ℤ) : Decidable (v.GrowthInRange incSz) :=
  inferInstanceAs (Decidable (_ ∧ _))

/-- The bytes and registers whose value follows from the program alone. -/
structure Alone where
  area : VmArea
  symrgtbl : Fin pagingMaxSymtblSz → VmRg
  bytes : ℕ → Option Byte
  regs : Fin 10 → Option (BitVec 32)

namespace Alone

def init : Alone where
  area := ⟨0, 0, 0, 0, [⟨0, 0⟩]⟩
  symrgtbl _ := ⟨0, 0⟩
  bytes _ := none
  regs _ := some 0

variable (a : Alone)

def place (v : VmArea) (i : Fin pagingMaxSymtblSz) (r : VmRg × List VmRg) : Alone :=
  { a with
    area := { v with vmFreergList := r.2 }
    symrgtbl := Function.update a.symrgtbl i r.1 }

def alloc (size regIndex : BitVec 32) : Alone :=
  match symIndex regIndex.toInt with
  | none => a
  | some i =>
    if size.toInt ≤ 0 then a
    else
      match firstFit size.toInt a.area.vmFreergList with
      | some r => a.place a.area i r
      | none =>
        if a.area.GrowthInRange size.toInt then
          let v := a.area.grown (growPages size.toInt)
          match firstFit size.toInt v.vmFreergList with
          | some r => a.place v i r
          | none => a
        else a

def free (regIndex : BitVec 32) : Alone :=
  match symIndex regIndex.toInt with
  | none => a
  | some i =>
    if (a.symrgtbl i).rgEnd ≤ (a.symrgtbl i).rgStart then a
    else
      { a with
        area := { a.area with
          vmFreergList := enlistFreerg a.area.vmFreergList (a.symrgtbl i) }
        symrgtbl := Function.update a.symrgtbl i ⟨0, 0⟩ }

def address (rgid offset : BitVec 32) : Option ℕ :=
  match symIndex rgid.toInt with
  | none => none
  | some i =>
    if 0 ≤ offset.toInt ∧ (a.symrgtbl i).rgStart + offset.toInt.toNat < (a.symrgtbl i).rgEnd then
      some ((a.symrgtbl i).rgStart + offset.toInt.toNat)
    else none

def read (source offset destination : BitVec 32) : Alone :=
  match a.address source offset with
  | none => a
  | some va =>
    let value := (a.bytes va).map (·.signExtend 32)
    if h : destination.toNat < 10 then
      { a with regs := Function.update a.regs ⟨destination.toNat, h⟩ value }
    else a

def write (data : Byte) (destination offset : BitVec 32) : Alone :=
  match a.address destination offset with
  | none => a
  | some va => { a with bytes := Function.update a.bytes va (some data) }

/-- System calls other than killall are not for processes by themselves; killall leaves
its caller as it is. -/
def run (ins : Instruction) : Alone :=
  match ins.opcode with
  | .CALC => a
  | .ALLOC => a.alloc (ins.args 0) (ins.args 1)
  | .FREE => a.free (ins.args 0)
  | .READ => a.read (ins.args 0) (ins.args 1) (ins.args 2)
  | .WRITE => a.write ((ins.args 0).setWidth 8) (ins.args 1) (ins.args 2)
  | .SYSCALL => a

def after (code : List Instruction) : Alone := code.foldl run init

def pages (code : List Instruction) : ℕ := (after code).area.vmEnd / 256

/-- The most pages that one instruction of the program adds. -/
def largest (code : List Instruction) : ℕ :=
  (Finset.range code.length).sup fun k => pages (code.take (k + 1)) - pages (code.take k)

@[simp] theorem after_concat (code : List Instruction) (ins : Instruction) :
    after (code ++ [ins]) = (after code).run ins := by
  rw [after, List.foldl_append]
  rfl

variable {a}

section
variable {size regIndex : BitVec 32} {i : Fin pagingMaxSymtblSz} {r : VmRg × List VmRg}

theorem alloc_refused (h : symIndex regIndex.toInt = none ∨ size.toInt ≤ 0 ∨
    (firstFit size.toInt a.area.vmFreergList = none ∧ ¬ a.area.GrowthInRange size.toInt)) :
    a.alloc size regIndex = a := by
  rcases hi : symIndex regIndex.toInt with _ | i
  · simp only [alloc, hi]
  · by_cases hpos : size.toInt ≤ 0
    · simp only [alloc, hi, if_pos hpos]
    · obtain ⟨hnone, hrange⟩ := (h.resolve_left (by simp [hi])).resolve_left hpos
      simp only [alloc, hi, if_neg hpos, hnone, if_neg hrange]

theorem alloc_placed (hi : symIndex regIndex.toInt = some i) (hpos : 0 < size.toInt)
    (hfit : firstFit size.toInt a.area.vmFreergList = some r) :
    a.alloc size regIndex = a.place a.area i r := by
  simp only [alloc, hi, if_neg (not_le.mpr hpos), hfit]

theorem alloc_grown (hi : symIndex regIndex.toInt = some i) (hpos : 0 < size.toInt)
    (hnone : firstFit size.toInt a.area.vmFreergList = none)
    (hrange : a.area.GrowthInRange size.toInt)
    (hfit : firstFit size.toInt (a.area.grown (growPages size.toInt)).vmFreergList = some r) :
    a.alloc size regIndex = a.place (a.area.grown (growPages size.toInt)) i r := by
  simp only [alloc, hi, if_neg (not_le.mpr hpos), hnone, if_pos hrange, hfit]

end

theorem alloc_same (size regIndex : BitVec 32) :
    (a.alloc size regIndex).bytes = a.bytes ∧ (a.alloc size regIndex).regs = a.regs := by
  rw [alloc]
  split
  · exact ⟨rfl, rfl⟩
  · split_ifs
    · exact ⟨rfl, rfl⟩
    · split
      · exact ⟨rfl, rfl⟩
      · dsimp only
        split <;> exact ⟨rfl, rfl⟩
    · split <;> exact ⟨rfl, rfl⟩

theorem free_same (regIndex : BitVec 32) :
    (a.free regIndex).bytes = a.bytes ∧ (a.free regIndex).regs = a.regs := by
  rw [free]
  split
  · exact ⟨rfl, rfl⟩
  · split_ifs <;> exact ⟨rfl, rfl⟩

theorem read_same (source offset destination : BitVec 32) :
    (a.read source offset destination).area = a.area ∧
      (a.read source offset destination).symrgtbl = a.symrgtbl ∧
      (a.read source offset destination).bytes = a.bytes := by
  rw [read]
  split
  · exact ⟨rfl, rfl, rfl⟩
  · dsimp only
    split_ifs <;> exact ⟨rfl, rfl, rfl⟩

theorem write_same (data : Byte) (destination offset : BitVec 32) :
    (a.write data destination offset).area = a.area ∧
      (a.write data destination offset).symrgtbl = a.symrgtbl ∧
      (a.write data destination offset).regs = a.regs := by
  rw [write]
  split <;> exact ⟨rfl, rfl, rfl⟩

theorem vmEnd_le_alloc (size regIndex : BitVec 32) :
    a.area.vmEnd ≤ (a.alloc size regIndex).area.vmEnd := by
  rw [alloc]
  split
  · exact le_rfl
  · split_ifs
    · exact le_rfl
    · split
      · exact le_rfl
      · dsimp only
        split
        · exact Nat.le_add_right _ _
        · exact le_rfl
    · split <;> exact le_rfl

theorem vmEnd_free (regIndex : BitVec 32) : (a.free regIndex).area.vmEnd = a.area.vmEnd := by
  rw [free]
  split
  · rfl
  · split_ifs <;> rfl

theorem vmEnd_le_run (ins : Instruction) : a.area.vmEnd ≤ (a.run ins).area.vmEnd := by
  rw [run]
  split
  · exact le_rfl
  · exact vmEnd_le_alloc _ _
  · exact (vmEnd_free _).ge
  · rw [(read_same _ _ _).1]
  · rw [(write_same _ _ _).1]
  · exact le_rfl

theorem vmEnd_le_foldl (code : List Instruction) (a : Alone) :
    a.area.vmEnd ≤ (code.foldl run a).area.vmEnd := by
  induction code generalizing a with
  | nil => exact le_rfl
  | cons ins code ih => exact (vmEnd_le_run ins).trans (ih (a.run ins))

theorem pages_take_le (code : List Instruction) (k : ℕ) : pages (code.take k) ≤ pages code := by
  have h := vmEnd_le_foldl (code.drop k) (after (code.take k))
  rw [after, ← List.foldl_append, List.take_append_drop] at h
  exact Nat.div_le_div_right h

theorem alloc_aligned (size regIndex : BitVec 32) (h : 256 ∣ a.area.vmEnd) :
    256 ∣ (a.alloc size regIndex).area.vmEnd := by
  rw [alloc]
  split
  · exact h
  · split_ifs
    · exact h
    · split
      · exact h
      · dsimp only
        split
        · exact Nat.dvd_add h (Nat.dvd_mul_left _ _)
        · exact h
    · split <;> exact h

theorem run_aligned (ins : Instruction) (h : 256 ∣ a.area.vmEnd) :
    256 ∣ (a.run ins).area.vmEnd := by
  rw [run]
  split
  · exact h
  · exact alloc_aligned _ _ h
  · exact (vmEnd_free _).symm ▸ h
  · rw [(read_same _ _ _).1]
    exact h
  · rw [(write_same _ _ _).1]
    exact h
  · exact h

theorem after_aligned (code : List Instruction) : 256 ∣ (after code).area.vmEnd := by
  have hfold : ∀ a : Alone, 256 ∣ a.area.vmEnd → 256 ∣ (code.foldl run a).area.vmEnd := by
    induction code with
    | nil => exact fun _ h => h
    | cons ins code ih => exact fun a h => ih (a.run ins) (run_aligned ins h)
  exact hfold init (Nat.dvd_zero _)

theorem pages_take_succ_le (code : List Instruction) (k : ℕ) :
    pages (code.take (k + 1)) ≤ pages (code.take k) + largest code := by
  by_cases hk : k < code.length
  · have hle : pages (code.take (k + 1)) - pages (code.take k) ≤ largest code :=
      Finset.le_sup (f := fun k => pages (code.take (k + 1)) - pages (code.take k))
        (Finset.mem_range.mpr hk)
    omega
  · rw [List.take_of_length_le (by omega), List.take_of_length_le (by omega)]
    exact Nat.le_add_right _ _

theorem largest_pos {code : List Instruction} {k : ℕ} (h : 0 < pages (code.take k)) :
    0 < largest code := by
  induction k with
  | zero =>
    rw [List.take_zero] at h
    exact absurd h (Nat.lt_irrefl 0)
  | succ k ih =>
    have hle := pages_take_succ_le code k
    by_contra hno
    exact hno (ih (by omega))

theorem largest_le_pages (code : List Instruction) : largest code ≤ pages code :=
  Finset.sup_le fun k _ => (Nat.sub_le _ _).trans (pages_take_le code (k + 1))

end Alone

structure Alone.Agrees (a : Alone) (mm : Mm) : Prop where
  mmap : mm.mmap = [a.area]
  symrgtbl : mm.symrgtbl = a.symrgtbl

section
variable {a : Alone} {c : Pcb}

namespace Alone.Agrees
variable (ha : a.Agrees c.mm) (h : Housed c.mm a.area)
include ha

theorem of_same {a' : Alone} {c' : Pcb} (hm : c'.mm.mmap = c.mm.mmap)
    (hs : c'.mm.symrgtbl = c.mm.symrgtbl) (harea : a'.area = a.area)
    (hsym : a'.symrgtbl = a.symrgtbl) : a'.Agrees c'.mm :=
  ⟨by rw [hm, harea]; exact ha.mmap, by rw [hs, hsym]; exact ha.symrgtbl⟩

theorem address_iff {rgid offset : BitVec 32} {va : ℕ} :
    a.address rgid offset = some va ↔ c.Accesses rgid.toInt offset.toInt va := by
  rw [Alone.address]
  constructor
  · intro haddr
    split at haddr
    · cases haddr
    · next i hi =>
      split_ifs at haddr with hin
      obtain rfl := Option.some.inj haddr
      exact ⟨i, hi, hin.1, by rw [ha.symrgtbl], by rw [ha.symrgtbl]; exact hin.2⟩
  · rintro ⟨i, hi, hnn, rfl, hlt⟩
    rw [ha.symrgtbl] at hlt ⊢
    simp only [hi, if_pos (And.intro hnn hlt)]

include h

theorem alloc {size regIndex : BitVec 32} (hfed : ¬ c.Starves (.alloc size regIndex)) :
    (a.alloc size regIndex).Agrees (c.exec (.alloc size regIndex)).2.mm := by
  have hspace := h.packed.space
  have he := hspace.exec_cases (.alloc size regIndex)
  generalize (c.exec (.alloc size regIndex)).1 = o, (c.exec (.alloc size regIndex)).2 = c' at he ⊢
  generalize hinst : Instr.alloc size regIndex = inst at he
  cases he with
  | grown => cases hinst
  | freed => cases hinst
  | reads => cases hinst
  | writes => cases hinst
  | refused hr =>
    subst hinst
    rw [alloc_refused hr]
    exact ha
  | outOfFrames hw hr hfail =>
    subst hinst
    have hno := mt (Pcb.allocPagesRange_isSome _ c).mpr (by rw [hfail]; simp)
    exact absurd (.growth (by rw [hspace.mmap]; simp) hw hr (not_le.mp hno)) hfed
  | @placed _ _ i rg l hi hpos hf =>
    cases hinst
    rw [alloc_placed hi hpos hf]
    exact ⟨rfl, by rw [place, ← ha.symrgtbl]; rfl⟩
  | @allocGrown _ _ i fs c1 rg l hi hpos hnone hr hgot hf =>
    cases hinst
    rw [alloc_grown hi hpos hnone hr hf]
    refine ⟨rfl, ?_⟩
    rw [place, ← ha.symrgtbl, ← (allocPagesRange_space hgot).2,
      ← extended_symrgtbl c1 a.area (growPages size.toInt) fs]
    rfl

omit ha in
theorem alloc_vmEnd {size regIndex : BitVec 32} (hw : a.area.WantsGrowth (.alloc size regIndex))
    (hr : a.area.GrowthInRange size.toInt) : (a.alloc size regIndex).area.vmEnd / 256 =
      a.area.vmEnd / 256 + growPages size.toInt := by
  obtain ⟨hi, hpos, hnone⟩ := hw
  obtain ⟨i, hi⟩ := Option.isSome_iff_exists.mp hi
  obtain ⟨r, hfit⟩ := Option.isSome_iff_exists.mp
    (h.packed.space.fits_grown hpos BitVec.toInt_lt hr)
  rw [alloc_grown hi hpos hnone hr hfit]
  simp only [place, VmArea.grown]
  omega

theorem free (regIndex : BitVec 32) :
    (a.free regIndex).Agrees (c.exec (.free regIndex)).2.mm := by
  have he := h.packed.space.exec_cases (.free regIndex)
  generalize (c.exec (.free regIndex)).1 = o, (c.exec (.free regIndex)).2 = c' at he ⊢
  generalize hinst : Instr.free regIndex = inst at he
  cases he with
  | placed => cases hinst
  | allocGrown => cases hinst
  | grown => cases hinst
  | reads => cases hinst
  | writes => cases hinst
  | outOfFrames hw =>
    subst hinst
    exact hw.elim
  | refused hr =>
    subst hinst
    have hstay : a.free regIndex = a := by
      rcases hi : symIndex regIndex.toInt with _ | i
      · simp only [Alone.free, hi]
      · have hle := hr i hi
        rw [ha.symrgtbl] at hle
        simp only [Alone.free, hi, if_pos hle]
    rw [hstay]
    exact ha
  | @freed _ i hi hlt =>
    cases hinst
    rw [ha.symrgtbl] at hlt
    simp only [Alone.free, hi, if_neg (not_le.mpr hlt)]
    refine ⟨?_, ?_⟩
    · rw [Pcb.freed, ha.symrgtbl]
    · rw [Pcb.freed, ha.symrgtbl]

end Alone.Agrees

namespace Housed
variable {v : VmArea} (h : Housed c.mm v)
include h

theorem exec_access_space {i : Instr} {rgid offset : BitVec 32}
    (hi : i.access = some (rgid, offset)) :
    (c.exec i).2.mm.mmap = c.mm.mmap ∧ (c.exec i).2.mm.symrgtbl = c.mm.symrgtbl := by
  have he := h.packed.space.exec_cases i
  generalize (c.exec i).1 = o, (c.exec i).2 = c' at he ⊢
  cases he with
  | refused => exact ⟨rfl, rfl⟩
  | outOfFrames hw =>
    rw [hw.access] at hi
    cases hi
  | @reads _ _ va => exact pgGetval_space c va
  | @writes data _ _ va => exact pgSetval_space c va data
  | placed => cases hi
  | allocGrown => cases hi
  | grown => cases hi
  | freed => cases hi

theorem write_done_iff {data : Byte} {rgid offset : BitVec 32}
    (hfed : ¬ c.Starves (.write data rgid offset)) :
    (c.exec (.write data rgid offset)).1 = .done ↔
      ∃ va, c.Accesses rgid.toInt offset.toInt va := by
  by_cases hex : ∃ va, c.Accesses rgid.toInt offset.toInt va
  · obtain ⟨va, hacc⟩ := hex
    refine iff_of_true ((h.packed.space.write_outcome hacc data).mpr ?_) ⟨va, hacc⟩
    exact Option.ne_none_iff_isSome.mp (mt (h.starves_access_iff rfl hacc).mpr hfed)
  · have hfail := (h.failed_iff (.write data rgid offset)).mpr
      (Or.inl fun va hacc => hex ⟨va, hacc⟩)
    exact iff_of_false (by rw [hfail]; simp) hex

end Housed
end
end OSsim
