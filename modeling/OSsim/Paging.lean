import OSsim.Pte
import OSsim.Memphy
import OSsim.Region

/-!
# Paged address spaces

The functions of `mm.c`, `mm-vm.c` and the paging half of `libmem.c`. Each takes the
calling process with everything its `pcb_t` reaches: its own `mm_struct` and the
shared RAM and swap devices. Functions that can fail return `none` or `false` for
the negative code, together with the state they leave, since a failing call may
already have moved pages.

`__swap_out_page`, `pg_getval` and `pg_setval` reach the devices through
`syscall(caller, 17, ..)`; the dispatch to the handler is inlined.
-/

namespace OSsim

structure VmArea where
  vmId : ℕ
  vmStart : ℕ
  vmEnd : ℕ
  sbrk : ℕ
  vmFreergList : List VmRg

structure Mm where
  pgd : ℕ → Pte
  mmap : List VmArea
  symrgtbl : Fin pagingMaxSymtblSz → VmRg
  fifoPgn : List ℕ

structure Pcb where
  mm : Mm
  mram : Memphy
  mswp : ℕ → Memphy

/-- `main` makes device 0 the active swap of every process. -/
def activeMswpId : ℕ := 0

namespace Mm
variable (mm : Mm)

def setPte (pgn : ℕ) (pte : Pte) : Mm := { mm with pgd := Function.update mm.pgd pgn pte }

def enlistPgnNode (pgn : ℕ) : Mm := { mm with fifoPgn := pgn :: mm.fifoPgn }

/-- New pages are enlisted at the head, the victim is the tail. -/
def findVictimPage : Option (ℕ × Mm) :=
  match mm.fifoPgn.getLast? with
  | none => none
  | some pgn => some (pgn, { mm with fifoPgn := mm.fifoPgn.dropLast })

def getVmaByNum (vmaid : ℤ) : Option VmArea := mm.mmap.find? fun v => v.vmId = toULong vmaid

/-- An update through the pointer that `get_vma_by_num` returns. -/
def modifyVma (vmaid : ℤ) (f : VmArea → VmArea) : Mm :=
  { mm with mmap := go mm.mmap }
where
  go : List VmArea → List VmArea
    | [] => []
    | v :: vs => if v.vmId = toULong vmaid then f v :: vs else v :: go vs

def getVmAreaNodeAtBrk (vmaid alignedsz : ℤ) : Option VmRg :=
  (mm.getVmaByNum vmaid).map fun v => ⟨v.sbrk, toULong (v.sbrk + alignedsz)⟩

def validateOverlapVmArea (vmaid vmastart vmaend : ℤ) : Bool :=
  vmastart < vmaend ∧ ∀ v ∈ mm.mmap, ¬ (v.vmId ≠ toULong vmaid ∧ v.vmStart < v.vmEnd ∧
    toULong vmastart < v.vmEnd ∧ v.vmStart < toULong vmaend)

def getFreeVmrgArea (vmaid size : ℤ) : Option (VmRg × Mm) :=
  match mm.getVmaByNum vmaid with
  | none => none
  | some vma =>
    (firstFit size vma.vmFreergList).map fun r =>
      (r.1, mm.modifyVma vmaid fun v => { v with vmFreergList := r.2 })

def setSym (i : Fin pagingMaxSymtblSz) (rg : VmRg) : Mm :=
  { mm with symrgtbl := Function.update mm.symrgtbl i rg }

end Mm

def initMm : Mm where
  pgd := fun _ => 0
  mmap := [⟨0, 0, 0, 0, [⟨0, 0⟩]⟩]
  symrgtbl := fun _ => ⟨0, 0⟩
  fifoPgn := []

/-- The loop of `vmap_page_range` from its `pgit`-th round on. -/
def vmapLoop (pgn : ℕ) (pgnum : ℤ) : ℕ → List ℕ → Mm → Mm
  | _, [], mm => mm
  | pgit, fpn :: fpit, mm =>
    if (pgit : ℤ) < pgnum then
      let mm := mm.setPte (pgn + pgit) (pteSetFpn (mm.pgd (pgn + pgit)) fpn)
      vmapLoop pgn pgnum (pgit + 1) fpit (mm.enlistPgnNode (pgn + pgit))
    else mm

namespace Pcb
variable (c : Pcb)

def mmSwapPage (vicfpn swpfpn : ℕ) : Pcb :=
  let m := swapCpPage c.mram vicfpn (c.mswp activeMswpId) swpfpn
  { c with mram := m.1, mswp := Function.update c.mswp activeMswpId m.2 }

def swapOutPage : Option ℕ × Pcb :=
  match c.mm.findVictimPage with
  | none => (none, c)
  | some (vicpgn, mm) =>
    match (c.mswp activeMswpId).getFreefp with
    | none =>
      -- swap is full, the victim stays in RAM and becomes the newest page
      (none, { c with mm := mm.enlistPgnNode vicpgn })
    | some (swpfpn, mswp) =>
      let vicfpn := pagingFpn (mm.pgd vicpgn)
      let c : Pcb := { c with mswp := Function.update c.mswp activeMswpId mswp }
      let c := c.mmSwapPage vicfpn swpfpn
      (some vicfpn,
        { c with mm := mm.setPte vicpgn (pteSetSwap (mm.pgd vicpgn) activeMswpId swpfpn) })

/-- The condition shared by `pg_getpage` and `alloc_pages_range`: a free frame of
RAM, or else the frame of an evicted page of the caller. -/
def grabFrame : Option ℕ × Pcb :=
  match c.mram.getFreefp with
  | some (fpn, mram) => (some fpn, { c with mram := mram })
  | none => c.swapOutPage

def pgGetpage (pgn : ℕ) : Option ℕ × Pcb :=
  if pagingMaxPgn ≤ pgn then (none, c)
  else
    let pte := c.mm.pgd pgn
    if ¬ pagingPagePresent pte then (none, c)
    else if pagingPageSwapped pte then
      match c.grabFrame with
      | (none, c) => (none, c)
      | (some tgtfpn, c) =>
        let m := swapCpPage (c.mswp (pagingPteSwptyp pte)) (pagingPteSwp pte) c.mram tgtfpn
        let mm := c.mm.setPte pgn (pteSetFpn (c.mm.pgd pgn) tgtfpn)
        (some (pagingFpn (mm.pgd pgn)),
          { mm := mm.enlistPgnNode pgn
            mram := m.2
            mswp := Function.update c.mswp (pagingPteSwptyp pte)
              (m.1.putFreefp (pagingPteSwp pte)) })
    else (some (pagingFpn pte), c)

/-- The byte travels through the 32-bit register `a3`. -/
def pgGetval (addr : ℤ) : Option Byte × Pcb :=
  match c.pgGetpage (pagingPgn addr) with
  | (none, c) => (none, c)
  | (some fpn, c) =>
    let r := c.mram.read ((fpn * 256 + pagingOffst addr : ℕ) : ℤ)
    let a3 := (r.1.getD 0).signExtend 32
    (some (a3.setWidth 8), { c with mram := r.2 })

def pgSetval (addr : ℤ) (value : Byte) : Bool × Pcb :=
  match c.pgGetpage (pagingPgn addr) with
  | (none, c) => (false, c)
  | (some fpn, c) =>
    let a3 := value.signExtend 32
    (true, { c with
      mram := c.mram.write ((fpn * 256 + pagingOffst addr : ℕ) : ℤ) (a3.setWidth 8) })

/-- The loop of `alloc_pages_range` with `fpHead` collected so far. On failure the
frames taken go back to RAM, the pages evicted for them stay in swap. -/
def allocPagesLoop : ℕ → List ℕ → Pcb → Option (List ℕ) × Pcb
  | 0, fpHead, c => (some fpHead, c)
  | n + 1, fpHead, c =>
    match c.grabFrame with
    | (some fpn, c) => allocPagesLoop n (fpn :: fpHead) c
    | (none, c) => (none, { c with mram := fpHead.foldl Memphy.putFreefp c.mram })

def allocPagesRange (reqPgnum : ℤ) : Option (List ℕ) × Pcb := allocPagesLoop reqPgnum.toNat [] c

def vmapPageRange (addr pgnum : ℤ) (frames : List ℕ) : VmRg × Pcb :=
  (⟨toULong addr, toULong (toInt (addr + toInt (pgnum * pagingPagesz)))⟩,
    { c with mm := vmapLoop (pagingPgn addr) pgnum 0 frames c.mm })

def vmMapRam (_astart _aend mapstart incpgnum : ℤ) : Option VmRg × Pcb :=
  match c.allocPagesRange incpgnum with
  | (none, c) => (none, c)
  | (some frmLst, c) =>
    let r := c.vmapPageRange mapstart incpgnum frmLst
    (some r.1, r.2)

def incVmaLimit (vmaid incSz : ℤ) : Bool × Pcb :=
  let incAmt := pagingPageAlignsz incSz
  let incnumpage := incAmt.tdiv pagingPagesz
  match c.mm.getVmaByNum vmaid, c.mm.getVmAreaNodeAtBrk vmaid incAmt with
  | some curVma, some area =>
    if incAmt ≤ 0 then (false, c)
    else if ¬ c.mm.validateOverlapVmArea vmaid (toInt area.rgStart) (toInt area.rgEnd) then
      (false, c)
    else
      match c.vmMapRam (toInt area.rgStart) (toInt area.rgEnd) (toInt curVma.vmEnd) incnumpage with
      | (none, c) => (false, c)
      | (some area, c) =>
        (true, { c with mm := c.mm.modifyVma vmaid fun v =>
          { v with
            vmEnd := toULong (v.vmEnd + incAmt)
            sbrk := toULong (v.sbrk + incAmt)
            vmFreergList := enlistFreerg v.vmFreergList area } })
  | _, _ => (false, c)

end Pcb
end OSsim
