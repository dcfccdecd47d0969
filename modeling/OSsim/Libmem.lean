import OSsim.Paging

/-!
# The memory library and the memory system

`__alloc`, `__free`, `__read` and `__write` of `libmem.c`, the release of a process,
and the system they form: any number of processes that share one RAM and four swap
devices. Every library call runs under `mmvm_lock`, so a run of the system is a
sequence of whole calls. Instruction arguments are 32-bit words that the library
reads as `int`.
-/

namespace OSsim

def symIndex (rgid : ℤ) : Option (Fin pagingMaxSymtblSz) :=
  if h : 0 ≤ rgid ∧ rgid < pagingMaxSymtblSz then some ⟨rgid.toNat, by omega⟩ else none

namespace Pcb
variable (c : Pcb)

def alloc (vmaid rgid size : ℤ) : Option ℤ × Pcb :=
  match symIndex rgid with
  | none => (none, c)
  | some i =>
    if size ≤ 0 then (none, c)
    else
      match c.mm.getFreeVmrgArea vmaid size with
      | some (rgnode, mm) => (some (toInt rgnode.rgStart), { c with mm := mm.setSym i rgnode })
      | none =>
        match c.mm.getVmaByNum vmaid with
        | none => (none, c)
        | some _ =>
          let c := (c.incVmaLimit vmaid size).2
          match c.mm.getFreeVmrgArea vmaid size with
          | some (rgnode, mm) => (some (toInt rgnode.rgStart), { c with mm := mm.setSym i rgnode })
          | none => (none, c)

def free (vmaid rgid : ℤ) : Bool × Pcb :=
  match symIndex rgid, c.mm.getVmaByNum vmaid with
  | some i, some _ =>
    let rg := c.mm.symrgtbl i
    if rg.rgEnd ≤ rg.rgStart then (false, c)
    else
      let rgnode : VmRg := ⟨toULong (toInt rg.rgStart), toULong (toInt rg.rgEnd)⟩
      (true, { c with mm := (c.mm.setSym i ⟨0, 0⟩).modifyVma vmaid fun v =>
        { v with vmFreergList := enlistFreerg v.vmFreergList rgnode } })
  | _, _ => (false, c)

def read (vmaid rgid offset : ℤ) : Option Byte × Pcb :=
  match symIndex rgid, c.mm.getVmaByNum vmaid with
  | some i, some _ =>
    let currg := c.mm.symrgtbl i
    if offset < 0 ∨ currg.rgEnd ≤ toULong (currg.rgStart + offset) then (none, c)
    else c.pgGetval (toInt (currg.rgStart + offset))
  | _, _ => (none, c)

def write (vmaid rgid offset : ℤ) (value : Byte) : Bool × Pcb :=
  match symIndex rgid, c.mm.getVmaByNum vmaid with
  | some i, some _ =>
    let currg := c.mm.symrgtbl i
    if offset < 0 ∨ currg.rgEnd ≤ toULong (currg.rgStart + offset) then (false, c)
    else c.pgSetval (toInt (currg.rgStart + offset)) value
  | _, _ => (false, c)

def freePage (c : Pcb) (pagenum : ℕ) : Pcb :=
  let pte := c.mm.pgd pagenum
  if ¬ pagingPagePresent pte then c
  else
    let c : Pcb :=
      if pagingPageSwapped pte then
        let swptyp := pagingPteSwptyp pte
        let mswp := (c.mswp swptyp).putFreefp (pagingPteSwp pte)
        { c with mswp := Function.update c.mswp swptyp mswp }
      else { c with mram := c.mram.putFreefp (pagingFpn pte) }
    { c with mm := c.mm.setPte pagenum 0 }

def freePcbMemph : Pcb := (List.range pagingMaxPgn).foldl freePage c

end Pcb

/-- The memory instructions of a program, with their register values, and a direct
call of `inc_vma_limit`. -/
inductive Instr
  | alloc (size regIndex : BitVec 32)
  | free (regIndex : BitVec 32)
  | read (source offset : BitVec 32)
  | write (data : Byte) (destination offset : BitVec 32)
  | grow (vmaid incSz : BitVec 32)

inductive Outcome
  | failed
  | done
  | byte (b : Byte)
  deriving DecidableEq

def outcomeOf (b : Bool) : Outcome := if b then .done else .failed

def Pcb.exec (c : Pcb) : Instr → Outcome × Pcb
  | .alloc size regIndex =>
    let r := c.alloc 0 regIndex.toInt size.toInt
    (outcomeOf r.1.isSome, r.2)
  | .free regIndex =>
    let r := c.free 0 regIndex.toInt
    (outcomeOf r.1, r.2)
  | .read source offset =>
    let r := c.read 0 source.toInt offset.toInt
    (r.1.elim .failed .byte, r.2)
  | .write data destination offset =>
    let r := c.write 0 destination.toInt offset.toInt data
    (outcomeOf r.1, r.2)
  | .grow vmaid incSz =>
    let r := c.incVmaLimit vmaid.toInt incSz.toInt
    (outcomeOf r.1, r.2)

structure Kernel (ι : Type*) where
  mram : Memphy
  mswp : ℕ → Memphy
  mm : ι → Option Mm

inductive Op (ι : Type*)
  | create (p : ι)
  | exec (p : ι) (i : Instr)
  | release (p : ι)

namespace Kernel
variable {ι : Type*} [DecidableEq ι] (s : Kernel ι)

def caller (mm : Mm) : Pcb := ⟨mm, s.mram, s.mswp⟩

def commit (p : ι) (c : Pcb) : Kernel ι := ⟨c.mram, c.mswp, Function.update s.mm p (some c.mm)⟩

def step : Op ι → Outcome × Kernel ι
  | .create p =>
    match s.mm p with
    | some _ => (.failed, s)
    | none => (.done, { s with mm := Function.update s.mm p (some initMm) })
  | .exec p i =>
    match s.mm p with
    | none => (.failed, s)
    | some mm =>
      let r := (s.caller mm).exec i
      (r.1, s.commit p r.2)
  | .release p =>
    match s.mm p with
    | none => (.failed, s)
    | some mm =>
      let c := (s.caller mm).freePcbMemph
      (.done, ⟨c.mram, c.mswp, Function.update s.mm p none⟩)

def boot (memramsz : ℤ) (memswpsz : ℕ → ℤ) : Kernel ι :=
  ⟨.fresh memramsz true, fun sit => .fresh (memswpsz sit) true, fun _ => none⟩

/-- `main` sets up RAM and all swap devices before it starts a thread; `none` stands for a
crash. -/
def main (memramsz : ℤ) (memswpsz : ℕ → ℤ) : Option (Kernel ι) :=
  if (initMemphy memramsz true).isSome ∧
      ∀ sit, sit < pagingMaxMmswp → (initMemphy (memswpsz sit) true).isSome then
    some (boot memramsz memswpsz)
  else none

end Kernel
end OSsim
