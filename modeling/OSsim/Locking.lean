import OSsim.Lib.Mutex
import OSsim.ProgramFile
import OSsim.Syscall

/-!
# The memory functions with mmvm_lock

The functions of `libmem.c`, `mm.c`, `mm-vm.c` and the system call handlers once more, this
time with every call on `mmvm_lock` at its place and every execution of
`MEMPHY_get_freefp`, `MEMPHY_put_freefp`, `MEMPHY_read` and `MEMPHY_write` in the log.
Leaving the ghost out of them gives the functions of the memory model.
-/

namespace OSsim.Locked
open Mutex

/-- The devices that all processes share. -/
inductive Device
  | mram
  | mswp (i : ℕ)

inductive Access
  | getFreefp (d : Device)
  | putFreefp (d : Device)
  | read (d : Device)
  | write (d : Device)

abbrev Call (α : Type) := Prog Pcb Access α

def device (c : Pcb) : Device → Memphy
  | .mram => c.mram
  | .mswp i => c.mswp i

def setDevice (c : Pcb) (mp : Memphy) : Device → Pcb
  | .mram => { c with mram := mp }
  | .mswp i => { c with mswp := Function.update c.mswp i mp }

def getFreefp (d : Device) : Call (Option ℕ) :=
  touch (.getFreefp d) fun c =>
    match (device c d).getFreefp with
    | none => (none, c)
    | some (fpn, mp) => (some fpn, setDevice c mp d)

def putFreefp (d : Device) (fpn : ℕ) : Call Unit :=
  touch (.putFreefp d) fun c => ((), setDevice c ((device c d).putFreefp fpn) d)

def memphyRead (d : Device) (addr : ℤ) : Call (Option Byte) :=
  touch (.read d) fun c => (((device c d).read addr).1, setDevice c ((device c d).read addr).2 d)

def memphyWrite (d : Device) (addr : ℤ) (data : Byte) : Call Unit :=
  touch (.write d) fun c => ((), setDevice c ((device c d).write addr data) d)

/-- `caller->mm` is not shared. -/
def getMm : Call Mm := own fun c => (c.mm, c)

def setMm (mm : Mm) : Call Unit := own fun c => ((), { c with mm := mm })

def swapCpCells (junk : ℕ → Byte) (mpsrc : Device) (addrsrc : ℕ → ℤ) (mpdst : Device)
    (addrdst : ℕ → ℤ) : List ℕ → Call Unit
  | [] => pure ()
  | cellidx :: l => do
    let data ← memphyRead mpsrc (addrsrc cellidx)
    memphyWrite mpdst (addrdst cellidx) (data.getD (junk cellidx))
    swapCpCells junk mpsrc addrsrc mpdst addrdst l

def swapCpPage (mpsrc : Device) (srcfpn : ℕ) (mpdst : Device) (dstfpn : ℕ) : Call Unit :=
  swapCpCells (fun _ => 0) mpsrc (fun cellidx => ((srcfpn * pagingPagesz + cellidx : ℕ) : ℤ)) mpdst
    (fun cellidx => ((dstfpn * pagingPagesz + cellidx : ℕ) : ℤ)) (List.range pagingPagesz)

def swapCpPageInt (junk : ℕ → Byte) (mpsrc : Device) (srcfpn : ℤ) (mpdst : Device) (dstfpn : ℤ) :
    Call Unit :=
  swapCpCells junk mpsrc (fun cellidx => toInt (toInt (srcfpn * pagingPagesz) + cellidx)) mpdst
    (fun cellidx => toInt (toInt (dstfpn * pagingPagesz) + cellidx)) (List.range pagingPagesz)

def swapOutPage : Call (Option ℕ) := do
  let mm ← getMm
  match mm.findVictimPage with
  | none => pure none
  | some (vicpgn, mm) =>
    match ← getFreefp (.mswp activeMswpId) with
    | none =>
      setMm (mm.enlistPgnNode vicpgn)
      pure none
    | some swpfpn =>
      let vicfpn := pagingFpn (mm.pgd vicpgn)
      swapCpPage .mram vicfpn (.mswp activeMswpId) swpfpn
      setMm (mm.setPte vicpgn (pteSetSwap (mm.pgd vicpgn) activeMswpId swpfpn))
      pure (some vicfpn)

def grabFrame : Call (Option ℕ) := do
  match ← getFreefp .mram with
  | some fpn => pure (some fpn)
  | none => swapOutPage

def pgGetpage (pgn : ℕ) : Call (Option ℕ) := do
  let mm ← getMm
  if pagingMaxPgn ≤ pgn then pure none
  else if ¬ pagingPagePresent (mm.pgd pgn) then pure none
  else if pagingPageSwapped (mm.pgd pgn) then
    match ← grabFrame with
    | none => pure none
    | some tgtfpn =>
      let tgtswp := Device.mswp (pagingPteSwptyp (mm.pgd pgn))
      let tgtswpfpn := pagingPteSwp (mm.pgd pgn)
      swapCpPage tgtswp tgtswpfpn .mram tgtfpn
      putFreefp tgtswp tgtswpfpn
      let mm ← getMm
      setMm ((mm.setPte pgn (pteSetFpn (mm.pgd pgn) tgtfpn)).enlistPgnNode pgn)
      pure (some (pagingFpn ((mm.setPte pgn (pteSetFpn (mm.pgd pgn) tgtfpn)).pgd pgn)))
  else pure (some (pagingFpn (mm.pgd pgn)))

def pgGetval (addr : ℤ) : Call (Option Byte) := do
  match ← pgGetpage (pagingPgn addr) with
  | none => pure none
  | some fpn =>
    let value ← memphyRead .mram ((fpn * 256 + pagingOffst addr : ℕ) : ℤ)
    pure (some (((value.getD 0).signExtend 32).setWidth 8))

def pgSetval (addr : ℤ) (value : Byte) : Call Bool := do
  match ← pgGetpage (pagingPgn addr) with
  | none => pure false
  | some fpn =>
    memphyWrite .mram ((fpn * 256 + pagingOffst addr : ℕ) : ℤ)
      ((value.signExtend 32).setWidth 8)
    pure true

def putBack : List ℕ → Call Unit
  | [] => pure ()
  | fpn :: fpHead => do
    putFreefp .mram fpn
    putBack fpHead

def allocPagesLoop : ℕ → List ℕ → Call (Option (List ℕ))
  | 0, fpHead => pure (some fpHead)
  | n + 1, fpHead => do
    match ← grabFrame with
    | some fpn => allocPagesLoop n (fpn :: fpHead)
    | none =>
      putBack fpHead
      pure none

def vmMapRam (mapstart incpgnum : ℤ) : Call (Option VmRg) := do
  match ← allocPagesLoop incpgnum.toNat [] with
  | none => pure none
  | some frmLst => own fun c =>
    (some (c.vmapPageRange mapstart incpgnum frmLst).1,
      (c.vmapPageRange mapstart incpgnum frmLst).2)

def incVmaLimit (vmaid incSz : ℤ) : Call Bool := do
  let mm ← getMm
  let incAmt := pagingPageAlignsz incSz
  let incnumpage := incAmt.tdiv pagingPagesz
  match mm.getVmaByNum vmaid, mm.getVmAreaNodeAtBrk vmaid incAmt with
  | some curVma, some area =>
    if incAmt ≤ 0 then pure false
    else if ¬ mm.validateOverlapVmArea vmaid (toInt area.rgStart) (toInt area.rgEnd) then
      pure false
    else
      match ← vmMapRam (toInt curVma.vmEnd) incnumpage with
      | none => pure false
      | some area =>
        let mm ← getMm
        setMm (mm.modifyVma vmaid fun v =>
          { v with
            vmEnd := toULong (v.vmEnd + incAmt)
            sbrk := toULong (v.sbrk + incAmt)
            vmFreergList := enlistFreerg v.vmFreergList area })
        pure true
  | _, _ => pure false

/-- `__sys_memmap` takes no lock, whoever calls it. -/
def sysMemmap (junk : ℕ → Byte) (a1 a2 a3 : BitVec 32) : Call Unit :=
  match Memop.ofCode a1 with
  | .map => pure ()
  | .inc => do
    let _ ← incVmaLimit a2.toInt a3.toInt
    pure ()
  | .swp => swapCpPageInt junk .mram a2.toInt (.mswp activeMswpId) a3.toInt
  | .ioRead => do
    let _ ← memphyRead .mram a2.toInt
    pure ()
  | .ioWrite => memphyWrite .mram a2.toInt (a3.setWidth 8)
  | .unknown => pure ()

def alloc (vmaid rgid size : ℤ) : Call (Option ℤ) :=
  match symIndex rgid with
  | none => pure none
  | some i =>
    if size ≤ 0 then pure none
    else do
      lock
      let mm ← getMm
      match mm.getFreeVmrgArea vmaid size with
      | some (rgnode, mm) =>
        setMm (mm.setSym i rgnode)
        unlock
        pure (some (toInt rgnode.rgStart))
      | none =>
        match mm.getVmaByNum vmaid with
        | none =>
          unlock
          pure none
        | some _ =>
          let _ ← incVmaLimit vmaid size
          let mm ← getMm
          match mm.getFreeVmrgArea vmaid size with
          | some (rgnode, mm) =>
            setMm (mm.setSym i rgnode)
            unlock
            pure (some (toInt rgnode.rgStart))
          | none =>
            unlock
            pure none

def free (vmaid rgid : ℤ) : Call Bool :=
  match symIndex rgid with
  | none => pure false
  | some i => do
    lock
    let mm ← getMm
    match mm.getVmaByNum vmaid with
    | none =>
      unlock
      pure false
    | some _ =>
      let rg := mm.symrgtbl i
      if rg.rgEnd ≤ rg.rgStart then
        unlock
        pure false
      else
        let rgnode : VmRg := ⟨toULong (toInt rg.rgStart), toULong (toInt rg.rgEnd)⟩
        setMm ((mm.setSym i ⟨0, 0⟩).modifyVma vmaid fun v =>
          { v with vmFreergList := enlistFreerg v.vmFreergList rgnode })
        unlock
        pure true

def read (vmaid rgid offset : ℤ) : Call (Option Byte) := do
  lock
  let mm ← getMm
  match symIndex rgid, mm.getVmaByNum vmaid with
  | some i, some _ =>
    let currg := mm.symrgtbl i
    if offset < 0 ∨ currg.rgEnd ≤ toULong (currg.rgStart + offset) then
      unlock
      pure none
    else
      let ret ← pgGetval (toInt (currg.rgStart + offset))
      unlock
      pure ret
  | _, _ =>
    unlock
    pure none

def write (vmaid rgid offset : ℤ) (value : Byte) : Call Bool := do
  lock
  let mm ← getMm
  match symIndex rgid, mm.getVmaByNum vmaid with
  | some i, some _ =>
    let currg := mm.symrgtbl i
    if offset < 0 ∨ currg.rgEnd ≤ toULong (currg.rgStart + offset) then
      unlock
      pure false
    else
      let ret ← pgSetval (toInt (currg.rgStart + offset)) value
      unlock
      pure ret
  | _, _ =>
    unlock
    pure false

def freePage (pagenum : ℕ) : Call Unit := do
  let mm ← getMm
  if ¬ pagingPagePresent (mm.pgd pagenum) then pure ()
  else if pagingPageSwapped (mm.pgd pagenum) then
    putFreefp (.mswp (pagingPteSwptyp (mm.pgd pagenum))) (pagingPteSwp (mm.pgd pagenum))
    setMm (mm.setPte pagenum 0)
  else
    putFreefp .mram (pagingFpn (mm.pgd pagenum))
    setMm (mm.setPte pagenum 0)

def freePages : List ℕ → Call Unit
  | [] => pure ()
  | pagenum :: l => do
    freePage pagenum
    freePages l

def freePcbMemph : Call Unit := freePages (List.range pagingMaxPgn)

def procName (memrg : ℤ) : ℕ → ℕ → Call (List Byte)
  | 0, _ => pure []
  | n + 1, i => do
    match ← read 0 memrg i with
    | none => pure []
    | some data =>
      if data = 0 ∨ data = -1 then pure []
      else
        let name ← procName memrg n (i + 1)
        pure (data :: name)

section
variable {ι : Type*} [DecidableEq ι]

/-- A call for process `p`; it has an `mm` as long as it is alive. -/
def asProc {α : Type} (p : ι) (dead : α) (m : Call α) : Prog (Kernel ι) Access α :=
  ⟨fun t =>
    match t.state.mm p with
    | none => (dead, t)
    | some mm => (zoom (fun s : Kernel ι => s.caller mm) (fun s c => s.commit p c) m).run t⟩

/-- The rest of `free_pcb`, behind the release of the frames, gives the tables back. -/
def freePcb (p : ι) : Prog (Kernel ι) Access Unit := do
  asProc p () do
    lock
    freePcbMemph
    unlock
  own fun s => ((), { s with mm := Function.update s.mm p none })

def freePcbs : List ι → Prog (Kernel ι) Access Unit
  | [] => pure ()
  | v :: vs => do
    freePcb v
    freePcbs vs

/-- Between the reads and the releases the call is in the scheduler. -/
def sysKillall (kill : List Byte → List ι) (p : ι) (memrg : BitVec 32) :
    Prog (Kernel ι) Access Unit := do
  match ← asProc p none (some <$> procName memrg.toInt procNameRounds 0) with
  | none => pure ()
  | some name => freePcbs (kill name)

def syscall (kill : List Byte → List ι) (junk : ℕ → Byte) (p : ι) (nr a1 a2 a3 : BitVec 32) :
    Prog (Kernel ι) Access Unit :=
  match SyscallEntry.ofNr nr with
  | .listsyscall => pure ()
  | .memmap => asProc p () (sysMemmap junk a1 a2 a3)
  | .killall => sysKillall kill p a1
  | .niSyscall => pure ()

/-- `run` for the instruction `ins` of process `p`. The register that READ sets belongs to
the process. -/
def run (kill : List Byte → List ι) (junk : ℕ → Byte) (p : ι) (ins : Instruction) :
    Prog (Kernel ι) Access Unit :=
  match ins.opcode with
  | .CALC => pure ()
  | .ALLOC => do
    let _ ← asProc p none (alloc 0 (ins.args 1).toInt (ins.args 0).toInt)
    pure ()
  | .FREE => do
    let _ ← asProc p false (free 0 (ins.args 0).toInt)
    pure ()
  | .READ => do
    let _ ← asProc p none (read 0 (ins.args 0).toInt (ins.args 1).toInt)
    pure ()
  | .WRITE => do
    let _ ← asProc p false
      (write 0 (ins.args 1).toInt (ins.args 2).toInt ((ins.args 0).setWidth 8))
    pure ()
  | .SYSCALL => syscall kill junk p (ins.args 0) (ins.args 1) (ins.args 2) (ins.args 3)

def Grows (c : Pcb) (vmaid incSz : ℤ) : Prop :=
  0 < pagingPageAlignsz incSz ∧ (c.mm.getVmaByNum vmaid).isSome ∧
    ∃ area, c.mm.getVmAreaNodeAtBrk vmaid (pagingPageAlignsz incSz) = some area ∧
      c.mm.validateOverlapVmArea vmaid (toInt area.rgStart) (toInt area.rgEnd) = true

/-- `__sys_memmap` executes a function of a shared device. -/
def UsesDevice (c : Pcb) (a1 a2 a3 : BitVec 32) : Prop :=
  match Memop.ofCode a1 with
  | .map => False
  | .inc => Grows c a2.toInt a3.toInt
  | .swp => True
  | .ioRead => True
  | .ioWrite => True
  | .unknown => False

/-- The instruction enters `__sys_memmap` directly and executes a function of a shared
device there. -/
def Unlocked (s : Kernel ι) (p : ι) (ins : Instruction) : Prop :=
  ins.opcode = .SYSCALL ∧ SyscallEntry.ofNr (ins.args 0) = .memmap ∧
    ∃ mm, s.mm p = some mm ∧
      UsesDevice (s.caller mm) (ins.args 1) (ins.args 2) (ins.args 3)

end

section Devices
variable (c : Pcb) (mp mp' : Memphy) {d d' : Device}

theorem device_setDevice_self : device (setDevice c mp d) d = mp := by
  cases d with
  | mram => rfl
  | mswp i => exact Function.update_self _ _ _

theorem device_setDevice_of_ne (h : d' ≠ d) : device (setDevice c mp d) d' = device c d' := by
  cases d with
  | mram =>
    cases d' with
    | mram => exact absurd rfl h
    | mswp j => rfl
  | mswp i =>
    cases d' with
    | mram => rfl
    | mswp j =>
      have hji : j ≠ i := fun he => h (congrArg Device.mswp he)
      exact Function.update_of_ne hji _ _

theorem setDevice_device : setDevice c (device c d) d = c := by
  cases d with
  | mram => rfl
  | mswp i => simp only [setDevice, device, Function.update_eq_self]

theorem setDevice_setDevice : setDevice (setDevice c mp d) mp' d = setDevice c mp' d := by
  cases d with
  | mram => rfl
  | mswp i => simp only [setDevice, Function.update_idem]

theorem setDevice_comm (h : d' ≠ d) :
    setDevice (setDevice c mp d) mp' d' = setDevice (setDevice c mp' d') mp d := by
  cases d with
  | mram =>
    cases d' with
    | mram => exact absurd rfl h
    | mswp j => rfl
  | mswp i =>
    cases d' with
    | mram => rfl
    | mswp j =>
      have hji : j ≠ i := fun he => h (congrArg Device.mswp he)
      simp only [setDevice, Function.update_comm hji]

end Devices

/-- One round of the copy loop on the two devices alone. -/
def cpCell (junk : ℕ → Byte) (addrsrc addrdst : ℕ → ℤ) (m : Memphy × Memphy) (cellidx : ℕ) :
    Memphy × Memphy :=
  ((m.1.read (addrsrc cellidx)).2,
    m.2.write (addrdst cellidx) ((m.1.read (addrsrc cellidx)).1.getD (junk cellidx)))

theorem computes_swapCpCells (junk : ℕ → Byte) {mpsrc mpdst : Device} (h : mpsrc ≠ mpdst)
    (addrsrc addrdst : ℕ → ℤ) (l : List ℕ) :
    Computes (swapCpCells junk mpsrc addrsrc mpdst addrdst l) fun c =>
      let m := l.foldl (cpCell junk addrsrc addrdst) (device c mpsrc, device c mpdst)
      ((), setDevice (setDevice c m.1 mpsrc) m.2 mpdst) := by
  induction l with
  | nil =>
    refine .of_unit fun t => ?_
    simp only [swapCpCells, run_pure, List.foldl_nil, setDevice_device]
  | cons i l ih =>
    refine .of_unit fun t => ?_
    simp only [swapCpCells, run_bind, (ih _).2, memphyRead, memphyWrite, touch, List.foldl_cons,
      device_setDevice_self, device_setDevice_of_ne _ _ h, device_setDevice_of_ne _ _ h.symm,
      cpCell]
    rw [setDevice_comm _ _ _ h, setDevice_setDevice, setDevice_setDevice]

theorem computes_swapCpPage {mpsrc mpdst : Device} (h : mpsrc ≠ mpdst) (f g : ℕ) :
    Computes (swapCpPage mpsrc f mpdst g) fun c =>
      let m := OSsim.swapCpPage (device c mpsrc) f (device c mpdst) g
      ((), setDevice (setDevice c m.1 mpsrc) m.2 mpdst) :=
  computes_swapCpCells _ h _ _ _

theorem computes_swapCpPageInt (junk : ℕ → Byte) {mpsrc mpdst : Device} (h : mpsrc ≠ mpdst)
    (f g : ℤ) :
    Computes (swapCpPageInt junk mpsrc f mpdst g) fun c =>
      let m := OSsim.swapCpPageInt junk (device c mpsrc) f (device c mpdst) g
      ((), setDevice (setDevice c m.1 mpsrc) m.2 mpdst) :=
  computes_swapCpCells _ h _ _ _

theorem computes_swapOutPage : Computes swapOutPage Pcb.swapOutPage := by
  intro t
  simp only [swapOutPage, run_bind, getMm, own, Pcb.swapOutPage]
  rcases t.state.mm.findVictimPage with _ | ⟨vicpgn, mm⟩
  · exact ⟨rfl, rfl⟩
  · simp only [run_bind, getFreefp, touch, device]
    rcases (t.state.mswp activeMswpId).getFreefp with _ | ⟨swpfpn, mswp⟩
    · exact ⟨rfl, rfl⟩
    · refine ⟨rfl, ?_⟩
      have hne : Device.mram ≠ .mswp activeMswpId := by simp
      simp only [run_bind, run_pure, setMm, own, (computes_swapCpPage hne _ _ _).2, device,
        setDevice, Function.update_self, Function.update_idem, Pcb.mmSwapPage]

theorem computes_grabFrame : Computes grabFrame Pcb.grabFrame := by
  intro t
  simp only [grabFrame, run_bind, getFreefp, touch, device, Pcb.grabFrame]
  rcases t.state.mram.getFreefp with _ | ⟨fpn, mram⟩
  · exact computes_swapOutPage _
  · exact ⟨rfl, rfl⟩

theorem computes_pgGetpage (pgn : ℕ) : Computes (pgGetpage pgn) fun c => c.pgGetpage pgn := by
  intro t
  simp only [pgGetpage, run_bind, getMm, own, Pcb.pgGetpage]
  split_ifs
  · exact ⟨rfl, rfl⟩
  · simp only [run_bind]
    rcases hg : t.state.grabFrame with ⟨_ | tgtfpn, c⟩
    · obtain ⟨hval, hstate⟩ := computes_grabFrame.of_eq hg
      simp only [hval]
      exact ⟨rfl, hstate⟩
    · obtain ⟨hval, hstate⟩ := computes_grabFrame.of_eq hg
      have hne : Device.mswp (pagingPteSwptyp (t.state.mm.pgd pgn)) ≠ .mram := by simp
      simp only [hval, run_bind, run_pure, setMm, own, putFreefp, touch,
        (computes_swapCpPage hne _ _ _).2, hstate, device, setDevice, Function.update_self,
        Function.update_idem, and_self]
  · exact ⟨rfl, rfl⟩
  · exact ⟨rfl, rfl⟩

theorem computes_pgGetval (addr : ℤ) : Computes (pgGetval addr) fun c => c.pgGetval addr := by
  intro t
  simp only [pgGetval, run_bind, Pcb.pgGetval]
  rcases hg : t.state.pgGetpage (pagingPgn addr) with ⟨_ | fpn, c⟩
  · obtain ⟨hval, hstate⟩ := (computes_pgGetpage _).of_eq hg
    simp only [hval]
    exact ⟨rfl, hstate⟩
  · obtain ⟨hval, hstate⟩ := (computes_pgGetpage _).of_eq hg
    simp only [hval, run_bind, run_pure, memphyRead, touch, hstate, device, setDevice, and_self]

theorem computes_pgSetval (addr : ℤ) (value : Byte) :
    Computes (pgSetval addr value) fun c => c.pgSetval addr value := by
  intro t
  simp only [pgSetval, run_bind, Pcb.pgSetval]
  rcases hg : t.state.pgGetpage (pagingPgn addr) with ⟨_ | fpn, c⟩
  · obtain ⟨hval, hstate⟩ := (computes_pgGetpage _).of_eq hg
    simp only [hval]
    exact ⟨rfl, hstate⟩
  · obtain ⟨hval, hstate⟩ := (computes_pgGetpage _).of_eq hg
    simp only [hval, run_bind, run_pure, memphyWrite, touch, hstate, device, setDevice, and_self]

theorem computes_putBack (fpHead : List ℕ) :
    Computes (putBack fpHead) fun c =>
      ((), { c with mram := fpHead.foldl Memphy.putFreefp c.mram }) := by
  induction fpHead with
  | nil => exact fun _ => ⟨rfl, rfl⟩
  | cons fpn fpHead ih => exact fun _ => ⟨rfl, (ih _).2⟩

theorem computes_allocPagesLoop (n : ℕ) (fpHead : List ℕ) :
    Computes (allocPagesLoop n fpHead) (Pcb.allocPagesLoop n fpHead) := by
  induction n generalizing fpHead with
  | zero => exact fun _ => ⟨rfl, rfl⟩
  | succ n ih =>
    intro t
    simp only [allocPagesLoop, run_bind, Pcb.allocPagesLoop]
    rcases hg : t.state.grabFrame with ⟨_ | fpn, c⟩
    · obtain ⟨hval, hstate⟩ := computes_grabFrame.of_eq hg
      simp only [hval, run_bind, run_pure, (computes_putBack fpHead _).2, hstate, and_self]
    · obtain ⟨hval, hstate⟩ := computes_grabFrame.of_eq hg
      simp only [hval]
      rw [← hstate]
      exact ih (fpn :: fpHead) _

theorem computes_vmMapRam (astart aend mapstart incpgnum : ℤ) :
    Computes (vmMapRam mapstart incpgnum) fun c => c.vmMapRam astart aend mapstart incpgnum := by
  intro t
  simp only [vmMapRam, run_bind, Pcb.vmMapRam, Pcb.allocPagesRange]
  rcases hg : t.state.allocPagesLoop incpgnum.toNat [] with ⟨_ | frmLst, c⟩
  · obtain ⟨hval, hstate⟩ := (computes_allocPagesLoop _ _).of_eq hg
    simp only [hval]
    exact ⟨rfl, hstate⟩
  · obtain ⟨hval, hstate⟩ := (computes_allocPagesLoop _ _).of_eq hg
    simp only [hval, own, hstate, and_self]

theorem computes_incVmaLimit (vmaid incSz : ℤ) :
    Computes (incVmaLimit vmaid incSz) fun c => c.incVmaLimit vmaid incSz := by
  intro t
  simp only [incVmaLimit, run_bind, getMm, own, Pcb.incVmaLimit]
  rcases t.state.mm.getVmaByNum vmaid with _ | curVma
  · exact ⟨rfl, rfl⟩
  rcases t.state.mm.getVmAreaNodeAtBrk vmaid (pagingPageAlignsz incSz) with _ | area
  · exact ⟨rfl, rfl⟩
  dsimp only
  split_ifs
  · exact ⟨rfl, rfl⟩
  · simp only [run_bind]
    rcases hg : t.state.vmMapRam (toInt area.rgStart) (toInt area.rgEnd) (toInt curVma.vmEnd)
      ((pagingPageAlignsz incSz).tdiv pagingPagesz) with ⟨_ | area, c⟩
    · obtain ⟨hval, hstate⟩ := (computes_vmMapRam _ _ _ _).of_eq hg
      simp only [hval]
      exact ⟨rfl, hstate⟩
    · obtain ⟨hval, hstate⟩ := (computes_vmMapRam _ _ _ _).of_eq hg
      simp only [hval, run_bind, run_pure, setMm, own, hstate, and_self]
  · exact ⟨rfl, rfl⟩

theorem computes_sysMemmap (junk : ℕ → Byte) (a1 a2 a3 : BitVec 32) :
    Computes (sysMemmap junk a1 a2 a3) fun c => ((), c.sysMemmap junk a1 a2 a3) := by
  refine .of_unit fun t => ?_
  simp only [sysMemmap, Pcb.sysMemmap]
  cases Memop.ofCode a1 with
  | map => rfl
  | inc => exact (computes_incVmaLimit _ _ t).2
  | swp =>
    have hne : Device.mram ≠ .mswp activeMswpId := by simp
    simp only [(computes_swapCpPageInt junk hne _ _ t).2, device, setDevice]
  | ioRead => rfl
  | ioWrite => rfl
  | unknown => rfl

theorem computes_alloc (vmaid rgid size : ℤ) :
    Computes (alloc vmaid rgid size) fun c => c.alloc vmaid rgid size := by
  intro t
  simp only [alloc, Pcb.alloc]
  rcases symIndex rgid with _ | i
  · exact ⟨rfl, rfl⟩
  dsimp only
  split_ifs
  · exact ⟨rfl, rfl⟩
  simp only [run_bind, lock, getMm, own]
  rcases t.state.mm.getFreeVmrgArea vmaid size with _ | ⟨rgnode, mm⟩
  swap
  · exact ⟨rfl, rfl⟩
  rcases t.state.mm.getVmaByNum vmaid with _ | _
  · exact ⟨rfl, rfl⟩
  simp only [run_bind, (computes_incVmaLimit _ _ _).2]
  rcases (t.state.incVmaLimit vmaid size).2.mm.getFreeVmrgArea vmaid size with _ | ⟨rgnode, mm⟩
  · exact ⟨rfl, rfl⟩
  · exact ⟨rfl, rfl⟩

theorem computes_free (vmaid rgid : ℤ) :
    Computes (free vmaid rgid) fun c => c.free vmaid rgid := by
  intro t
  simp only [free, Pcb.free]
  rcases symIndex rgid with _ | i
  · exact ⟨rfl, rfl⟩
  simp only [run_bind, lock, getMm, own]
  rcases t.state.mm.getVmaByNum vmaid with _ | _
  · exact ⟨rfl, rfl⟩
  dsimp only
  split_ifs
  · exact ⟨rfl, rfl⟩
  · exact ⟨rfl, rfl⟩

theorem computes_read (vmaid rgid offset : ℤ) :
    Computes (read vmaid rgid offset) fun c => c.read vmaid rgid offset := by
  intro t
  simp only [read, run_bind, lock, getMm, own, Pcb.read]
  rcases symIndex rgid with _ | i
  · exact ⟨rfl, rfl⟩
  rcases t.state.mm.getVmaByNum vmaid with _ | _
  · exact ⟨rfl, rfl⟩
  dsimp only
  split_ifs
  · exact ⟨rfl, rfl⟩
  · exact computes_pgGetval _ _

theorem computes_write (vmaid rgid offset : ℤ) (value : Byte) :
    Computes (write vmaid rgid offset value) fun c => c.write vmaid rgid offset value := by
  intro t
  simp only [write, run_bind, lock, getMm, own, Pcb.write]
  rcases symIndex rgid with _ | i
  · exact ⟨rfl, rfl⟩
  rcases t.state.mm.getVmaByNum vmaid with _ | _
  · exact ⟨rfl, rfl⟩
  dsimp only
  split_ifs
  · exact ⟨rfl, rfl⟩
  · exact computes_pgSetval _ _ _

theorem computes_freePages (l : List ℕ) :
    Computes (freePages l) fun c => ((), l.foldl Pcb.freePage c) := by
  induction l with
  | nil => exact fun _ => ⟨rfl, rfl⟩
  | cons pagenum l ih =>
    have hpage : Computes (freePage pagenum) fun c => ((), c.freePage pagenum) := by
      refine .of_unit fun t => ?_
      simp only [freePage, run_bind, getMm, own, Pcb.freePage]
      split_ifs
      · rfl
      · rfl
      · rfl
    exact .bind hpage fun _ => ih

theorem computes_freePcbMemph : Computes freePcbMemph fun c => ((), c.freePcbMemph) := by
  simp only [freePcbMemph, Pcb.freePcbMemph]
  exact computes_freePages _

theorem computes_procName (memrg : ℤ) (n i : ℕ) :
    Computes (procName memrg n i) (Pcb.procName memrg n i) := by
  induction n generalizing i with
  | zero => exact fun _ => ⟨rfl, rfl⟩
  | succ n ih =>
    intro t
    simp only [procName, run_bind, Pcb.procName]
    rcases hg : t.state.read 0 memrg i with ⟨_ | data, c⟩
    · obtain ⟨hval, hstate⟩ := (computes_read _ _ _).of_eq hg
      simp only [hval]
      exact ⟨rfl, hstate⟩
    · obtain ⟨hval, hstate⟩ := (computes_read _ _ _).of_eq hg
      simp only [hval]
      split_ifs
      · exact ⟨rfl, hstate⟩
      · obtain ⟨hval', hstate'⟩ := ih (i + 1) ((read 0 memrg i).run t).2
        simp only [run_bind, run_pure, hval', hstate', hstate, and_self]

section
variable {ι : Type*} [DecidableEq ι] {α : Type}

theorem run_asProc_dead {p : ι} {t : Thread (Kernel ι) Access} (hp : t.state.mm p = none)
    (dead : α) (m : Call α) : (asProc p dead m).run t = (dead, t) := by
  simp only [asProc, hp]

theorem run_asProc_alive {p : ι} {t : Thread (Kernel ι) Access} {mm : Mm}
    (hp : t.state.mm p = some mm) (dead : α) (m : Call α) :
    (asProc p dead m).run t =
      (zoom (fun s : Kernel ι => s.caller mm) (fun s c => s.commit p c) m).run t := by
  simp only [asProc, hp]

theorem computes_asProc (p : ι) (dead : α) {m : Call α} {f : Pcb → α × Pcb} (h : Computes m f) :
    Computes (asProc p dead m) fun s =>
      match s.mm p with
      | none => (dead, s)
      | some mm => ((f (s.caller mm)).1, s.commit p (f (s.caller mm)).2) := by
  intro t
  rcases hp : t.state.mm p with _ | mm
  · rw [run_asProc_dead hp]
    simp only [hp, and_self]
  · obtain ⟨hval, hstate⟩ := h ⟨t.state.caller mm, t.held, t.log⟩
    rw [run_asProc_alive hp]
    simp only [zoom, hp, hval, hstate, and_self]

theorem computes_released (p : ι) {m : Call Unit} {f : Pcb → Pcb}
    (h : Computes m fun c => ((), f c)) (t : Thread (Kernel ι) Access) :
    ((do
        asProc p () (do lock; m; unlock)
        own fun s => ((), { s with mm := Function.update s.mm p none }) :
          Prog (Kernel ι) Access Unit).run t).2.state =
      match t.state.mm p with
      | none => t.state
      | some mm => ⟨(f (t.state.caller mm)).mram, (f (t.state.caller mm)).mswp,
          Function.update t.state.mm p none⟩ := by
  have hbody : Computes (do lock; m; unlock : Call Unit) fun c => ((), f c) := by
    refine .of_unit fun t => ?_
    simp only [run_bind, lock, unlock, (h _).2]
  simp only [run_bind, own, (computes_asProc p () hbody t).2]
  rcases hp : t.state.mm p with _ | mm
  · simp only
    rw [← hp, Function.update_eq_self]
  · simp only [Kernel.commit, Function.update_idem]

theorem computes_freePcb (p : ι) :
    Computes (freePcb p) fun s => ((), (s.step (.release p)).2) := by
  refine .of_unit fun t => ?_
  rw [freePcb, computes_released p computes_freePcbMemph t]
  rcases hp : t.state.mm p with _ | mm
  · simp only [Kernel.step, hp]
  · rw [Kernel.step_release hp]

theorem computes_freePcbs (vs : List ι) :
    Computes (freePcbs vs) fun s =>
      ((), vs.foldl (fun s v => (s.step (.release v)).2) s) := by
  induction vs with
  | nil => exact fun _ => ⟨rfl, rfl⟩
  | cons v vs ih => exact .bind (computes_freePcb v) fun _ => ih

theorem computes_syscall (kill : List Byte → List ι) (junk : ℕ → Byte) (p : ι)
    (nr a1 a2 a3 : BitVec 32) :
    Computes (syscall kill junk p nr a1 a2 a3) fun s =>
      ((), s.syscall kill junk p nr a1 a2 a3) := by
  refine .of_unit fun t => ?_
  simp only [syscall, Kernel.syscall]
  cases SyscallEntry.ofNr nr with
  | listsyscall => rcases t.state.mm p with _ | mm <;> rfl
  | niSyscall => rcases t.state.mm p with _ | mm <;> rfl
  | memmap =>
    have hcall := (computes_asProc p () (computes_sysMemmap junk a1 a2 a3) t).2
    simp only [hcall]
    rcases t.state.mm p with _ | mm <;> rfl
  | killall =>
    have hname : Computes (some <$> procName a1.toInt procNameRounds 0) fun c =>
        (some (c.procName a1.toInt procNameRounds 0).1,
          (c.procName a1.toInt procNameRounds 0).2) :=
      .bind (computes_procName _ _ _) fun name => .pure (some name)
    simp only [sysKillall, run_bind]
    rcases hp : t.state.mm p with _ | mm
    · rw [run_asProc_dead hp]
      rfl
    · obtain ⟨hval, hstate⟩ := computes_asProc p none hname t
      simp only [hp] at hval hstate
      simp only [hval, (computes_freePcbs _ _).2, hstate]

/-- What the memory model does for the instruction. -/
def stepOf (kill : List Byte → List ι) (junk : ℕ → Byte) (p : ι) (ins : Instruction)
    (s : Kernel ι) : Kernel ι :=
  match ins.opcode with
  | .CALC => s
  | .ALLOC => (s.step (.exec p (.alloc (ins.args 0) (ins.args 1)))).2
  | .FREE => (s.step (.exec p (.free (ins.args 0)))).2
  | .READ => (s.step (.exec p (.read (ins.args 0) (ins.args 1)))).2
  | .WRITE => (s.step (.exec p (.write ((ins.args 0).setWidth 8) (ins.args 1) (ins.args 2)))).2
  | .SYSCALL => s.syscall kill junk p (ins.args 0) (ins.args 1) (ins.args 2) (ins.args 3)

theorem computes_exec {β : Type} (p : ι) (dead : α) {m : Call α} {f : Pcb → α × Pcb} (i : Instr)
    (h : Computes m f) (hf : ∀ c, (c.exec i).2 = (f c).2) (b : β) :
    Computes (do let _ ← asProc p dead m; pure b) fun s => (b, (s.step (.exec p i)).2) := by
  refine fun t => ⟨rfl, ?_⟩
  simp only [run_bind, run_pure, (computes_asProc p dead h t).2, Kernel.step]
  rcases t.state.mm p with _ | mm
  · rfl
  · simp only [hf]

/-- The functions with the lock are those of the memory model. -/
theorem computes_run (kill : List Byte → List ι) (junk : ℕ → Byte) (p : ι) (ins : Instruction) :
    Computes (run kill junk p ins) fun s => ((), stepOf kill junk p ins s) := by
  obtain ⟨opcode, args⟩ := ins
  cases opcode with
  | CALC => exact .pure ()
  | ALLOC => exact computes_exec p none _ (computes_alloc _ _ _) (fun _ => rfl) ()
  | FREE => exact computes_exec p false _ (computes_free _ _) (fun _ => rfl) ()
  | READ => exact computes_exec p none _ (computes_read _ _ _) (fun _ => rfl) ()
  | WRITE => exact computes_exec p false _ (computes_write _ _ _ _) (fun _ => rfl) ()
  | SYSCALL => exact computes_syscall kill junk p _ _ _ _

end
end OSsim.Locked
