import OSsim.Conservation

/-!
# System calls of a program

`libsyscall` passes the arguments of a SYSCALL instruction to `syscall`, which
dispatches on the table of `syscalltbl.lst`. The handlers are the ones the memory
library itself uses: `__sys_memmap` grows an area, copies a frame to swap, or reads and
writes a byte of RAM, for whatever arguments it gets. `__sys_killall` reads a name from
the memory of its caller and releases the processes that the scheduler takes out of its
queues for it; which these are is a parameter here.
-/

namespace OSsim

inductive Memop
  | map
  | inc
  | swp
  | ioRead
  | ioWrite
  | unknown

def Memop.ofCode (a1 : BitVec 32) : Memop :=
  if a1 = 1 then map
  else if a1 = 2 then inc
  else if a1 = 3 then swp
  else if a1 = 4 then ioRead
  else if a1 = 5 then ioWrite
  else unknown

inductive SyscallEntry
  | listsyscall
  | memmap
  | killall
  | niSyscall
  deriving DecidableEq

/-- The table of `syscalltbl.lst`. -/
def SyscallEntry.ofNr (nr : BitVec 32) : SyscallEntry :=
  if nr = 0 then listsyscall
  else if nr = 17 then memmap
  else if nr = 101 then killall
  else niSyscall

/-- One round of the copy loop of `__swap_cp_page` for the frame numbers of a program:
the addresses are computed in `int`, and where the read fails `data` is uninitialised,
which `junk` stands for. -/
def swapCpCellInt (junk : ℕ → Byte) (srcfpn dstfpn : ℤ) (m : Memphy × Memphy) (cellidx : ℕ) :
    Memphy × Memphy :=
  let addrsrc := toInt (toInt (srcfpn * pagingPagesz) + cellidx)
  let addrdst := toInt (toInt (dstfpn * pagingPagesz) + cellidx)
  let data := m.1.read addrsrc
  (data.2, m.2.write addrdst (data.1.getD (junk cellidx)))

def swapCpPageInt (junk : ℕ → Byte) (mpsrc : Memphy) (srcfpn : ℤ) (mpdst : Memphy) (dstfpn : ℤ) :
    Memphy × Memphy :=
  (List.range pagingPagesz).foldl (swapCpCellInt junk srcfpn dstfpn) (mpsrc, mpdst)

namespace Pcb
variable (c : Pcb)

def sysMemmap (junk : ℕ → Byte) (a1 a2 a3 : BitVec 32) : Pcb :=
  match Memop.ofCode a1 with
  | .map => c
  | .inc => (c.incVmaLimit a2.toInt a3.toInt).2
  | .swp =>
    let m := swapCpPageInt junk c.mram a2.toInt (c.mswp activeMswpId) a3.toInt
    { c with mram := m.1, mswp := Function.update c.mswp activeMswpId m.2 }
  | .ioRead => { c with mram := (c.mram.read a2.toInt).2 }
  | .ioWrite => { c with mram := c.mram.write a2.toInt (a3.setWidth 8) }
  | .unknown => c

/-- The loop of `__sys_killall` from its `i`-th round on, at most `n` rounds: the name and
what the reads leave. -/
def procName (memrg : ℤ) : ℕ → ℕ → Pcb → List Byte × Pcb
  | 0, _, c => ([], c)
  | n + 1, i, c =>
    match c.read 0 memrg i with
    | (none, c) => ([], c)
    | (some data, c) =>
      if data = 0 ∨ data = -1 then ([], c)
      else
        let r := procName memrg n (i + 1) c
        (data :: r.1, r.2)

end Pcb

/-- `PROC_NAME_MAX - 1`. -/
def procNameRounds : ℕ := 99

namespace Kernel
variable {ι : Type*} [DecidableEq ι] (s : Kernel ι)

/-- The processes that the call takes out of the queues and releases. -/
def victims (kill : List Byte → List ι) (p : ι) (nr a1 : BitVec 32) : List ι :=
  match s.mm p, SyscallEntry.ofNr nr with
  | some mm, .killall => kill ((s.caller mm).procName a1.toInt procNameRounds 0).1
  | _, _ => []

def syscall (kill : List Byte → List ι) (junk : ℕ → Byte) (p : ι) (nr a1 a2 a3 : BitVec 32) :
    Kernel ι :=
  match s.mm p with
  | none => s
  | some mm =>
    match SyscallEntry.ofNr nr with
    | .listsyscall => s
    | .memmap => s.commit p ((s.caller mm).sysMemmap junk a1 a2 a3)
    | .killall =>
      let r := (s.caller mm).procName a1.toInt procNameRounds 0
      (kill r.1).foldl (fun s v => (s.step (.release v)).2) (s.commit p r.2)
    | .niSyscall => s

end Kernel

/-- The instructions of a program, with the SYSCALL instruction. -/
inductive SysOp (ι : Type*)
  | op (op : Op ι)
  | syscall (kill : List Byte → List ι) (junk : ℕ → Byte) (p : ι) (nr a1 a2 a3 : BitVec 32)

namespace Kernel
variable {ι : Type*} [DecidableEq ι]

def sysStep (s : Kernel ι) : SysOp ι → Kernel ι
  | .op op => (s.step op).2
  | .syscall kill junk p nr a1 a2 a3 => s.syscall kill junk p nr a1 a2 a3

def NextSys (s : Kernel ι) (op : SysOp ι) (s' : Kernel ι) : Prop :=
  s' = s.sysStep op ∧ s'.VmBounded

end Kernel

namespace Memphy
variable (mp : Memphy)

theorem read_fst (addr : ℤ) : (mp.read addr).1 =
    if addr < 0 ∨ mp.maxsz ≤ addr then none else some (mp.storage addr.toNat) := by
  unfold read seqRead
  split_ifs <;> rfl

theorem write_eq_update (addr : ℤ) (b : Byte) : (mp.write addr b).storage =
    if addr < 0 ∨ mp.maxsz ≤ addr then mp.storage
    else Function.update mp.storage addr.toNat b := by
  unfold write seqWrite
  split_ifs <;> rfl

theorem write_storage_at (addr : ℤ) (b : Byte) {n : ℕ} (hn : (n : ℤ) < mp.maxsz) :
    (mp.write addr b).storage n = if addr = n then b else mp.storage n := by
  rw [write_eq_update]
  split_ifs with hout he he
  · omega
  · rfl
  · rw [he, Int.toNat_natCast, Function.update_self]
  · rw [Function.update_of_ne (by omega)]

end Memphy

theorem toInt_mul_pagesz (x : ℤ) {i : ℕ} (hi : i < 256) :
    toInt (toInt (x * pagingPagesz) + i) = toInt (x * pagingPagesz) + i ∧
      toInt (x * pagingPagesz) % 256 = 0 := by
  simp only [toInt, pagingPagesz]
  omega

section Copy
variable (junk : ℕ → Byte) (src dst : Memphy) (f g : ℤ)

/-- The byte that the copy loop stores in cell `i`. -/
def cpData (i : ℕ) : Byte := (src.read (toInt (f * pagingPagesz) + i)).1.getD (junk i)

def swapCpPrefixInt (n : ℕ) : Memphy × Memphy :=
  (List.range n).foldl (swapCpCellInt junk f g) (src, dst)

theorem swapCpPrefixInt_succ (n : ℕ) : swapCpPrefixInt junk src dst f g (n + 1) =
    swapCpCellInt junk f g (swapCpPrefixInt junk src dst f g n) n := by
  rw [swapCpPrefixInt, List.range_succ, List.foldl_append]
  rfl

theorem swapCpPrefixInt_frame (n : ℕ) :
    (swapCpPrefixInt junk src dst f g n).1.storage = src.storage ∧
    (swapCpPrefixInt junk src dst f g n).1.maxsz = src.maxsz ∧
    (swapCpPrefixInt junk src dst f g n).1.freeFpList = src.freeFpList ∧
    (swapCpPrefixInt junk src dst f g n).2.maxsz = dst.maxsz ∧
    (swapCpPrefixInt junk src dst f g n).2.freeFpList = dst.freeFpList := by
  induction n with
  | zero => exact ⟨rfl, rfl, rfl, rfl, rfl⟩
  | succ n ih =>
    obtain ⟨h1, h2, h3, h4, h5⟩ := ih
    rw [swapCpPrefixInt_succ]
    simp only [swapCpCellInt, Memphy.read_storage, Memphy.read_maxsz, Memphy.read_freeFpList,
      Memphy.write_maxsz, Memphy.write_freeFpList]
    exact ⟨h1, h2, h3, h4, h5⟩

theorem swapCpPrefixInt_storage {w : ℕ} (hw : w < dst.numfp) {n : ℕ} (hn : n ≤ 256) {i : ℕ}
    (hi : i < 256) :
    (swapCpPrefixInt junk src dst f g n).2.storage (w * 256 + i) =
      if i < n ∧ toInt (g * pagingPagesz) = ((w * 256 : ℕ) : ℤ) then cpData junk src f i
      else dst.storage (w * 256 + i) := by
  induction n with
  | zero => simp [swapCpPrefixInt]
  | succ n ih =>
    obtain ⟨h1, h2, _, h4, _⟩ := swapCpPrefixInt_frame junk src dst f g n
    have hmax := dst.mul_pagesz_le_maxsz hw
    obtain ⟨haddr, halign⟩ := toInt_mul_pagesz g (show n < 256 by omega)
    have hsrc := (toInt_mul_pagesz f (show n < 256 by omega)).1
    rw [swapCpPrefixInt_succ]
    simp only [swapCpCellInt]
    rw [Memphy.write_eq_update, haddr, hsrc, h4, Memphy.read_fst, h1, h2, ← Memphy.read_fst,
      ← cpData]
    by_cases hhit : toInt (g * pagingPagesz) + n = ((w * 256 + i : ℕ) : ℤ)
    · have hin : i = n ∧ toInt (g * pagingPagesz) = ((w * 256 : ℕ) : ℤ) := by omega
      rw [if_neg (by omega), hhit, Int.toNat_natCast, Function.update_self,
        if_pos ⟨by omega, hin.2⟩, hin.1]
    · have hsame : (i < n + 1 ∧ toInt (g * pagingPagesz) = ((w * 256 : ℕ) : ℤ)) ↔
          (i < n ∧ toInt (g * pagingPagesz) = ((w * 256 : ℕ) : ℤ)) := by omega
      simp only [hsame]
      rw [← ih (by omega)]
      split_ifs with hout
      · rfl
      · rw [Function.update_of_ne (by omega)]

theorem swapCpPageInt_eq :
    swapCpPageInt junk src f dst g = swapCpPrefixInt junk src dst f g 256 := rfl

theorem swapCpPageInt_storage {w : ℕ} (hw : w < dst.numfp) {i : ℕ} (hi : i < 256) :
    (swapCpPageInt junk src f dst g).2.storage (w * 256 + i) =
      if toInt (g * pagingPagesz) = ((w * 256 : ℕ) : ℤ) then cpData junk src f i
      else dst.storage (w * 256 + i) := by
  rw [swapCpPageInt_eq, swapCpPrefixInt_storage junk src dst f g hw le_rfl hi]
  simp only [hi, true_and]

end Copy

theorem swapCpCellInt_natCast {f g i : ℕ} (hf : f < 2 ^ 23) (hg : g < 2 ^ 23) (hi : i < 256)
    (m : Memphy × Memphy) :
    swapCpCellInt (fun _ => 0) f g m i = swapCpCell f g m i := by
  have haddr : ∀ n : ℕ, n < 2 ^ 23 →
      toInt (toInt (n * pagingPagesz) + i) = ((n * pagingPagesz + i : ℕ) : ℤ) := by
    intro n hn
    rw [(toInt_mul_pagesz n hi).1, toInt_of_mem (by simp only [pagingPagesz]; omega)
      (by simp only [pagingPagesz]; omega)]
    push_cast
    rfl
  simp only [swapCpCellInt, swapCpCell, haddr f hf, haddr g hg]

/-- `__swap_out_page` calls the handler with frame numbers of page table entries. For them
it is `mmSwapPage`. -/
theorem Pcb.sysMemmap_swp (c : Pcb) {f g : ℕ} (hf : f < 2 ^ 23) (hg : g < 2 ^ 23) :
    c.sysMemmap (fun _ => 0) 3 (BitVec.ofNat 32 f) (BitVec.ofNat 32 g) = c.mmSwapPage f g := by
  have harg : ∀ n : ℕ, n < 2 ^ 23 → (BitVec.ofNat 32 n).toInt = n :=
    fun n hn => toInt_ofNat_word (by omega)
  have hcopy : swapCpPageInt (fun _ => 0) c.mram f (c.mswp activeMswpId) g =
      swapCpPage c.mram f (c.mswp activeMswpId) g := by
    apply List.foldl_ext
    intro m i hi
    exact swapCpCellInt_natCast hf hg (List.mem_range.mp hi) m
  have hop : Memop.ofCode 3 = .swp := rfl
  simp only [Pcb.sysMemmap, hop, Pcb.mmSwapPage, harg f hf, harg g hg, hcopy]

end OSsim
