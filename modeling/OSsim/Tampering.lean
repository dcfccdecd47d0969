import OSsim.Access
import OSsim.FlatMemory
import OSsim.Syscall

/-!
# What a system call does to other processes

A SYSCALL instruction reaches the handlers of the memory library with arguments of the
program's choice. Growing an area, reading RAM and killing processes leave the memory of
every other process that survives as it was. Writing a byte of RAM and copying a frame to
swap check nothing but the size of the device, so they spare the others only if the place
they write to happens to hold none of their bytes, or the same ones.
-/

namespace OSsim

def Mm.Allocated (mm : Mm) (va : ℕ) : Prop :=
  ∃ i, (mm.symrgtbl i).rgStart ≤ va ∧ va < (mm.symrgtbl i).rgEnd

namespace Kernel
variable {ι : Type*} [DecidableEq ι]

/-- What a READ of `q` returns in `s` it returns in `s'`, unless the page of the byte cannot
be brought into RAM there. -/
def Rereads (s s' : Kernel ι) (q : ι) : Prop :=
  ∀ rgid offset b, (s.step (.exec q (.read rgid offset))).1 = .byte b →
    (s'.step (.exec q (.read rgid offset))).1 = .byte b ∨
    ((s'.step (.exec q (.read rgid offset))).1 = .failed ∧ ∃ mm va, s'.mm q = some mm ∧
      (s'.caller mm).Accesses rgid.toInt offset.toInt va ∧ ¬ s'.Loadable mm (va / 256))

/-- Process `q` finds its memory in `s'` as it was in `s`: its tables, every byte of its
regions wherever the page of the byte is, and what its READ instructions return. -/
structure Untouched (s s' : Kernel ι) (q : ι) : Prop where
  tables : ∀ mm, s.mm q = some mm →
    ∃ mm', s'.mm q = some mm' ∧ mm'.pgd = mm.pgd ∧ mm'.symrgtbl = mm.symrgtbl
  bytes : ∀ mm mm' va, s.mm q = some mm → s'.mm q = some mm' → mm.Allocated va →
    (s'.caller mm').pageByte (va / 256) (va % 256) = (s.caller mm).pageByte (va / 256) (va % 256)
  reads : Rereads s s' q
  rereads : Rereads s' s q

/-- Storing `data` at address `addr` of RAM changes no allocated byte of another process. -/
def WriteSpares (s : Kernel ι) (p : ι) (addr : ℤ) (data : Byte) : Prop :=
  ∀ q mm va, q ≠ p → s.mm q = some mm → mm.Allocated va → Resident (mm.pgd (va / 256)) →
    addr = ((pagingFpn (mm.pgd (va / 256)) * 256 + va % 256 : ℕ) : ℤ) →
    data = s.mram.storage (pagingFpn (mm.pgd (va / 256)) * 256 + va % 256)

/-- Copying RAM frame `srcfpn` over swap frame `dstfpn` changes no allocated byte of
another process. -/
def CopySpares (s : Kernel ι) (p : ι) (junk : ℕ → Byte) (srcfpn dstfpn : ℤ) : Prop :=
  ∀ q mm va, q ≠ p → s.mm q = some mm → mm.Allocated va → Swapped (mm.pgd (va / 256)) →
    toInt (dstfpn * pagingPagesz) = ((pagingPteSwp (mm.pgd (va / 256)) * 256 : ℕ) : ℤ) →
    cpData junk s.mram srcfpn (va % 256) =
      (s.mswp activeMswpId).storage (pagingPteSwp (mm.pgd (va / 256)) * 256 + va % 256)

def Harmless (s : Kernel ι) (p : ι) (junk : ℕ → Byte) (nr a1 a2 a3 : BitVec 32) : Prop :=
  match SyscallEntry.ofNr nr, Memop.ofCode a1 with
  | .memmap, .ioWrite => s.WriteSpares p a2.toInt (a3.setWidth 8)
  | .memmap, .swp => s.CopySpares p junk a2.toInt a3.toInt
  | _, _ => True

/-- The whole address space of `q` is the same, and so are its allocated bytes. -/
structure Spares (s s' : Kernel ι) (q : ι) : Prop where
  mm : s'.mm q = s.mm q
  bytes : ∀ mm, s.mm q = some mm → ∀ va, mm.Allocated va →
    (s'.caller mm).pageByte (va / 256) (va % 256) = (s.caller mm).pageByte (va / 256) (va % 256)

omit [DecidableEq ι] in
theorem Spares.refl (s : Kernel ι) (q : ι) : Spares s s q := ⟨rfl, fun _ _ _ _ => rfl⟩

omit [DecidableEq ι] in
theorem Spares.trans {s s' s'' : Kernel ι} {q : ι} (h : Spares s s' q) (h' : Spares s' s'' q) :
    Spares s s'' q :=
  ⟨h'.mm.trans h.mm, fun mm hq va hva =>
    (h'.bytes mm (h.mm.trans hq) va hva).trans (h.bytes mm hq va hva)⟩

theorem commit_caller {s : Kernel ι} {p : ι} {mm : Mm} (hp : s.mm p = some mm) :
    s.commit p (s.caller mm) = s := by
  have hmm : Function.update s.mm p (some mm) = s.mm := by
    rw [← hp]
    exact Function.update_eq_self p s.mm
  simp only [commit, caller, hmm]

theorem commit_commit (s : Kernel ι) (p : ι) (c c' : Pcb) :
    (s.commit p c).commit p c' = s.commit p c' := by
  simp only [commit, Function.update_idem]

section
variable [Fintype ι] {nr ns : ℕ} {s s' : Kernel ι} {p q : ι} {mm : Mm}

omit [DecidableEq ι] in
theorem Inv.allocated (h : Inv nr ns s) (hq : s.mm q = some mm) {va : ℕ} (hva : mm.Allocated va) :
    pagingPagePresent (mm.pgd (va / 256)) := by
  obtain ⟨v, hv⟩ := h.housed q mm hq
  obtain ⟨i, hle, hlt⟩ := hva
  have hmem : mm.symrgtbl i ∈ mm.regions v :=
    List.mem_append_left _ ((List.mem_ofFn' _ _).mpr ⟨i, rfl⟩)
  have hin := (hv.packed.inside hmem (by omega)).2
  obtain ⟨d, hd⟩ := hv.packed.space.aligned
  rw [hv.paged.present]
  omega

omit [DecidableEq ι] in
theorem Inv.vmBounded (h : Inv nr ns s) : s.VmBounded := by
  intro q mm hq w hw
  obtain ⟨v, hv⟩ := h.housed q mm hq
  rw [hv.packed.space.mmap, List.mem_singleton] at hw
  exact hw ▸ hv.paged.limit

theorem Inv.read_cases (h : Inv nr ns s) (hq : s.mm q = some mm) {rgid offset : BitVec 32}
    {va : ℕ} (hacc : (s.caller mm).Accesses rgid.toInt offset.toInt va) :
    (s.step (.exec q (.read rgid offset))).1 =
        .byte ((s.caller mm).pageByte (va / 256) (va % 256)) ∨
      ((s.step (.exec q (.read rgid offset))).1 = .failed ∧ ¬ s.Loadable mm (va / 256)) := by
  obtain ⟨v, hv⟩ := h.housed q mm hq
  have hs : Space (s.caller mm).mm v := hv.packed.space
  have hfault := h.fault_isSome_iff hq hacc
  rw [← Pcb.pgGetval_isSome] at hfault
  rcases hval : ((s.caller mm).pgGetval va).1 with _ | b
  · rw [hval] at hfault
    refine Or.inr ⟨?_, fun hload => absurd (hfault.mpr hload) (by simp)⟩
    rw [step_exec hq, hs.exec_read hacc, hval]
    rfl
  · have hb : (s.step (.exec q (.read rgid offset))).1 = .byte b := by
      rw [step_exec hq, hs.exec_read hacc, hval]
      rfl
    obtain ⟨va', hacc', rfl⟩ := h.read_byte hq hb
    rw [hacc.unique hacc']
    exact Or.inl hb

theorem Inv.rereads (h : Inv nr ns s) (h' : Inv nr ns s') (hmm : s'.mm q = s.mm q)
    (hbytes : ∀ mm, s.mm q = some mm → ∀ va, mm.Allocated va →
      (s'.caller mm).pageByte (va / 256) (va % 256) =
        (s.caller mm).pageByte (va / 256) (va % 256)) : Rereads s s' q := by
  intro rgid offset b hb
  rcases hq : s.mm q with _ | mm
  · simp [Kernel.step, hq] at hb
  · obtain ⟨va, hacc, rfl⟩ := h.read_byte hq hb
    obtain ⟨i, hi, hnn, hva, hlt⟩ := hacc
    have hacc' : (s'.caller mm).Accesses rgid.toInt offset.toInt va := ⟨i, hi, hnn, hva, hlt⟩
    rw [← hbytes mm hq va ⟨i, by rw [hva]; exact Nat.le_add_right _ _, hlt⟩]
    exact (h'.read_cases (hmm.trans hq) hacc').imp_right
      fun hno => ⟨hno.1, mm, va, hmm.trans hq, hacc', hno.2⟩

theorem Spares.untouched (hs : Spares s s' q) (h : Inv nr ns s) (h' : Inv nr ns s') :
    Untouched s s' q := by
  refine ⟨fun mm hq => ⟨mm, hs.mm.trans hq, rfl, rfl⟩, ?_, h.rereads h' hs.mm hs.bytes,
    h'.rereads h hs.mm.symm fun mm hq va hva => (hs.bytes mm (hs.mm.symm.trans hq) va hva).symm⟩
  intro mm mm' va hq hq' hva
  rw [hs.mm, hq, Option.some.injEq] at hq'
  subst hq'
  exact hs.bytes mm hq va hva

theorem Inv.spares_exec (h : Inv nr ns s) (hp : s.mm p = some mm) (i : Instr)
    (hb : (s.commit p ((s.caller mm).exec i).2).VmBounded) (hqp : q ≠ p) :
    Spares s (s.commit p ((s.caller mm).exec i).2) q := by
  have hm := (h.exec hp i hb).2
  have hout : ∀ c, (∀ f, 0 < s.ramExt p f → ∀ i < 256,
        c.mram.storage (f * 256 + i) = s.mram.storage (f * 256 + i)) →
      (∀ w, 0 < s.swpExt p w → ∀ i < 256, (c.mswp activeMswpId).storage (w * 256 + i) =
        (s.mswp activeMswpId).storage (w * 256 + i)) → Spares s (s.commit p c) q :=
    fun c hram hswp => ⟨commit_mm_of_ne s c hqp, fun mmq hq va hva =>
      pageByte_other h hqp hq (h.allocated hq hva) (Nat.mod_lt _ (by decide)) hram hswp⟩
  generalize ((s.caller mm).exec i).2 = c, ((s.caller mm).exec i).1 = o at hm ⊢
  cases hm with
  | kept hk => exact hout c hk.ramOut hk.swpOut
  | served _ hk => exact hout c hk.ramOut hk.swpOut
  | read _ hk => exact hout c hk.ramOut hk.swpOut
  | written _ hw => exact hout c hw.ramOut hw.swpOut

theorem Inv.spares_of_storage (h : Inv nr ns s) (hmm : s'.mm q = s.mm q)
    (hram : s'.mram.storage = s.mram.storage)
    (hswp : (s'.mswp activeMswpId).storage = (s.mswp activeMswpId).storage) : Spares s s' q := by
  refine ⟨hmm, fun mm hq va hva => ?_⟩
  exact pageByte_congr h hq (h.allocated hq hva) (fun _ => by rw [hram]) fun _ => by rw [hswp]

theorem Inv.spares_returned {c : Pcb} {v : ι} (h : Inv nr ns s) (hr : Returns (s.caller mm) c)
    (hqv : q ≠ v) : Spares s ⟨c.mram, c.mswp, Function.update s.mm v none⟩ q :=
  h.spares_of_storage (Function.update_of_ne hqv _ _) hr.ramStorage hr.swpStorage

theorem Inv.release (h : Inv nr ns s) (v : ι) :
    Inv nr ns (s.step (.release v)).2 ∧ (q ≠ v → Spares s (s.step (.release v)).2 q) := by
  rcases hv : s.mm v with _ | mm
  · have hidle : (s.step (.release v)).2 = s := by simp only [Kernel.step, hv]
    rw [hidle]
    exact ⟨h, fun _ => Spares.refl s q⟩
  · rw [step_release hv]
    have hr := (freePcbMemph_returns (c := s.caller mm) (h.frameInv hv).swpTyp).1
    exact ⟨h.released hv, h.spares_returned hr⟩

theorem Inv.releases (h : Inv nr ns s) (vs : List ι) :
    Inv nr ns (vs.foldl (fun s v => (s.step (.release v)).2) s) ∧
      (q ∉ vs → Spares s (vs.foldl (fun s v => (s.step (.release v)).2) s) q) := by
  induction vs generalizing s with
  | nil => exact ⟨h, fun _ => Spares.refl s q⟩
  | cons v vs ih =>
    obtain ⟨h1, hs1⟩ := h.release (q := q) v
    obtain ⟨h2, hs2⟩ := ih h1
    rw [List.foldl_cons]
    refine ⟨h2, fun hq => ?_⟩
    rw [List.mem_cons, not_or] at hq
    exact (hs1 hq.1).trans (hs2 hq.2)

omit [DecidableEq ι] [Fintype ι] in
theorem exec_read_mmap (c : Pcb) (source offset : BitVec 32) :
    (c.exec (.read source offset)).2.mm.mmap = c.mm.mmap := by
  simp only [Pcb.exec, Pcb.read]
  split
  · split_ifs
    · rfl
    · exact (pgGetval_space c _).1
  · rfl

theorem Inv.read (h : Inv nr ns s) (hp : s.mm p = some mm) (rgid offset : BitVec 32) :
    Inv nr ns (s.commit p ((s.caller mm).exec (.read rgid offset)).2) ∧
      (q ≠ p → Spares s (s.commit p ((s.caller mm).exec (.read rgid offset)).2) q) := by
  have hb : (s.commit p ((s.caller mm).exec (.read rgid offset)).2).VmBounded := by
    intro r mm' hr v hv
    by_cases hrp : r = p
    · subst hrp
      rw [commit_mm_self, Option.some.injEq] at hr
      subst hr
      rw [exec_read_mmap] at hv
      exact h.vmBounded r mm hp v hv
    · rw [commit_mm_of_ne _ _ hrp] at hr
      exact h.vmBounded r mm' hr v hv
  exact ⟨(h.exec hp _ hb).1, h.spares_exec hp _ hb⟩

theorem Inv.procName (h : Inv nr ns s) (hp : s.mm p = some mm) (memrg : BitVec 32) (n i : ℕ)
    (hi : i + n < 2 ^ 31) :
    Inv nr ns (s.commit p ((s.caller mm).procName memrg.toInt n i).2) ∧
      (q ≠ p → Spares s (s.commit p ((s.caller mm).procName memrg.toInt n i).2) q) := by
  induction n generalizing s mm i with
  | zero =>
    simp only [Pcb.procName]
    rw [commit_caller hp]
    exact ⟨h, fun _ => Spares.refl s q⟩
  | succ n ih =>
    have hoff : (BitVec.ofNat 32 i).toInt = i := toInt_ofNat_word (by omega)
    obtain ⟨h1, hs1⟩ := h.read (q := q) hp memrg (BitVec.ofNat 32 i)
    simp only [Pcb.exec, hoff] at h1 hs1
    rcases hr : (s.caller mm).read 0 memrg.toInt i with ⟨_ | data, c⟩
    · rw [hr] at h1 hs1
      simp only [Pcb.procName, hr]
      exact ⟨h1, hs1⟩
    · rw [hr] at h1 hs1
      dsimp only at h1 hs1
      simp only [Pcb.procName, hr]
      split_ifs
      · exact ⟨h1, hs1⟩
      · obtain ⟨h2, hs2⟩ := ih h1 (commit_mm_self _ _ _) (i + 1) (by omega)
        rw [commit_commit] at h2 hs2
        exact ⟨h2, fun hqp => (hs1 hqp).trans (hs2 hqp)⟩

omit [DecidableEq ι] in
theorem Inv.of_devices (h : Inv nr ns s) (hmm : s'.mm = s.mm)
    (hram : s'.mram.maxsz = s.mram.maxsz ∧ s'.mram.freeFpList = s.mram.freeFpList)
    (hswp : (s'.mswp activeMswpId).maxsz = (s.mswp activeMswpId).maxsz ∧
      (s'.mswp activeMswpId).freeFpList = (s.mswp activeMswpId).freeFpList) : Inv nr ns s' where
  ramDim := by rw [← h.ramDim]; simp only [Memphy.numfp, hram.1]
  swpDim := by rw [← h.swpDim]; simp only [Memphy.numfp, hswp.1]
  ramLe := h.ramLe
  swpLe := h.swpLe
  ramAcct f := by rw [← h.ramAcct f, hram.2]; simp only [ramOwn, hmm]
  swpAcct w := by rw [← h.swpAcct w, hswp.2]; simp only [swpOwn, hmm]
  housed q mm hq := h.housed q mm (by rw [← hmm]; exact hq)

omit [Fintype ι] in
theorem commit_mm_eq (hp : s.mm p = some mm) {c : Pcb} (hc : c.mm = mm) :
    (s.commit p c).mm = s.mm := by
  have hcall := congrArg Kernel.mm (commit_caller hp)
  rw [← hcall]
  simp only [commit, caller, hc]

theorem Inv.resident_byte (h : Inv nr ns s) (hq : s.mm q = some mm) {k i : ℕ} (hi : i < 256)
    (hres : Resident (mm.pgd k)) : ((pagingFpn (mm.pgd k) * 256 + i : ℕ) : ℤ) < s.mram.maxsz := by
  have hlt : pagingFpn (mm.pgd k) < s.mram.numfp := by
    rw [h.ramDim]
    exact (h.frameInv hq).resident_lt hres
  have hmax := s.mram.mul_pagesz_le_maxsz hlt
  omega

theorem Inv.ioWrite (h : Inv nr ns s) (hp : s.mm p = some mm) (addr : ℤ) (data : Byte) :
    Inv nr ns (s.commit p { s.caller mm with mram := s.mram.write addr data }) ∧
      ((∀ q, q ≠ p → Spares s (s.commit p { s.caller mm with mram := s.mram.write addr data }) q) ↔
        s.WriteSpares p addr data) := by
  have hmm := commit_mm_eq hp (c := { s.caller mm with mram := s.mram.write addr data }) rfl
  refine ⟨h.of_devices hmm ⟨Memphy.write_maxsz _ _ _, Memphy.write_freeFpList _ _ _⟩ ⟨rfl, rfl⟩, ?_⟩
  generalize hs' : s.commit p { s.caller mm with mram := s.mram.write addr data } = s' at hmm ⊢
  have hram : s'.mram = s.mram.write addr data := by rw [← hs', Kernel.commit]
  have hswp : s'.mswp = s.mswp := by rw [← hs', Kernel.commit, caller]
  have hbyte : ∀ {q mmq va}, s.mm q = some mmq → Resident (mmq.pgd (va / 256)) →
      s'.mram.storage (pagingFpn (mmq.pgd (va / 256)) * 256 + va % 256) =
        if addr = ((pagingFpn (mmq.pgd (va / 256)) * 256 + va % 256 : ℕ) : ℤ) then data
        else s.mram.storage (pagingFpn (mmq.pgd (va / 256)) * 256 + va % 256) := by
    intro q mmq va hq hres
    rw [hram]
    exact s.mram.write_storage_at addr data (h.resident_byte hq (Nat.mod_lt _ (by decide)) hres)
  constructor
  · intro hall q mmq va hqp hq hva hres haddr
    have hb := (hall q hqp).bytes mmq hq va hva
    rw [Pcb.pageByte_resident (c := s'.caller mmq) hres,
      Pcb.pageByte_resident (c := s.caller mmq) hres] at hb
    simp only [caller] at hb
    rw [hbyte hq hres, if_pos haddr] at hb
    exact hb
  · intro hspares q hqp
    refine ⟨by rw [hmm], fun mmq hq va hva => ?_⟩
    refine pageByte_congr h hq (h.allocated hq hva) (fun hres => ?_) fun _ => by rw [hswp]
    rw [hbyte hq hres]
    split_ifs with haddr
    · exact hspares q mmq va hqp hq hva hres haddr
    · rfl

def copied (s : Kernel ι) (p : ι) (mm : Mm) (junk : ℕ → Byte) (srcfpn dstfpn : ℤ) : Kernel ι :=
  let m := swapCpPageInt junk s.mram srcfpn (s.mswp activeMswpId) dstfpn
  s.commit p ⟨mm, m.1, Function.update s.mswp activeMswpId m.2⟩

theorem Inv.copied (h : Inv nr ns s) (hp : s.mm p = some mm) (junk : ℕ → Byte) (src dst : ℤ) :
    Inv nr ns (s.copied p mm junk src dst) ∧
      ((∀ q, q ≠ p → Spares s (s.copied p mm junk src dst) q) ↔ s.CopySpares p junk src dst) := by
  obtain ⟨h1, h2, h3, h4, h5⟩ :=
    swapCpPrefixInt_frame junk s.mram (s.mswp activeMswpId) src dst 256
  have hmm : (s.copied p mm junk src dst).mm = s.mm := commit_mm_eq hp rfl
  have hswp : (s.copied p mm junk src dst).mswp activeMswpId =
      (swapCpPageInt junk s.mram src (s.mswp activeMswpId) dst).2 := by
    simp only [Kernel.copied, Kernel.commit, Function.update_self]
  have hram : (s.copied p mm junk src dst).mram =
      (swapCpPageInt junk s.mram src (s.mswp activeMswpId) dst).1 := rfl
  refine ⟨h.of_devices hmm (by rw [hram]; exact ⟨h2, h3⟩) (by rw [hswp]; exact ⟨h4, h5⟩), ?_⟩
  generalize s.copied p mm junk src dst = s' at hmm hswp hram ⊢
  have hbyte : ∀ {q mmq va}, s.mm q = some mmq → Swapped (mmq.pgd (va / 256)) →
      (s'.mswp activeMswpId).storage (pagingPteSwp (mmq.pgd (va / 256)) * 256 + va % 256) =
        if toInt (dst * pagingPagesz) = ((pagingPteSwp (mmq.pgd (va / 256)) * 256 : ℕ) : ℤ) then
          cpData junk s.mram src (va % 256)
        else (s.mswp activeMswpId).storage
          (pagingPteSwp (mmq.pgd (va / 256)) * 256 + va % 256) := by
    intro q mmq va hq hsw
    have hlt : pagingPteSwp (mmq.pgd (va / 256)) < (s.mswp activeMswpId).numfp := by
      rw [h.swpDim]
      exact (h.frameInv hq).swapped_lt hsw
    rw [hswp]
    exact swapCpPageInt_storage junk s.mram _ src dst hlt (Nat.mod_lt _ (by decide))
  constructor
  · intro hall q mmq va hqp hq hva hsw haddr
    have hty : pagingPteSwptyp (mmq.pgd (va / 256)) = activeMswpId := (h.frameInv hq).swpTyp _ hsw
    have hb := (hall q hqp).bytes mmq hq va hva
    rw [Pcb.pageByte_of_swapped (c := s'.caller mmq) hsw.2,
      Pcb.pageByte_of_swapped (c := s.caller mmq) hsw.2] at hb
    simp only [caller, hty] at hb
    rw [hbyte hq hsw, if_pos haddr] at hb
    exact hb
  · intro hspares q hqp
    refine ⟨by rw [hmm], fun mmq hq va hva => ?_⟩
    refine pageByte_congr h hq (h.allocated hq hva) (fun _ => ?_) fun hsw => ?_
    · rw [hram]
      exact congrFun h1 _
    · rw [hbyte hq hsw]
      split_ifs with haddr
      · exact hspares q mmq va hqp hq hva hsw haddr
      · rfl

theorem Inv.syscall (h : Inv nr ns s) (hp : s.mm p = some mm) (kill : List Byte → List ι)
    (junk : ℕ → Byte) (n a1 a2 a3 : BitVec 32)
    (hb : (s.syscall kill junk p n a1 a2 a3).VmBounded) :
    Inv nr ns (s.syscall kill junk p n a1 a2 a3) ∧
      ((∀ q, q ≠ p → q ∉ s.victims kill p n a1 → Spares s (s.syscall kill junk p n a1 a2 a3) q) ↔
        s.Harmless p junk n a1 a2 a3) := by
  simp only [Kernel.syscall, Kernel.victims, Harmless, hp] at hb ⊢
  generalize SyscallEntry.ofNr n = entry at hb ⊢
  cases entry with
  | listsyscall => exact ⟨h, iff_of_true (fun q _ _ => Spares.refl s q) trivial⟩
  | niSyscall => exact ⟨h, iff_of_true (fun q _ _ => Spares.refl s q) trivial⟩
  | killall =>
    obtain ⟨h1, _⟩ := h.procName (q := p) hp a1 procNameRounds 0 (by decide)
    dsimp only
    refine ⟨(h1.releases (q := p) _).1, iff_of_true (fun q hqp hq => ?_) trivial⟩
    have hs1 := (h.procName (q := q) hp a1 procNameRounds 0 (by decide)).2 hqp
    exact hs1.trans ((h1.releases _).2 hq)
  | memmap =>
    simp only [Pcb.sysMemmap] at hb ⊢
    simp only [List.not_mem_nil, not_false_eq_true, forall_const]
    generalize Memop.ofCode a1 = memop at hb ⊢
    cases memop with
    | map =>
      dsimp only
      rw [commit_caller hp]
      exact ⟨h, iff_of_true (fun q _ => Spares.refl s q) trivial⟩
    | unknown =>
      dsimp only
      rw [commit_caller hp]
      exact ⟨h, iff_of_true (fun q _ => Spares.refl s q) trivial⟩
    | inc =>
      have hexec := h.exec hp (.grow a2 a3) hb
      exact ⟨hexec.1, iff_of_true (fun q hqp => h.spares_exec hp (.grow a2 a3) hb hqp) trivial⟩
    | ioRead =>
      have hmm := commit_mm_eq hp (c := { s.caller mm with mram := (s.mram.read a2.toInt).2 }) rfl
      refine ⟨h.of_devices hmm ⟨Memphy.read_maxsz _ _, Memphy.read_freeFpList _ _⟩ ⟨rfl, rfl⟩,
        iff_of_true (fun q _ => ?_) trivial⟩
      exact h.spares_of_storage (congrFun hmm q) (Memphy.read_storage _ _) rfl
    | ioWrite => exact h.ioWrite hp a2.toInt (a3.setWidth 8)
    | swp => exact h.copied hp junk a2.toInt a3.toInt

end

section
variable [Fintype ι] {nr ns : ℕ} {s : Kernel ι} {p : ι} {mm : Mm} {memramsz : ℤ} {memswpsz : ℕ → ℤ}
  {ops : List (SysOp ι)}

/-- Stores to physical memory never touch the accounting of frames, so it survives every
system call, harmful ones included. -/
theorem Inv.sysStep (s : Kernel ι) (op : SysOp ι) (s' : Kernel ι) (h : Inv nr ns s)
    (hn : NextSys s op s') : Inv nr ns s' := by
  obtain ⟨rfl, hb⟩ := hn
  cases op with
  | op op => exact Inv.step s op _ h ⟨rfl, hb⟩
  | syscall kill junk p n a1 a2 a3 =>
    rcases hp : s.mm p with _ | mm
    · have hidle : s.sysStep (.syscall kill junk p n a1 a2 a3) = s := by
        simp only [Kernel.sysStep, Kernel.syscall, hp]
      rw [hidle]
      exact h
    · exact (h.syscall hp kill junk n a1 a2 a3 hb).1

omit [Fintype ι] in
theorem releases_mm (s : Kernel ι) {q : ι} (vs : List ι) (hq : q ∉ vs) :
    (vs.foldl (fun s v => (s.step (.release v)).2) s).mm q = s.mm q := by
  induction vs generalizing s with
  | nil => rfl
  | cons v vs ih =>
    rw [List.mem_cons, not_or] at hq
    rw [List.foldl_cons, ih _ hq.2]
    rcases hv : s.mm v with _ | mm
    · simp only [Kernel.step, hv]
    · rw [step_release hv]
      exact Function.update_of_ne hq.1 _ _

omit [Fintype ι] in
theorem syscall_mm (hp : s.mm p = some mm) (kill : List Byte → List ι) (junk : ℕ → Byte)
    (n a1 a2 a3 : BitVec 32) {q : ι} (hqp : q ≠ p) (hq : q ∉ s.victims kill p n a1) :
    (s.syscall kill junk p n a1 a2 a3).mm q = s.mm q := by
  simp only [Kernel.syscall, Kernel.victims, hp] at hq ⊢
  generalize SyscallEntry.ofNr n = entry at hq ⊢
  cases entry with
  | listsyscall => rfl
  | niSyscall => rfl
  | memmap => exact commit_mm_of_ne _ _ hqp
  | killall => exact (releases_mm _ _ hq).trans (commit_mm_of_ne _ _ hqp)

/-- In runs in which no area outgrows the page table, a SYSCALL leaves every other process
that it does not release untouched exactly if it is harmless. -/
theorem run_syscall_untouched_iff (hram : framesOf memramsz ≤ 8192)
    (hswp : framesOf (memswpsz 0) ≤ 2 ^ 21) (hrun : Run NextSys (boot memramsz memswpsz) ops s)
    (hp : s.mm p = some mm) (kill : List Byte → List ι) (junk : ℕ → Byte)
    (n a1 a2 a3 : BitVec 32) (hb : (s.syscall kill junk p n a1 a2 a3).VmBounded) :
    (∀ q, q ≠ p → q ∉ s.victims kill p n a1 →
        Untouched s (s.syscall kill junk p n a1 a2 a3) q) ↔ s.Harmless p junk n a1 a2 a3 := by
  have h := hrun.invariant _ (inv_boot hram hswp) Inv.sysStep
  obtain ⟨h', hiff⟩ := h.syscall hp kill junk n a1 a2 a3 hb
  rw [← hiff]
  refine forall_congr' fun q => forall_congr' fun hqp => forall_congr' fun hq => ?_
  constructor
  · intro hu
    have hmm := syscall_mm hp kill junk n a1 a2 a3 hqp hq
    exact ⟨hmm, fun mmq hmq va hva => hu.bytes mmq mmq va hmq (hmm.trans hmq) hva⟩
  · intro hs
    exact hs.untouched h h'

end

/-- Process `true` has stored a byte. Then process `false` may grow its own area. -/
theorem run_syscall_untouched_grow :
    ∃ (s : Kernel Bool) (mm : Mm), Run NextSys (boot 768 fun _ => 256)
        [.op (.exec true (.write 42 0 0)), .op (.exec true (.alloc 256 0)), .op (.create false),
          .op (.create true)] s ∧ s.mm false = some mm ∧
      ∀ q, q ≠ false → Untouched s (s.syscall (fun _ => []) (fun _ => 0) false 17 2 0 256) q := by
  have hrun : Run NextSys (boot 768 fun _ => 256 : Kernel Bool)
      [.op (.exec true (.write 42 0 0)), .op (.exec true (.alloc 256 0)), .op (.create false),
        .op (.create true)] _ :=
    .snoc (.snoc (.snoc (.snoc .nil ⟨rfl, by decide +kernel⟩) ⟨rfl, by decide +kernel⟩)
      ⟨rfl, by decide +kernel⟩) ⟨rfl, by decide +kernel⟩
  generalize hs : Kernel.sysStep _ (.op (.exec true (.write 42 0 0))) = s at hrun
  have hlive : (s.mm false).isSome := by
    rw [← hs]
    decide +kernel
  have hb : (s.syscall (fun _ => []) (fun _ => 0) false 17 2 0 256).VmBounded := by
    rw [← hs]
    decide +kernel
  obtain ⟨mm, hp⟩ := Option.isSome_iff_exists.mp hlive
  have hharmless : s.Harmless false (fun _ => 0) 17 2 0 256 := by
    simp [Harmless, SyscallEntry.ofNr, Memop.ofCode]
  have hall := (run_syscall_untouched_iff (by decide) (by decide) hrun hp (fun _ => []) (fun _ => 0)
    17 2 0 256 hb).mpr hharmless
  refine ⟨s, mm, hrun, hp, fun q hq => hall q hq ?_⟩
  simp [victims, hp, SyscallEntry.ofNr]

/-- The page of process `true` is in frame 0 of RAM; process `false` writes 7 to address 0. -/
theorem syscall_overwrites :
    ∃ s : Kernel Bool, Run NextSys (boot 768 fun _ => 256)
        [.op (.exec true (.write 42 0 0)), .op (.exec true (.alloc 256 0)), .op (.create false),
          .op (.create true)] s ∧ (s.mm false).isSome ∧
      (s.step (.exec true (.read 0 0))).1 = .byte 42 ∧
      ((s.syscall (fun _ => []) (fun _ => 0) false 17 5 0 7).step
        (.exec true (.read 0 0))).1 = .byte 7 ∧
      true ∉ s.victims (fun _ => []) false 17 5 ∧
      ¬ Untouched s (s.syscall (fun _ => []) (fun _ => 0) false 17 5 0 7) true := by
  have hrun : Run NextSys (boot 768 fun _ => 256 : Kernel Bool)
      [.op (.exec true (.write 42 0 0)), .op (.exec true (.alloc 256 0)), .op (.create false),
        .op (.create true)] _ :=
    .snoc (.snoc (.snoc (.snoc .nil ⟨rfl, by decide +kernel⟩) ⟨rfl, by decide +kernel⟩)
      ⟨rfl, by decide +kernel⟩) ⟨rfl, by decide +kernel⟩
  generalize hs : Kernel.sysStep _ (.op (.exec true (.write 42 0 0))) = s at hrun
  have hbefore : (s.step (.exec true (.read 0 0))).1 = .byte 42 := by
    rw [← hs]
    decide +kernel
  have hafter : ((s.syscall (fun _ => []) (fun _ => 0) false 17 5 0 7).step
      (.exec true (.read 0 0))).1 = .byte 7 := by
    rw [← hs]
    decide +kernel
  have hlive : (s.mm false).isSome := by
    rw [← hs]
    decide +kernel
  refine ⟨s, hrun, hlive, hbefore, hafter, ?_, fun hu => ?_⟩
  · rw [← hs]
    decide +kernel
  · rcases hu.reads 0 0 42 hbefore with hsame | ⟨hfail, _⟩
    · rw [hafter] at hsame
      exact absurd hsame (by decide)
    · rw [hafter] at hfail
      cases hfail

end Kernel
end OSsim
