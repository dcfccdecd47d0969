import OSsim.Machine

/-!
# The memory of the threads

A process has an address space exactly from its arrival to its release, whatever the
interleaving, so no thread ever works on memory that is not there. The memory of a
machine is a run of the memory system, and after the deadline of the threads all of its
frames are free again.
-/

open scoped BigOperators
namespace OSsim

namespace Kernel
variable {ι : Type*} [DecidableEq ι] {s : Kernel ι} {p q : ι} {mm : Mm}

theorem commit_isSome (hp : s.mm p = some mm) (c : Pcb) (q : ι) :
    ((s.commit p c).mm q).isSome = (s.mm q).isSome := by
  by_cases hq : q = p
  · subst hq
    rw [commit_mm_self, hp]
    rfl
  · rw [commit_mm_of_ne _ _ hq]

theorem exec_isSome (s : Kernel ι) (p : ι) (i : Instr) (q : ι) :
    ((s.step (.exec p i)).2.mm q).isSome = (s.mm q).isSome := by
  rcases hp : s.mm p with _ | mm
  · simp only [step, hp]
  · rw [step_exec hp]
    exact commit_isSome hp _ q

theorem afterRead_isSome (s : Kernel ι) (p : ι) (memrg : BitVec 32) (i : ℕ) (q : ι) :
    ((s.afterRead p memrg i).mm q).isSome = (s.mm q).isSome := by
  rcases hp : s.mm p with _ | mm
  · simp only [afterRead, hp]
  · simp only [afterRead, hp]
    exact commit_isSome hp _ q

theorem create_isSome (s : Kernel ι) (p q : ι) :
    ((s.step (.create p)).2.mm q).isSome ↔ q = p ∨ (s.mm q).isSome := by
  rcases hp : s.mm p with _ | mm
  · rw [step_create hp]
    by_cases hq : q = p
    · subst hq
      simp
    · simp [hq]
  · have hself : q = p → (s.mm q).isSome := by
      rintro rfl
      rw [hp]
      rfl
    simp only [step, hp]
    exact ⟨Or.inr, fun hq => hq.elim hself id⟩

theorem release_mm (s : Kernel ι) (p q : ι) :
    (s.step (.release p)).2.mm q = if q = p then none else s.mm q := by
  rcases hp : s.mm p with _ | mm
  · simp only [step, hp]
    split_ifs with hq
    · rw [hq, hp]
    · rfl
  · rw [step_release hp]
    split_ifs with hq
    · subst hq
      exact Function.update_self _ _ _
    · exact Function.update_of_ne hq _ _

end Kernel

namespace Machine
variable {n m : ℕ} {S : Setup n} {s s' : Machine n m} {c : Fin m} {p : Fin n} {memramsz : ℤ}
  {memswpsz : ℕ → ℤ} {as : List (MachineAction n m)}

def Living (s : Machine n m) : Prop :=
  ∀ p, (s.mem.mm p).isSome ↔ s.sys.arrived p = 1 ∧ s.sys.released p = 0

theorem living_start : (start memramsz memswpsz : Machine n m).Living := by
  intro p
  simp [start, Kernel.boot, System.start, System.arrived, LdPoint.added]

theorem Living.of_same (h : s.Living) (hmem : ∀ p, (s'.mem.mm p).isSome = (s.mem.mm p).isSome)
    (harr : ∀ p, s'.sys.arrived p = s.sys.arrived p) (hrel : s'.sys.released = s.sys.released) :
    s'.Living := by
  intro p
  rw [hmem, harr, hrel]
  exact h p

theorem run_isSome (s : Machine n m) (p : Fin n) (ins : Instruction) (q : Fin n) :
    ((s.run p ins).mem.mm q).isSome = (s.mem.mm q).isSome := by
  rw [run]
  split
  · rfl
  · exact Kernel.exec_isSome _ _ _ _

theorem Living.step {a : MachineAction n m} (h : s.Living) (hs : s.sys.Custody)
    (hn : Stepped S s a s') : s'.Living := by
  cases hn with
  | moves next quiet => exact h.of_same (fun _ => rfl) quiet.arrived quiet.released
  | @creates i sys before next harr hrel =>
    intro p
    have h₀ : s.sys.arrived i = 0 := System.arrived_next (by rw [before]; rfl)
    have h₁ := hs.places_le i
    rw [System.places] at h₁
    simp only [Kernel.create_isSome, harr, hrel, h p]
    by_cases hp : p = i
    · subst hp
      simp
      omega
    · rw [List.count_eq_zero.mpr (by simpa using hp)]
      simp [hp]
  | @releases c v sys before next harr hrel =>
    intro p
    simp only [Kernel.release_mm, harr, hrel]
    by_cases hp : p = v
    · subst hp
      simp
    · rw [List.count_eq_zero.mpr (by simpa using hp), if_neg hp]
      exact h p
  | runs before inst plain own next harr hrel =>
    exact h.of_same (run_isSome _ _ _) harr hrel
  | maps before inst memmap same => exact h.of_same same (fun _ => rfl) rfl
  | returns before inst memmap same next harr hrel => exact h.of_same same harr hrel
  | reads => exact h.of_same (Kernel.afterRead_isSome _ _ _ _) (fun _ => rfl) rfl
  | calls before inst killall rounds next harr hrel =>
    refine h.of_same (fun p => ?_) harr hrel
    rcases rounds with rfl | ⟨_, rfl⟩
    · rfl
    · exact Kernel.afterRead_isSome _ _ _ _ p

theorem Living.none_of_released (h : s.Living) (hrel : ∀ p, 0 < s.sys.released p) (p : Fin n) :
    s.mem.mm p = none := by
  have hno := mt (h p).mp
  have hpos := hrel p
  simpa using hno (by omega)

structure Orderly (S : Setup n) (s : Machine n m) : Prop where
  custody : s.sys.Custody
  inOrder : s.sys.InOrder S.config
  living : s.Living

theorem orderly_start : (start memramsz memswpsz : Machine n m).Orderly S :=
  ⟨System.custody_start, System.inOrder_start, living_start⟩

theorem Orderly.step {a : MachineAction n m} (h : s.Orderly S) (hn : Stepped S s a s') :
    s'.Orderly S := by
  have hliv := h.living.step h.custody hn
  rcases hn.sys_next with heq | ⟨name, hnext⟩
  · exact ⟨by rw [heq]; exact h.custody, by rw [heq]; exact h.inOrder, hliv⟩
  · exact ⟨h.custody.step hnext, h.inOrder.step h.custody hnext, hliv⟩

theorem present_of_place {sys : System n m} (hs : sys.Custody)
    (h : 0 < sys.sched.ready p + sys.owners p + sys.toFree p) :
    sys.arrived p = 1 ∧ sys.released p = 0 := by
  have h₁ := hs.places_le p
  have h₂ := sys.arrived_le_one p
  rw [System.places] at h₁
  omega

theorem toFree_pos {sys : System n m} (hp : p ∈ (sys.cpu c).point.victims) : 0 < sys.toFree p :=
  Finset.sum_pos' (fun _ _ => Nat.zero_le _) ⟨c, Finset.mem_univ c, List.count_pos_iff.mpr hp⟩

theorem present_of_listed {sys : System n m} (hs : sys.Custody)
    (hp : p ∈ sys.sched.runningList.proc) : sys.arrived p = 1 ∧ sys.released p = 0 := by
  have h₁ := hs.listed_le p
  have h₂ : 0 < sys.sched.listed p := List.count_pos_iff.mpr hp
  have h₃ := sys.arrived_le_one p
  exact ⟨by omega, hs.not_released_of_listed hp⟩

/-- The processes that the threads can reach are those with an address space: whoever
holds, queues or has to free a process finds it there, and a process never gets a second
one. -/
theorem run_address_spaces (S : Setup n) (h : Run (Next S) (start memramsz memswpsz) as s) :
    (∀ p, (s.mem.mm p).isSome ↔ s.sys.arrived p = 1 ∧ s.sys.released p = 0) ∧
    (∀ c p, (s.sys.cpu c).point.owner = some p ∨ p ∈ (s.sys.cpu c).point.victims →
      (s.mem.mm p).isSome) ∧
    (∀ p, p ∈ s.sys.sched.runningList.proc ∨ (∃ i, p ∈ (s.sys.sched.mlqReadyQueue i).proc) →
      (s.mem.mm p).isSome) ∧
    ∀ i, s.sys.loader.point = .add i → s.mem.mm i = none := by
  have ho := h.invariant (Orderly S) orderly_start fun _ _ _ ho hn => ho.step (step_cases hn)
  have hs := ho.custody
  have hl := ho.living
  refine ⟨hl, fun c p hp => (hl p).mpr ?_, fun p hp => (hl p).mpr ?_, fun i hi => ?_⟩
  · rcases hp with hp | hp
    · exact ⟨hs.arrived_of_owner hp, hs.not_released_of_owner hp⟩
    · exact present_of_place hs (Nat.add_pos_right _ (toFree_pos hp))
  · rcases hp with hp | ⟨i, hp⟩
    · exact present_of_listed hs hp
    · have hready := (List.count_pos_iff.mpr hp).trans_le (s.sys.sched.count_level_le i p)
      exact present_of_place hs (by omega)
  · have harr : s.sys.arrived i = 0 := System.arrived_next (by rw [hi]; rfl)
    have hno := mt (hl i).mp
    rw [harr] at hno
    simpa using hno (by simp)

end Machine

/-- By how many pages the instruction can make the address space grow. -/
def Instruction.pages (ins : Instruction) : ℕ := (ins.call.map fun i => growPages i.growth).getD 0

def requested (code : List Instruction) : ℕ := (code.map Instruction.pages).sum

theorem requested_append (code code' : List Instruction) :
    requested (code ++ code') = requested code + requested code' := by
  simp [requested]

theorem requested_take_le (code : List Instruction) (k : ℕ) :
    requested (code.take k) ≤ requested code := by
  conv_rhs => rw [← List.take_append_drop k code, requested_append]
  exact Nat.le_add_right _ _

theorem Pcb.Effect.vmEnd_le_growth {c c' : Pcb} {v v' : VmArea} {i : Instr} {o : Outcome}
    (h : Space c.mm v) (he : Pcb.Effect c v i o c') (hs : Space c'.mm v') :
    v'.vmEnd ≤ v.vmEnd + growPages i.growth * 256 := by
  have hsame : c'.mm.mmap = c.mm.mmap → v'.vmEnd ≤ v.vmEnd + growPages i.growth * 256 := by
    intro hm
    have hv : v' = v := List.singleton_inj.mp (hs.mmap.symm.trans (hm.trans h.mmap))
    subst hv
    exact Nat.le_add_right _ _
  cases he with
  | refused => exact hsame rfl
  | outOfFrames _ _ ha => exact hsame (allocPagesRange_space ha).1
  | @placed size _ j rg l =>
    obtain rfl : { v with vmFreergList := l } = v' := List.singleton_inj.mp hs.mmap
    exact Nat.le_add_right _ _
  | @allocGrown size _ j fs c1 rg l =>
    obtain rfl : { v.grown (growPages size.toInt) with vmFreergList := l } = v' :=
      List.singleton_inj.mp hs.mmap
    exact le_rfl
  | @grown _ incSz fs c1 =>
    obtain rfl : v.grown (growPages incSz.toInt) = v' := List.singleton_inj.mp hs.mmap
    exact le_rfl
  | @freed _ j =>
    obtain rfl : { v with vmFreergList := enlistFreerg v.vmFreergList (c.mm.symrgtbl j) } = v' :=
      List.singleton_inj.mp hs.mmap
    exact Nat.le_add_right _ _
  | @reads _ _ va _ => exact hsame (pgGetval_space c va).1
  | @writes data _ _ va _ => exact hsame (pgSetval_space c va data).1

namespace Kernel
variable {ι : Type*} [DecidableEq ι] {s s' : Kernel ι} {p q : ι} {mm : Mm} {nr ns : ℕ}

theorem afterRead_eq_step (s : Kernel ι) (p : ι) (memrg : BitVec 32) {i : ℕ} (hi : i < 2 ^ 31) :
    s.afterRead p memrg i = (s.step (.exec p (.read memrg (BitVec.ofNat 32 i)))).2 := by
  rcases hp : s.mm p with _ | mm
  · simp only [afterRead, step, hp]
  · rw [step_exec hp]
    simp only [afterRead, hp, Pcb.exec, toInt_ofNat_word hi]

def EndsBelow (s : Kernel ι) (bound : ι → ℕ) : Prop :=
  ∀ p mm, s.mm p = some mm → ∀ v ∈ mm.mmap, v.vmEnd ≤ bound p * 256

theorem EndsBelow.step {bound : ι → ℕ} (h : s.EndsBelow bound) {op : Op ι}
    (hop : ∀ p i, op ≠ .exec p i) : (s.step op).2.EndsBelow bound := by
  intro q mm' hq v' hv'
  rcases live_after (s.step_cases op) hq with hold | ⟨_, rfl⟩ | ⟨mm, i, heq, _⟩
  · exact h q mm' hold v' hv'
  · rw [initMm, List.mem_singleton] at hv'
    subst hv'
    exact Nat.zero_le _
  · exact absurd heq (hop q i)

omit [DecidableEq ι] in
theorem EndsBelow.vmBounded {bound : ι → ℕ} (h : s.EndsBelow bound)
    (hle : ∀ p, bound p ≤ pagingMaxPgn) : s.VmBounded := by
  intro p mm hp v hv
  exact (h p mm hp v hv).trans (Nat.mul_le_mul_right _ (hle p))

variable [Fintype ι]

theorem EndsBelow.exec {bound bound' : ι → ℕ} (h : s.EndsBelow bound) (hinv : Inv nr ns s)
    {i : Instr} (hle : ∀ q, bound q ≤ bound' q) (hgrow : bound p + growPages i.growth ≤ bound' p) :
    (s.step (.exec p i)).2.EndsBelow bound' := by
  intro q mm' hq v' hv'
  rcases live_after (s.step_cases (.exec p i)) hq with hold | ⟨hc, _⟩ | ⟨mm, j, heq, hp, rfl⟩
  · exact (h q mm' hold v' hv').trans (Nat.mul_le_mul_right _ (hle q))
  · cases hc
  · obtain ⟨rfl, rfl⟩ := Op.exec.inj heq
    obtain ⟨v, hv⟩ := hinv.housed p mm hp
    obtain ⟨w, hw⟩ := Packed.exec (c := s.caller mm) hv.packed i
    rw [hw.space.mmap, List.mem_singleton] at hv'
    subst hv'
    have hend := Pcb.Effect.vmEnd_le_growth (c := s.caller mm) hv.packed.space
      (hv.packed.space.exec_cases i) hw.space
    have hold := h p mm hp v (by rw [hv.packed.space.mmap]; exact List.mem_singleton_self v)
    have hsum := Nat.mul_le_mul_right 256 hgrow
    omega

omit [DecidableEq ι] in
theorem Inv.perm_of_empty (h : Inv nr ns s) (hnone : ∀ q, s.mm q = none) :
    s.mram.freeFpList.Perm (List.range nr) ∧
      (s.mswp activeMswpId).freeFpList.Perm (List.range ns) := by
  constructor
  · refine List.perm_iff_count.mpr fun f => ?_
    have ha := h.ramAcct f
    simp only [ramOwn, hnone, Option.elim_none, Finset.sum_const_zero, Nat.add_zero] at ha
    rw [ha, List.count_range]
  · refine List.perm_iff_count.mpr fun w => ?_
    have ha := h.swpAcct w
    simp only [swpOwn, hnone, Option.elim_none, Finset.sum_const_zero, Nat.add_zero] at ha
    rw [ha, List.count_range]

end Kernel

namespace Machine
variable {n m : ℕ} {S : Setup n} {s s' : Machine n m} {c : Fin m} {p : Fin n} {nr ns : ℕ}
  {memramsz : ℤ} {memswpsz : ℕ → ℤ} {as : List (MachineAction n m)}

def ran (S : Setup n) (s : Machine n m) (p : Fin n) : List Instruction :=
  (S.code p).take (s.sys.executed p).length

theorem ran_congr (h : s'.sys.executed = s.sys.executed) : s'.ran S = s.ran S := by
  funext p
  rw [ran, ran, h]

theorem ran_executes {k : ℕ} {x : Inst} {ins : Instruction} (ho : s.sys.InOrder S.config)
    (before : (s.sys.cpu c).point = .execute p k x) (inst : (S.code p)[k]? = some ins)
    (hex : s'.sys.executed = Function.update s.sys.executed p (s.sys.executed p ++ [k])) :
    s'.ran S = Function.update (s.ran S) p (s.ran S p ++ [ins]) := by
  have hlen : (s.sys.executed p).length = k := by
    rw [(ho.execute c p k x before).2, List.length_range]
  funext q
  by_cases hq : q = p
  · subst hq
    rw [Function.update_self, ran, ran, hex, Function.update_self, List.length_append, hlen,
      List.length_singleton, List.take_add_one, inst]
    rfl
  · rw [Function.update_of_ne hq, ran, ran, hex, Function.update_of_ne hq]

theorem requested_executes (s : Machine n m) (p : Fin n) (ins : Instruction) (q : Fin n) :
    requested (s.ran S q) ≤
      requested (Function.update (s.ran S) p (s.ran S p ++ [ins]) q) := by
  by_cases hq : q = p
  · subst hq
    rw [Function.update_self, requested_append]
    exact Nat.le_add_right _ _
  · rw [Function.update_of_ne hq]

/-- What holds in every state of a machine whose programs ask for no more pages than a
page table has. -/
structure Sound (S : Setup n) (nr ns : ℕ) (s : Machine n m) : Prop extends Orderly S s where
  inv : Kernel.Inv nr ns s.mem
  grown : s.mem.EndsBelow fun p => requested (s.ran S p)

theorem sound_start (hram : framesOf memramsz ≤ 8192) (hswp : framesOf (memswpsz 0) ≤ 2 ^ 21) :
    (start memramsz memswpsz : Machine n m).Sound S (framesOf memramsz)
      (framesOf (memswpsz 0)) where
  toOrderly := orderly_start
  inv := Kernel.inv_boot hram hswp
  grown _ _ hp := by cases hp

namespace Sound
variable (h : s.Sound S nr ns)
include h

theorem exec {bound : Fin n → ℕ} {i : Instr} (hle : ∀ q, requested (s.ran S q) ≤ bound q)
    (hgrow : requested (s.ran S p) + growPages i.growth ≤ bound p)
    (hbound : ∀ q, bound q ≤ pagingMaxPgn) :
    Kernel.Inv nr ns (s.mem.step (.exec p i)).2 ∧ (s.mem.step (.exec p i)).2.EndsBelow bound := by
  have hends := h.grown.exec h.inv hle hgrow
  exact ⟨Kernel.Inv.step s.mem _ _ h.inv ⟨rfl, hends.vmBounded hbound⟩, hends⟩

theorem afterRead {bound : Fin n → ℕ} {i : ℕ} (hi : i < procNameRounds) (memrg : BitVec 32)
    (hle : ∀ q, requested (s.ran S q) ≤ bound q) (hbound : ∀ q, bound q ≤ pagingMaxPgn) :
    Kernel.Inv nr ns (s.mem.afterRead p memrg i) ∧
      (s.mem.afterRead p memrg i).EndsBelow bound := by
  rw [Kernel.afterRead_eq_step _ _ _ (hi.trans (by decide))]
  exact h.exec hle (by simpa [Instr.growth, show growPages 0 = 0 by decide] using hle p) hbound

theorem runs {bound : Fin n → ℕ} {ins : Instruction}
    (hle : ∀ q, requested (s.ran S q) ≤ bound q)
    (hgrow : requested (s.ran S p) + ins.pages ≤ bound p) (hbound : ∀ q, bound q ≤ pagingMaxPgn) :
    Kernel.Inv nr ns (s.run p ins).mem ∧ (s.run p ins).mem.EndsBelow bound := by
  rcases hcall : ins.call with _ | i
  · simp only [run, hcall]
    exact ⟨h.inv, fun q mm hq v hv =>
      (h.grown q mm hq v hv).trans (Nat.mul_le_mul_right _ (hle q))⟩
  · simp only [Instruction.pages, hcall, Option.map_some, Option.getD_some] at hgrow
    simp only [run, hcall]
    exact h.exec hle hgrow hbound

theorem op {o : Op (Fin n)} (hop : ∀ p i, o ≠ .exec p i)
    (hreq : ∀ p, requested (S.code p) ≤ pagingMaxPgn) :
    Kernel.Inv nr ns (s.mem.step o).2 ∧
      (s.mem.step o).2.EndsBelow fun p => requested (s.ran S p) := by
  have hends := h.grown.step hop
  refine ⟨Kernel.Inv.step s.mem _ _ h.inv ⟨rfl, hends.vmBounded fun p => ?_⟩, hends⟩
  exact (requested_take_le _ _).trans (hreq p)

theorem step (hpriv : S.Private) (hreq : ∀ p, requested (S.code p) ≤ pagingMaxPgn)
    {a : MachineAction n m} (hn : Stepped S s a s') : s'.Sound S nr ns := by
  have hord := h.toOrderly.step hn
  have hbound : ∀ q, requested (s'.ran S q) ≤ pagingMaxPgn :=
    fun q => (requested_take_le _ _).trans (hreq q)
  suffices hmem : Kernel.Inv nr ns s'.mem ∧
      s'.mem.EndsBelow fun p => requested (s'.ran S p) from ⟨hord, hmem.1, hmem.2⟩
  cases hn with
  | moves next quiet =>
    rw [ran_congr quiet.executed]
    exact ⟨h.inv, h.grown⟩
  | creates before next harr hrel hex =>
    rw [ran_congr hex]
    exact h.op (by simp) hreq
  | releases before next harr hrel hex =>
    rw [ran_congr hex]
    exact h.op (by simp) hreq
  | @runs c p k x ins sys before inst plain own next harr hrel hex =>
    have hran : ({ s.run p ins with sys := sys } : Machine n m).ran S =
        Function.update (s.ran S) p (s.ran S p ++ [ins]) := ran_executes h.inOrder before inst hex
    refine h.runs (fun q => ?_) ?_ hbound
    · rw [hran]
      exact requested_executes s p ins q
    · rw [hran, Function.update_self, requested_append]
      simp [requested]
  | maps before inst memmap => exact absurd memmap (hpriv _ _ (List.mem_of_getElem? inst))
  | returns before inst memmap => exact absurd memmap (hpriv _ _ (List.mem_of_getElem? inst))
  | reads before inst killall more =>
    exact h.afterRead more _ (fun _ => le_rfl) hbound
  | @calls c p k x ins sys mem before inst killall rounds next harr hrel hex =>
    have hran : ({ s with
        sys := sys, mem := mem, procName := Function.update s.procName c [] } : Machine n m).ran S =
        Function.update (s.ran S) p (s.ran S p ++ [ins]) := ran_executes h.inOrder before inst hex
    have hle : ∀ q, requested (s.ran S q) ≤ _ := fun q => requested_executes (S := S) s p ins q
    rw [← hran] at hle
    rcases rounds with rfl | ⟨more, rfl⟩
    · refine ⟨h.inv, fun q mm hq v hv => ?_⟩
      exact (h.grown q mm hq v hv).trans (Nat.mul_le_mul_right _ (hle q))
    · exact h.afterRead more _ hle hbound

end Sound

theorem Sound.run (hpriv : S.Private) (hreq : ∀ p, requested (S.code p) ≤ pagingMaxPgn)
    (hram : framesOf memramsz ≤ 8192) (hswp : framesOf (memswpsz 0) ≤ 2 ^ 21)
    (h : Run (Next S) (start memramsz memswpsz) as s) :
    s.Sound S (framesOf memramsz) (framesOf (memswpsz 0)) :=
  h.invariant _ (sound_start hram hswp) fun _ _ _ hs hn => hs.step hpriv hreq (step_cases hn)

/-- No frame is ever lost or held twice, and once the deadline of the threads is over all of
them are free again. -/
theorem run_frames_come_back (S : Setup n) (hn : n ≤ maxQueueSize) (hm : 0 < m)
    (hpriv : S.Private) (hreq : ∀ p, requested (S.code p) ≤ pagingMaxPgn)
    (hram : framesOf memramsz ≤ 8192) (hswp : framesOf (memswpsz 0) ≤ 2 ^ 21)
    (h : Run (NextInStep S) (start memramsz memswpsz) as s) :
    (∀ f, s.mem.mram.freeFpList.count f + ∑ q, s.mem.ramOwn q f =
      if f < framesOf memramsz then 1 else 0) ∧
    (∀ w, (s.mem.mswp activeMswpId).freeFpList.count w + ∑ q, s.mem.swpOwn q w =
      if w < framesOf (memswpsz 0) then 1 else 0) ∧
    (System.deadline S.config < s.sys.time →
      (∀ p, s.mem.mm p = none) ∧
      s.mem.mram.freeFpList.Perm (List.range (framesOf memramsz)) ∧
      (s.mem.mswp activeMswpId).freeFpList.Perm (List.range (framesOf (memswpsz 0)))) := by
  have hsound := Sound.run hpriv hreq hram hswp (h.mono fun _ _ _ hn => hn.2)
  refine ⟨hsound.inv.ramAcct, hsound.inv.swpAcct, fun hlate => ?_⟩
  obtain ⟨bs, hrun⟩ := run_sys_inStep h
  have ht := System.Timely.run hn hm hrun
  have hnone := hsound.living.none_of_released (ht.deadline hlate).released
  exact ⟨hnone, hsound.inv.perm_of_empty hnone⟩

def playInStep (S : Setup n) (s : Machine n m) (as : List (MachineAction n m)) :
    Option (Machine n m) :=
  as.foldr (fun a t => t.bind fun s => if s.sys.InStep (a.named []) then s.step S a else none)
    (some s)

theorem run_of_playInStep (h : s.playInStep S as = some s') : Run (NextInStep S) s as s' := by
  refine (Run.of_foldr h).mono fun s a s' hn => ?_
  split_ifs at hn with hin
  exact ⟨hin, hn⟩

def oneAlloc : Setup 1 where
  timeSlot := 1
  timeSlot_pos := Int.one_pos
  startTime _ := 0
  prio _ := 0
  path _ := ['p']
  code _ := [⟨.ALLOC, fun i => if i.val = 0 then 300 else 0⟩]

/-- The process runs in slot 0 and is released in slot 1; the clock goes on. -/
def oneAllocLate : List (MachineAction 1 1) :=
  let cpu : MachineAction 1 1 := .cpu ⟨0, Nat.one_pos⟩
  List.flatten [List.replicate 5 .tick, List.replicate 7 cpu, List.replicate 3 .loader, [.tick],
    List.replicate 6 cpu, List.replicate 3 .loader]

def twoFrames : Machine 1 1 := start 512 fun _ => 256

theorem run_address_spaces_oneAlloc :
    ∃ as s, Run (Next oneAlloc) twoFrames as s ∧ s.mem.mram.freeFpList = [] ∧
      (s.mem.mm ⟨0, Nat.one_pos⟩).isSome ∧ s.sys.released ⟨0, Nat.one_pos⟩ = 0 := by
  have hplay : (twoFrames.playInStep oneAlloc (oneAllocLate.drop 12)).map (fun s =>
      (s.mem.mram.freeFpList, (s.sys.cpu ⟨0, Nat.one_pos⟩).point.owner)) =
      some ([], some ⟨0, Nat.one_pos⟩) := by decide +kernel
  obtain ⟨s, hs, hval⟩ := Option.map_eq_some_iff.mp hplay
  obtain ⟨hfree, hown⟩ := Prod.mk.inj hval
  have hrun := (run_of_playInStep hs).mono fun _ _ _ hn => hn.2
  have hspaces := run_address_spaces oneAlloc hrun
  have hsome := hspaces.2.1 ⟨0, Nat.one_pos⟩ ⟨0, Nat.one_pos⟩ (Or.inl hown)
  exact ⟨_, s, hrun, hfree, hsome, ((hspaces.1 _).mp hsome).2⟩

theorem oneAlloc_private : oneAlloc.Private := by
  intro p ins hins hcall
  obtain rfl := List.mem_singleton.mp hins
  cases hcall.1

theorem run_frames_come_back_oneAlloc :
    ∃ s, Run (NextInStep oneAlloc) twoFrames oneAllocLate s ∧
      s.mem.mm ⟨0, Nat.one_pos⟩ = none ∧ s.mem.mram.freeFpList.Perm (List.range 2) := by
  have hplay : (twoFrames.playInStep oneAlloc oneAllocLate).map (·.sys.time) = some 6 := by
    decide +kernel
  obtain ⟨s, hs, htime⟩ := Option.map_eq_some_iff.mp hplay
  have hrun := run_of_playInStep hs
  have hback := run_frames_come_back oneAlloc (by decide) (by decide) oneAlloc_private (by decide)
    (by decide) (by decide) hrun
  obtain ⟨hnone, hperm, _⟩ := hback.2.2 (by rw [htime]; decide)
  exact ⟨s, hrun, hnone _, hperm⟩

end Machine
end OSsim
