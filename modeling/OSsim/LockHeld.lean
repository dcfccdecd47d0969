import OSsim.Locking

/-!
# Shared memory under mmvm_lock

The library functions take the lock on their own and keep to it on every path. What they
call in the kernel takes no lock: under a library call it runs with the lock held, and
entered by a SYSCALL instruction it runs without.
-/

namespace OSsim.Locked
open Mutex

theorem within_swapCpCells (junk : ℕ → Byte) (mpsrc : Device) (addrsrc : ℕ → ℤ) (mpdst : Device)
    (addrdst : ℕ → ℤ) (l : List ℕ) : Within (swapCpCells junk mpsrc addrsrc mpdst addrdst l) := by
  induction l with
  | nil => exact .pure ()
  | cons cellidx l ih => exact .bind (.touch _ _) fun _ => .bind (.touch _ _) fun _ => ih

theorem within_swapCpPage (mpsrc : Device) (srcfpn : ℕ) (mpdst : Device) (dstfpn : ℕ) :
    Within (swapCpPage mpsrc srcfpn mpdst dstfpn) :=
  within_swapCpCells _ _ _ _ _ _

theorem within_swapOutPage : Within swapOutPage := by
  refine .bind (.own _) fun mm => ?_
  split
  · exact .pure none
  · refine .bind (.touch _ _) fun r => ?_
    split
    · exact .bind (.own _) fun _ => .pure none
    · exact .bind (within_swapCpPage _ _ _ _) fun _ => .bind (.own _) fun _ => .pure _

theorem within_grabFrame : Within grabFrame := by
  refine .bind (.touch _ _) fun r => ?_
  split
  · exact .pure _
  · exact within_swapOutPage

theorem within_pgGetpage (pgn : ℕ) : Within (pgGetpage pgn) := by
  refine .bind (.own _) fun mm => ?_
  split_ifs
  · exact .pure none
  · refine .bind within_grabFrame fun r => ?_
    split
    · exact .pure none
    · exact .bind (within_swapCpPage _ _ _ _) fun _ => .bind (.touch _ _) fun _ =>
        .bind (.own _) fun _ => .bind (.own _) fun _ => .pure _
  · exact .pure _
  · exact .pure none

theorem within_pgGetval (addr : ℤ) : Within (pgGetval addr) := by
  refine .bind (within_pgGetpage _) fun r => ?_
  split
  · exact .pure none
  · exact .bind (.touch _ _) fun _ => .pure _

theorem within_pgSetval (addr : ℤ) (value : Byte) : Within (pgSetval addr value) := by
  refine .bind (within_pgGetpage _) fun r => ?_
  split
  · exact .pure false
  · exact .bind (.touch _ _) fun _ => .pure true

theorem within_putBack (fpHead : List ℕ) : Within (putBack fpHead) := by
  induction fpHead with
  | nil => exact .pure ()
  | cons fpn fpHead ih => exact .bind (.touch _ _) fun _ => ih

theorem within_allocPagesLoop (n : ℕ) (fpHead : List ℕ) : Within (allocPagesLoop n fpHead) := by
  induction n generalizing fpHead with
  | zero => exact .pure _
  | succ n ih =>
    refine .bind within_grabFrame fun r => ?_
    split
    · exact ih _
    · exact .bind (within_putBack _) fun _ => .pure none

theorem within_vmMapRam (mapstart incpgnum : ℤ) : Within (vmMapRam mapstart incpgnum) := by
  refine .bind (within_allocPagesLoop _ _) fun r => ?_
  split
  · exact .pure none
  · exact .own _

theorem within_incVmaLimit (vmaid incSz : ℤ) : Within (incVmaLimit vmaid incSz) := by
  refine .bind (.own _) fun mm => ?_
  dsimp only
  split
  · split_ifs
    · exact .pure false
    · refine .bind (within_vmMapRam _ _) fun r => ?_
      split
      · exact .pure false
      · exact .bind (.own _) fun _ => .bind (.own _) fun _ => .pure true
    · exact .pure false
  · exact .pure false

theorem within_sysMemmap (junk : ℕ → Byte) (a1 a2 a3 : BitVec 32) :
    Within (sysMemmap junk a1 a2 a3) := by
  rw [sysMemmap]
  split
  · exact .pure ()
  · exact .bind (within_incVmaLimit _ _) fun _ => .pure ()
  · exact within_swapCpCells _ _ _ _ _ _
  · exact .bind (.touch _ _) fun _ => .pure ()
  · exact .touch _ _
  · exact .pure ()

theorem within_freePages (l : List ℕ) : Within (freePages l) := by
  induction l with
  | nil => exact .pure ()
  | cons pagenum l ih =>
    refine .bind (.bind (.own _) fun mm => ?_) fun _ => ih
    split_ifs
    · exact .bind (.touch _ _) fun _ => .own _
    · exact .bind (.touch _ _) fun _ => .own _
    · exact .pure ()

section
variable {α : Type}

theorem takes_return (a : α) : Takes true (do unlock; pure a : Call α) false :=
  .bind .unlock fun _ => .pure false a

theorem takes_setMm_return (mm : Mm) (a : α) :
    Takes true (do setMm mm; unlock; pure a : Call α) false :=
  .bind (.own true _) fun _ => takes_return a

end

theorem takes_alloc (vmaid rgid size : ℤ) : Takes false (alloc vmaid rgid size) false := by
  rw [alloc]
  split
  · exact .pure false none
  · split_ifs
    · exact .pure false none
    · refine .bind .lock fun _ => .bind (.own true _) fun mm => ?_
      split
      · exact takes_setMm_return _ _
      · split
        · exact takes_return none
        · refine .bind (within_incVmaLimit _ _).takes fun _ => .bind (.own true _) fun mm => ?_
          split
          · exact takes_setMm_return _ _
          · exact takes_return none

theorem takes_free (vmaid rgid : ℤ) : Takes false (free vmaid rgid) false := by
  rw [free]
  split
  · exact .pure false false
  · refine .bind .lock fun _ => .bind (.own true _) fun mm => ?_
    split
    · exact takes_return false
    · dsimp only
      split_ifs
      · exact takes_return false
      · exact takes_setMm_return _ true

theorem takes_read (vmaid rgid offset : ℤ) : Takes false (read vmaid rgid offset) false := by
  refine .bind .lock fun _ => .bind (.own true _) fun mm => ?_
  split
  · dsimp only
    split_ifs
    · exact takes_return none
    · exact .bind (within_pgGetval _).takes fun _ => takes_return _
  · exact takes_return none

theorem takes_write (vmaid rgid offset : ℤ) (value : Byte) :
    Takes false (write vmaid rgid offset value) false := by
  refine .bind .lock fun _ => .bind (.own true _) fun mm => ?_
  split
  · dsimp only
    split_ifs
    · exact takes_return false
    · exact .bind (within_pgSetval _ _).takes fun _ => takes_return _
  · exact takes_return false

theorem takes_procName (memrg : ℤ) (n i : ℕ) : Takes false (procName memrg n i) false := by
  induction n generalizing i with
  | zero => exact .pure false []
  | succ n ih =>
    refine .bind (takes_read _ _ _) fun r => ?_
    split
    · exact .pure false []
    · split_ifs
      · exact .pure false []
      · exact .bind (ih _) fun _ => .pure false _

section
variable {ι : Type*} [DecidableEq ι] {α : Type}

theorem takes_asProc {b : Bool} (p : ι) (dead : α) {m : Call α} (h : Takes b m b) :
    Takes b (asProc p dead m) b := by
  intro t ht
  rcases hp : t.state.mm p with _ | mm
  · rw [run_asProc_dead hp]
    exact ⟨ht, [], rfl, by simp⟩
  · rw [run_asProc_alive hp]
    exact h.zoom t ht

theorem within_asProc (p : ι) (dead : α) {m : Call α} (h : Within m) :
    Within (asProc p dead m) := by
  intro t
  rcases hp : t.state.mm p with _ | mm
  · rw [run_asProc_dead hp]
    exact ⟨rfl, [], rfl⟩
  · rw [run_asProc_alive hp]
    exact h.zoom t

theorem takes_freePcb (p : ι) : Takes false (freePcb p) false :=
  .bind (takes_asProc p () (.bind .lock fun _ =>
    .bind (within_freePages _).takes fun _ => .unlock)) fun _ => .own false _

theorem takes_freePcbs (vs : List ι) : Takes false (freePcbs vs) false := by
  induction vs with
  | nil => exact .pure false ()
  | cons v vs ih => exact .bind (takes_freePcb v) fun _ => ih

theorem takes_sysKillall (kill : List Byte → List ι) (p : ι) (memrg : BitVec 32) :
    Takes false (sysKillall kill p memrg) false := by
  have hname : Takes false (some <$> procName memrg.toInt procNameRounds 0) false :=
    .bind (takes_procName _ _ _) fun name => .pure false (some name)
  refine .bind (takes_asProc p none hname) fun r => ?_
  split
  · exact .pure false ()
  · exact takes_freePcbs _

end

theorem touches_swapCpPageInt (junk : ℕ → Byte) (mpsrc : Device) (srcfpn : ℤ) (mpdst : Device)
    (dstfpn : ℤ) : Touches (swapCpPageInt junk mpsrc srcfpn mpdst dstfpn) := by
  have hrange : List.range pagingPagesz = 0 :: (List.range 255).map Nat.succ :=
    List.range_succ_eq_map
  rw [swapCpPageInt, hrange]
  exact .bind (.touch _ _) fun _ => .bind (.touch _ _) fun _ => within_swapCpCells _ _ _ _ _ _

theorem touches_grabFrame : Touches grabFrame := by
  refine .bind (.touch _ _) fun r => ?_
  split
  · exact .pure _
  · exact within_swapOutPage

theorem touches_vmMapRam (mapstart : ℤ) {incpgnum : ℤ} (h : 0 < incpgnum) :
    Touches (vmMapRam mapstart incpgnum) := by
  obtain ⟨n, hn⟩ : ∃ n, incpgnum.toNat = n + 1 := ⟨incpgnum.toNat - 1, by omega⟩
  have hloop : Touches (allocPagesLoop incpgnum.toNat []) := by
    rw [hn]
    refine .bind touches_grabFrame fun r => ?_
    split
    · exact within_allocPagesLoop _ _
    · exact .bind (within_putBack _) fun _ => .pure none
  refine .bind hloop fun r => ?_
  split
  · exact .pure none
  · exact .own _

theorem tdiv_pagesz_pos {sz : ℤ} (h : 0 < pagingPageAlignsz sz) :
    0 < (pagingPageAlignsz sz).tdiv pagingPagesz := by
  obtain ⟨d, hd⟩ := dvd_pagingPageAlignsz sz
  simp only [pagingPagesz]
  rw [Int.tdiv_eq_ediv_of_nonneg h.le]
  omega

theorem incVmaLimit_log (c : Pcb) (vmaid incSz : ℤ) :
    ((incVmaLimit vmaid incSz).run (start c)).2.log = [] ↔ ¬ Grows c vmaid incSz := by
  rw [incVmaLimit, run_bind]
  generalize hmm : (getMm.run (start c)).1 = mm
  obtain rfl : c.mm = mm := hmm
  generalize ht : (getMm.run (start c)).2 = t
  obtain rfl : start c = t := ht
  simp only [Grows]
  rcases c.mm.getVmaByNum vmaid with _ | curVma
  · simp
  rcases c.mm.getVmAreaNodeAtBrk vmaid (pagingPageAlignsz incSz) with _ | area
  · simp
  simp only [Option.isSome_some, true_and, Option.some.injEq, exists_eq_left']
  by_cases hle : pagingPageAlignsz incSz ≤ 0
  · rw [if_pos hle]
    exact iff_of_true (start_log c) fun hg => absurd hg.1 (not_lt.mpr hle)
  rw [if_neg hle]
  by_cases hov : c.mm.validateOverlapVmArea vmaid (toInt area.rgStart) (toInt area.rgEnd) = true
  · rw [if_neg (not_not.mpr hov)]
    refine iff_of_false ?_ (not_not.mpr ⟨not_le.mp hle, hov⟩)
    have hmap := touches_vmMapRam (toInt curVma.vmEnd) (tdiv_pagesz_pos (not_le.mp hle))
    refine (Touches.bind hmap fun r => ?_).log_ne_nil c
    split
    · exact .pure false
    · exact .bind (.own _) fun _ => .bind (.own _) fun _ => .pure true
  · rw [if_pos hov]
    exact iff_of_true (start_log c) fun hg => absurd hg.2 hov

theorem sysMemmap_log (junk : ℕ → Byte) (c : Pcb) (a1 a2 a3 : BitVec 32) :
    ((sysMemmap junk a1 a2 a3).run (start c)).2.log = [] ↔ ¬ UsesDevice c a1 a2 a3 := by
  simp only [sysMemmap, UsesDevice]
  cases Memop.ofCode a1 with
  | map => exact iff_of_true rfl not_false
  | inc => exact incVmaLimit_log c a2.toInt a3.toInt
  | swp =>
    have htouch := touches_swapCpPageInt junk .mram a2.toInt (.mswp activeMswpId) a3.toInt
    have hlog := htouch.log_ne_nil c
    simp only [hlog, not_true_eq_false]
  | ioRead => exact iff_of_false (List.cons_ne_nil _ _) (not_not.mpr trivial)
  | ioWrite => exact iff_of_false (List.cons_ne_nil _ _) (not_not.mpr trivial)
  | unknown => exact iff_of_true rfl not_false

section
variable {ι : Type*} [DecidableEq ι]

theorem guarded_memmap_iff (junk : ℕ → Byte) (s : Kernel ι) (p : ι) (a1 a2 a3 : BitVec 32) :
    Guarded (asProc p () (sysMemmap junk a1 a2 a3)) s ↔
      ¬ ∃ mm, s.mm p = some mm ∧ UsesDevice (s.caller mm) a1 a2 a3 := by
  rw [(within_asProc p () (within_sysMemmap junk a1 a2 a3)).guarded_iff]
  rcases hp : s.mm p with _ | mm
  · rw [run_asProc_dead (t := start s) hp]
    simp [start]
  · rw [run_asProc_alive (t := start s) hp]
    simp only [Option.some.injEq, exists_eq_left']
    exact sysMemmap_log junk (s.caller mm) a1 a2 a3

theorem takes_run (kill : List Byte → List ι) (junk : ℕ → Byte) (p : ι) (ins : Instruction)
    (h : ¬ (ins.opcode = .SYSCALL ∧ SyscallEntry.ofNr (ins.args 0) = .memmap)) :
    Takes false (run kill junk p ins) false := by
  obtain ⟨opcode, args⟩ := ins
  cases opcode with
  | CALC => exact .pure false ()
  | ALLOC => exact .bind (takes_asProc p none (takes_alloc _ _ _)) fun _ => .pure false ()
  | FREE => exact .bind (takes_asProc p false (takes_free _ _)) fun _ => .pure false ()
  | READ => exact .bind (takes_asProc p none (takes_read _ _ _)) fun _ => .pure false ()
  | WRITE => exact .bind (takes_asProc p false (takes_write _ _ _ _)) fun _ => .pure false ()
  | SYSCALL =>
    simp only [true_and] at h
    simp only [run, syscall]
    cases he : SyscallEntry.ofNr (args 0) with
    | listsyscall => exact .pure false ()
    | memmap => exact absurd he h
    | killall => exact takes_sysKillall kill p (args 1)
    | niSyscall => exact .pure false ()

/-- Every function of a shared device is executed under the lock, unless a SYSCALL
instruction reaches it directly. The lock itself is never taken twice and never kept. -/
theorem run_guarded_iff (kill : List Byte → List ι) (junk : ℕ → Byte) (s : Kernel ι) (p : ι)
    (ins : Instruction) :
    (Guarded (run kill junk p ins) s ↔ ¬ Unlocked s p ins) ∧ Balanced (run kill junk p ins) s ∧
      ∀ v, Guarded (freePcb v) s := by
  by_cases h : ins.opcode = .SYSCALL ∧ SyscallEntry.ofNr (ins.args 0) = .memmap
  · -- `__sys_memmap` neither takes nor releases the lock
    have hrun : run kill junk p ins =
        asProc p () (sysMemmap junk (ins.args 1) (ins.args 2) (ins.args 3)) := by
      simp only [run, syscall, h.1, h.2]
    rw [hrun, guarded_memmap_iff, Unlocked]
    refine ⟨?_, ?_, fun v => (takes_freePcb v).guarded s⟩
    · simp only [h, true_and]
    · exact (within_asProc p () (within_sysMemmap junk _ _ _)).balanced s
  · have hguarded := (takes_run kill junk p ins h).guarded s
    have hlocked : ¬ Unlocked s p ins := fun hu => h ⟨hu.1, hu.2.1⟩
    exact ⟨iff_of_true hguarded hlocked, hguarded.balanced, fun v => (takes_freePcb v).guarded s⟩

end

/-- A process executes SYSCALL 17 4 0 0: byte 0 of RAM is read without the lock. -/
theorem syscall_reads_unlocked :
    ∃ s : Kernel Unit, Run Kernel.NextSys (Kernel.boot 256 fun _ => 256) [.op (.create ())] s ∧
      ((run (fun _ => []) (fun _ => 0) () ⟨.SYSCALL, ![17, 4, 0, 0]⟩).run (start s)).2.log =
        [(.touch (.read .mram), false)] ∧
      ¬ Guarded (run (fun _ => []) (fun _ => 0) () ⟨.SYSCALL, ![17, 4, 0, 0]⟩) s := by
  have hlog : ((run (fun _ => []) (fun _ => 0) () ⟨.SYSCALL, ![17, 4, 0, 0]⟩).run
      (start (Kernel.sysStep (Kernel.boot 256 fun _ => 256) (.op (.create ()))))).2.log =
        [(.touch (.read .mram), false)] := rfl
  refine ⟨_, .snoc .nil ⟨rfl, by decide +kernel⟩, hlog, fun hg => ?_⟩
  have hallowed := hg.1 (.touch (.read .mram), false)
    (by rw [hlog]; exact List.mem_singleton_self _)
  exact Bool.false_ne_true hallowed

end OSsim.Locked
