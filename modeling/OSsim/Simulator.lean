import OSsim.Isolation
import OSsim.Os

/-!
# The whole simulator

The threads with their memory over the timer with its mutexes. Seen without the memory a
run is a run of the threads and their timer, seen without the timer it is a run of the
machine that stays in its time slots. So what holds of both holds of the simulator: it
never stands still before all threads have ended, and by then every frame is free again
and every process has its result.
-/

namespace OSsim

structure Simulator (n m : ℕ) where
  machine : Machine n m
  timer : TimerSync (m + 1)

inductive SimulatorAction (n m : ℕ)
  | thread (a : MachineAction n m)
  | sync (a : SyncAction (m + 1))

namespace Simulator
variable {n m : ℕ}

def start (memramsz : ℤ) (memswpsz : ℕ → ℤ) : Simulator n m :=
  ⟨.start memramsz memswpsz, .start (m + 1)⟩

/-- `main` up to the first step of a thread. -/
def main (memramsz : ℤ) (memswpsz : ℕ → ℤ) : Option (Simulator n m) :=
  (Kernel.main memramsz memswpsz).map fun mem =>
    ⟨{ Machine.start memramsz memswpsz with mem := mem }, .start (m + 1)⟩

theorem eq_start_of_main {memramsz : ℤ} {memswpsz : ℕ → ℤ} {s : Simulator n m}
    (h : main memramsz memswpsz = some s) : s = start memramsz memswpsz := by
  obtain ⟨mem, hmem, rfl⟩ := Option.map_eq_some_iff.mp h
  obtain ⟨_, _, rfl⟩ := Kernel.main_eq_some.mp hmem
  rfl

def os (s : Simulator n m) : Os n m := ⟨s.machine.sys, s.timer⟩

/-- Nothing in `timer.c` touches memory, and neither does a thread that comes back from
it. -/
def step (S : Setup n) (s : Simulator n m) : SimulatorAction n m → Option (Simulator n m)
  | .thread a =>
    match (a.named []).event with
    | none => none
    | some d =>
      if (s.timer.device d).point = .work && !s.machine.sys.atNextSlot d then
        (s.machine.step S a).map fun machine => { s with machine := machine }
      else none
  | .sync a =>
    (s.os.step S.config (.sync a)).map fun os => ⟨{ s.machine with sys := os.sys }, os.timer⟩

def Next (S : Setup n) (s : Simulator n m) (a : SimulatorAction n m) (s' : Simulator n m) : Prop :=
  s.step S a = some s'

end Simulator

namespace Os
variable {n m : ℕ} {cfg : Config n} {s s' : Os n m} {b : SyncAction (m + 1)}

theorem sync_cases (h : Next cfg s (.sync b) s') :
    s'.sys = s.sys ∨
    (s.timer.point.ticks = true ∧ s'.sys = { s.sys with time := s.sys.time + 1 }) ∨
    ∃ d, (s.timer.device d).point = .unlockTimer ∧ s.sys.step cfg (.back d) = some s'.sys := by
  cases b with
  | timer =>
    obtain ⟨timer', _, rfl⟩ := Option.map_eq_some_iff.mp h
    dsimp only
    split_ifs with hpt
    · exact Or.inr (Or.inl ⟨hpt, rfl⟩)
    · exact Or.inl rfl
  | device d =>
    simp only [Next, step] at h
    split_ifs at h with hpt
    · obtain ⟨sys', hsys, hrest⟩ := Option.bind_eq_some_iff.mp h
      obtain ⟨timer', _, rfl⟩ := Option.map_eq_some_iff.mp hrest
      exact Or.inr (Or.inr ⟨d, hpt, hsys⟩)
    · obtain ⟨timer', _, rfl⟩ := Option.map_eq_some_iff.mp h
      exact Or.inl rfl
  | nextSlot d | detachEvent d =>
    simp only [Next, step] at h
    split_ifs at h
    obtain ⟨timer', _, rfl⟩ := Option.map_eq_some_iff.mp h
    exact Or.inl rfl
  | stop | wakeTimer | wakeDevice d =>
    obtain ⟨timer', _, rfl⟩ := Option.map_eq_some_iff.mp h
    exact Or.inl rfl

end Os

namespace Machine
variable {n m : ℕ} {S : Setup n} {s : Machine n m} {c : Fin m} {d : Fin (m + 1)}

theorem next_back {sys : System n m} (hslot : s.sys.atNextSlot d = true)
    (h : s.sys.step S.config (.back d) = some sys) :
    ∃ a : MachineAction n m, a.named [] = .back d ∧ Next S s a { s with sys := sys } := by
  rcases System.event_cases d with rfl | ⟨c, rfl⟩
  · have hback : Action.back (ldEvent m) = .loader := by simp [Action.back, ldEvent]
    rw [hback] at h
    refine ⟨.loader, hback.symm, ?_⟩
    have hadd : ∀ i, s.sys.loader.point ≠ .add i := by
      intro i hpt
      rw [System.atNextSlot_ldEvent, Loader.inNextSlot, hpt] at hslot
      cases hslot
    change (s.sys.ldStep S.config).map _ = _
    rw [show s.sys.ldStep S.config = some sys from h, Option.map_some]
    split
    · next i hpt => exact absurd hpt (hadd i)
    · rfl
  · have hback : Action.back (cpuEvent c) = .cpu c [] := by simp [Action.back, cpuEvent]
    rw [hback] at h
    refine ⟨.cpu c, hback.symm, ?_⟩
    rw [System.atNextSlot_cpuEvent] at hslot
    obtain ⟨proc, hpt⟩ := System.inNextSlot_point hslot
    change s.cpuStep S c = _
    simp only [cpuStep, hpt, advance]
    rw [show s.sys.cpuStep S.config c [] = some sys from h, Option.map_some]

theorem advance_enabled (hc : (s.sys.cpu c).point ≠ .stopped) (name : List Char) :
    ∃ s', s.advance S c name = some s' := by
  obtain ⟨sys, hsys⟩ := System.enabled S.config hc name
  exact ⟨_, by rw [advance, show s.sys.cpuStep S.config c name = some sys from hsys]; rfl⟩

theorem ld_enabled {sys : System n m} (h : s.sys.ldStep S.config = some sys) :
    ∃ s', Next S s .loader s' :=
  ⟨_, Option.map_eq_some_iff.mpr ⟨sys, h, rfl⟩⟩

/-- A CPU that has not stopped can go on, whatever it finds in memory. -/
theorem cpu_enabled (ho : s.sys.InOrder S.config) (hc : (s.sys.cpu c).point ≠ .stopped) :
    ∃ a s', a.named [] = .cpu c [] ∧ Next S s a s' := by
  have hcpu : (∃ s', s.cpuStep S c = some s') → ∃ a s', a.named [] = .cpu c [] ∧ Next S s a s' :=
    fun ⟨s', hs'⟩ => ⟨.cpu c, s', rfl, hs'⟩
  rcases hpt : (s.sys.cpu c).point with _ | _
  case execute p k x =>
    obtain ⟨hpc, _⟩ := ho.execute c p k x hpt
    have hlt := ho.pc_le p
    rw [hpc, Setup.config, List.length_map] at hlt
    have hins := List.getElem?_eq_getElem hlt
    by_cases hmap : (S.code p)[k].Memmap
    · -- the call may return at once
      obtain ⟨s', hs'⟩ := advance_enabled (S := S) hc []
      refine ⟨.memmap c s.mem true, s', rfl, ?_⟩
      change s.memmapStep S c s.mem true = some s'
      simp only [memmapStep, hpt, hins, hmap, implies_true, and_self, if_true]
      exact hs'
    · refine hcpu ?_
      simp only [cpuStep, hpt, hins]
      split_ifs
      · -- every round of the name ends in a call or in one more byte
        simp only [nameRound]
        split_ifs
        · split
          · exact advance_enabled (by exact hc) _
          · split_ifs
            · exact ⟨_, rfl⟩
            · exact advance_enabled (by exact hc) _
        · exact advance_enabled (by exact hc) _
      · exact advance_enabled (by rw [run_sys_eq]; exact hc) _
  case stopped => exact absurd hpt hc
  all_goals
    refine hcpu ?_
    simp only [cpuStep, hpt]
  case freeVictims p vs =>
    cases vs with
    | nil => exact advance_enabled hc _
    | cons v vs => exact advance_enabled (by exact hc) _
  all_goals exact advance_enabled (by exact hc) _

end Machine

namespace Simulator
variable {n m : ℕ} {S : Setup n} {s s' s₀ : Simulator n m} {a : SimulatorAction n m}
  {as : List (SimulatorAction n m)} {memramsz : ℤ} {memswpsz : ℕ → ℤ}

theorem next_thread {a : MachineAction n m} (h : Next S s (.thread a) s') :
    ∃ d machine, (a.named []).event = some d ∧ (s.timer.device d).point = .work ∧
      s.machine.sys.atNextSlot d = false ∧ Machine.Next S s.machine a machine ∧
      s' = { s with machine := machine } := by
  simp only [Next, step] at h
  split at h
  · cases h
  · next d hd =>
    split_ifs at h with hguard
    obtain ⟨machine, hmachine, rfl⟩ := Option.map_eq_some_iff.mp h
    simp only [Bool.and_eq_true, decide_eq_true_eq, Bool.not_eq_true'] at hguard
    exact ⟨d, machine, hd, hguard.1, hguard.2, hmachine, rfl⟩

theorem event_named (a : MachineAction n m) (name : List Char) :
    (a.named name).event = (a.named []).event := by
  cases a <;> rfl

theorem next_os (h : Next S s a s') : ∃ bs, Run (Os.Next S.config) s.os bs s'.os := by
  cases a with
  | thread a =>
    obtain ⟨d, machine, hd, hwork, hslot, hmachine, rfl⟩ := next_thread h
    rcases (Machine.step_cases hmachine).sys_next with heq | ⟨name, hnext⟩
    · refine ⟨[], ?_⟩
      rw [os, os, heq]
      exact .nil
    · refine ⟨[.thread (a.named name)], .snoc .nil ?_⟩
      have hsys : s.machine.sys.step S.config (a.named name) = some machine.sys := hnext
      simp [Os.Next, Os.step, event_named a name, hd, os, hwork, hslot, hsys]
  | sync b =>
    obtain ⟨os', hos, rfl⟩ := Option.map_eq_some_iff.mp h
    exact ⟨[.sync b], .snoc .nil hos⟩

theorem run_os (h : Run (Next S) (start memramsz memswpsz) as s) :
    ∃ bs, Run (Os.Next S.config) (.start n m) bs s.os := by
  refine h.invariant (fun s => ∃ bs, Run (Os.Next S.config) (.start n m) bs s.os) ⟨[], .nil⟩ ?_
  rintro s a s' ⟨bs, hbs⟩ hn
  obtain ⟨cs, hcs⟩ := next_os hn
  exact ⟨cs ++ bs, hbs.append hcs⟩

theorem next_machine {cs : List (OsAction m)} (hc : Os.Coupled S.config cs s.os)
    (h : Next S s a s') : ∃ bs, Run (Machine.NextInStep S) s.machine bs s'.machine := by
  cases a with
  | thread a =>
    obtain ⟨d, machine, hd, _, hslot, hmachine, rfl⟩ := next_thread h
    exact ⟨[a], .snoc .nil ⟨System.inStep_of_not_atNextSlot hd hslot, hmachine⟩⟩
  | sync b =>
    obtain ⟨os', hos, rfl⟩ := Option.map_eq_some_iff.mp h
    rcases Os.sync_cases hos with heq | ⟨hpt, heq⟩ | ⟨d, hpt, hsys⟩
    · refine ⟨[], ?_⟩
      rw [heq]
      exact .nil
    · refine ⟨[.tick], .snoc .nil ⟨hc.tick_inStep hpt, ?_⟩⟩
      rw [heq]
      rfl
    · obtain ⟨hslot, _, hlt⟩ := hc.behind hpt
      obtain ⟨a, ha, hnext⟩ := Machine.next_back hslot hsys
      refine ⟨[a], .snoc .nil ⟨?_, hnext⟩⟩
      rw [ha]
      exact System.inStep_of_slots (System.event_back d) hlt

theorem run_machine (h : Run (Next S) (start memramsz memswpsz) as s) :
    ∃ bs, Run (Machine.NextInStep S) (.start memramsz memswpsz) bs s.machine := by
  induction h with
  | nil => exact ⟨[], .nil⟩
  | snoc hr hn ih =>
    obtain ⟨bs, hbs⟩ := ih
    obtain ⟨cs, hos⟩ := run_os hr
    obtain ⟨ds, hds⟩ := next_machine (Os.Coupled.run hos) hn
    exact ⟨ds ++ bs, hbs.append hds⟩

def SimulatorAction.own : SimulatorAction n m → Bool
  | .thread _ => true
  | .sync a => Os.OsAction.own (.sync a)

def CanGoOn (S : Setup n) (s : Simulator n m) : Prop :=
  ∃ a s', SimulatorAction.own a = true ∧ Next S s a s'

theorem canGoOn_of_os (ho : s.machine.sys.InOrder S.config) (h : s.os.CanGoOn S.config) :
    s.CanGoOn S := by
  obtain ⟨a, os', hown, hnext⟩ := h
  cases a with
  | sync b =>
    refine ⟨.sync b, ⟨{ s.machine with sys := os'.sys }, os'.timer⟩, hown, ?_⟩
    rw [Next, step, show s.os.step S.config (.sync b) = some os' from hnext]
    rfl
  | thread a =>
    simp only [Os.Next, Os.step] at hnext
    split at hnext
    · cases hnext
    · next d hd =>
      split_ifs at hnext with hguard
      obtain ⟨sys', hsys, _⟩ := Option.map_eq_some_iff.mp hnext
      obtain ⟨hwork, hslot⟩ := Bool.and_eq_true_iff.mp hguard
      have hwork : (s.timer.device d).point = .work := of_decide_eq_true hwork
      have hslot : s.machine.sys.atNextSlot d = false := (Bool.not_eq_true' _).mp hslot
      have hgo : ∃ b machine, (b.named []).event = some d ∧
          Machine.Next S s.machine b machine := by
        cases a with
        | tick => cases hd
        | loader =>
          obtain ⟨machine, hm⟩ := Machine.ld_enabled hsys
          exact ⟨.loader, machine, hd, hm⟩
        | cpu c name =>
          have hc : (s.machine.sys.cpu c).point ≠ .stopped := by
            intro hpt
            have hstep : s.machine.sys.cpuStep S.config c name = some sys' := hsys
            simp [System.cpuStep, hpt] at hstep
          obtain ⟨b, machine, hb, hm⟩ := Machine.cpu_enabled ho hc
          refine ⟨b, machine, ?_, hm⟩
          rw [hb]
          exact hd
      obtain ⟨b, machine, hb, hm⟩ := hgo
      have hstep : s.machine.step S b = some machine := hm
      refine ⟨.thread b, { s with machine := machine }, rfl, ?_⟩
      simp [Next, step, hb, hwork, hslot, hstep]

theorem exited_of_not_canGoOn (h : Run (Next S) (start memramsz memswpsz) as s)
    (hgo : ¬ s.CanGoOn S) : s.os.Exited := by
  obtain ⟨bs, hos⟩ := run_os h
  obtain ⟨cs, hsys⟩ := (Os.Coupled.run hos).sys
  have ho : s.machine.sys.InOrder S.config :=
    System.InOrder.run (hsys.mono fun _ _ _ hn => hn.2)
  exact (Os.Coupled.run hos).exited_of_not_canGoOn fun hos => hgo (canGoOn_of_os ho hos)

theorem quiescent (hn : n ≤ maxQueueSize) (hm : 0 < m)
    (h : Run (Next S) (start memramsz memswpsz) as s)
    (hover : s.timer.point = .exited ∨ System.deadline S.config < s.timer.time) :
    s.machine.sys.Quiescent S.config ∧ ∀ p, s.machine.sys.released p = 1 := by
  obtain ⟨bs, hos⟩ := run_os h
  have hc := Os.Coupled.run hos
  obtain ⟨cs, hsys⟩ := hc.sys
  have ht := System.Timely.run hn hm hsys
  have hreleased : s.machine.sys.Released := by
    rcases hover with hexit | hlate
    · have hdone := hc.allDone hm ht.wellRun hexit
      exact ⟨hdone.loaded, fun p => (hdone.released p).symm ▸ Nat.one_pos⟩
    · exact ht.deadline (hc.time.symm ▸ hlate)
  have hq := ht.quiescent hreleased
  exact ⟨hq, hq.allDone.released⟩

/-- The simulator never stands still before all threads have ended. Once they have, or the
deadline is over, every process has been served, none has memory any more and all frames
are free, whatever was killed, swapped or refused on the way. -/
theorem run_ends_clean (S : Setup n) (hn : n ≤ maxQueueSize) (hm : 0 < m) (hpriv : S.Private)
    (hreq : ∀ p, requested (S.code p) ≤ pagingMaxPgn) (hram : framesOf memramsz ≤ 8192)
    (hswp : framesOf (memswpsz 0) ≤ 2 ^ 21) (h₀ : main memramsz memswpsz = some s₀)
    (h : Run (Next S) s₀ as s) :
    (s.CanGoOn S ∨ s.os.Exited) ∧
    (s.timer.point = .exited ∨ System.deadline S.config < s.timer.time →
      s.machine.sys.Quiescent S.config ∧ (∀ p, s.machine.mem.mm p = none) ∧
      s.machine.mem.mram.freeFpList.Perm (List.range (framesOf memramsz)) ∧
      (s.machine.mem.mswp activeMswpId).freeFpList.Perm (List.range (framesOf (memswpsz 0)))) := by
  obtain rfl := eq_start_of_main h₀
  refine ⟨or_iff_not_imp_left.mpr (exited_of_not_canGoOn h), fun hover => ?_⟩
  obtain ⟨hq, hreleased⟩ := quiescent hn hm h hover
  obtain ⟨bs, hrun⟩ := run_machine h
  have hsound := Machine.Sound.run hpriv hreq hram hswp (hrun.mono fun _ _ _ hn => hn.2)
  have hnone := hsound.living.none_of_released fun p => (hreleased p).symm ▸ Nat.one_pos
  exact ⟨hq, hnone, hsound.inv.perm_of_empty hnone⟩

/-- With room for the programs and no SYSCALL 17, every process that was not killed ends
with the results of its program, as if it had run by itself and without swap. -/
theorem run_ends_with_results (S : Setup n) (hn : n ≤ maxQueueSize) (hm : 0 < m)
    (hpriv : S.Private) (hram : framesOf memramsz ≤ 8192) (hswp : framesOf (memswpsz 0) ≤ 2 ^ 21)
    (hfit : RoomFor S.codes (framesOf memramsz) (framesOf (memswpsz 0)))
    (h₀ : main memramsz memswpsz = some s₀) (h : Run (Next S) s₀ as s)
    (hover : s.timer.point = .exited ∨ System.deadline S.config < s.timer.time) (p : Fin n) :
    (s.machine.sys.proc p).killed = true ∨
      ∀ r x, (Alone.after (S.code p)).regs r = some x → s.machine.regs p r = x := by
  obtain rfl := eq_start_of_main h₀
  obtain ⟨hq, _⟩ := quiescent hn hm h hover
  obtain ⟨bs, hrun⟩ := run_machine h
  exact (Machine.Isolated.run hpriv hram hswp hfit (hrun.mono fun _ _ _ hn => hn.2)).results hq p

def oneWriter : Setup 1 where
  timeSlot := 1
  timeSlot_pos := Int.one_pos
  startTime _ := 0
  prio _ := 0
  path _ := ['p']
  code _ :=
    [⟨.ALLOC, fun i => if i.val = 0 then 300 else 0⟩,
      ⟨.WRITE, fun i => if i.val = 0 then 7 else if i.val = 2 then 299 else 0⟩,
      ⟨.READ, fun i => if i.val = 1 then 299 else if i.val = 2 then 3 else 0⟩]

/-- One CPU and the loader, each going on as long as it can. -/
def oneCpuOrder : List (SimulatorAction n 1) :=
  let cpu : Fin 2 := ⟨0, Nat.zero_lt_two⟩
  let loader : Fin 2 := ⟨1, Nat.one_lt_two⟩
  [.thread .loader, .thread (.cpu ⟨0, Nat.one_pos⟩), .sync (.device cpu),
    .sync (.device loader), .sync (.nextSlot cpu), .sync (.nextSlot loader),
    .sync (.detachEvent cpu), .sync (.detachEvent loader), .sync .timer]

def oneCpuRun : List (SimulatorAction 1 1) × Simulator 1 1 :=
  Run.greedy (step oneWriter) oneCpuOrder 161 ([], start 512 fun _ => 256)

theorem oneWriter_private : oneWriter.Private := by
  intro p ins hins hcall
  have hop : ins.opcode ≠ .SYSCALL := by
    simp only [oneWriter, List.mem_cons, List.not_mem_nil, or_false] at hins
    rcases hins with rfl | rfl | rfl <;> simp
  exact hop hcall.1

theorem oneCpuRun_main : main 512 (fun _ => 256) = some (start 512 fun _ => 256 : Simulator 1 1) :=
  rfl

theorem oneCpuRun_run : Run (Next oneWriter) (start 512 fun _ => 256) oneCpuRun.1
    oneCpuRun.2 := Run.of_greedy 161 .nil

theorem oneCpuRun_exited : oneCpuRun.2.timer.point = .exited := by decide +kernel

theorem run_ends_clean_oneWriter :
    oneCpuRun.2.timer.point = .exited ∧ oneCpuRun.2.machine.mem.mm ⟨0, Nat.one_pos⟩ = none ∧
      oneCpuRun.2.machine.mem.mram.freeFpList.Perm (List.range 2) := by
  have hends := run_ends_clean oneWriter (by decide) (by decide) oneWriter_private (by decide)
    (by decide) (by decide) oneCpuRun_main oneCpuRun_run
  obtain ⟨_, hnone, hperm, _⟩ := hends.2 (Or.inl oneCpuRun_exited)
  exact ⟨oneCpuRun_exited, hnone _, hperm⟩

theorem run_ends_with_results_oneWriter :
    (oneCpuRun.2.machine.sys.proc ⟨0, Nat.one_pos⟩).killed = true ∨
      oneCpuRun.2.machine.regs ⟨0, Nat.one_pos⟩ 3 = 7 := by
  have halone : (Alone.after (oneWriter.code ⟨0, Nat.one_pos⟩)).regs 3 = some 7 := by decide +kernel
  have hends := run_ends_with_results oneWriter (by decide) (by decide) oneWriter_private
    (by decide) (by decide) (by decide +kernel) oneCpuRun_main oneCpuRun_run
    (Or.inl oneCpuRun_exited) ⟨0, Nat.one_pos⟩
  exact hends.imp_right fun hall => hall 3 7 halone

end Simulator
end OSsim
