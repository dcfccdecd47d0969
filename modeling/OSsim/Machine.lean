import OSsim.AddressLimit
import OSsim.Killall
import OSsim.ProgramFile
import OSsim.StepBound

/-!
# Threads and memory together

The CPUs and the loader over the memory they share. The loader gives a process its
address space before it hands it to the scheduler, `free_pcb` takes it away, and in
between the CPU that runs the process executes its instructions on it. `__sys_killall`
reads the name byte by byte, and as each `__read` takes the lock for itself, other
threads may run between two bytes. A program's SYSCALL 17 runs the handlers of
`__sys_memmap` without the lock, in the middle of whatever the other CPUs do, so while
such a call lasts nothing is known here of what memory holds.
-/

namespace OSsim

instance neZero_args : NeZero 4 := ⟨four_ne_zero⟩

def Instruction.inst (ins : Instruction) : Inst := ⟨ins.opcode, (ins.args 0).toNat⟩

def Instruction.Memmap (ins : Instruction) : Prop :=
  ins.opcode = .SYSCALL ∧ SyscallEntry.ofNr (ins.args 0) = .memmap

instance (ins : Instruction) : Decidable ins.Memmap := inferInstanceAs (Decidable (_ ∧ _))

/-- The call of the memory library that the instruction is, if it is one. -/
def Instruction.call (ins : Instruction) : Option Instr :=
  match ins.opcode with
  | .ALLOC => some (.alloc (ins.args 0) (ins.args 1))
  | .FREE => some (.free (ins.args 0))
  | .READ => some (.read (ins.args 0) (ins.args 1))
  | .WRITE => some (.write ((ins.args 0).setWidth 8) (ins.args 1) (ins.args 2))
  | _ => none

/-- What `read_config` and `load` read for `n` processes, with their whole programs. -/
structure Setup (n : ℕ) where
  timeSlot : ℤ
  timeSlot_pos : 0 < timeSlot
  startTime : Fin n → ℕ
  prio : Fin n → ℕ
  path : Fin n → List Char
  code : Fin n → List Instruction

def Setup.config {n : ℕ} (S : Setup n) : Config n where
  timeSlot := S.timeSlot
  timeSlot_pos := S.timeSlot_pos
  startTime := S.startTime
  prio := S.prio
  path := S.path
  text p := (S.code p).map Instruction.inst

def Setup.Private {n : ℕ} (S : Setup n) : Prop := ∀ p, ∀ ins ∈ S.code p, ¬ ins.Memmap

abbrev Regs := Fin 10 → BitVec 32

/-- `procName` is the buffer of a CPU that is in the loop of `__sys_killall`. -/
structure Machine (n m : ℕ) where
  sys : System n m
  mem : Kernel (Fin n)
  regs : Fin n → Regs
  procName : Fin m → List Byte

/-- `memmap` is a moment in the call of `__sys_memmap` by a program on CPU `c`. It leaves
the memory as `mem` and may be the last one of the call. -/
inductive MachineAction (n m : ℕ)
  | loader
  | cpu (c : Fin m)
  | memmap (c : Fin m) (mem : Kernel (Fin n)) (last : Bool)
  | tick

def MachineAction.named {n m : ℕ} (name : List Char) : MachineAction n m → Action m
  | .loader => .loader
  | .cpu c => .cpu c name
  | .memmap c _ _ => .cpu c name
  | .tick => .tick

/-- READ stores the byte, if it gets one, in the register that `arg_2` names. -/
def Regs.after (regs : Regs) (ins : Instruction) (o : Outcome) : Regs :=
  match ins.opcode, o with
  | .READ, .byte data =>
    if h : (ins.args 2).toNat < 10 then
      Function.update regs ⟨(ins.args 2).toNat, h⟩ (data.signExtend 32)
    else regs
  | _, _ => regs

namespace Machine
variable {n m : ℕ}

def start (memramsz : ℤ) (memswpsz : ℕ → ℤ) : Machine n m where
  sys := .start n m
  mem := .boot memramsz memswpsz
  regs _ _ := 0
  procName _ := []

/-- The scheduling part of a step of CPU `c`. -/
def advance (S : Setup n) (s : Machine n m) (c : Fin m) (name : List Char) :
    Option (Machine n m) :=
  (s.sys.cpuStep S.config c name).map fun sys => { s with sys := sys }

/-- `run` for the instructions other than killall and SYSCALL 17. The memory library takes
the lock for the whole call. -/
def run (s : Machine n m) (p : Fin n) (ins : Instruction) : Machine n m :=
  match ins.call with
  | none => s
  | some i => { s with
      mem := (s.mem.step (.exec p i)).2
      regs := Function.update s.regs p ((s.regs p).after ins (s.mem.step (.exec p i)).1) }

/-- The next round of the loop of `__sys_killall`, and behind it the call of
`kill_proc_by_name`. -/
def nameRound (S : Setup n) (s : Machine n m) (c : Fin m) (p : Fin n) (memrg : BitVec 32) :
    Option (Machine n m) :=
  let name := s.procName c
  let left : Machine n m := { s with procName := Function.update s.procName c [] }
  if name.length < procNameRounds then
    match s.mem.byteRead p memrg name.length with
    | none =>
      { left with mem := s.mem.afterRead p memrg name.length }.advance S c (textOf name)
    | some data =>
      if inName data then
        some { s with
          mem := s.mem.afterRead p memrg name.length
          procName := Function.update s.procName c (name ++ [data]) }
      else { left with mem := s.mem.afterRead p memrg name.length }.advance S c (textOf name)
  else left.advance S c (textOf name)

def release (s : Machine n m) (p : Fin n) : Machine n m :=
  { s with mem := (s.mem.step (.release p)).2 }

def cpuStep (S : Setup n) (s : Machine n m) (c : Fin m) : Option (Machine n m) :=
  match (s.sys.cpu c).point with
  | .execute p k _ =>
    match (S.code p)[k]? with
    | none => none
    | some ins =>
      if ins.inst.isKillall then s.nameRound S c p (ins.args 1)
      else if ins.Memmap then none
      else (s.run p ins).advance S c []
  | .free p => (s.release p).advance S c []
  | .freeVictims _ (v :: _) => (s.release v).advance S c []
  | _ => s.advance S c []

/-- The handlers of `__sys_memmap` neither create nor free an address space. -/
def memmapStep (S : Setup n) (s : Machine n m) (c : Fin m) (mem : Kernel (Fin n)) (last : Bool) :
    Option (Machine n m) :=
  match (s.sys.cpu c).point with
  | .execute p k _ =>
    match (S.code p)[k]? with
    | none => none
    | some ins =>
      if ins.Memmap ∧ ∀ q, (mem.mm q).isSome = (s.mem.mm q).isSome then
        if last then { s with mem := mem }.advance S c [] else some { s with mem := mem }
      else none
  | _ => none

/-- `init_mm` comes right before `add_proc`; nobody else knows the process before. -/
def ldStep (S : Setup n) (s : Machine n m) : Option (Machine n m) :=
  (s.sys.ldStep S.config).map fun sys =>
    match s.sys.loader.point with
    | .add i => { s with sys := sys, mem := (s.mem.step (.create i)).2 }
    | _ => { s with sys := sys }

def step (S : Setup n) (s : Machine n m) : MachineAction n m → Option (Machine n m)
  | .loader => s.ldStep S
  | .cpu c => s.cpuStep S c
  | .memmap c mem last => s.memmapStep S c mem last
  | .tick => (s.sys.step S.config .tick).map fun sys => { s with sys := sys }

def Next (S : Setup n) (s : Machine n m) (a : MachineAction n m) (s' : Machine n m) : Prop :=
  s.step S a = some s'

def NextInStep (S : Setup n) (s : Machine n m) (a : MachineAction n m) (s' : Machine n m) :
    Prop :=
  s.sys.InStep (a.named []) ∧ Next S s a s'

/-- The part of a step that the scheduler sees, when neither a process arrives nor one is
released and no instruction is executed. -/
structure Quiet (sys sys' : System n m) : Prop where
  arrived : ∀ p, sys'.arrived p = sys.arrived p
  released : sys'.released = sys.released
  executed : sys'.executed = sys.executed

inductive Stepped (S : Setup n) (s : Machine n m) : MachineAction n m → Machine n m → Prop
  | moves {a : MachineAction n m} {sys : System n m}
      (next : System.Next S.config s.sys (a.named []) sys) (quiet : Quiet s.sys sys) :
      Stepped S s a { s with sys := sys }
  | creates {i : Fin n} {sys : System n m} (before : s.sys.loader.point = .add i)
      (next : System.Next S.config s.sys .loader sys)
      (arrived : ∀ p, sys.arrived p = s.sys.arrived p + [i].count p)
      (released : sys.released = s.sys.released) (executed : sys.executed = s.sys.executed) :
      Stepped S s .loader { s with sys := sys, mem := (s.mem.step (.create i)).2 }
  | releases {c : Fin m} {v : Fin n} {sys : System n m}
      (before : (s.sys.cpu c).point.reaped = some v ∨ (s.sys.cpu c).point.victims.head? = some v)
      (next : System.Next S.config s.sys (.cpu c []) sys)
      (arrived : ∀ p, sys.arrived p = s.sys.arrived p)
      (released : ∀ p, sys.released p = s.sys.released p + [v].count p)
      (executed : sys.executed = s.sys.executed) :
      Stepped S s (.cpu c) { s with sys := sys, mem := (s.mem.step (.release v)).2 }
  | runs {c : Fin m} {p : Fin n} {k : ℕ} {x : Inst} {ins : Instruction} {sys : System n m}
      (before : (s.sys.cpu c).point = .execute p k x) (inst : (S.code p)[k]? = some ins)
      (plain : ins.inst.isKillall = false) (own : ¬ ins.Memmap)
      (next : System.Next S.config s.sys (.cpu c []) sys)
      (arrived : ∀ p, sys.arrived p = s.sys.arrived p) (released : sys.released = s.sys.released)
      (executed : sys.executed = Function.update s.sys.executed p (s.sys.executed p ++ [k])) :
      Stepped S s (.cpu c) { s.run p ins with sys := sys }
  | maps {c : Fin m} {mem : Kernel (Fin n)} {p : Fin n} {k : ℕ} {x : Inst} {ins : Instruction}
      (before : (s.sys.cpu c).point = .execute p k x) (inst : (S.code p)[k]? = some ins)
      (memmap : ins.Memmap) (same : ∀ q, (mem.mm q).isSome = (s.mem.mm q).isSome) :
      Stepped S s (.memmap c mem false) { s with mem := mem }
  | returns {c : Fin m} {mem : Kernel (Fin n)} {p : Fin n} {k : ℕ} {x : Inst} {ins : Instruction}
      {sys : System n m} (before : (s.sys.cpu c).point = .execute p k x)
      (inst : (S.code p)[k]? = some ins) (memmap : ins.Memmap)
      (same : ∀ q, (mem.mm q).isSome = (s.mem.mm q).isSome)
      (next : System.Next S.config s.sys (.cpu c []) sys)
      (arrived : ∀ p, sys.arrived p = s.sys.arrived p) (released : sys.released = s.sys.released)
      (executed : sys.executed = Function.update s.sys.executed p (s.sys.executed p ++ [k])) :
      Stepped S s (.memmap c mem true) { s with sys := sys, mem := mem }
  | reads {c : Fin m} {p : Fin n} {k : ℕ} {x : Inst} {ins : Instruction} {data : Byte}
      (before : (s.sys.cpu c).point = .execute p k x) (inst : (S.code p)[k]? = some ins)
      (killall : ins.inst.isKillall = true) (more : (s.procName c).length < procNameRounds)
      (found : s.mem.byteRead p (ins.args 1) (s.procName c).length = some data)
      (inside : inName data = true) :
      Stepped S s (.cpu c) { s with
        mem := s.mem.afterRead p (ins.args 1) (s.procName c).length
        procName := Function.update s.procName c (s.procName c ++ [data]) }
  | calls {c : Fin m} {p : Fin n} {k : ℕ} {x : Inst} {ins : Instruction} {sys : System n m}
      {mem : Kernel (Fin n)} (before : (s.sys.cpu c).point = .execute p k x)
      (inst : (S.code p)[k]? = some ins) (killall : ins.inst.isKillall = true)
      (rounds : mem = s.mem ∨ ((s.procName c).length < procNameRounds ∧
        mem = s.mem.afterRead p (ins.args 1) (s.procName c).length))
      (next : System.Next S.config s.sys (.cpu c (textOf (s.procName c))) sys)
      (arrived : ∀ p, sys.arrived p = s.sys.arrived p) (released : sys.released = s.sys.released)
      (executed : sys.executed = Function.update s.sys.executed p (s.sys.executed p ++ [k]))
      (ended : (s.procName c).length < procNameRounds →
        ∀ data, s.mem.byteRead p (ins.args 1) (s.procName c).length = some data →
          inName data = false) :
      Stepped S s (.cpu c) { s with
        sys := sys, mem := mem, procName := Function.update s.procName c [] }

variable {S : Setup n} {s s' : Machine n m} {sys sys' : System n m} {c : Fin m} {p : Fin n}
  {name : List Char}

theorem quiet_cpuStep (h : sys.cpuStep S.config c name = some sys')
    (hexec : ∀ p k ins, (sys.cpu c).point ≠ .execute p k ins)
    (hreap : (sys.cpu c).point.reaped = none) (hfree : (sys.cpu c).point.victims = []) :
    Quiet sys sys' := by
  have harr := System.arrived_congr (System.cpuStep_moved h).loader_eq
  cases System.cpuStep_cases h with
  | executes p k ins before => exact absurd before (hexec p k ins)
  | entersKill p k ins before => exact absurd before (hexec p k ins)
  | frees p before =>
    rw [before] at hreap
    cases hreap
  | freesVictim p v vs before =>
    rw [before] at hfree
    cases hfree
  | _ => exact ⟨harr, rfl, rfl⟩

theorem executed_cpuStep {k : ℕ} {x : Inst} (h : sys.cpuStep S.config c name = some sys')
    (before : (sys.cpu c).point = .execute p k x) :
    (∀ q, sys'.arrived q = sys.arrived q) ∧ sys'.released = sys.released ∧
      sys'.executed = Function.update sys.executed p (sys.executed p ++ [k]) := by
  refine ⟨System.arrived_congr (System.cpuStep_moved h).loader_eq, ?_⟩
  simp only [System.cpuStep, before, Option.some.injEq] at h
  subst h
  exact ⟨rfl, rfl⟩

theorem released_cpuStep {v : Fin n} (h : sys.cpuStep S.config c name = some sys')
    (before : (sys.cpu c).point.reaped = some v ∨ (sys.cpu c).point.victims.head? = some v) :
    (∀ q, sys'.arrived q = sys.arrived q) ∧
      (∀ q, sys'.released q = sys.released q + [v].count q) ∧ sys'.executed = sys.executed := by
  refine ⟨System.arrived_congr (System.cpuStep_moved h).loader_eq, ?_⟩
  cases System.cpuStep_cases h with
  | frees p hpt =>
    simp only [hpt, Point.reaped, Point.victims, List.head?_nil, reduceCtorEq, or_false,
      Option.some.injEq] at before
    subst before
    exact ⟨System.update_succ _ _, rfl⟩
  | freesVictim p w ws hpt =>
    simp only [hpt, Point.reaped, Point.victims, List.head?_cons, reduceCtorEq, false_or,
      Option.some.injEq] at before
    subst before
    exact ⟨System.update_succ _ _, rfl⟩
  | _ => simp [‹(sys.cpu c).point = _›, Point.reaped, Point.victims] at before

theorem advance_some (h : s.advance S c name = some s') :
    ∃ sys, s.sys.cpuStep S.config c name = some sys ∧ s' = { s with sys := sys } := by
  obtain ⟨sys, hsys, heq⟩ := Option.map_eq_some_iff.mp h
  exact ⟨sys, hsys, heq.symm⟩

theorem advance_executes {k : ℕ} {x : Inst} (h : s.advance S c name = some s')
    (before : (s.sys.cpu c).point = .execute p k x) :
    ∃ sys, s.sys.cpuStep S.config c name = some sys ∧ s' = { s with sys := sys } ∧
      (∀ q, sys.arrived q = s.sys.arrived q) ∧ sys.released = s.sys.released ∧
      sys.executed = Function.update s.sys.executed p (s.sys.executed p ++ [k]) := by
  obtain ⟨sys, hsys, rfl⟩ := advance_some h
  exact ⟨sys, hsys, rfl, executed_cpuStep hsys before⟩

theorem advance_moves (h : s.advance S c [] = some s')
    (hexec : ∀ p k ins, (s.sys.cpu c).point ≠ .execute p k ins)
    (hreap : (s.sys.cpu c).point.reaped = none) (hfree : (s.sys.cpu c).point.victims = []) :
    Stepped S s (.cpu c) s' := by
  obtain ⟨sys, hsys, rfl⟩ := advance_some h
  exact .moves hsys (quiet_cpuStep hsys hexec hreap hfree)

theorem advance_releases {v : Fin n} (h : (s.release v).advance S c [] = some s')
    (before : (s.sys.cpu c).point.reaped = some v ∨ (s.sys.cpu c).point.victims.head? = some v) :
    Stepped S s (.cpu c) s' := by
  obtain ⟨sys, hsys, rfl⟩ := advance_some h
  obtain ⟨harr, hrel, hex⟩ := released_cpuStep hsys before
  exact .releases before hsys harr hrel hex

theorem nameRound_cases {k : ℕ} {x : Inst} {ins : Instruction}
    (before : (s.sys.cpu c).point = .execute p k x) (inst : (S.code p)[k]? = some ins)
    (killall : ins.inst.isKillall = true) (h : s.nameRound S c p (ins.args 1) = some s') :
    Stepped S s (.cpu c) s' := by
  simp only [nameRound] at h
  split_ifs at h with hmore
  · split at h
    · next hnone =>
      obtain ⟨sys, hsys, rfl, harr, hrel, hex⟩ := advance_executes h before
      refine .calls before inst killall (Or.inr ⟨hmore, rfl⟩) hsys harr hrel hex
        fun _ data hdata => ?_
      rw [hnone] at hdata
      cases hdata
    · next data hdata =>
      split_ifs at h with hin
      · obtain rfl := Option.some.inj h
        exact .reads before inst killall hmore hdata hin
      · obtain ⟨sys, hsys, rfl, harr, hrel, hex⟩ := advance_executes h before
        refine .calls before inst killall (Or.inr ⟨hmore, rfl⟩) hsys harr hrel hex fun _ b hb => ?_
        rw [hdata, Option.some.injEq] at hb
        exact Bool.eq_false_iff.mpr (hb ▸ hin)
  · obtain ⟨sys, hsys, rfl, harr, hrel, hex⟩ := advance_executes h before
    exact .calls before inst killall (Or.inl rfl) hsys harr hrel hex fun hlt => absurd hlt hmore

theorem run_sys_eq (s : Machine n m) (p : Fin n) (ins : Instruction) :
    (s.run p ins).sys = s.sys := by
  rw [run]
  split <;> rfl

theorem cpuStep_cases (h : s.cpuStep S c = some s') : Stepped S s (.cpu c) s' := by
  rcases hpt : (s.sys.cpu c).point with _ | _
  all_goals simp only [cpuStep, hpt] at h
  case execute p k x =>
    rcases hins : (S.code p)[k]? with _ | ins
    · simp only [hins] at h
      cases h
    simp only [hins] at h
    split_ifs at h with hk hmap
    · exact nameRound_cases hpt hins hk h
    · obtain ⟨sys, hsys, rfl⟩ := advance_some h
      rw [run_sys_eq] at hsys
      obtain ⟨harr, hrel, hex⟩ := executed_cpuStep hsys hpt
      exact .runs hpt hins (Bool.eq_false_iff.mpr hk) hmap hsys harr hrel hex
  case free p => exact advance_releases h (Or.inl (by rw [hpt]; rfl))
  case freeVictims p vs =>
    cases vs with
    | nil => exact advance_moves h (by simp [hpt]) (by rw [hpt]; rfl) (by rw [hpt]; rfl)
    | cons v vs => exact advance_releases h (Or.inr (by rw [hpt]; rfl))
  all_goals exact advance_moves h (by simp [hpt]) (by rw [hpt]; rfl) (by rw [hpt]; rfl)

theorem memmapStep_cases {mem : Kernel (Fin n)} {last : Bool}
    (h : s.memmapStep S c mem last = some s') : Stepped S s (.memmap c mem last) s' := by
  simp only [memmapStep] at h
  split at h
  · next p k x hpt =>
    rcases hins : (S.code p)[k]? with _ | ins
    · simp only [hins] at h
      cases h
    simp only [hins] at h
    split_ifs at h with hcall hlast
    · subst hlast
      obtain ⟨sys, hsys, rfl, harr, hrel, hex⟩ := advance_executes h hpt
      exact .returns hpt hins hcall.1 hcall.2 hsys harr hrel hex
    · obtain rfl := Option.some.inj h
      obtain rfl := Bool.eq_false_iff.mpr hlast
      exact .maps hpt hins hcall.1 hcall.2
  · cases h

theorem quiet_ldStep (h : sys.ldStep S.config = some sys')
    (hadd : ∀ i, sys.loader.point ≠ .add i) : Quiet sys sys' := by
  cases System.ldStep_loaded h with
  | loads i prio loader next same => exact ⟨fun p => by simp only [System.arrived, same], rfl, rfl⟩
  | waits loader done last same => exact ⟨fun p => by simp only [System.arrived, same p], rfl, rfl⟩
  | adds i slots before => exact absurd before (hadd i)

theorem ldStep_cases (h : s.ldStep S = some s') : Stepped S s .loader s' := by
  obtain ⟨sys, hsys, rfl⟩ := Option.map_eq_some_iff.mp h
  by_cases hadd : ∃ i, s.sys.loader.point = .add i
  · obtain ⟨i, hpt⟩ := hadd
    simp only [hpt]
    have hsys' := hsys
    simp only [System.ldStep, hpt, Option.some.injEq] at hsys'
    refine .creates hpt hsys (fun p => ?_) ?_ ?_
    · subst hsys'
      exact System.arrived_add _ _ hpt rfl p
    · rw [← hsys']
      rfl
    · rw [← hsys']
      rfl
  · have hno : ∀ i, s.sys.loader.point ≠ .add i := fun i hpt => hadd ⟨i, hpt⟩
    have hq := quiet_ldStep hsys hno
    split
    · next i hpt => exact absurd hpt (hno i)
    · exact .moves hsys hq

theorem step_cases {a : MachineAction n m} (h : Next S s a s') : Stepped S s a s' := by
  cases a with
  | loader => exact ldStep_cases h
  | cpu c => exact cpuStep_cases h
  | memmap c mem last => exact memmapStep_cases h
  | tick =>
    rw [Next, step, Option.map_eq_some_iff] at h
    obtain ⟨sys, hsys, rfl⟩ := h
    refine .moves hsys ?_
    obtain rfl := Option.some.inj hsys
    exact ⟨fun _ => rfl, rfl, rfl⟩

theorem Stepped.sys_next {a : MachineAction n m} (h : Stepped S s a s') :
    s'.sys = s.sys ∨ ∃ name, System.Next S.config s.sys (a.named name) s'.sys := by
  cases h with
  | moves next => exact Or.inr ⟨[], next⟩
  | creates _ next => exact Or.inr ⟨[], next⟩
  | releases _ next => exact Or.inr ⟨[], next⟩
  | runs _ _ _ _ next => exact Or.inr ⟨[], next⟩
  | maps => exact Or.inl rfl
  | returns _ _ _ _ next => exact Or.inr ⟨[], next⟩
  | reads => exact Or.inl rfl
  | calls _ _ _ _ next => exact Or.inr ⟨_, next⟩

theorem inStep_named (sys : System n m) (a : MachineAction n m) (name : List Char) :
    sys.InStep (a.named name) ↔ sys.InStep (a.named []) := by
  cases a <;> rfl

variable {memramsz : ℤ} {memswpsz : ℕ → ℤ} {as : List (MachineAction n m)}

/-- Seen from the scheduler a machine is the system of its threads, in which the rounds of
a killall that has not read the whole name do nothing, and neither does a SYSCALL 17
that has not returned. -/
theorem run_sys (h : Run (Next S) (start memramsz memswpsz) as s) :
    ∃ bs, Run (System.Next S.config) (.start n m) bs s.sys := by
  obtain ⟨bs, t, hrun, rfl⟩ : ∃ bs t, Run (System.Next S.config) (.start n m) bs t ∧ t = s.sys :=
    h.refines (fun _ s t => t = s.sys) rfl fun _ s a s' t ht hn => by
      subst ht
      rcases (step_cases hn).sys_next with heq | ⟨name, hnext⟩
      · exact ⟨[], s.sys, .nil, heq.symm⟩
      · exact ⟨[a.named name], s'.sys, .snoc .nil hnext, rfl⟩
  exact ⟨bs, hrun⟩

theorem run_sys_inStep (h : Run (NextInStep S) (start memramsz memswpsz) as s) :
    ∃ bs, Run (System.NextInStep S.config) (.start n m) bs s.sys := by
  obtain ⟨bs, t, hrun, rfl⟩ :
      ∃ bs t, Run (System.NextInStep S.config) (.start n m) bs t ∧ t = s.sys :=
    h.refines (fun _ s t => t = s.sys) rfl fun _ s a s' t ht hn => by
      subst ht
      rcases (step_cases hn.2).sys_next with heq | ⟨name, hnext⟩
      · exact ⟨[], s.sys, .nil, heq.symm⟩
      · have hin := (inStep_named s.sys a name).mpr hn.1
        exact ⟨[a.named name], s'.sys, .snoc .nil ⟨hin, hnext⟩, rfl⟩
  exact ⟨bs, hrun⟩

end Machine

end OSsim
