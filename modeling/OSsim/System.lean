import OSsim.Sched

/-!
# CPUs, loader and time slots

`cpu_routine` and `ld_routine` of `os.c` with `run` of `cpu.c` and `__sys_killall`, as
threads that interleave freely. A step is one section under `queue_lock`, one access
to a shared variable, or one release by `free_pcb`. Memory instructions work on the
address space of their own process only and leave no trace here; the name that a
killall reads from memory is part of the step's label.

`ended`, `released` and `executed` record the history of a process. No function of
the source reads them.
-/

namespace OSsim

inductive Opcode
  | CALC
  | ALLOC
  | FREE
  | READ
  | WRITE
  | SYSCALL
  deriving DecidableEq

structure Inst where
  opcode : Opcode
  arg0 : ℕ
  deriving DecidableEq

/-- The entry of `syscalltbl.lst` for `sys_killall`. -/
def Inst.isKillall (ins : Inst) : Bool := ins.opcode = .SYSCALL && ins.arg0 = 101

/-- What `read_config` and `load` read for `n` processes. -/
structure Config (n : ℕ) where
  timeSlot : ℤ
  timeSlot_pos : 0 < timeSlot
  startTime : Fin n → ℕ
  prio : Fin n → ℕ
  path : Fin n → List Char
  text : Fin n → List Inst

/-- The fields of `pcb_t` that scheduler, CPUs and loader work on. -/
structure Proc where
  pc : ℕ
  prio : ℕ
  killed : Bool
  deriving DecidableEq

/-- The program points of `cpu_routine`, with the local `proc` wherever it is live. -/
inductive Point (n : ℕ)
  | top (proc : Option (Fin n))
  | testEnd (proc : Fin n)
  | finish (proc : Fin n)
  | free (proc : Fin n)
  | put (proc : Fin n)
  | afterFree
  | afterPut
  | recheck (proc : Option (Fin n))
  | run (proc : Fin n)
  | fetched (proc : Fin n) (pc : ℕ) (ins : Inst)
  | execute (proc : Fin n) (pc : ℕ) (ins : Inst)
  | kill (proc : Fin n) (name : List Char)
  | freeVictims (proc : Fin n) (victims : List (Fin n))
  | ran (proc : Fin n)
  | inSlot (proc : Option (Fin n))
  | stopped
  deriving DecidableEq

/-- `slots` counts the calls of `next_slot` that have returned. -/
structure Cpu (n : ℕ) where
  point : Point n
  timeLeft : ℤ
  slots : ℕ
  deriving DecidableEq

inductive LdPoint (n : ℕ)
  | load (i : ℕ)
  | wait (i : Fin n)
  | waitSlot (i : Fin n)
  | add (i : Fin n)
  | addSlot (i : Fin n)
  | finish
  | stopped
  deriving DecidableEq

structure Loader (n : ℕ) where
  point : LdPoint n
  slots : ℕ
  deriving DecidableEq

structure System (n m : ℕ) where
  sched : Sched (Fin n)
  proc : Fin n → Proc
  cpu : Fin m → Cpu n
  loader : Loader n
  done : Bool
  time : ℕ
  ended : Fin n → ℕ
  released : Fin n → ℕ
  executed : Fin n → List ℕ

inductive Action (m : ℕ)
  | loader
  | cpu (c : Fin m) (name : List Char)
  | tick
  deriving DecidableEq

namespace System
variable {n m : ℕ}

def start (n m : ℕ) : System n m where
  sched := .initScheduler
  proc _ := ⟨0, 0, false⟩
  cpu _ := ⟨.top none, 0, 0⟩
  loader := ⟨.load 0, 0⟩
  done := false
  time := 0
  ended _ := 0
  released _ := 0
  executed _ := []

def setCpu (s : System n m) (c : Fin m) (cpu : Cpu n) : System n m :=
  { s with cpu := Function.update s.cpu c cpu }

def goto (s : System n m) (c : Fin m) (point : Point n) : System n m :=
  s.setCpu c { s.cpu c with point := point }

def setProc (s : System n m) (p : Fin n) (proc : Proc) : System n m :=
  { s with proc := Function.update s.proc p proc }

def killProcByName (cfg : Config n) (s : System n m) (name : List Char) (p : Fin n) :
    Sched.Killed (Fin n) :=
  s.sched.killProcByName cfg.path (fun q => (s.proc q).prio) name p

def cpuStep (cfg : Config n) (s : System n m) (c : Fin m) (name : List Char) :
    Option (System n m) :=
  match (s.cpu c).point with
  | .top none =>
    some ({ s with sched := s.sched.getProc.2 }.goto c (
      match s.sched.getProc.1 with
      | none => .inSlot none
      | some p => .recheck (some p)))
  | .top (some p) => some (s.goto c (if (s.proc p).killed then .finish p else .testEnd p))
  | .testEnd p =>
    some (s.goto c (
      if (s.proc p).pc = (cfg.text p).length then .finish p
      else if (s.cpu c).timeLeft = 0 then .put p
      else .recheck (some p)))
  | .finish p =>
    some ({ s with
      sched := s.sched.finishProc p
      ended := Function.update s.ended p (s.ended p + 1) }.goto c (.free p))
  | .free p =>
    some ({ s with
      released := Function.update s.released p (s.released p + 1) }.goto c .afterFree)
  | .put p => some ({ s with sched := s.sched.putProc (s.proc p).prio p }.goto c .afterPut)
  | .afterFree =>
    some ({ s with sched := s.sched.getProc.2 }.setCpu c
      { s.cpu c with point := .recheck s.sched.getProc.1, timeLeft := 0 })
  | .afterPut =>
    some ({ s with sched := s.sched.getProc.2 }.goto c (.recheck s.sched.getProc.1))
  | .recheck none => some (s.goto c (if s.done then .stopped else .inSlot none))
  | .recheck (some p) =>
    some (s.setCpu c { s.cpu c with
      point := .run p
      timeLeft := if (s.cpu c).timeLeft = 0 then cfg.timeSlot else (s.cpu c).timeLeft })
  | .run p =>
    match (cfg.text p)[(s.proc p).pc]? with
    | none => some (s.goto c (.ran p))
    | some ins => some (s.goto c (.fetched p (s.proc p).pc ins))
  | .fetched p k ins =>
    some ((s.setProc p { s.proc p with pc := (s.proc p).pc + 1 }).goto c (.execute p k ins))
  | .execute p k ins =>
    some ({ s with
      executed := Function.update s.executed p (s.executed p ++ [k]) }.goto c
        (if ins.isKillall then .kill p name else .ran p))
  | .kill p name =>
    some ({ s with
      sched := (s.killProcByName cfg name p).sched
      proc := fun q => { s.proc q with
        killed := (s.proc q).killed || q ∈ (s.killProcByName cfg name p).killed }
      ended := fun q => s.ended q + (s.killProcByName cfg name p).victims.count q }.goto c
        (.freeVictims p (s.killProcByName cfg name p).victims))
  | .freeVictims p [] => some (s.goto c (.ran p))
  | .freeVictims p (v :: vs) =>
    some ({ s with
      released := Function.update s.released v (s.released v + 1) }.goto c (.freeVictims p vs))
  | .ran p =>
    some (s.setCpu c { s.cpu c with
      point := .inSlot (some p), timeLeft := (s.cpu c).timeLeft - 1 })
  | .inSlot proc =>
    some (s.setCpu c { s.cpu c with point := .top proc, slots := (s.cpu c).slots + 1 })
  | .stopped => none

/-- `prio` is an `unsigned long` in the configuration and a `uint32_t` in the process. -/
def ldStep (cfg : Config n) (s : System n m) : Option (System n m) :=
  match s.loader.point with
  | .load i =>
    if h : i < n then
      some { s.setProc ⟨i, h⟩ ⟨0, cfg.prio ⟨i, h⟩ % 2 ^ 32, false⟩ with
        loader := { s.loader with point := .wait ⟨i, h⟩ } }
    else some { s with loader := { s.loader with point := .finish } }
  | .wait i =>
    some { s with loader := { s.loader with
      point := if s.time < cfg.startTime i then .waitSlot i else .add i } }
  | .waitSlot i => some { s with loader := ⟨.wait i, s.loader.slots + 1⟩ }
  | .add i =>
    some { s.setProc i { s.proc i with prio := Sched.clampPrio (s.proc i).prio } with
      sched := s.sched.addProc (s.proc i).prio i
      loader := { s.loader with point := .addSlot i } }
  | .addSlot i => some { s with loader := ⟨.load (i + 1), s.loader.slots + 1⟩ }
  | .finish => some { s with done := true, loader := { s.loader with point := .stopped } }
  | .stopped => none

def step (cfg : Config n) (s : System n m) : Action m → Option (System n m)
  | .loader => s.ldStep cfg
  | .cpu c name => s.cpuStep cfg c name
  | .tick => some { s with time := s.time + 1 }

def Next (cfg : Config n) (s : System n m) (a : Action m) (s' : System n m) : Prop :=
  s.step cfg a = some s'

end System
end OSsim
