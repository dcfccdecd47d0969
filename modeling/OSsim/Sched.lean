import OSsim.Queue
import OSsim.Lib.Accounting

/-!
# The MLQ scheduler

The queues of `sched.c` and the operations on them, each of which runs as one
section under `queue_lock`. `mlq_ready_queue[prio]` may be served `MAX_PRIO - prio`
times in a round. `ready_queue` and `run_queue` belong to the build without
`MLQ_SCHED`; `kill_proc_by_name` searches them all the same.
-/

open scoped BigOperators
namespace OSsim

def maxPrio : ℕ := 140

structure Sched (α : Type*) where
  readyQueue : Queue α
  runQueue : Queue α
  runningList : Queue α
  mlqReadyQueue : Fin maxPrio → Queue α
  slotUsed : Fin maxPrio → ℕ

def procName (path : List Char) : List Char := (path.reverse.takeWhile (· ≠ '/')).reverse

namespace Sched
variable {α : Type*}

def initScheduler : Sched α := ⟨.nil, .nil, .nil, fun _ => .nil, fun _ => 0⟩

def slot (i : Fin maxPrio) : ℕ := maxPrio - i

def queueEmpty (s : Sched α) : Bool :=
  (List.finRange maxPrio).all (fun prio => (s.mlqReadyQueue prio).empty) &&
    s.readyQueue.empty && s.runQueue.empty

def modifyLevel (s : Sched α) (i : Fin maxPrio) (f : Queue α → Queue α) : Sched α :=
  { s with mlqReadyQueue := Function.update s.mlqReadyQueue i (f (s.mlqReadyQueue i)) }

def resetSlots (s : Sched α) : Sched α := { s with slotUsed := fun _ => 0 }

/-- One pass of `get_mlq_proc` over the levels. -/
def round (s : Sched α) : Option (α × Sched α) :=
  match (List.finRange maxPrio).find? fun i =>
      !(s.mlqReadyQueue i).empty && s.slotUsed i < slot i with
  | none => none
  | some i =>
    match (s.mlqReadyQueue i).dequeue with
    | none => none
    | some (proc, q) =>
      some (proc, { s.modifyLevel i fun _ => q with
        slotUsed := Function.update s.slotUsed i (s.slotUsed i + 1) })

def getProc (s : Sched α) : Option α × Sched α :=
  match s.round with
  | some (proc, s') => (some proc, s')
  | none =>
    match s.resetSlots.round with
    | some (proc, s') => (some proc, s')
    | none => (none, s.resetSlots)

/-- `add_proc` has brought `prio` below `MAX_PRIO`, so the level exists. -/
def putProc (s : Sched α) (prio : ℕ) (proc : α) : Sched α :=
  if h : prio < maxPrio then s.modifyLevel ⟨prio, h⟩ fun q => q.enqueue proc else s

def clampPrio (prio : ℕ) : ℕ := if maxPrio ≤ prio then maxPrio - 1 else prio

def addProc (s : Sched α) (prio : ℕ) (proc : α) : Sched α :=
  putProc { s with runningList := s.runningList.enqueue proc } (clampPrio prio) proc

section Remove
variable [DecidableEq α]

def finishProc (s : Sched α) (proc : α) : Sched α :=
  { s with runningList := (s.runningList.removeFromQueue proc).2 }

/-- The removals of `kill_proc_by_name` that compute `in_ready`. -/
def takeReady (s : Sched α) (prio : ℕ) (proc : α) : Bool × Sched α :=
  if (s.readyQueue.removeFromQueue proc).1 then
    (true, { s with readyQueue := (s.readyQueue.removeFromQueue proc).2 })
  else if (s.runQueue.removeFromQueue proc).1 then
    (true, { s with runQueue := (s.runQueue.removeFromQueue proc).2 })
  else if h : prio < maxPrio then
    (((s.mlqReadyQueue ⟨prio, h⟩).removeFromQueue proc).1,
      s.modifyLevel ⟨prio, h⟩ fun q => (q.removeFromQueue proc).2)
  else (false, s)

end Remove

/-- What `kill_proc_by_name` has done: the processes it has marked, in order, and those
of them it hands to its caller. -/
structure Killed (α : Type*) where
  sched : Sched α
  killed : List α
  victims : List α

/-- The loop of `kill_proc_by_name` at index `i`. Each pass advances the index or
shortens `running_list`, so the size of the list is fuel enough. -/
def killLoop [DecidableEq α] (hit : α → Bool) (prio : α → ℕ) : ℕ → ℕ → Killed α → Killed α
  | 0, _, r => r
  | fuel + 1, i, r =>
    match r.sched.runningList.proc[i]? with
    | none => r
    | some proc =>
      if hit proc then
        if (r.sched.takeReady (prio proc) proc).1 then
          killLoop hit prio fuel i
            ⟨(r.sched.takeReady (prio proc) proc).2.finishProc proc, r.killed ++ [proc],
              r.victims ++ [proc]⟩
        else
          killLoop hit prio fuel (i + 1)
            ⟨(r.sched.takeReady (prio proc) proc).2, r.killed ++ [proc], r.victims⟩
      else killLoop hit prio fuel (i + 1) r

def killProcByName [DecidableEq α] (s : Sched α) (path : α → List Char) (prio : α → ℕ)
    (name : List Char) (caller : α) : Killed α :=
  killLoop (fun proc => !(proc = caller) && procName (path proc) = name) prio
    s.runningList.proc.length 0 ⟨s, [], []⟩

end Sched
end OSsim
