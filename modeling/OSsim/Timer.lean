import OSsim.Lib.Run

/-!
# The timer

`timer.c`: the timer thread, and the devices with their calls of `next_slot` and
`detach_event`. A step is one section under a device's `event_lock` or `timer_lock`,
the increment of `_time`, or the test at the head of the timer's loop; waiting on a
condition variable is a section that cannot be entered yet.

`calls` counts how often a device has set `done`, `returns` how many of its calls of
`next_slot` have returned. No function of the source reads them.
-/

namespace OSsim

structure TimerId where
  done : Bool
  fsh : Bool
  deriving DecidableEq

structure Device where
  id : TimerId
  inNextSlot : Bool
  calls : ℕ
  returns : ℕ
  deriving DecidableEq

/-- The program points of `timer_routine`, with what is left of `dev_list` in its loops
and the local counters. -/
inductive TimerPoint (k : ℕ)
  | head
  | wait (devs : List (Fin k)) (fsh event : ℕ)
  | advance (fsh event : ℕ)
  | release (devs : List (Fin k)) (fsh event : ℕ)
  | exited
  deriving DecidableEq

structure Timer (k : ℕ) where
  point : TimerPoint k
  time : ℕ
  timerStop : Bool
  device : Fin k → Device

inductive TimerAction (k : ℕ)
  | timer
  | announce (d : Fin k)
  | resume (d : Fin k)
  | detach (d : Fin k)
  | stop
  deriving DecidableEq

namespace Timer
variable {k : ℕ}

/-- `attach_event` inserts at the head. -/
def devList (k : ℕ) : List (Fin k) := (List.finRange k).reverse

def start (k : ℕ) : Timer k where
  point := .head
  time := 0
  timerStop := false
  device _ := ⟨⟨false, false⟩, false, 0, 0⟩

def currentTime (s : Timer k) : ℕ := s.time

def setDevice (s : Timer k) (d : Fin k) (x : Device) : Timer k :=
  { s with device := Function.update s.device d x }

def timerRoutine (s : Timer k) : Option (Timer k) :=
  match s.point with
  | .head => some { s with point := if s.timerStop then .exited else .wait (devList k) 0 0 }
  | .wait [] fsh event => some { s with point := .advance fsh event }
  | .wait (d :: devs) fsh event =>
    if (s.device d).id.done || (s.device d).id.fsh then
      some { s with
        point := .wait devs (if (s.device d).id.fsh then fsh + 1 else fsh) (event + 1) }
    else none
  | .advance fsh event =>
    some { s with point := .release (devList k) fsh event, time := s.time + 1 }
  | .release [] fsh event => some { s with point := if fsh = event then .exited else .head }
  | .release (d :: devs) fsh event =>
    some { s.setDevice d { s.device d with id := ⟨false, (s.device d).id.fsh⟩ } with
      point := .release devs fsh event }
  | .exited => none

/-- `next_slot` up to the release of `event_lock`. -/
def announce (s : Timer k) (d : Fin k) : Option (Timer k) :=
  if (s.device d).inNextSlot then none
  else some (s.setDevice d { s.device d with
    id := ⟨true, (s.device d).id.fsh⟩, inNextSlot := true, calls := (s.device d).calls + 1 })

/-- The rest of `next_slot`. -/
def resume (s : Timer k) (d : Fin k) : Option (Timer k) :=
  if (s.device d).inNextSlot && !(s.device d).id.done then
    some (s.setDevice d { s.device d with
      inNextSlot := false, returns := (s.device d).returns + 1 })
  else none

def detachEvent (s : Timer k) (d : Fin k) : Timer k :=
  s.setDevice d { s.device d with id := ⟨(s.device d).id.done, true⟩ }

def step (s : Timer k) : TimerAction k → Option (Timer k)
  | .timer => s.timerRoutine
  | .announce d => s.announce d
  | .resume d => s.resume d
  | .detach d => some (s.detachEvent d)
  | .stop => some { s with timerStop := true }

def Next (s : Timer k) (a : TimerAction k) (s' : Timer k) : Prop := s.step a = some s'

end Timer
end OSsim
