import OSsim.Timer

/-!
# Mutexes and condition variables of the timer

`timer_routine`, `next_slot` and `detach_event` one call of the thread library at a time.
Each device has two mutexes and two condition variables; only the timer ever waits on
`event_cond`, and only the device itself on `timer_cond`. A waiter that has been woken has
to take the mutex again before it looks at the flags; a signal that finds nobody asleep
is lost.
-/

namespace OSsim

inductive Party
  | timer
  | device
  deriving DecidableEq

inductive DevPoint
  | work
  | lockEvent
  | setDone
  | signalEvent
  | unlockEvent
  | lockTimer
  | testDone
  | asleep
  | relockTimer
  | unlockTimer
  | lockDetach
  | setFsh
  | signalDetach
  | unlockDetach
  | detached
  deriving DecidableEq

inductive ScanPoint
  | lock
  | test
  | asleep
  | relock
  | count
  | unlock
  deriving DecidableEq

inductive ReleasePoint
  | lock
  | clear
  | signal
  | unlock
  deriving DecidableEq

/-- Program points of `timer_routine`: in its loops with the device at hand and those
behind it in `dev_list`, and everywhere with the local counters. -/
inductive SyncPoint (k : ℕ)
  | head
  | scan (pt : ScanPoint) (d : Fin k) (devs : List (Fin k)) (fsh event : ℕ)
  | advance (fsh event : ℕ)
  | release (pt : ReleasePoint) (d : Fin k) (devs : List (Fin k)) (fsh event : ℕ)
  | compare (fsh event : ℕ)
  | exited
  deriving DecidableEq

structure SyncDevice where
  id : TimerId
  eventLock : Option Party
  timerLock : Option Party
  point : DevPoint
  deriving DecidableEq

structure TimerSync (k : ℕ) where
  point : SyncPoint k
  time : ℕ
  timerStop : Bool
  device : Fin k → SyncDevice

/-- `timer` and `device` continue the call that the thread is in, `nextSlot` and
`detachEvent` begin one. The last two are wake-ups that nobody has signalled. -/
inductive SyncAction (k : ℕ)
  | timer
  | device (d : Fin k)
  | nextSlot (d : Fin k)
  | detachEvent (d : Fin k)
  | stop
  | wakeTimer
  | wakeDevice (d : Fin k)
  deriving DecidableEq

namespace TimerSync
variable {k : ℕ}

def start (k : ℕ) : TimerSync k where
  point := .head
  time := 0
  timerStop := false
  device _ := ⟨⟨false, false⟩, none, none, .work⟩

def setDevice (s : TimerSync k) (d : Fin k) (x : SyncDevice) : TimerSync k :=
  { s with device := Function.update s.device d x }

def scanFrom (fsh event : ℕ) : List (Fin k) → SyncPoint k
  | [] => .advance fsh event
  | d :: devs => .scan .lock d devs fsh event

def releaseFrom (fsh event : ℕ) : List (Fin k) → SyncPoint k
  | [] => .compare fsh event
  | d :: devs => .release .lock d devs fsh event

/-- `pthread_cond_signal` on `event_cond` of device `d`. -/
def signalEvent (d : Fin k) : SyncPoint k → SyncPoint k
  | .scan .asleep e devs fsh event =>
    if e = d then .scan .relock e devs fsh event else .scan .asleep e devs fsh event
  | x => x

def signalTimer : DevPoint → DevPoint
  | .asleep => .relockTimer
  | x => x

def timerRoutine (s : TimerSync k) : Option (TimerSync k) :=
  match s.point with
  | .head => some { s with
      point := if s.timerStop then .exited else scanFrom 0 0 (Timer.devList k) }
  | .scan .lock d devs fsh event | .scan .relock d devs fsh event =>
    if (s.device d).eventLock = none then
      some { s.setDevice d { s.device d with eventLock := some .timer } with
        point := .scan .test d devs fsh event }
    else none
  | .scan .test d devs fsh event =>
    if !(s.device d).id.done && !(s.device d).id.fsh then
      some { s.setDevice d { s.device d with eventLock := none } with
        point := .scan .asleep d devs fsh event }
    else some { s with point := .scan .count d devs fsh event }
  | .scan .asleep _ _ _ _ => none
  | .scan .count d devs fsh event =>
    some { s with
      point := .scan .unlock d devs (if (s.device d).id.fsh then fsh + 1 else fsh) (event + 1) }
  | .scan .unlock d devs fsh event =>
    some { s.setDevice d { s.device d with eventLock := none } with
      point := scanFrom fsh event devs }
  | .advance fsh event =>
    some { s with point := releaseFrom fsh event (Timer.devList k), time := s.time + 1 }
  | .release .lock d devs fsh event =>
    if (s.device d).timerLock = none then
      some { s.setDevice d { s.device d with timerLock := some .timer } with
        point := .release .clear d devs fsh event }
    else none
  | .release .clear d devs fsh event =>
    some { s.setDevice d { s.device d with id := ⟨false, (s.device d).id.fsh⟩ } with
      point := .release .signal d devs fsh event }
  | .release .signal d devs fsh event =>
    some { s.setDevice d { s.device d with point := signalTimer (s.device d).point } with
      point := .release .unlock d devs fsh event }
  | .release .unlock d devs fsh event =>
    some { s.setDevice d { s.device d with timerLock := none } with
      point := releaseFrom fsh event devs }
  | .compare fsh event => some { s with point := if fsh = event then .exited else .head }
  | .exited => none

def devStep (s : TimerSync k) (d : Fin k) : Option (TimerSync k) :=
  match (s.device d).point with
  | .work => none
  | .lockEvent =>
    if (s.device d).eventLock = none then
      some (s.setDevice d { s.device d with eventLock := some .device, point := .setDone })
    else none
  | .setDone =>
    some (s.setDevice d { s.device d with
      id := ⟨true, (s.device d).id.fsh⟩, point := .signalEvent })
  | .signalEvent =>
    some { s.setDevice d { s.device d with point := .unlockEvent } with
      point := signalEvent d s.point }
  | .unlockEvent =>
    some (s.setDevice d { s.device d with eventLock := none, point := .lockTimer })
  | .lockTimer | .relockTimer =>
    if (s.device d).timerLock = none then
      some (s.setDevice d { s.device d with timerLock := some .device, point := .testDone })
    else none
  | .testDone =>
    if (s.device d).id.done then
      some (s.setDevice d { s.device d with timerLock := none, point := .asleep })
    else some (s.setDevice d { s.device d with point := .unlockTimer })
  | .asleep => none
  | .unlockTimer => some (s.setDevice d { s.device d with timerLock := none, point := .work })
  | .lockDetach =>
    if (s.device d).eventLock = none then
      some (s.setDevice d { s.device d with eventLock := some .device, point := .setFsh })
    else none
  | .setFsh =>
    some (s.setDevice d { s.device d with
      id := ⟨(s.device d).id.done, true⟩, point := .signalDetach })
  | .signalDetach =>
    some { s.setDevice d { s.device d with point := .unlockDetach } with
      point := signalEvent d s.point }
  | .unlockDetach =>
    some (s.setDevice d { s.device d with eventLock := none, point := .detached })
  | .detached => none

/-- A device leaves its own work for one of the two calls. -/
def call (s : TimerSync k) (d : Fin k) (x : DevPoint) : Option (TimerSync k) :=
  if (s.device d).point = .work then some (s.setDevice d { s.device d with point := x }) else none

/-- `stop_timer` is called behind the joins of all devices. -/
def step (s : TimerSync k) : SyncAction k → Option (TimerSync k)
  | .timer => s.timerRoutine
  | .device d => s.devStep d
  | .nextSlot d => s.call d .lockEvent
  | .detachEvent d => s.call d .lockDetach
  | .stop => if ∀ d, (s.device d).point = .detached then some { s with timerStop := true } else none
  | .wakeTimer =>
    match s.point with
    | .scan .asleep d devs fsh event => some { s with point := .scan .relock d devs fsh event }
    | _ => none
  | .wakeDevice d =>
    if (s.device d).point = .asleep then
      some (s.setDevice d { s.device d with point := .relockTimer })
    else none

def Next (s : TimerSync k) (a : SyncAction k) (s' : TimerSync k) : Prop := s.step a = some s'

end TimerSync
end OSsim
