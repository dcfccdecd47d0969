import OSsim.StepBound
import OSsim.TimerRefinement

/-!
# The threads of the simulator and their timer

`main` of `os.c`: the CPUs and the loader, each attached to the timer in this order, and
the timer thread under its mutexes. A thread works while it is outside of the calls of
`timer.c`; it enters `next_slot` where its own code says so, is back when it has released
`timer_lock`, and detaches behind its loop. Whatever the mutexes, the condition variables
and the order of the steps do, the threads keep in step.
-/

open scoped BigOperators
namespace OSsim

/-- The `timer_id` of CPU `c` and the `ld_event`. -/
def cpuEvent {m : ℕ} (c : Fin m) : Fin (m + 1) := c.castSucc
def ldEvent (m : ℕ) : Fin (m + 1) := Fin.last m

namespace System
variable {n m : ℕ}

/-- The thread stands at a call of `next_slot`. -/
def atNextSlot (s : System n m) (d : Fin (m + 1)) : Bool :=
  Fin.lastCases s.loader.inNextSlot (fun c => (s.cpu c).inNextSlot) d

def atDetach (s : System n m) (d : Fin (m + 1)) : Bool :=
  Fin.lastCases (decide (s.loader.point = .stopped))
    (fun c => decide ((s.cpu c).point = .stopped)) d

def slotsOf (s : System n m) (d : Fin (m + 1)) : ℕ :=
  Fin.lastCases s.loader.slots (fun c => (s.cpu c).slots) d

end System

/-- The step of a thread by which it comes back from `next_slot`. -/
def Action.back {m : ℕ} (d : Fin (m + 1)) : Action m := Fin.lastCases .loader (fun c => .cpu c []) d

/-- The thread that takes a step. The clock belongs to the timer. -/
def Action.event {m : ℕ} : Action m → Option (Fin (m + 1))
  | loader => some (ldEvent m)
  | cpu c _ => some (cpuEvent c)
  | tick => none

/-- The timer's increment of `_time` is the tick of the threads' clock. -/
def SyncPoint.ticks {k : ℕ} : SyncPoint k → Bool
  | advance _ _ => true
  | _ => false

structure Os (n m : ℕ) where
  sys : System n m
  timer : TimerSync (m + 1)

inductive OsAction (m : ℕ)
  | thread (a : Action m)
  | sync (a : SyncAction (m + 1))
  deriving DecidableEq

namespace Os
variable {n m : ℕ}

def start (n m : ℕ) : Os n m := ⟨.start n m, .start (m + 1)⟩

def step (cfg : Config n) (s : Os n m) : OsAction m → Option (Os n m)
  | .thread a =>
    match a.event with
    | none => none
    | some d =>
      if (s.timer.device d).point = .work && !s.sys.atNextSlot d then
        (s.sys.step cfg a).map fun sys => { s with sys := sys }
      else none
  | .sync .timer =>
    s.timer.timerRoutine.map fun timer =>
      ⟨if s.timer.point.ticks then { s.sys with time := s.sys.time + 1 } else s.sys, timer⟩
  | .sync (.device d) =>
    if (s.timer.device d).point = .unlockTimer then
      (s.sys.step cfg (.back d)).bind fun sys => (s.timer.devStep d).map fun timer => ⟨sys, timer⟩
    else (s.timer.devStep d).map fun timer => { s with timer := timer }
  | .sync (.nextSlot d) =>
    if s.sys.atNextSlot d then
      (s.timer.call d .lockEvent).map fun timer => { s with timer := timer }
    else none
  | .sync (.detachEvent d) =>
    if s.sys.atDetach d then
      (s.timer.call d .lockDetach).map fun timer => { s with timer := timer }
    else none
  | .sync a => (s.timer.step a).map fun timer => { s with timer := timer }

def Next (cfg : Config n) (s : Os n m) (a : OsAction m) (s' : Os n m) : Prop :=
  s.step cfg a = some s'

end Os

inductive Activity
  | working
  | inNextSlot
  | detaching
  deriving DecidableEq

def DevPoint.activity : DevPoint → Activity
  | work => .working
  | lockEvent | setDone | signalEvent | unlockEvent | lockTimer | testDone | asleep | relockTimer
  | unlockTimer => .inNextSlot
  | lockDetach | setFsh | signalDetach | unlockDetach | detached => .detaching

namespace TimerSync
variable {k : ℕ} {s s' : TimerSync k} {d e : Fin k} {x : SyncDevice}

theorem activity_update (h : x.point.activity = (s.device d).point.activity) (e : Fin k) :
    (Function.update s.device d x e).point.activity = (s.device e).point.activity := by
  by_cases he : e = d
  · subst he
    rw [Function.update_self]
    exact h
  · rw [Function.update_of_ne he]

theorem activity_signalTimer (y : DevPoint) : (signalTimer y).activity = y.activity := by
  cases y <;> rfl

theorem timerRoutine_keeps (h : s.timerRoutine = some s') :
    s'.time = s.time + s.point.ticks.toNat ∧
      ∀ e, (s'.device e).point.activity = (s.device e).point.activity := by
  cases hpt : s.point with
  | head | advance fsh event | compare fsh event =>
    simp only [timerRoutine, hpt] at h
    obtain rfl := Option.some.inj h
    exact ⟨rfl, fun _ => rfl⟩
  | scan pt d devs fsh event =>
    cases pt with
    | lock | relock =>
      simp only [timerRoutine, hpt] at h
      split_ifs at h
      obtain rfl := Option.some.inj h
      exact ⟨rfl, activity_update (by rfl)⟩
    | test =>
      simp only [timerRoutine, hpt] at h
      split_ifs at h <;> obtain rfl := Option.some.inj h
      · exact ⟨rfl, activity_update (by rfl)⟩
      · exact ⟨rfl, fun _ => rfl⟩
    | asleep =>
      simp only [timerRoutine, hpt] at h
      cases h
    | count =>
      simp only [timerRoutine, hpt] at h
      obtain rfl := Option.some.inj h
      exact ⟨rfl, fun _ => rfl⟩
    | unlock =>
      simp only [timerRoutine, hpt] at h
      obtain rfl := Option.some.inj h
      exact ⟨rfl, activity_update (by rfl)⟩
  | release pt d devs fsh event =>
    cases pt with
    | lock =>
      simp only [timerRoutine, hpt] at h
      split_ifs at h
      obtain rfl := Option.some.inj h
      exact ⟨rfl, activity_update (by rfl)⟩
    | signal =>
      simp only [timerRoutine, hpt] at h
      obtain rfl := Option.some.inj h
      exact ⟨rfl, activity_update (by exact activity_signalTimer _)⟩
    | clear | unlock =>
      simp only [timerRoutine, hpt] at h
      obtain rfl := Option.some.inj h
      exact ⟨rfl, activity_update (by rfl)⟩
  | exited =>
    simp only [timerRoutine, hpt] at h
    cases h

theorem devStep_keeps (h : s.devStep d = some s') (hd : (s.device d).point ≠ .unlockTimer) :
    s'.time = s.time ∧
      ∀ e, (s'.device e).point.activity = (s.device e).point.activity := by
  cases hpt : (s.device d).point with
  | work | asleep | detached =>
    simp only [devStep, hpt] at h
    cases h
  | unlockTimer => exact absurd hpt hd
  | lockEvent | lockTimer | relockTimer | lockDetach =>
    simp only [devStep, hpt] at h
    split_ifs at h
    obtain rfl := Option.some.inj h
    exact ⟨rfl, activity_update (by rw [hpt]; rfl)⟩
  | testDone =>
    simp only [devStep, hpt] at h
    split_ifs at h <;> obtain rfl := Option.some.inj h <;>
      exact ⟨rfl, activity_update (by rw [hpt]; rfl)⟩
  | _ =>
    simp only [devStep, hpt] at h
    obtain rfl := Option.some.inj h
    exact ⟨rfl, activity_update (by rw [hpt]; rfl)⟩

end TimerSync

namespace System
variable {n m : ℕ} {cfg : Config n} {s s' : System n m} {a : Action m} {d e : Fin (m + 1)}

@[simp] theorem atNextSlot_ldEvent (s : System n m) :
    s.atNextSlot (ldEvent m) = s.loader.inNextSlot := Fin.lastCases_last

@[simp] theorem atNextSlot_cpuEvent (s : System n m) (c : Fin m) :
    s.atNextSlot (cpuEvent c) = (s.cpu c).inNextSlot := Fin.lastCases_castSucc c

@[simp] theorem atDetach_ldEvent (s : System n m) :
    s.atDetach (ldEvent m) = decide (s.loader.point = .stopped) := Fin.lastCases_last

@[simp] theorem atDetach_cpuEvent (s : System n m) (c : Fin m) :
    s.atDetach (cpuEvent c) = decide ((s.cpu c).point = .stopped) := Fin.lastCases_castSucc c

@[simp] theorem slotsOf_ldEvent (s : System n m) : s.slotsOf (ldEvent m) = s.loader.slots :=
  Fin.lastCases_last

@[simp] theorem slotsOf_cpuEvent (s : System n m) (c : Fin m) :
    s.slotsOf (cpuEvent c) = (s.cpu c).slots := Fin.lastCases_castSucc c

/-- What a step of thread `d` leaves alone. -/
structure Steps (s s' : System n m) (d : Fin (m + 1)) : Prop where
  time : s'.time = s.time
  slots : s'.slotsOf d = s.slotsOf d + (s.atNextSlot d).toNat
  others : ∀ e, e ≠ d → s'.slotsOf e = s.slotsOf e ∧ s'.atNextSlot e = s.atNextSlot e ∧
    s'.atDetach e = s.atDetach e

theorem event_cases (e : Fin (m + 1)) : e = ldEvent m ∨ ∃ c, e = cpuEvent c := by
  rcases Fin.eq_castSucc_or_eq_last e with ⟨c, hc⟩ | hl
  · exact Or.inr ⟨c, hc⟩
  · exact Or.inl hl

theorem steps_of_next (h : Next cfg s a s') (ha : a.event = some d) : Steps s s' d := by
  cases a with
  | tick => cases ha
  | loader =>
    obtain rfl := Option.some.inj ha
    change s.ldStep cfg = some s' at h
    have hcpu : s'.cpu = s.cpu := by cases ldStep_loaded h <;> rfl
    obtain ⟨htime, hslots⟩ := ldStep_slots h
    refine ⟨htime, ?_, fun e he => ?_⟩
    · simp only [slotsOf_ldEvent, atNextSlot_ldEvent, hslots]
      cases s.loader.inNextSlot <;> rfl
    · rcases event_cases e with rfl | ⟨c, rfl⟩
      · exact absurd rfl he
      · simp [hcpu]
  | cpu c name =>
    obtain rfl := Option.some.inj ha
    change s.cpuStep cfg c name = some s' at h
    have hm := cpuStep_moved h
    refine ⟨by cases hm <;> rfl, ?_, fun e he => ?_⟩
    · simp only [slotsOf_cpuEvent, atNextSlot_cpuEvent, cpuStep_slots h]
      cases (s.cpu c).inNextSlot <;> rfl
    · rcases event_cases e with rfl | ⟨b, rfl⟩
      · simp [hm.loader_eq]
      · have hbc : b ≠ c := fun heq => he (by rw [heq])
        simp [hm.cpu_of_ne hbc]

theorem inStep_of_not_atNextSlot (ha : a.event = some d) (hd : s.atNextSlot d = false) :
    s.InStep a := by
  cases a with
  | tick => cases ha
  | loader =>
    obtain rfl := Option.some.inj ha
    intro hslot
    rw [atNextSlot_ldEvent, hslot] at hd
    cases hd
  | cpu c name =>
    obtain rfl := Option.some.inj ha
    intro hslot
    rw [atNextSlot_cpuEvent, hslot] at hd
    cases hd

theorem inStep_of_slots (ha : a.event = some d) (hd : s.slotsOf d < s.time) : s.InStep a := by
  cases a with
  | tick => cases ha
  | loader =>
    obtain rfl := Option.some.inj ha
    exact fun _ => by simpa using hd
  | cpu c name =>
    obtain rfl := Option.some.inj ha
    exact fun _ => by simpa using hd

theorem inStep_tick
    (h : ∀ d, s.atDetach d = true ∨ (s.atNextSlot d = true ∧ s.time ≤ s.slotsOf d)) :
    s.InStep .tick := by
  refine ⟨fun c => ?_, ?_⟩
  · simpa using h (cpuEvent c)
  · simpa using h (ldEvent m)

theorem event_back (d : Fin (m + 1)) : (Action.back d).event = some d := by
  rcases event_cases d with rfl | ⟨c, rfl⟩
  · simp [Action.back, ldEvent, Action.event]
  · simp [Action.back, cpuEvent, Action.event]

end System

namespace Os
variable {n m : ℕ} {cfg : Config n} {s s' : Os n m} {as : List (OsAction m)} {a : OsAction m}
  {d e : Fin (m + 1)}

def OsAction.toSync : OsAction m → Option (SyncAction (m + 1))
  | .thread _ => none
  | .sync a => some a

def syncs (as : List (OsAction m)) : List (SyncAction (m + 1)) := as.filterMap OsAction.toSync

/-- A device that is in a call stands for a thread that has reached it. -/
structure Called (calls slots : ℕ) (atNextSlot atDetach : Bool) (x : Activity) : Prop where
  calls : calls = slots + if x = .inNextSlot then 1 else 0
  inNextSlot : x = .inNextSlot → atNextSlot = true
  detaching : x = .detaching → atDetach = true

structure Coupled (cfg : Config n) (as : List (OsAction m)) (s : Os n m) : Prop where
  timer : Run TimerSync.Next (.start (m + 1)) (syncs as) s.timer
  sys : ∃ bs, Run (System.NextInStep cfg) (.start n m) bs s.sys
  time : s.sys.time = s.timer.time
  called : ∀ d, Called (TimerSync.begun (syncs as) d) (s.sys.slotsOf d) (s.sys.atNextSlot d)
    (s.sys.atDetach d) (s.timer.device d).point.activity

theorem coupled_start (cfg : Config n) : Coupled cfg [] (start n m) where
  timer := .nil
  sys := ⟨[], .nil⟩
  time := rfl
  called d := by
    refine ⟨?_, fun hc => (by cases hc), fun hc => (by cases hc)⟩
    rcases System.event_cases d with rfl | ⟨c, rfl⟩ <;> simp [syncs, TimerSync.begun, start] <;> rfl

namespace Coupled
variable {sys' : System n m} {timer' : TimerSync (m + 1)} {b : SyncAction (m + 1)}

theorem thread (h : Coupled cfg as s) {a : Action m} (ha : a.event = some d)
    (hwork : (s.timer.device d).point = .work) (hslot : s.sys.atNextSlot d = false)
    (hn : s.sys.step cfg a = some sys') :
    Coupled cfg (.thread a :: as) { s with sys := sys' } := by
  obtain ⟨bs, hrun⟩ := h.sys
  have hsteps := System.steps_of_next hn ha
  refine ⟨h.timer, ⟨_, .snoc hrun ⟨System.inStep_of_not_atNextSlot ha hslot, hn⟩⟩,
    hsteps.time.trans h.time, fun e => ?_⟩
  have he := h.called e
  by_cases hed : e = d
  · subst hed
    rw [hwork] at he ⊢
    refine ⟨he.calls.trans ?_, fun hc => (by cases hc), fun hc => (by cases hc)⟩
    rw [hsteps.slots, hslot]
    rfl
  · obtain ⟨h₁, h₂, h₃⟩ := hsteps.others e hed
    rw [h₁, h₂, h₃]
    exact he

theorem quiet (h : Coupled cfg as s) (hb : ∀ d, b ≠ .nextSlot d)
    (hn : s.timer.step b = some timer') (htime : timer'.time = s.timer.time)
    (hkeep : ∀ e, (timer'.device e).point.activity = (s.timer.device e).point.activity) :
    Coupled cfg (.sync b :: as) { s with timer := timer' } := by
  refine ⟨.snoc h.timer hn, h.sys, h.time.trans htime.symm, fun e => ?_⟩
  change Called (TimerSync.begun (b :: syncs as) e) _ _ _ _
  rw [hkeep e, TimerSync.begun_cons (hb e)]
  exact h.called e

theorem fsh (h : Coupled cfg as s) (d : Fin (m + 1)) :
    (s.timer.device d).id.fsh = (s.timer.device d).point.finished :=
  ((h.timer.invariant TimerSync.Inv TimerSync.inv_start fun _ _ _ hs hn => hs.step hn).agrees d).fsh

theorem tick_inStep (h : Coupled cfg as s) (hpt : s.timer.point.ticks = true) :
    s.sys.InStep .tick := by
  obtain ⟨fsh, event, hadv⟩ : ∃ fsh event, s.timer.point = .advance fsh event := by
    cases hp : s.timer.point <;> rw [hp] at hpt <;> simp [SyncPoint.ticks] at hpt ⊢
  apply System.inStep_tick
  intro d
  have hcalled := h.called d
  rcases hfsh : (s.timer.device d).id.fsh with _ | _
  · right
    obtain ⟨hin, hbegun⟩ := (TimerSync.slotOf_run h.timer hfsh).advancing fsh event hadv
    have hact : (s.timer.device d).point.activity = .inNextSlot := by
      cases hp : (s.timer.device d).point <;> rw [hp] at hin <;> first | rfl | cases hin
    have hcalls := hcalled.calls
    rw [hact, if_pos rfl] at hcalls
    have htime := h.time
    exact ⟨hcalled.inNextSlot hact, by omega⟩
  · left
    rw [h.fsh] at hfsh
    apply hcalled.detaching
    cases hp : (s.timer.device d).point <;> rw [hp] at hfsh <;> first | rfl | cases hfsh

theorem timer_step (h : Coupled cfg as s) (hn : s.timer.timerRoutine = some timer') :
    Coupled cfg (.sync .timer :: as)
      ⟨if s.timer.point.ticks then { s.sys with time := s.sys.time + 1 } else s.sys, timer'⟩ := by
  obtain ⟨htime, hkeep⟩ := TimerSync.timerRoutine_keeps hn
  split_ifs with hpt
  · obtain ⟨bs, hrun⟩ := h.sys
    rw [hpt] at htime
    refine ⟨.snoc h.timer hn, ⟨_, .snoc hrun ⟨h.tick_inStep hpt, rfl⟩⟩, ?_, fun e => ?_⟩
    · rw [htime]
      exact congrArg (· + 1) h.time
    · change Called (TimerSync.begun (.timer :: syncs as) e) (s.sys.slotsOf e) (s.sys.atNextSlot e)
        (s.sys.atDetach e) _
      rw [hkeep e, TimerSync.begun_cons (by simp)]
      exact h.called e
  · rw [Bool.not_eq_true] at hpt
    rw [hpt] at htime
    exact h.quiet (by simp) hn htime hkeep

theorem behind (h : Coupled cfg as s) (hpt : (s.timer.device d).point = .unlockTimer) :
    s.sys.atNextSlot d = true ∧ TimerSync.begun (syncs as) d = s.sys.slotsOf d + 1 ∧
      s.sys.slotsOf d < s.sys.time := by
  have hd := h.called d
  have hact : (s.timer.device d).point.activity = .inNextSlot := by rw [hpt]; rfl
  have hcalls := hd.calls
  rw [hact, if_pos rfl] at hcalls
  refine ⟨hd.inNextSlot hact, hcalls, ?_⟩
  -- the device has come through its last call
  have hreturned := (TimerSync.slotOf_run h.timer (d := d) (by rw [h.fsh, hpt]; rfl)).returned_le
  rw [TimerSync.returned, hpt] at hreturned
  simp only [DevPoint.entering, DevPoint.inNextSlot, Bool.or_self, Bool.toNat_false] at hreturned
  have := h.time
  omega

theorem returns (h : Coupled cfg as s) (hpt : (s.timer.device d).point = .unlockTimer)
    (hsys : s.sys.step cfg (.back d) = some sys') (hn : s.timer.devStep d = some timer') :
    Coupled cfg (.sync (.device d) :: as) ⟨sys', timer'⟩ := by
  obtain ⟨bs, hrun⟩ := h.sys
  have hsteps := System.steps_of_next hsys (System.event_back d)
  obtain ⟨hslot, hcalls, hlt⟩ := h.behind hpt
  refine ⟨.snoc h.timer hn,
    ⟨_, .snoc hrun ⟨System.inStep_of_slots (System.event_back d) hlt, hsys⟩⟩,
    ?_, fun e => ?_⟩
  · simp only [TimerSync.devStep, hpt] at hn
    obtain rfl := Option.some.inj hn
    exact hsteps.time.trans h.time
  · change Called (TimerSync.begun (.device d :: syncs as) e) _ _ _ _
    rw [TimerSync.begun_cons (by simp)]
    simp only [TimerSync.devStep, hpt] at hn
    obtain rfl := Option.some.inj hn
    by_cases hed : e = d
    · subst hed
      simp only [TimerSync.setDevice, Function.update_self]
      refine ⟨hcalls.trans ?_, fun hc => (by cases hc), fun hc => (by cases hc)⟩
      rw [hsteps.slots, hslot]
      rfl
    · obtain ⟨h₁, h₂, h₃⟩ := hsteps.others e hed
      simp only [TimerSync.setDevice, Function.update_of_ne hed]
      rw [h₁, h₂, h₃]
      exact h.called e

theorem calls (h : Coupled cfg as s) {x : DevPoint} (hn : s.timer.step b = some timer')
    (hcall : s.timer.call d x = some timer')
    (hd : Called (TimerSync.begun (b :: syncs as) d) (s.sys.slotsOf d) (s.sys.atNextSlot d)
      (s.sys.atDetach d) x.activity)
    (hothers : ∀ e, e ≠ d → b ≠ .nextSlot e) :
    Coupled cfg (.sync b :: as) { s with timer := timer' } := by
  unfold TimerSync.call at hcall
  split_ifs at hcall
  obtain rfl := Option.some.inj hcall
  refine ⟨.snoc h.timer hn, h.sys, h.time, fun e => ?_⟩
  change Called (TimerSync.begun (b :: syncs as) e) _ _ _ _
  by_cases hed : e = d
  · subst hed
    simp only [TimerSync.setDevice, Function.update_self]
    exact hd
  · rw [TimerSync.begun_cons (hothers e hed)]
    simp only [TimerSync.setDevice, Function.update_of_ne hed]
    exact h.called e

theorem working_of_call {x : DevPoint} (hcall : s.timer.call d x = some timer') :
    (s.timer.device d).point.activity = .working := by
  unfold TimerSync.call at hcall
  split_ifs at hcall with hwork
  rw [hwork]
  rfl

theorem nextSlot (h : Coupled cfg as s) (hslot : s.sys.atNextSlot d = true)
    (hcall : s.timer.call d .lockEvent = some timer') :
    Coupled cfg (.sync (.nextSlot d) :: as) { s with timer := timer' } := by
  have hcalls := (h.called d).calls
  rw [working_of_call hcall] at hcalls
  refine h.calls hcall hcall ⟨?_, fun _ => hslot, fun hc => (by cases hc)⟩ fun e he heq => ?_
  · rw [TimerSync.begun, List.count_cons_self]
    exact congrArg (· + 1) hcalls
  · cases heq
    exact he rfl

theorem detachEvent (h : Coupled cfg as s) (hdetach : s.sys.atDetach d = true)
    (hcall : s.timer.call d .lockDetach = some timer') :
    Coupled cfg (.sync (.detachEvent d) :: as) { s with timer := timer' } := by
  have hcalls := (h.called d).calls
  rw [working_of_call hcall] at hcalls
  refine h.calls hcall hcall ⟨?_, fun hc => (by cases hc), fun _ => hdetach⟩ fun e _ => by simp
  rw [TimerSync.begun_cons (by simp)]
  exact hcalls

theorem step (h : Coupled cfg as s) (hn : Next cfg s a s') : Coupled cfg (a :: as) s' := by
  cases a with
  | thread a =>
    simp only [Next, Os.step] at hn
    split at hn
    · cases hn
    · next d hd =>
      split_ifs at hn with hguard
      obtain ⟨sys', hsys, rfl⟩ := Option.map_eq_some_iff.mp hn
      simp only [Bool.and_eq_true, decide_eq_true_eq, Bool.not_eq_true'] at hguard
      exact h.thread hd hguard.1 hguard.2 hsys
  | sync b =>
    cases b with
    | timer =>
      obtain ⟨timer', ht, rfl⟩ := Option.map_eq_some_iff.mp hn
      exact h.timer_step ht
    | device d =>
      simp only [Next, Os.step] at hn
      split_ifs at hn with hpt
      · obtain ⟨sys', hsys, hrest⟩ := Option.bind_eq_some_iff.mp hn
        obtain ⟨timer', ht, rfl⟩ := Option.map_eq_some_iff.mp hrest
        exact h.returns hpt hsys ht
      · obtain ⟨timer', ht, rfl⟩ := Option.map_eq_some_iff.mp hn
        obtain ⟨htime, hkeep⟩ := TimerSync.devStep_keeps ht hpt
        exact h.quiet (by simp) ht htime hkeep
    | nextSlot d =>
      simp only [Next, Os.step] at hn
      split_ifs at hn with hslot
      obtain ⟨timer', ht, rfl⟩ := Option.map_eq_some_iff.mp hn
      exact h.nextSlot hslot ht
    | detachEvent d =>
      simp only [Next, Os.step] at hn
      split_ifs at hn with hdetach
      obtain ⟨timer', ht, rfl⟩ := Option.map_eq_some_iff.mp hn
      exact h.detachEvent hdetach ht
    | stop =>
      obtain ⟨timer', ht, rfl⟩ := Option.map_eq_some_iff.mp hn
      have ht' := ht
      simp only [TimerSync.step] at ht'
      split_ifs at ht'
      obtain rfl := Option.some.inj ht'
      exact h.quiet (by simp) ht rfl fun _ => rfl
    | wakeTimer =>
      obtain ⟨timer', ht, rfl⟩ := Option.map_eq_some_iff.mp hn
      have ht' := ht
      simp only [TimerSync.step] at ht'
      split at ht'
      · obtain rfl := Option.some.inj ht'
        exact h.quiet (by simp) ht rfl fun _ => rfl
      · cases ht'
    | wakeDevice d =>
      obtain ⟨timer', ht, rfl⟩ := Option.map_eq_some_iff.mp hn
      have ht' := ht
      simp only [TimerSync.step] at ht'
      split_ifs at ht' with hpt
      obtain rfl := Option.some.inj ht'
      exact h.quiet (by simp) ht rfl (TimerSync.activity_update (by rw [hpt]; rfl))

theorem run (h : Run (Next cfg) (start n m) as s) : Coupled cfg as s := by
  induction h with
  | nil => exact coupled_start cfg
  | snoc _ hn ih => exact ih.step hn

end Coupled

theorem run_keeps_in_step (cfg : Config n) (h : Run (Next cfg) (start n m) as s) :
    (∃ bs, Run (System.NextInStep cfg) (.start n m) bs s.sys) ∧ s.sys.time = s.timer.time :=
  ⟨(Coupled.run h).sys, (Coupled.run h).time⟩

/-- A step that a thread takes by itself, neither a wake-up that nobody has signalled nor the
end of `main`. -/
def OsAction.own : OsAction m → Bool
  | .thread _ => true
  | .sync .stop => false
  | .sync .wakeTimer => false
  | .sync (.wakeDevice _) => false
  | .sync _ => true

def CanGoOn (cfg : Config n) (s : Os n m) : Prop :=
  ∃ a s', OsAction.own a = true ∧ Next cfg s a s'

theorem thread_enabled (cfg : Config n) {sys : System n m} {a : Action m} (ha : a.event = some d)
    (hd : sys.atDetach d = false) : ∃ sys', sys.step cfg a = some sys' := by
  cases a with
  | tick => cases ha
  | loader =>
    obtain rfl := Option.some.inj ha
    exact System.ld_enabled cfg (by simpa using hd)
  | cpu c name =>
    obtain rfl := Option.some.inj ha
    exact System.enabled cfg (by simpa using hd) name

theorem atDetach_of_atNextSlot {sys : System n m} (hd : sys.atNextSlot d = true) :
    sys.atDetach d = false := by
  rcases System.event_cases d with rfl | ⟨c, rfl⟩
  · rw [System.atNextSlot_ldEvent, Loader.inNextSlot] at hd
    split at hd
    · next i hpt => simp [hpt]
    · next i hpt => simp [hpt]
    · cases hd
  · rw [System.atNextSlot_cpuEvent] at hd
    obtain ⟨proc, hpt⟩ := System.inNextSlot_point hd
    simp [hpt]

theorem goes_on_of_work (cfg : Config n) (hd : (s.timer.device d).point = .work) :
    s.CanGoOn cfg := by
  have hcall : ∀ x, ∃ timer', s.timer.call d x = some timer' := by
    intro x
    rw [TimerSync.call, if_pos hd]
    exact ⟨_, rfl⟩
  rcases hslot : s.sys.atNextSlot d with _ | _
  · rcases hdetach : s.sys.atDetach d with _ | _
    · obtain ⟨sys', hsys⟩ := thread_enabled cfg (System.event_back d) hdetach
      refine ⟨.thread (.back d), { s with sys := sys' }, rfl, ?_⟩
      simp [Next, step, System.event_back, hd, hslot, hsys]
    · obtain ⟨timer', ht⟩ := hcall .lockDetach
      refine ⟨.sync (.detachEvent d), { s with timer := timer' }, rfl, ?_⟩
      simp [Next, step, hdetach, ht]
  · obtain ⟨timer', ht⟩ := hcall .lockEvent
    refine ⟨.sync (.nextSlot d), { s with timer := timer' }, rfl, ?_⟩
    simp [Next, step, hslot, ht]

theorem goes_on_of_timer (cfg : Config n) (h : s.timer.timerRoutine ≠ none) : s.CanGoOn cfg := by
  obtain ⟨timer', ht⟩ := Option.ne_none_iff_exists'.mp h
  exact ⟨.sync .timer, _, rfl, by simp only [Next, step, ht]; rfl⟩

theorem Coupled.goes_on_of_device (hc : Coupled cfg as s) (h : s.timer.devStep d ≠ none) :
    s.CanGoOn cfg := by
  obtain ⟨timer', ht⟩ := Option.ne_none_iff_exists'.mp h
  by_cases hpt : (s.timer.device d).point = .unlockTimer
  · have hslot := (hc.called d).inNextSlot (by rw [hpt]; rfl)
    obtain ⟨sys', hsys⟩ := thread_enabled cfg (System.event_back d) (atDetach_of_atNextSlot hslot)
    exact ⟨.sync (.device d), ⟨sys', timer'⟩, rfl,
      by simp [Next, Os.step, hpt, hsys, ht]⟩
  · exact ⟨.sync (.device d), { s with timer := timer' }, rfl,
      by simp [Next, Os.step, hpt, ht]⟩

structure Exited (s : Os n m) : Prop where
  detached : ∀ d, s.timer.Detached d
  timer : s.timer.point = .exited

theorem Coupled.inv (hc : Coupled cfg as s) : s.timer.Inv :=
  hc.timer.invariant TimerSync.Inv TimerSync.inv_start fun _ _ _ hs hn => hs.step hn

theorem Coupled.exited_of_not_canGoOn (hc : Coupled cfg as s) (hgo : ¬ s.CanGoOn cfg) :
    s.Exited := by
  have hover := TimerSync.Stuck.over (s := s.timer) ⟨?_, fun d => ?_⟩ hc.inv
    fun d hd => hgo (goes_on_of_work cfg hd)
  · exact ⟨hover.1, hover.2⟩
  · by_contra hne
    exact hgo (goes_on_of_timer cfg hne)
  · by_contra hne
    exact hgo (hc.goes_on_of_device hne)

theorem Exited.not_canGoOn (h : s.Exited) : ¬ s.CanGoOn cfg := by
  have hcall : ∀ d x, s.timer.call d x = none := by
    intro d x
    have hd : (s.timer.device d).point = .detached := h.detached d
    rw [TimerSync.call, hd, if_neg (by simp)]
  have hdev : ∀ d, s.timer.devStep d = none := by
    intro d
    have hd : (s.timer.device d).point = .detached := h.detached d
    simp only [TimerSync.devStep, hd]
  rintro ⟨a, s', hown, hn⟩
  cases a with
  | thread a =>
    simp only [Next, step] at hn
    split at hn
    · cases hn
    · next d _ =>
      have hd : (s.timer.device d).point = .detached := h.detached d
      simp [hd] at hn
  | sync b =>
    cases b with
    | timer => simp [Next, step, TimerSync.timerRoutine, h.timer] at hn
    | device d => simp [Next, step, hdev] at hn
    | nextSlot d => simp [Next, step, hcall] at hn
    | detachEvent d => simp [Next, step, hcall] at hn
    | stop | wakeTimer | wakeDevice d => cases hown

theorem Coupled.allDone (hc : Coupled cfg as s) (hm : 0 < m) (hs : s.sys.WellRun)
    (hpt : s.timer.point = .exited) : s.sys.AllDone := by
  have hdetached := hc.inv.counted
  rw [hpt] at hdetached
  apply hs.allDone hm
  intro c
  have hd := (hc.called (cpuEvent c)).detaching (by
    rw [show (s.timer.device (cpuEvent c)).point = .detached from hdetached _]
    rfl)
  simpa using hd

/-- The simulator never stands still before all its threads have ended. By then every
process has been served, and past the deadline this is so even if idle CPUs keep the
simulator alive. -/
theorem run_goes_on_until_done (cfg : Config n) (hn : n ≤ maxQueueSize) (hm : 0 < m)
    (h : Run (Next cfg) (start n m) as s) :
    (¬ s.CanGoOn cfg ↔ s.Exited) ∧ (s.timer.point = .exited → s.sys.AllDone) ∧
      (System.deadline cfg < s.timer.time → s.sys.Quiescent cfg) := by
  have hc := Coupled.run h
  obtain ⟨bs, hrun⟩ := hc.sys
  have ht := System.Timely.run hn hm hrun
  refine ⟨⟨hc.exited_of_not_canGoOn, fun hover => hover.not_canGoOn⟩, hc.allDone hm ht.wellRun, ?_⟩
  intro hlate
  rw [← hc.time] at hlate
  exact ht.quiescent (ht.deadline hlate)

/-- One CPU and the loader, each going on as long as it can. -/
def oneCpuOrder : List (OsAction 1) :=
  let cpu : Fin 2 := ⟨0, Nat.zero_lt_two⟩
  let loader : Fin 2 := ⟨1, Nat.one_lt_two⟩
  [.thread .loader, .thread (.cpu ⟨0, Nat.one_pos⟩ []), .sync (.device cpu), .sync (.device loader),
    .sync (.nextSlot cpu), .sync (.nextSlot loader), .sync (.detachEvent cpu),
    .sync (.detachEvent loader), .sync .timer]

def oneCpuRun : List (OsAction 1) × Os 1 1 :=
  Run.greedy (step System.oneCalc) oneCpuOrder 85 ([], start 1 1)

theorem run_keeps_in_step_oneCalc :
    ∃ bs, Run (System.NextInStep System.oneCalc) (.start 1 1) bs oneCpuRun.2.sys ∧
      oneCpuRun.2.sys.time = 2 := by
  have hrun : Run (Next System.oneCalc) (start 1 1) oneCpuRun.1 oneCpuRun.2 := Run.of_greedy 85 .nil
  obtain ⟨⟨bs, hbs⟩, htime⟩ := run_keeps_in_step System.oneCalc hrun
  exact ⟨bs, hbs, htime.trans (by decide +kernel)⟩

theorem run_goes_on_until_done_oneCalc :
    oneCpuRun.2.timer.point = .exited ∧ oneCpuRun.2.sys.AllDone := by
  have hrun : Run (Next System.oneCalc) (start 1 1) oneCpuRun.1 oneCpuRun.2 := Run.of_greedy 85 .nil
  have hexit : oneCpuRun.2.timer.point = .exited := by decide +kernel
  exact ⟨hexit, (run_goes_on_until_done System.oneCalc (by decide) (by decide) hrun).2.1 hexit⟩

end Os
end OSsim
