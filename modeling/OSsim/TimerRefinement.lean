import OSsim.NoDeadlock
import OSsim.TimerBarrier

/-!
# Sections of the timer under its mutexes

The calls of `timer.c` one call of the thread library at a time do nothing that the
sections of `Timer` do not: a section happens at the one step inside it that touches the
flags, and everything else stutters. What is proved of the sections holds with the
mutexes, the condition variables and wake-ups that nobody has signalled.
-/

namespace OSsim
variable {k : ℕ}

namespace DevPoint

def entering : DevPoint → Bool
  | lockEvent | setDone => true
  | _ => false

/-- Behind the assignment of `done`, up to the test that finds it down again. -/
def inNextSlot : DevPoint → Bool
  | signalEvent | unlockEvent | lockTimer | testDone | asleep | relockTimer => true
  | _ => false

end DevPoint

/-- Where the sections see the timer: it has passed a device once it has counted it, and
has released it once its flag is down. -/
def SyncPoint.atomic : SyncPoint k → TimerPoint k
  | head => .head
  | scan .unlock _ devs fsh event => .wait devs fsh event
  | scan _ d devs fsh event => .wait (d :: devs) fsh event
  | advance fsh event => .advance fsh event
  | release .lock d devs fsh event => .release (d :: devs) fsh event
  | release .clear d devs fsh event => .release (d :: devs) fsh event
  | release _ _ devs fsh event => .release devs fsh event
  | compare fsh event => .release [] fsh event
  | exited => .exited

namespace TimerSync
variable {s s' : TimerSync k} {t : Timer k} {a : SyncAction k} {as : List (SyncAction k)}
  {d e : Fin k} {x y : SyncDevice} {z : Device} {calls : ℕ} {device : Fin k → SyncDevice}

def begun (as : List (SyncAction k)) (d : Fin k) : ℕ := as.count (.nextSlot d)

structure Follows (calls : ℕ) (x : SyncDevice) (z : Device) : Prop where
  id : z.id = x.id
  inNextSlot : z.inNextSlot = x.point.inNextSlot
  calls : z.calls + x.point.entering.toNat = calls

structure Abstracts (as : List (SyncAction k)) (s : TimerSync k) (t : Timer k) : Prop where
  point : t.point = s.point.atomic
  time : t.time = s.time
  timerStop : t.timerStop = s.timerStop
  device : ∀ d, Follows (begun as d) (s.device d) (t.device d)
  tested : ∀ d devs fsh event, s.point = .scan .count d devs fsh event →
    ((s.device d).id.done || (s.device d).id.fsh) = true

theorem abstracts_start : Abstracts [] (start k) (Timer.start k) where
  point := rfl
  time := rfl
  timerStop := rfl
  device _ := ⟨rfl, rfl, rfl⟩
  tested _ _ _ _ h := by cases h

def Answered (as : List (SyncAction k)) (s' : TimerSync k) (t : Timer k) : Prop :=
  ∃ bs t', Run Timer.Next t bs t' ∧ Abstracts as s' t'

@[simp] theorem atomic_signalEvent (d : Fin k) (p : SyncPoint k) :
    (signalEvent d p).atomic = p.atomic := by
  unfold signalEvent
  split
  · split_ifs <;> rfl
  · rfl

@[simp] theorem atomic_releaseFrom (fsh event : ℕ) (devs : List (Fin k)) :
    (releaseFrom fsh event devs).atomic = .release devs fsh event := by
  cases devs <;> rfl

theorem run_scanFrom {fsh event : ℕ} {devs : List (Fin k)} (h : t.point = .wait devs fsh event) :
    ∃ bs, Run Timer.Next t bs { t with point := (scanFrom fsh event devs).atomic } := by
  cases devs with
  | nil =>
    refine ⟨[.timer], .snoc .nil ?_⟩
    simp only [Timer.Next, Timer.step, Timer.timerRoutine, h]
    rfl
  | cons d devs =>
    refine ⟨[], ?_⟩
    have ht : { t with point := (scanFrom fsh event (d :: devs)).atomic } = t := by
      rw [← show t.point = (scanFrom fsh event (d :: devs)).atomic from h]
    rw [ht]
    exact .nil

theorem ne_count_scanFrom {fsh event fsh' event' : ℕ} {devs devs' : List (Fin k)} :
    scanFrom fsh event devs ≠ .scan .count d devs' fsh' event' := by
  cases devs <;> simp [scanFrom]

theorem ne_count_releaseFrom {fsh event fsh' event' : ℕ} {devs devs' : List (Fin k)} :
    releaseFrom fsh event devs ≠ .scan .count d devs' fsh' event' := by
  cases devs <;> simp [releaseFrom]

theorem signalEvent_eq_count {devs : List (Fin k)} {fsh event : ℕ} {p : SyncPoint k}
    (h : signalEvent e p = .scan .count d devs fsh event) : p = .scan .count d devs fsh event := by
  unfold signalEvent at h
  split at h
  · split_ifs at h <;> cases h
  · exact h

theorem begun_cons (h : a ≠ .nextSlot d) : begun (a :: as) d = begun as d := List.count_cons_of_ne h

structure Alike (x y : SyncDevice) : Prop where
  id : y.id = x.id
  inNextSlot : y.point.inNextSlot = x.point.inNextSlot
  entering : y.point.entering = x.point.entering

theorem Follows.alike (h : Follows calls x z) (hxy : Alike x y) : Follows calls y z :=
  ⟨h.id.trans hxy.id.symm, h.inNextSlot.trans hxy.inNextSlot.symm,
    by rw [hxy.entering]; exact h.calls⟩

theorem Alike.refl (x : SyncDevice) : Alike x x := ⟨rfl, rfl, rfl⟩

theorem Alike.update (h : Alike (s.device d) x) (e : Fin k) :
    Alike (s.device e) (Function.update s.device d x e) := by
  by_cases he : e = d
  · subst he
    rw [Function.update_self]
    exact h
  · rw [Function.update_of_ne he]
    exact .refl _

def StillTested (s s' : TimerSync k) : Prop :=
  ∀ d devs fsh event, s'.point = .scan .count d devs fsh event →
    ((s.device d).id.done || (s.device d).id.fsh) = true

theorem Abstracts.alike (h : Abstracts as s t) (ha : ∀ d, a ≠ .nextSlot d)
    (hp : t.point = s'.point.atomic) (htime : s'.time = s.time)
    (hstop : s'.timerStop = s.timerStop) (hdev : ∀ e, Alike (s.device e) (s'.device e))
    (htested : StillTested s s') : Abstracts (a :: as) s' t := by
  refine ⟨hp, h.time.trans htime.symm, h.timerStop.trans hstop.symm, fun e => ?_, ?_⟩
  · rw [begun_cons (ha e)]
    exact (h.device e).alike (hdev e)
  · intro e devs fsh event hpt
    rw [(hdev e).id]
    exact htested e devs fsh event hpt

theorem Abstracts.stutters (h : Abstracts as s t) (ha : ∀ d, a ≠ .nextSlot d)
    (hp : s'.point.atomic = s.point.atomic) (htime : s'.time = s.time)
    (hstop : s'.timerStop = s.timerStop) (hdev : ∀ e, Alike (s.device e) (s'.device e))
    (htested : StillTested s s') : Answered (a :: as) s' t :=
  ⟨[], t, .nil, h.alike ha (h.point.trans hp.symm) htime hstop hdev htested⟩

theorem timer_ne_nextSlot (d : Fin k) : SyncAction.timer ≠ .nextSlot d := by simp

theorem Abstracts.moves (h : Abstracts as s t) {p : SyncPoint k}
    (hn : t.timerRoutine = some { t with point := p.atomic })
    (hp : ∀ d devs fsh event, p ≠ .scan .count d devs fsh event) :
    Answered (.timer :: as) { s with point := p } t := by
  refine ⟨[.timer], { t with point := p.atomic }, .snoc .nil hn, rfl, h.time, h.timerStop, ?_, ?_⟩
  · intro d
    rw [begun_cons (timer_ne_nextSlot d)]
    exact h.device d
  · exact fun d devs fsh event hc => absurd hc (hp d devs fsh event)

theorem Abstracts.scans (h : Abstracts as s t) {bs : List (TimerAction k)} {fsh event : ℕ}
    {devs : List (Fin k)} (hr : Run Timer.Next t bs { t with point := .wait devs fsh event })
    (hdev : ∀ e, Alike (s.device e) (device e)) :
    Answered (.timer :: as) { s with point := scanFrom fsh event devs, device := device } t := by
  obtain ⟨cs, hrun⟩ := run_scanFrom (t := { t with point := .wait devs fsh event }) rfl
  refine ⟨_, _, hr.append hrun, rfl, h.time, h.timerStop, fun e => ?_, ?_⟩
  · rw [begun_cons (timer_ne_nextSlot e)]
    exact (h.device e).alike (hdev e)
  · exact fun _ _ _ _ hc => absurd hc ne_count_scanFrom

theorem Abstracts.head (h : Abstracts as s t) (hpt : s.point = .head) :
    Answered (.timer :: as)
      { s with point := if s.timerStop then .exited else scanFrom 0 0 (Timer.devList k) } t := by
  have hpoint := h.point
  rw [hpt] at hpoint
  split_ifs with hstop
  · refine h.moves ?_ (by simp)
    simp only [Timer.timerRoutine, hpoint, SyncPoint.atomic, h.timerStop, hstop, if_true]
  · refine h.scans (.snoc .nil ?_ : Run Timer.Next t [.timer] _) fun _ => .refl _
    simp only [Timer.Next, Timer.step, Timer.timerRoutine, hpoint, SyncPoint.atomic, h.timerStop,
      hstop]
    rfl

theorem Abstracts.scan (h : Abstracts as s t) {pt : ScanPoint} {devs : List (Fin k)}
    {fsh event : ℕ} (hpt : s.point = .scan pt d devs fsh event)
    (hn : s.timerRoutine = some s') : Answered (.timer :: as) s' t := by
  have hpoint := h.point
  rw [hpt] at hpoint
  cases pt with
  | lock | relock =>
    simp only [TimerSync.timerRoutine, hpt] at hn
    split_ifs at hn
    obtain rfl := Option.some.inj hn
    exact h.stutters timer_ne_nextSlot (by rw [hpt]; rfl) rfl rfl
      (Alike.update ⟨rfl, rfl, rfl⟩) fun _ _ _ _ hc => by cases hc
  | test =>
    simp only [TimerSync.timerRoutine, hpt] at hn
    split_ifs at hn with hflags <;> obtain rfl := Option.some.inj hn
    · exact h.stutters timer_ne_nextSlot (by rw [hpt]; rfl) rfl rfl
        (Alike.update ⟨rfl, rfl, rfl⟩) fun _ _ _ _ hc => by cases hc
    · refine h.stutters timer_ne_nextSlot (by rw [hpt]; rfl) rfl rfl (fun _ => .refl _) ?_
      intro e devs' fsh' event' hc
      cases hc
      simpa [or_iff_not_imp_left] using hflags
  | asleep =>
    simp only [TimerSync.timerRoutine, hpt] at hn
    cases hn
  | count =>
    simp only [TimerSync.timerRoutine, hpt] at hn
    obtain rfl := Option.some.inj hn
    refine h.moves ?_ (by simp)
    have hid := (h.device d).id
    have hflags := h.tested d devs fsh event hpt
    simp only [Timer.timerRoutine, hpoint, SyncPoint.atomic, hid, if_pos hflags]
  | unlock =>
    simp only [TimerSync.timerRoutine, hpt] at hn
    obtain rfl := Option.some.inj hn
    have hstay : Run Timer.Next t [] { t with point := .wait devs fsh event } := by
      rw [← show t.point = .wait devs fsh event from hpoint]
      exact .nil
    exact h.scans hstay (Alike.update ⟨rfl, rfl, rfl⟩)

theorem Abstracts.advance (h : Abstracts as s t) {fsh event : ℕ}
    (hpt : s.point = .advance fsh event) :
    Answered (.timer :: as) { s with
      point := releaseFrom fsh event (Timer.devList k), time := s.time + 1 } t := by
  have hpoint := h.point
  rw [hpt] at hpoint
  refine ⟨[.timer], { t with point := .release (Timer.devList k) fsh event, time := t.time + 1 },
    .snoc .nil ?_, ?_, congrArg (· + 1) h.time, h.timerStop, fun e => ?_, ?_⟩
  · simp only [Timer.Next, Timer.step, Timer.timerRoutine, hpoint, SyncPoint.atomic]
  · simp
  · rw [begun_cons (timer_ne_nextSlot e)]
    exact h.device e
  · exact fun _ _ _ _ hc => absurd hc ne_count_releaseFrom

theorem Abstracts.clears (h : Abstracts as s t) {devs : List (Fin k)} {fsh event : ℕ}
    (hpt : s.point = .release .clear d devs fsh event) :
    Answered (.timer :: as)
      { s.setDevice d { s.device d with id := ⟨false, (s.device d).id.fsh⟩ } with
      point := .release .signal d devs fsh event } t := by
  have hpoint := h.point
  rw [hpt] at hpoint
  refine ⟨[.timer], { t.setDevice d { t.device d with id := ⟨false, (t.device d).id.fsh⟩ } with
    point := .release devs fsh event }, .snoc .nil ?_, rfl, h.time, h.timerStop, fun e => ?_,
    (by simp)⟩
  · simp only [Timer.Next, Timer.step, Timer.timerRoutine, hpoint, SyncPoint.atomic]
  · rw [begun_cons (timer_ne_nextSlot e)]
    have he := h.device e
    by_cases hed : e = d
    · subst hed
      simp only [setDevice, Timer.setDevice, Function.update_self]
      exact ⟨by rw [he.id], he.inNextSlot, he.calls⟩
    · simp only [setDevice, Timer.setDevice, Function.update_of_ne hed]
      exact he

theorem alike_signalTimer (x : SyncDevice) : Alike x { x with point := signalTimer x.point } := by
  refine ⟨rfl, ?_, ?_⟩ <;> cases hx : x.point <;> rfl

theorem Abstracts.release (h : Abstracts as s t) {pt : ReleasePoint} {devs : List (Fin k)}
    {fsh event : ℕ} (hpt : s.point = .release pt d devs fsh event)
    (hn : s.timerRoutine = some s') : Answered (.timer :: as) s' t := by
  cases pt with
  | lock =>
    simp only [TimerSync.timerRoutine, hpt] at hn
    split_ifs at hn
    obtain rfl := Option.some.inj hn
    exact h.stutters timer_ne_nextSlot (by rw [hpt]; rfl) rfl rfl
      (Alike.update ⟨rfl, rfl, rfl⟩) fun _ _ _ _ hc => by cases hc
  | clear =>
    simp only [TimerSync.timerRoutine, hpt] at hn
    obtain rfl := Option.some.inj hn
    exact h.clears hpt
  | signal =>
    simp only [TimerSync.timerRoutine, hpt] at hn
    obtain rfl := Option.some.inj hn
    exact h.stutters timer_ne_nextSlot (by rw [hpt]; rfl) rfl rfl
      (Alike.update (alike_signalTimer _)) fun _ _ _ _ hc => by cases hc
  | unlock =>
    simp only [TimerSync.timerRoutine, hpt] at hn
    obtain rfl := Option.some.inj hn
    exact h.stutters timer_ne_nextSlot (by rw [hpt]; exact atomic_releaseFrom _ _ _) rfl rfl
      (Alike.update ⟨rfl, rfl, rfl⟩) fun _ _ _ _ hc => absurd hc ne_count_releaseFrom

theorem Abstracts.timerRoutine (h : Abstracts as s t) (hn : s.timerRoutine = some s') :
    Answered (.timer :: as) s' t := by
  cases hpt : s.point with
  | head =>
    simp only [TimerSync.timerRoutine, hpt] at hn
    obtain rfl := Option.some.inj hn
    exact h.head hpt
  | scan pt d devs fsh event => exact h.scan hpt hn
  | advance fsh event =>
    simp only [TimerSync.timerRoutine, hpt] at hn
    obtain rfl := Option.some.inj hn
    exact h.advance hpt
  | release pt d devs fsh event => exact h.release hpt hn
  | compare fsh event =>
    simp only [TimerSync.timerRoutine, hpt] at hn
    obtain rfl := Option.some.inj hn
    have hpoint := h.point
    rw [hpt] at hpoint
    refine h.moves ?_ fun d devs fsh' event' hc => ?_
    · simp only [Timer.timerRoutine, hpoint, SyncPoint.atomic]
      split_ifs <;> rfl
    · split_ifs at hc
  | exited =>
    simp only [TimerSync.timerRoutine, hpt] at hn
    cases hn

theorem device_ne_nextSlot (d e : Fin k) : SyncAction.device d ≠ .nextSlot e := by simp

theorem Abstracts.deviceAlike (h : Abstracts as s t) (ha : ∀ e, a ≠ .nextSlot e)
    (hx : Alike (s.device d) x) : Answered (a :: as) (s.setDevice d x) t :=
  h.stutters ha rfl rfl rfl hx.update h.tested

theorem Abstracts.deviceMoves (h : Abstracts as s t) {b : TimerAction k}
    (hn : t.step b = some (t.setDevice d z)) (hz : Follows (begun as d) x z)
    (hflags : ((s.device d).id.done || (s.device d).id.fsh) = true →
      (x.id.done || x.id.fsh) = true) :
    Answered (.device d :: as) (s.setDevice d x) t := by
  refine ⟨[b], t.setDevice d z, .snoc .nil hn, h.point, h.time, h.timerStop, fun e => ?_, ?_⟩
  · rw [begun_cons (device_ne_nextSlot d e)]
    by_cases he : e = d
    · subst he
      simp only [setDevice, Timer.setDevice, Function.update_self]
      exact hz
    · simp only [setDevice, Timer.setDevice, Function.update_of_ne he]
      exact h.device e
  · intro e devs fsh event hc
    have he := h.tested e devs fsh event hc
    by_cases hed : e = d
    · subst hed
      simp only [setDevice, Function.update_self]
      exact hflags he
    · simp only [setDevice, Function.update_of_ne hed]
      exact he

theorem Abstracts.devStep (h : Abstracts as s t) (hn : s.devStep d = some s') :
    Answered (.device d :: as) s' t := by
  have ha := device_ne_nextSlot d
  have hd := h.device d
  have hin := hd.inNextSlot
  have hcalls := hd.calls
  cases hpt : (s.device d).point with
  | work | asleep | detached =>
    simp only [TimerSync.devStep, hpt] at hn
    cases hn
  | setDone =>
    simp only [TimerSync.devStep, hpt] at hn
    obtain rfl := Option.some.inj hn
    rw [hpt] at hin hcalls
    refine h.deviceMoves (b := .announce d) (z := { t.device d with
      id := ⟨true, (t.device d).id.fsh⟩, inNextSlot := true, calls := (t.device d).calls + 1 })
      ?_ ⟨by rw [hd.id], rfl, hcalls⟩ (fun _ => rfl)
    simp only [Timer.step, Timer.announce, hin]
    rfl
  | signalEvent | signalDetach =>
    simp only [TimerSync.devStep, hpt] at hn
    obtain rfl := Option.some.inj hn
    refine h.stutters ha (atomic_signalEvent d s.point) rfl rfl (Alike.update ⟨rfl, ?_, ?_⟩) ?_
    · rw [hpt]; rfl
    · rw [hpt]; rfl
    · exact fun e devs fsh event hc => h.tested e devs fsh event (signalEvent_eq_count hc)
  | testDone =>
    simp only [TimerSync.devStep, hpt] at hn
    split_ifs at hn with hdone <;> obtain rfl := Option.some.inj hn
    · exact h.deviceAlike ha ⟨rfl, by rw [hpt]; rfl, by rw [hpt]; rfl⟩
    · -- the loop of `next_slot` is left
      rw [hpt] at hin hcalls
      refine h.deviceMoves (b := .resume d) (z := { t.device d with
        inNextSlot := false, returns := (t.device d).returns + 1 }) ?_ ⟨hd.id, rfl, hcalls⟩ id
      have hid : (t.device d).id.done = false := by
        rw [hd.id]
        exact Bool.eq_false_iff.mpr hdone
      simp only [Timer.step, Timer.resume, hin, hid]
      rfl
  | setFsh =>
    simp only [TimerSync.devStep, hpt] at hn
    obtain rfl := Option.some.inj hn
    rw [hpt] at hin hcalls
    exact h.deviceMoves (b := .detach d) rfl ⟨by rw [hd.id], hin, hcalls⟩
      fun _ => Bool.or_true _
  | lockEvent | lockTimer | relockTimer | lockDetach =>
    simp only [TimerSync.devStep, hpt] at hn
    split_ifs at hn
    obtain rfl := Option.some.inj hn
    exact h.deviceAlike ha ⟨rfl, by rw [hpt]; rfl, by rw [hpt]; rfl⟩
  | unlockEvent | unlockTimer | unlockDetach =>
    simp only [TimerSync.devStep, hpt] at hn
    obtain rfl := Option.some.inj hn
    exact h.deviceAlike ha ⟨rfl, by rw [hpt]; rfl, by rw [hpt]; rfl⟩

theorem Abstracts.nextSlot (h : Abstracts as s t) (hpt : (s.device d).point = .work) :
    Abstracts (.nextSlot d :: as) (s.setDevice d { s.device d with point := .lockEvent }) t := by
  refine ⟨h.point, h.time, h.timerStop, fun e => ?_, fun e devs fsh event hc => ?_⟩
  · by_cases he : e = d
    · subst he
      have hd := h.device e
      have hin := hd.inNextSlot
      have hcalls := hd.calls
      rw [hpt] at hin hcalls
      simp only [setDevice, Function.update_self, begun, List.count_cons_self]
      exact ⟨hd.id, hin, congrArg (· + 1) hcalls⟩
    · have hne : SyncAction.nextSlot d ≠ .nextSlot e := by
        intro heq
        cases heq
        exact he rfl
      rw [begun_cons hne]
      simp only [setDevice, Function.update_of_ne he]
      exact h.device e
  · have he := h.tested e devs fsh event hc
    by_cases hed : e = d
    · subst hed
      simp only [setDevice, Function.update_self]
      exact he
    · simp only [setDevice, Function.update_of_ne hed]
      exact he

theorem Abstracts.step (h : Abstracts as s t) (hn : Next s a s') : Answered (a :: as) s' t := by
  cases a with
  | timer => exact h.timerRoutine hn
  | device d => exact h.devStep hn
  | nextSlot d =>
    simp only [Next, TimerSync.step, call] at hn
    split_ifs at hn with hpt
    obtain rfl := Option.some.inj hn
    exact ⟨[], t, .nil, h.nextSlot hpt⟩
  | detachEvent d =>
    simp only [Next, TimerSync.step, call] at hn
    split_ifs at hn with hpt
    obtain rfl := Option.some.inj hn
    exact h.deviceAlike (by simp) ⟨rfl, by rw [hpt]; rfl, by rw [hpt]; rfl⟩
  | stop =>
    simp only [Next, TimerSync.step] at hn
    split_ifs at hn
    obtain rfl := Option.some.inj hn
    refine ⟨[.stop], { t with timerStop := true }, .snoc .nil rfl, h.point, h.time, rfl, ?_,
      h.tested⟩
    intro e
    rw [begun_cons (by simp)]
    exact h.device e
  | wakeTimer =>
    simp only [Next, TimerSync.step] at hn
    split at hn
    · next d devs fsh event hpt =>
      obtain rfl := Option.some.inj hn
      exact h.stutters (by simp) (by rw [hpt]; rfl) rfl rfl (fun _ => .refl _)
        fun _ _ _ _ hc => by cases hc
    · cases hn
  | wakeDevice d =>
    simp only [Next, TimerSync.step] at hn
    split_ifs at hn with hpt
    obtain rfl := Option.some.inj hn
    exact h.deviceAlike (by simp) ⟨rfl, by rw [hpt]; rfl, by rw [hpt]; rfl⟩

theorem run_refines_sections (h : Run Next (start k) as s) :
    ∃ bs t, Run Timer.Next (Timer.start k) bs t ∧ Abstracts as s t :=
  h.refines Abstracts abstracts_start fun _ _ _ _ _ ht hn => ht.step hn

def returned (as : List (SyncAction k)) (s : TimerSync k) (d : Fin k) : ℕ :=
  begun as d - ((s.device d).point.entering || (s.device d).point.inNextSlot).toNat

/-- The slots of an attached device against the clock, which advances only while the
device sleeps in its call for this very tick. -/
structure SlotOf (as : List (SyncAction k)) (s : TimerSync k) (d : Fin k) : Prop where
  returned_le : returned as s d ≤ s.time
  time_le : s.time ≤ begun as d
  begun_le : begun as d ≤ s.time + 1
  working : (s.device d).point = .work → begun as d = s.time
  advancing : ∀ fsh event, s.point = .advance fsh event →
    (s.device d).point.inNextSlot = true ∧ begun as d = s.time + 1

theorem Abstracts.slotOf (h : Abstracts as s t) (ht : t.Synced)
    (hd : (s.device d).id.fsh = false) : SlotOf as s d := by
  have hf := h.device d
  have hfsh : (t.device d).id.fsh = false := by rw [hf.id]; exact hd
  have hx := ht.inTime d hfsh
  have hcalls := hf.calls
  have hin := hf.inNextSlot
  have hpaired := hx.paired
  have htime : t.currentTime = s.time := h.time
  have h₁ := hx.inSlot.returns_le_time
  have h₂ := hx.inSlot.time_le
  have h₃ := hx.inSlot.working
  change (t.device d).returns ≤ t.currentTime at h₁
  change t.currentTime ≤ _ at h₂
  change _ → _ = t.currentTime at h₃
  rw [htime] at h₁ h₂ h₃
  rw [Device.inside] at hpaired
  have hle : begun as d ≤ s.time + 1 ∧ returned as s d ≤ s.time ∧
      ((s.device d).point = .work → begun as d = s.time) := by
    rw [returned]
    cases hpt : (s.device d).point <;> rw [hpt] at hcalls hin <;>
      simp only [DevPoint.inNextSlot, DevPoint.entering] at hin hcalls ⊢ <;>
      simp [hin] at hpaired h₃ hcalls ⊢ <;> omega
  refine ⟨hle.2.1, by omega, hle.1, hle.2.2, fun fsh event hpt => ?_⟩
  have hp : t.point = .advance fsh event := by
    rw [h.point, hpt]
    rfl
  obtain ⟨hslot, hreturns⟩ := ht.advance hp hfsh
  rw [htime] at hreturns
  rw [hslot, if_pos rfl] at hpaired
  rw [hin] at hslot
  exact ⟨hslot, by omega⟩

theorem slotOf_run (h : Run Next (start k) as s) (hd : (s.device d).id.fsh = false) :
    SlotOf as s d := by
  obtain ⟨bs, t, hrun, ht⟩ : ∃ bs t, Run Timer.Next (Timer.start k) bs t ∧ Abstracts as s t :=
    h.refines Abstracts abstracts_start fun _ _ _ _ _ ht hn => ht.step hn
  exact ht.slotOf (Timer.Synced.run hrun) hd

theorem run_slots_under_mutexes (h : Run Next (start k) as s) :
    (∀ d, (s.device d).id.fsh = false → SlotOf as s d) ∧
    ∀ d e, (s.device d).id.fsh = false → (s.device e).id.fsh = false →
      returned as s d ≤ begun as e ∧ begun as d ≤ begun as e + 1 := by
  refine ⟨fun d hd => slotOf_run h hd, fun d e hd he => ?_⟩
  have h₁ := (slotOf_run h hd).returned_le
  have h₂ := (slotOf_run h hd).begun_le
  have h₃ := (slotOf_run h he).time_le
  exact ⟨by omega, by omega⟩

/-- Device 1 announces its second slot while device 0 has not been released from its first,
after a wake-up of the timer that nobody has signalled. -/
def overtaking : List (SyncAction 2) :=
  let zero : Fin 2 := ⟨0, Nat.zero_lt_two⟩
  let one : Fin 2 := ⟨1, Nat.one_lt_two⟩
  List.flatten [List.replicate 4 (.device one), [.nextSlot one], List.replicate 3 (.device one),
    List.replicate 10 .timer, List.replicate 6 (.device zero), [.nextSlot zero],
    List.replicate 3 .timer, List.replicate 6 (.device one), [.nextSlot one], [.wakeTimer],
    List.replicate 3 .timer]

theorem run_overtaking : ∃ s, Run Next (start 2) overtaking s ∧ s.time = 1 ∧
    s.device 0 = ⟨⟨true, false⟩, none, none, .asleep⟩ ∧
    s.device 1 = ⟨⟨true, false⟩, none, none, .lockTimer⟩ := by
  have hplay : (overtaking.foldr (fun a t => t.bind fun s => step s a) (some (start 2))).map
      (fun s => (s.time, s.device 0, s.device 1)) =
      some (1, ⟨⟨true, false⟩, none, none, .asleep⟩, ⟨⟨true, false⟩, none, none, .lockTimer⟩) := by
    decide +kernel
  obtain ⟨s, hs, hcheck⟩ := Option.map_eq_some_iff.mp hplay
  simp only [Prod.mk.injEq] at hcheck
  exact ⟨s, Run.of_foldr hs, hcheck⟩

theorem run_refines_sections_overtaking : ∃ bs t, Run Timer.Next (Timer.start 2) bs t ∧
    t.time = 1 ∧ (t.device 1).calls = 2 ∧ (t.device 0).inNextSlot = true := by
  obtain ⟨s, hrun, htime, h₀, h₁⟩ := run_overtaking
  obtain ⟨bs, t, ht, habs⟩ := run_refines_sections hrun
  have hcalls := (habs.device 1).calls
  have hslot := (habs.device 0).inNextSlot
  rw [h₁, show begun overtaking 1 = 2 by decide] at hcalls
  rw [h₀] at hslot
  exact ⟨bs, t, ht, habs.time.trans htime, hcalls, hslot⟩

theorem run_slots_under_mutexes_overtaking : ∃ s, Run Next (start 2) overtaking s ∧
    begun overtaking 1 = 2 ∧ returned overtaking s 0 = 0 ∧ s.time = 1 ∧
    begun overtaking 1 ≤ begun overtaking 0 + 1 := by
  obtain ⟨s, hrun, htime, h₀, h₁⟩ := run_overtaking
  have hslots := (run_slots_under_mutexes hrun).2 1 0 (by rw [h₁]) (by rw [h₀])
  refine ⟨s, hrun, by decide, ?_, htime, hslots.2⟩
  rw [returned, h₀]
  decide

end TimerSync
end OSsim
