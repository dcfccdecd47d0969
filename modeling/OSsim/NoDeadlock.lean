import OSsim.TimerSync

/-!
# No deadlock and no lost wake-up

The timer sleeps on a device only while both of its flags are down or the device is about
to signal, and a device sleeps only while its `done` is up or the timer is about to signal
it. So when nobody can move, nobody holds a mutex, and the device that the timer sleeps on
can neither sleep itself nor have detached.
-/

namespace OSsim
variable {k : ℕ}

namespace DevPoint

def holdsEvent : DevPoint → Bool
  | setDone | signalEvent | unlockEvent | setFsh | signalDetach | unlockDetach => true
  | _ => false

def holdsTimer : DevPoint → Bool
  | testDone | unlockTimer => true
  | _ => false

def signalling : DevPoint → Bool
  | signalEvent | signalDetach => true
  | _ => false

/-- `detach_event` has set `fsh`. -/
def finished : DevPoint → Bool
  | signalDetach | unlockDetach | detached => true
  | _ => false

end DevPoint

namespace SyncPoint

def holdsEvent (d : Fin k) : SyncPoint k → Bool
  | scan .test e _ _ _ | scan .count e _ _ _ | scan .unlock e _ _ _ => e = d
  | _ => false

def holdsTimer (d : Fin k) : SyncPoint k → Bool
  | release .clear e _ _ _ | release .signal e _ _ _ | release .unlock e _ _ _ => e = d
  | _ => false

def asleepOn (d : Fin k) : SyncPoint k → Bool
  | scan .asleep e _ _ _ => e = d
  | _ => false

def signals (d : Fin k) : SyncPoint k → Bool
  | release .signal e _ _ _ => e = d
  | _ => false

/-- The timer holds nothing of device `d` and owes it nothing. -/
structure Quiet (t : SyncPoint k) (d : Fin k) : Prop where
  holdsEvent : t.holdsEvent d = false
  holdsTimer : t.holdsTimer d = false
  asleepOn : t.asleepOn d = false
  signals : t.signals d = false

theorem quiet_scan {pt : ScanPoint} {d e : Fin k} {devs : List (Fin k)} {fsh event : ℕ}
    (h : e ≠ d) : (scan pt d devs fsh event).Quiet e := by
  cases pt <;> constructor <;> simp [SyncPoint.holdsEvent, SyncPoint.holdsTimer,
    SyncPoint.asleepOn, SyncPoint.signals, h.symm]

theorem quiet_release {pt : ReleasePoint} {d e : Fin k} {devs : List (Fin k)} {fsh event : ℕ}
    (h : e ≠ d) : (release pt d devs fsh event).Quiet e := by
  cases pt <;> constructor <;> simp [SyncPoint.holdsEvent, SyncPoint.holdsTimer,
    SyncPoint.asleepOn, SyncPoint.signals, h.symm]

theorem quiet_scanFrom (fsh event : ℕ) (devs : List (Fin k)) (d : Fin k) :
    (TimerSync.scanFrom fsh event devs).Quiet d := by
  cases devs <;> exact ⟨rfl, rfl, rfl, rfl⟩

theorem quiet_releaseFrom (fsh event : ℕ) (devs : List (Fin k)) (d : Fin k) :
    (TimerSync.releaseFrom fsh event devs).Quiet d := by
  cases devs <;> exact ⟨rfl, rfl, rfl, rfl⟩

end SyncPoint

namespace TimerSync
variable {s s' : TimerSync k} {t t' : SyncPoint k} {d e : Fin k} {x : SyncDevice}

/-- Mutexes are held at the points that say so, and whoever sleeps has a reason to. -/
structure Agrees (t : SyncPoint k) (d : Fin k) (x : SyncDevice) : Prop where
  event_device : x.eventLock = some .device ↔ x.point.holdsEvent = true
  event_timer : x.eventLock = some .timer ↔ t.holdsEvent d = true
  timer_device : x.timerLock = some .device ↔ x.point.holdsTimer = true
  timer_timer : x.timerLock = some .timer ↔ t.holdsTimer d = true
  fsh : x.id.fsh = x.point.finished
  asleepOn : t.asleepOn d = true →
    (x.id.done = false ∧ x.id.fsh = false) ∨ x.point.signalling = true
  asleep : x.point = .asleep → x.id.done = true ∨ t.signals d = true

theorem Agrees.of_quiet (h : Agrees t d x) (ht : t.Quiet d) (ht' : t'.Quiet d) :
    Agrees t' d x where
  event_device := h.event_device
  event_timer := by
    rw [h.event_timer, ht.holdsEvent, ht'.holdsEvent]
  timer_device := h.timer_device
  timer_timer := by
    rw [h.timer_timer, ht.holdsTimer, ht'.holdsTimer]
  fsh := h.fsh
  asleepOn hs := by
    rw [ht'.asleepOn] at hs
    cases hs
  asleep hx := by
    rw [ht'.signals, ← ht.signals]
    exact h.asleep hx

theorem agrees_update (own : Agrees t d x) (others : ∀ e, e ≠ d → Agrees t e (s.device e))
    (e : Fin k) : Agrees t e (Function.update s.device d x e) := by
  by_cases he : e = d
  · subst he
    rw [Function.update_self]
    exact own
  · rw [Function.update_of_ne he]
    exact others e he

theorem signalEvent_other (he : e ≠ d) (t : SyncPoint k) (h : Agrees t e x) :
    Agrees (signalEvent d t) e x := by
  unfold signalEvent
  split
  · next f devs fsh event =>
    split_ifs with hf
    · have hef : e ≠ f := hf ▸ he
      exact h.of_quiet (SyncPoint.quiet_scan hef) (SyncPoint.quiet_scan hef)
    · exact h
  · exact h

theorem signalEvent_asleepOn (d : Fin k) (t : SyncPoint k) :
    (signalEvent d t).asleepOn d = false := by
  unfold signalEvent
  split
  · split_ifs with hf
    · rfl
    · simp [SyncPoint.asleepOn, hf]
  · next hx =>
    cases t with
    | scan pt f devs fsh event =>
      cases pt with
      | asleep => exact absurd rfl (hx f devs fsh event)
      | _ => rfl
    | _ => rfl

theorem signalEvent_same (d e : Fin k) (t : SyncPoint k) :
    (signalEvent d t).holdsEvent e = t.holdsEvent e ∧
      (signalEvent d t).holdsTimer e = t.holdsTimer e := by
  unfold signalEvent
  split
  · split_ifs <;> exact ⟨rfl, rfl⟩
  · exact ⟨rfl, rfl⟩

@[simp] theorem signalTimer_holdsEvent (x : DevPoint) :
    (signalTimer x).holdsEvent = x.holdsEvent := by
  cases x <;> rfl

@[simp] theorem signalTimer_holdsTimer (x : DevPoint) :
    (signalTimer x).holdsTimer = x.holdsTimer := by
  cases x <;> rfl

@[simp] theorem signalTimer_finished (x : DevPoint) : (signalTimer x).finished = x.finished := by
  cases x <;> rfl

@[simp] theorem signalTimer_ne_asleep (x : DevPoint) : signalTimer x ≠ .asleep := by
  cases x <;> simp [signalTimer]

inductive Moved (x : SyncDevice) : SyncDevice → Prop
  | calls (y : DevPoint) (before : x.point = .work) (after : y = .lockEvent ∨ y = .lockDetach) :
      Moved x { x with point := y }
  | locksEvent (before : x.point = .lockEvent) (free : x.eventLock = none) :
      Moved x { x with eventLock := some .device, point := .setDone }
  | setsDone (before : x.point = .setDone) :
      Moved x { x with id := ⟨true, x.id.fsh⟩, point := .signalEvent }
  | unlocksEvent (before : x.point = .unlockEvent) :
      Moved x { x with eventLock := none, point := .lockTimer }
  | locksTimer (before : x.point = .lockTimer ∨ x.point = .relockTimer)
      (free : x.timerLock = none) :
      Moved x { x with timerLock := some .device, point := .testDone }
  | sleeps (before : x.point = .testDone) (done : x.id.done = true) :
      Moved x { x with timerLock := none, point := .asleep }
  | passes (before : x.point = .testDone) : Moved x { x with point := .unlockTimer }
  | unlocksTimer (before : x.point = .unlockTimer) :
      Moved x { x with timerLock := none, point := .work }
  | locksDetach (before : x.point = .lockDetach) (free : x.eventLock = none) :
      Moved x { x with eventLock := some .device, point := .setFsh }
  | setsFsh (before : x.point = .setFsh) :
      Moved x { x with id := ⟨x.id.done, true⟩, point := .signalDetach }
  | unlocksDetach (before : x.point = .unlockDetach) :
      Moved x { x with eventLock := none, point := .detached }
  | wakes (before : x.point = .asleep) : Moved x { x with point := .relockTimer }

inductive Stepped (s : TimerSync k) : TimerSync k → Prop
  | quits (before : s.point = .head) (stop : s.timerStop = true) :
      Stepped s { s with point := .exited }
  | begins (before : s.point = .head) :
      Stepped s { s with point := scanFrom 0 0 (Timer.devList k) }
  | locksEvent (pt : ScanPoint) (d : Fin k) (devs : List (Fin k)) (fsh event : ℕ)
      (before : s.point = .scan pt d devs fsh event) (first : pt = .lock ∨ pt = .relock)
      (free : (s.device d).eventLock = none) :
      Stepped s { s.setDevice d { s.device d with eventLock := some .timer } with
        point := .scan .test d devs fsh event }
  | sleeps (d : Fin k) (devs : List (Fin k)) (fsh event : ℕ)
      (before : s.point = .scan .test d devs fsh event)
      (flags : (s.device d).id.done = false ∧ (s.device d).id.fsh = false) :
      Stepped s { s.setDevice d { s.device d with eventLock := none } with
        point := .scan .asleep d devs fsh event }
  | passes (d : Fin k) (devs : List (Fin k)) (fsh event : ℕ)
      (before : s.point = .scan .test d devs fsh event) :
      Stepped s { s with point := .scan .count d devs fsh event }
  | counts (d : Fin k) (devs : List (Fin k)) (fsh event : ℕ)
      (before : s.point = .scan .count d devs fsh event) :
      Stepped s { s with
        point := .scan .unlock d devs (if (s.device d).id.fsh then fsh + 1 else fsh) (event + 1) }
  | unlocksEvent (d : Fin k) (devs : List (Fin k)) (fsh event : ℕ)
      (before : s.point = .scan .unlock d devs fsh event) :
      Stepped s { s.setDevice d { s.device d with eventLock := none } with
        point := scanFrom fsh event devs }
  | advances (fsh event : ℕ) (before : s.point = .advance fsh event) :
      Stepped s { s with
        point := releaseFrom fsh event (Timer.devList k), time := s.time + 1 }
  | locksTimer (d : Fin k) (devs : List (Fin k)) (fsh event : ℕ)
      (before : s.point = .release .lock d devs fsh event)
      (free : (s.device d).timerLock = none) :
      Stepped s { s.setDevice d { s.device d with timerLock := some .timer } with
        point := .release .clear d devs fsh event }
  | clears (d : Fin k) (devs : List (Fin k)) (fsh event : ℕ)
      (before : s.point = .release .clear d devs fsh event) :
      Stepped s { s.setDevice d { s.device d with id := ⟨false, (s.device d).id.fsh⟩ } with
        point := .release .signal d devs fsh event }
  | signals (d : Fin k) (devs : List (Fin k)) (fsh event : ℕ)
      (before : s.point = .release .signal d devs fsh event) :
      Stepped s { s.setDevice d { s.device d with point := signalTimer (s.device d).point } with
        point := .release .unlock d devs fsh event }
  | unlocksTimer (d : Fin k) (devs : List (Fin k)) (fsh event : ℕ)
      (before : s.point = .release .unlock d devs fsh event) :
      Stepped s { s.setDevice d { s.device d with timerLock := none } with
        point := releaseFrom fsh event devs }
  | exits (fsh event : ℕ) (before : s.point = .compare fsh event) (all : fsh = event) :
      Stepped s { s with point := .exited }
  | repeats (fsh event : ℕ) (before : s.point = .compare fsh event) :
      Stepped s { s with point := .head }
  | wakes (d : Fin k) (devs : List (Fin k)) (fsh event : ℕ)
      (before : s.point = .scan .asleep d devs fsh event) :
      Stepped s { s with point := .scan .relock d devs fsh event }
  | device (d : Fin k) {x : SyncDevice} (moved : Moved (s.device d) x) : Stepped s (s.setDevice d x)
  | deviceSignals (d : Fin k) (y : DevPoint)
      (before : (s.device d).point = .signalEvent ∧ y = .unlockEvent ∨
        (s.device d).point = .signalDetach ∧ y = .unlockDetach) :
      Stepped s { s.setDevice d { s.device d with point := y } with point := signalEvent d s.point }
  | stops (all : ∀ d, (s.device d).point = .detached) : Stepped s { s with timerStop := true }

theorem timerRoutine_cases (hn : s.timerRoutine = some s') : Stepped s s' := by
  cases hpt : s.point with
  | head =>
    simp only [timerRoutine, hpt] at hn
    obtain rfl := Option.some.inj hn
    split_ifs with hstop
    · exact .quits hpt hstop
    · exact .begins hpt
  | scan pt d devs fsh event =>
    cases pt with
    | lock | relock =>
      simp only [timerRoutine, hpt] at hn
      split_ifs at hn with hfree
      obtain rfl := Option.some.inj hn
      exact .locksEvent _ d devs fsh event hpt (by simp) hfree
    | test =>
      simp only [timerRoutine, hpt] at hn
      split_ifs at hn with hflags <;> obtain rfl := Option.some.inj hn
      · exact .sleeps d devs fsh event hpt (by simpa using hflags)
      · exact .passes d devs fsh event hpt
    | asleep =>
      simp only [timerRoutine, hpt] at hn
      cases hn
    | count =>
      simp only [timerRoutine, hpt] at hn
      obtain rfl := Option.some.inj hn
      exact .counts d devs fsh event hpt
    | unlock =>
      simp only [timerRoutine, hpt] at hn
      obtain rfl := Option.some.inj hn
      exact .unlocksEvent d devs fsh event hpt
  | advance fsh event =>
    simp only [timerRoutine, hpt] at hn
    obtain rfl := Option.some.inj hn
    exact .advances fsh event hpt
  | release pt d devs fsh event =>
    cases pt with
    | lock =>
      simp only [timerRoutine, hpt] at hn
      split_ifs at hn with hfree
      obtain rfl := Option.some.inj hn
      exact .locksTimer d devs fsh event hpt hfree
    | clear =>
      simp only [timerRoutine, hpt] at hn
      obtain rfl := Option.some.inj hn
      exact .clears d devs fsh event hpt
    | signal =>
      simp only [timerRoutine, hpt] at hn
      obtain rfl := Option.some.inj hn
      exact .signals d devs fsh event hpt
    | unlock =>
      simp only [timerRoutine, hpt] at hn
      obtain rfl := Option.some.inj hn
      exact .unlocksTimer d devs fsh event hpt
  | compare fsh event =>
    simp only [timerRoutine, hpt] at hn
    obtain rfl := Option.some.inj hn
    split_ifs with hall
    · exact .exits fsh event hpt hall
    · exact .repeats fsh event hpt
  | exited =>
    simp only [timerRoutine, hpt] at hn
    cases hn

theorem devStep_cases (hn : s.devStep d = some s') : Stepped s s' := by
  cases hpt : (s.device d).point with
  | work | asleep | detached =>
    simp only [devStep, hpt] at hn
    cases hn
  | lockEvent =>
    simp only [devStep, hpt] at hn
    split_ifs at hn with hfree
    obtain rfl := Option.some.inj hn
    exact .device d (.locksEvent hpt hfree)
  | lockDetach =>
    simp only [devStep, hpt] at hn
    split_ifs at hn with hfree
    obtain rfl := Option.some.inj hn
    exact .device d (.locksDetach hpt hfree)
  | lockTimer | relockTimer =>
    simp only [devStep, hpt] at hn
    split_ifs at hn with hfree
    obtain rfl := Option.some.inj hn
    exact .device d (.locksTimer (by simp [hpt]) hfree)
  | testDone =>
    simp only [devStep, hpt] at hn
    split_ifs at hn with hdone <;> obtain rfl := Option.some.inj hn
    · exact .device d (.sleeps hpt hdone)
    · exact .device d (.passes hpt)
  | signalEvent | signalDetach =>
    simp only [devStep, hpt] at hn
    obtain rfl := Option.some.inj hn
    exact .deviceSignals d _ (by simp [hpt])
  | setDone | unlockEvent | unlockTimer | setFsh | unlockDetach =>
    simp only [devStep, hpt] at hn
    obtain rfl := Option.some.inj hn
    refine .device d ?_
    constructor
    exact hpt

theorem step_cases {a : SyncAction k} (hn : Next s a s') : Stepped s s' := by
  have hcall : ∀ d x, x = .lockEvent ∨ x = .lockDetach → s.call d x = some s' → Stepped s s' := by
    intro d x hx hn
    simp only [call] at hn
    split_ifs at hn with hwork
    obtain rfl := Option.some.inj hn
    exact .device d (.calls x hwork hx)
  rw [Next] at hn
  cases a with
  | timer => exact timerRoutine_cases hn
  | device d => exact devStep_cases hn
  | nextSlot d => exact hcall d _ (Or.inl rfl) hn
  | detachEvent d => exact hcall d _ (Or.inr rfl) hn
  | stop =>
    simp only [step] at hn
    split_ifs at hn with hall
    obtain rfl := Option.some.inj hn
    exact .stops hall
  | wakeTimer =>
    simp only [step] at hn
    split at hn
    · next d devs fsh event hpt =>
      obtain rfl := Option.some.inj hn
      exact .wakes d devs fsh event hpt
    · cases hn
  | wakeDevice d =>
    simp only [step] at hn
    split_ifs at hn with hasleep
    obtain rfl := Option.some.inj hn
    exact .device d (.wakes hasleep)

theorem Agrees.moved {y : SyncDevice} (h : Agrees t d x) (hm : Moved x y) : Agrees t d y := by
  obtain ⟨h₁, h₂, h₃, h₄, h₅, h₆, h₇⟩ := h
  cases hm with
  | calls y before after =>
    rw [before] at h₁ h₃ h₅ h₆
    rcases after with rfl | rfl <;> exact ⟨h₁, h₂, h₃, h₄, h₅, h₆, fun hy => by cases hy⟩
  | locksEvent before free | locksDetach before free =>
    rw [before] at h₃ h₅ h₆
    rw [free] at h₂
    refine ⟨by simp [DevPoint.holdsEvent], ?_, h₃, h₄, h₅, h₆, fun hy => by cases hy⟩
    rw [← h₂]
    simp
  | setsDone before =>
    rw [before] at h₁ h₃ h₅
    exact ⟨h₁, h₂, h₃, h₄, h₅, fun _ => Or.inr rfl, fun hy => by cases hy⟩
  | setsFsh before =>
    rw [before] at h₁ h₃
    exact ⟨h₁, h₂, h₃, h₄, rfl, fun _ => Or.inr rfl, fun hy => by cases hy⟩
  | unlocksEvent before | unlocksDetach before =>
    rw [before] at h₁ h₃ h₅ h₆
    have hlock := h₁.mpr rfl
    rw [hlock] at h₂
    refine ⟨by simp [DevPoint.holdsEvent], ?_, h₃, h₄, h₅, h₆, fun hy => by cases hy⟩
    rw [← h₂]
    simp
  | locksTimer before free =>
    rw [free] at h₄
    refine ⟨?_, h₂, by simp [DevPoint.holdsTimer], ?_, ?_, ?_, fun hy => by cases hy⟩
    · rcases before with before | before <;> rw [before] at h₁ <;> exact h₁
    · rw [← h₄]
      simp
    · rcases before with before | before <;> rw [before] at h₅ <;> exact h₅
    · rcases before with before | before <;> rw [before] at h₆ <;> exact h₆
  | sleeps before done =>
    rw [before] at h₁ h₃ h₅ h₆
    have hlock := h₃.mpr rfl
    rw [hlock] at h₄
    refine ⟨h₁, h₂, by simp [DevPoint.holdsTimer], ?_, h₅, h₆, fun _ => Or.inl done⟩
    rw [← h₄]
    simp
  | passes before =>
    rw [before] at h₁ h₃ h₅ h₆
    exact ⟨h₁, h₂, h₃, h₄, h₅, h₆, fun hy => by cases hy⟩
  | unlocksTimer before =>
    rw [before] at h₁ h₃ h₅ h₆
    have hlock := h₃.mpr rfl
    rw [hlock] at h₄
    refine ⟨h₁, h₂, by simp [DevPoint.holdsTimer], ?_, h₅, h₆, fun hy => by cases hy⟩
    rw [← h₄]
    simp
  | wakes before =>
    rw [before] at h₁ h₃ h₅ h₆
    exact ⟨h₁, h₂, h₃, h₄, h₅, h₆, fun hy => by cases hy⟩

theorem Agrees.signals {y : DevPoint} (h : Agrees t d x)
    (hy : x.point = .signalEvent ∧ y = .unlockEvent ∨ x.point = .signalDetach ∧ y = .unlockDetach) :
    Agrees (signalEvent d t) d { x with point := y } := by
  obtain ⟨hevent, htimer⟩ := signalEvent_same d d t
  obtain ⟨h₁, h₂, h₃, h₄, h₅, _, _⟩ := h
  have hawake : ∀ {p : Prop}, (signalEvent d t).asleepOn d = true → p := by
    intro p hs
    rw [signalEvent_asleepOn] at hs
    cases hs
  rw [← hevent] at h₂
  rw [← htimer] at h₄
  rcases hy with ⟨before, rfl⟩ | ⟨before, rfl⟩ <;> rw [before] at h₁ h₃ h₅ <;>
    exact ⟨h₁, h₂, h₃, h₄, h₅, hawake, fun hy => by cases hy⟩

section Routine
variable {devs : List (Fin k)} {fsh event : ℕ}

theorem Agrees.locksEvent {pt : ScanPoint} (h : Agrees (.scan pt d devs fsh event) d x)
    (hpt : pt = .lock ∨ pt = .relock) (hfree : x.eventLock = none) :
    Agrees (.scan .test d devs fsh event) d { x with eventLock := some .timer } := by
  obtain ⟨h₁, _, h₃, h₄, h₅, _, h₇⟩ := h
  rw [hfree] at h₁
  have h₁' : x.point.holdsEvent ≠ true := fun hx => by cases h₁.mpr hx
  refine ⟨by simpa using h₁', by simp [SyncPoint.holdsEvent], h₃, ?_, h₅,
    (fun hs => by cases hs), ?_⟩
  · rcases hpt with rfl | rfl <;> exact h₄
  · rcases hpt with rfl | rfl <;> exact h₇

theorem Agrees.unlocksEvent (h : Agrees t d x) (ht : t.holdsEvent d = true)
    (ht' : t'.holdsEvent d = false) (htimer : t'.holdsTimer d = t.holdsTimer d)
    (hs : t'.asleepOn d = true → x.id.done = false ∧ x.id.fsh = false)
    (hsignals : t'.signals d = t.signals d) : Agrees t' d { x with eventLock := none } := by
  obtain ⟨h₁, h₂, h₃, h₄, h₅, _, h₇⟩ := h
  rw [h₂.mpr ht] at h₁
  have h₁' : x.point.holdsEvent ≠ true := fun hx => by cases h₁.mpr hx
  refine ⟨by simpa using h₁', by simp [ht'], h₃, by rw [htimer]; exact h₄, h₅,
    fun hs' => Or.inl (hs hs'), ?_⟩
  rw [hsignals]
  exact h₇

theorem Agrees.timer (h : Agrees t d x)
    (hevent : t'.holdsEvent d = t.holdsEvent d) (htimer : t'.holdsTimer d = t.holdsTimer d)
    (hs : t'.asleepOn d = false) (hsignals : t'.signals d = t.signals d) : Agrees t' d x := by
  obtain ⟨h₁, h₂, h₃, h₄, h₅, _, h₇⟩ := h
  refine ⟨h₁, by rw [hevent]; exact h₂, h₃, by rw [htimer]; exact h₄, h₅, fun hs' => ?_, ?_⟩
  · rw [hs] at hs'
    cases hs'
  · rw [hsignals]
    exact h₇

theorem Agrees.locksTimer (h : Agrees (.release .lock d devs fsh event) d x)
    (hfree : x.timerLock = none) :
    Agrees (.release .clear d devs fsh event) d { x with timerLock := some .timer } := by
  obtain ⟨h₁, h₂, h₃, _, h₅, _, h₇⟩ := h
  rw [hfree] at h₃
  have h₃' : x.point.holdsTimer ≠ true := fun hx => by cases h₃.mpr hx
  exact ⟨h₁, h₂, by simpa using h₃', by simp [SyncPoint.holdsTimer], h₅,
    (fun hs => by cases hs), h₇⟩

theorem Agrees.clears (h : Agrees (.release .clear d devs fsh event) d x) :
    Agrees (.release .signal d devs fsh event) d { x with id := ⟨false, x.id.fsh⟩ } := by
  obtain ⟨h₁, h₂, h₃, h₄, h₅, _, _⟩ := h
  exact ⟨h₁, h₂, h₃, h₄, h₅, (fun hs => by cases hs),
    fun _ => Or.inr (by simp [SyncPoint.signals])⟩

theorem Agrees.signalsTimer (h : Agrees (.release .signal d devs fsh event) d x) :
    Agrees (.release .unlock d devs fsh event) d { x with point := signalTimer x.point } := by
  obtain ⟨h₁, h₂, h₃, h₄, h₅, _, _⟩ := h
  refine ⟨by simpa using h₁, h₂, by simpa using h₃, h₄, by simpa using h₅,
    (fun hs => by cases hs), ?_⟩
  intro hx
  exact absurd hx (signalTimer_ne_asleep _)

theorem Agrees.unlocksTimer (h : Agrees (.release .unlock d devs fsh event) d x)
    (ht' : t'.Quiet d) : Agrees t' d { x with timerLock := none } := by
  obtain ⟨h₁, h₂, h₃, h₄, h₅, _, h₇⟩ := h
  rw [h₄.mpr (by simp [SyncPoint.holdsTimer])] at h₃
  have h₃' : x.point.holdsTimer ≠ true := fun hx => by cases h₃.mpr hx
  refine ⟨h₁, by rw [ht'.holdsEvent]; exact h₂, by simpa using h₃',
    by simp [ht'.holdsTimer], h₅, ?_, ?_⟩
  · rw [ht'.asleepOn]
    intro hs
    cases hs
  · rw [ht'.signals]
    exact h₇

end Routine

theorem agrees_at (h : ∀ e, Agrees s.point e (s.device e)) (ht : ∀ e, e ≠ d → s.point.Quiet e)
    (ht' : ∀ e, e ≠ d → t'.Quiet e) (own : Agrees t' d x) (e : Fin k) :
    Agrees t' e (Function.update s.device d x e) :=
  agrees_update own (fun e he => (h e).of_quiet (ht e he) (ht' e he)) e

theorem step_agrees (h : ∀ e, Agrees s.point e (s.device e)) (hn : Stepped s s') (e : Fin k) :
    Agrees s'.point e (s'.device e) := by
  have hscan : ∀ {pt d devs fsh event}, s.point = .scan pt d devs fsh event →
      ∀ e, e ≠ d → s.point.Quiet e := by
    intro pt d devs fsh event hpt e he
    rw [hpt]
    exact SyncPoint.quiet_scan he
  have hrelease : ∀ {pt d devs fsh event}, s.point = .release pt d devs fsh event →
      ∀ e, e ≠ d → s.point.Quiet e := by
    intro pt d devs fsh event hpt e he
    rw [hpt]
    exact SyncPoint.quiet_release he
  cases hn with
  | quits before stop =>
    exact (h e).of_quiet (by rw [before]; exact ⟨rfl, rfl, rfl, rfl⟩) ⟨rfl, rfl, rfl, rfl⟩
  | begins before =>
    exact (h e).of_quiet (by rw [before]; exact ⟨rfl, rfl, rfl, rfl⟩)
      (SyncPoint.quiet_scanFrom _ _ _ _)
  | locksEvent pt d devs fsh event before first free =>
    have hd := h d
    rw [before] at hd
    exact agrees_at h (hscan before) (fun _ => SyncPoint.quiet_scan) (hd.locksEvent first free) e
  | sleeps d devs fsh event before flags =>
    have hd := h d
    rw [before] at hd
    refine agrees_at h (hscan before) (fun _ => SyncPoint.quiet_scan) ?_ e
    exact hd.unlocksEvent (by simp [SyncPoint.holdsEvent]) rfl rfl (fun _ => flags) rfl
  | passes d devs fsh event before
  | counts d devs fsh event before
  | wakes d devs fsh event before =>
    have hd := h d
    rw [before] at hd
    by_cases he : e = d
    · rw [he]
      exact hd.timer rfl rfl rfl rfl
    · exact (h e).of_quiet (hscan before e he) (SyncPoint.quiet_scan he)
  | unlocksEvent d devs fsh event before =>
    have hd := h d
    rw [before] at hd
    have hquiet := SyncPoint.quiet_scanFrom fsh event devs
    refine agrees_at h (hscan before) (fun e _ => hquiet e) ?_ e
    refine hd.unlocksEvent (by simp [SyncPoint.holdsEvent]) (hquiet d).holdsEvent
      (hquiet d).holdsTimer (fun hs => ?_) (hquiet d).signals
    rw [(hquiet d).asleepOn] at hs
    cases hs
  | advances fsh event before =>
    exact (h e).of_quiet (by rw [before]; exact ⟨rfl, rfl, rfl, rfl⟩)
      (SyncPoint.quiet_releaseFrom _ _ _ _)
  | locksTimer d devs fsh event before free =>
    have hd := h d
    rw [before] at hd
    exact agrees_at h (hrelease before) (fun _ => SyncPoint.quiet_release) (hd.locksTimer free) e
  | clears d devs fsh event before =>
    have hd := h d
    rw [before] at hd
    exact agrees_at h (hrelease before) (fun _ => SyncPoint.quiet_release) hd.clears e
  | signals d devs fsh event before =>
    have hd := h d
    rw [before] at hd
    exact agrees_at h (hrelease before) (fun _ => SyncPoint.quiet_release) hd.signalsTimer e
  | unlocksTimer d devs fsh event before =>
    have hd := h d
    rw [before] at hd
    have hquiet := SyncPoint.quiet_releaseFrom fsh event devs
    exact agrees_at h (hrelease before) (fun e _ => hquiet e) (hd.unlocksTimer (hquiet d)) e
  | exits fsh event before all =>
    exact (h e).of_quiet (by rw [before]; exact ⟨rfl, rfl, rfl, rfl⟩) ⟨rfl, rfl, rfl, rfl⟩
  | repeats fsh event before =>
    exact (h e).of_quiet (by rw [before]; exact ⟨rfl, rfl, rfl, rfl⟩) ⟨rfl, rfl, rfl, rfl⟩
  | device d moved => exact agrees_update ((h d).moved moved) (fun e _ => h e) e
  | deviceSignals d y before =>
    exact agrees_update ((h d).signals before) (fun e he => signalEvent_other he _ (h e)) e
  | stops all => exact h e

/-- What equal counters mean for the devices that the timer has looked at. -/
def Counted (detached : Fin k → Prop) : SyncPoint k → Prop
  | .head => True
  | .scan .unlock _ devs fsh event =>
    fsh ≤ event ∧ (fsh = event → ∀ e, e ∉ devs → detached e)
  | .scan _ d devs fsh event =>
    fsh ≤ event ∧ (fsh = event → ∀ e, e ∉ d :: devs → detached e)
  | .advance fsh event | .release _ _ _ fsh event | .compare fsh event =>
    fsh = event → ∀ e, detached e
  | .exited => ∀ e, detached e

theorem Counted.mono {p q : Fin k → Prop} (h : Counted p t) (hpq : ∀ e, p e → q e) :
    Counted q t := by
  cases t with
  | head => trivial
  | scan pt d devs fsh event =>
    cases pt <;> exact ⟨h.1, fun he e hm => hpq e (h.2 he e hm)⟩
  | exited => exact fun e => hpq e (h e)
  | _ => exact fun he e => hpq e (h he e)

theorem counted_signalEvent {p : Fin k → Prop} (h : Counted p t) (d : Fin k) :
    Counted p (signalEvent d t) := by
  unfold signalEvent
  split
  · split_ifs <;> exact h
  · exact h

theorem counted_scanFrom {p : Fin k → Prop} {devs : List (Fin k)} {fsh event : ℕ}
    (hle : fsh ≤ event) (h : fsh = event → ∀ e, e ∉ devs → p e) :
    Counted p (scanFrom fsh event devs) := by
  cases devs with
  | nil => exact fun he e => h he e (by simp)
  | cons d devs => exact ⟨hle, h⟩

theorem counted_releaseFrom {p : Fin k → Prop} {fsh event : ℕ} (devs : List (Fin k))
    (h : fsh = event → ∀ e, p e) : Counted p (releaseFrom fsh event devs) := by
  cases devs <;> exact h

def Detached (s : TimerSync k) (d : Fin k) : Prop := (s.device d).point = .detached

theorem Agrees.detached (h : Agrees t d x) (ht : t.holdsEvent d = true) (hx : x.id.fsh = true) :
    x.point = .detached := by
  have hlock := h.event_timer.mpr ht
  have hfree : ¬ x.point.holdsEvent = true := by
    rw [← h.event_device, hlock]
    simp
  rw [h.fsh] at hx
  cases hp : x.point <;> rw [hp] at hx hfree <;> simp_all [DevPoint.finished, DevPoint.holdsEvent]

theorem step_counted (h : ∀ e, Agrees s.point e (s.device e))
    (hstop : s.timerStop = true → ∀ d, s.Detached d) (hc : Counted s.Detached s.point)
    (hn : Stepped s s') : Counted s.Detached s'.point := by
  cases hn with
  | quits before stop => exact hstop stop
  | begins before => exact counted_scanFrom le_rfl fun _ e he => absurd (by simp [Timer.devList]) he
  | locksEvent pt d devs fsh event before first free =>
    rw [before] at hc
    rcases first with rfl | rfl <;> exact hc
  | counts d devs fsh event before =>
    rw [before] at hc
    obtain ⟨hle, hall⟩ := hc
    rcases hf : (s.device d).id.fsh with _ | _
    · exact ⟨Nat.le_succ_of_le hle, fun he => absurd he (by simp; omega)⟩
    · have hd : s.Detached d := (h d).detached (by simp [before, SyncPoint.holdsEvent]) hf
      refine ⟨Nat.succ_le_succ hle, fun he e hm => ?_⟩
      by_cases hed : e = d
      · rw [hed]
        exact hd
      · exact hall (Nat.succ.inj he) e (by simp [hed, hm])
  | unlocksEvent d devs fsh event before =>
    rw [before] at hc
    exact counted_scanFrom hc.1 hc.2
  | advances fsh event before | unlocksTimer d devs fsh event before =>
    rw [before] at hc
    exact counted_releaseFrom _ hc
  | exits fsh event before all =>
    rw [before] at hc
    exact hc all
  | repeats fsh event before => trivial
  | device d moved => exact hc
  | deviceSignals d y before => exact counted_signalEvent hc d
  | stops all => exact hc
  | _ =>
    -- the other steps of the timer leave the counters and the list alone
    rw [‹s.point = _›] at hc
    exact hc

theorem setDevice_detached {y : SyncDevice} (hy : s.Detached d → y.point = .detached)
    (h : s.Detached e) : (Function.update s.device d y e).point = .detached := by
  by_cases he : e = d
  · subst he
    rw [Function.update_self]
    exact hy h
  · rw [Function.update_of_ne he]
    exact h

theorem Moved.not_detached {y : SyncDevice} (h : Moved x y) : x.point ≠ .detached := by
  intro hx
  cases h with
  | locksTimer before free =>
    rw [hx] at before
    simp at before
  | _ =>
    rw [‹x.point = _›] at hx
    cases hx

theorem step_detached (hn : Stepped s s') (h : s.Detached e) : s'.Detached e := by
  cases hn with
  | signals d devs fsh event before =>
    refine setDevice_detached (fun hd => ?_) h
    rw [Detached] at hd
    rw [hd]
    rfl
  | device d moved => exact setDevice_detached (fun hd => absurd hd moved.not_detached) h
  | deviceSignals d y before =>
    refine setDevice_detached (fun hd => ?_) h
    rw [Detached] at hd
    simp [hd] at before
  | locksEvent | sleeps | unlocksEvent | locksTimer | clears | unlocksTimer =>
    exact setDevice_detached id h
  | _ => exact h

theorem step_stopped (hn : Stepped s s') (h : s'.timerStop = true) :
    s.timerStop = true ∨ ∀ d, s.Detached d := by
  cases hn with
  | stops all => exact Or.inr all
  | _ => exact Or.inl h

structure Inv (s : TimerSync k) : Prop where
  agrees : ∀ d, Agrees s.point d (s.device d)
  counted : Counted s.Detached s.point
  stopped : s.timerStop = true → ∀ d, s.Detached d

theorem inv_start : (start k).Inv where
  agrees d := by constructor <;> simp [start, DevPoint.holdsEvent, DevPoint.holdsTimer,
    DevPoint.finished, SyncPoint.holdsEvent, SyncPoint.holdsTimer, SyncPoint.asleepOn]
  counted := trivial
  stopped h := by cases h

theorem Inv.step {a : SyncAction k} (h : s.Inv) (hn : Next s a s') : s'.Inv := by
  have hs := step_cases hn
  have hmono : ∀ e, s.Detached e → s'.Detached e := fun _ => step_detached hs
  refine ⟨step_agrees h.agrees hs, ?_, fun hstop e => ?_⟩
  · exact (step_counted h.agrees h.stopped h.counted hs).mono hmono
  · exact hmono e ((step_stopped hs hstop).elim (fun hold => h.stopped hold e) fun all => all e)

/-- Neither the timer nor a device inside a call can continue. -/
structure Stuck (s : TimerSync k) : Prop where
  timer : s.timerRoutine = none
  device : ∀ d, s.devStep d = none

theorem Stuck.eventLock (h : s.Stuck) (hs : s.Inv) (d : Fin k) : (s.device d).eventLock = none := by
  rcases hl : (s.device d).eventLock with _ | party
  · rfl
  · have hagrees := hs.agrees d
    cases party with
    | device =>
      have hholds := hagrees.event_device.mp hl
      have hdev := h.device d
      cases hpt : (s.device d).point <;> rw [hpt] at hholds <;> simp [DevPoint.holdsEvent] at hholds
      all_goals simp [devStep, hpt] at hdev
    | timer =>
      have hholds := hagrees.event_timer.mp hl
      have htimer := h.timer
      cases hpt : s.point with
      | scan pt e devs fsh event =>
        cases pt with
        | test =>
          simp only [timerRoutine, hpt] at htimer
          split_ifs at htimer
        | count | unlock => simp [timerRoutine, hpt] at htimer
        | lock | relock | asleep => simp [hpt, SyncPoint.holdsEvent] at hholds
      | _ => simp [hpt, SyncPoint.holdsEvent] at hholds

theorem Stuck.timerLock (h : s.Stuck) (hs : s.Inv) (d : Fin k) : (s.device d).timerLock = none := by
  rcases hl : (s.device d).timerLock with _ | party
  · rfl
  · have hagrees := hs.agrees d
    cases party with
    | device =>
      have hholds := hagrees.timer_device.mp hl
      have hdev := h.device d
      cases hpt : (s.device d).point <;> rw [hpt] at hholds <;> simp [DevPoint.holdsTimer] at hholds
      · simp only [devStep, hpt] at hdev
        split_ifs at hdev
      · simp [devStep, hpt] at hdev
    | timer =>
      have hholds := hagrees.timer_timer.mp hl
      have htimer := h.timer
      cases hpt : s.point with
      | release pt e devs fsh event =>
        cases pt with
        | clear | signal | unlock => simp [timerRoutine, hpt] at htimer
        | lock => simp [hpt, SyncPoint.holdsTimer] at hholds
      | _ => simp [hpt, SyncPoint.holdsTimer] at hholds

theorem Stuck.device_point (h : s.Stuck) (hs : s.Inv) (d : Fin k) :
    (s.device d).point = .work ∨ (s.device d).point = .asleep ∨ s.Detached d := by
  have hdev := h.device d
  have hevent := h.eventLock hs d
  have htimer := h.timerLock hs d
  cases hpt : (s.device d).point with
  | work => exact Or.inl rfl
  | asleep => exact Or.inr (Or.inl rfl)
  | detached => exact Or.inr (Or.inr hpt)
  | testDone =>
    simp only [devStep, hpt] at hdev
    split_ifs at hdev
  | _ => simp [devStep, hpt, hevent, htimer] at hdev

theorem Stuck.timer_point (h : s.Stuck) (hs : s.Inv) :
    s.point = .exited ∨ ∃ d devs fsh event, s.point = .scan .asleep d devs fsh event := by
  have hn := h.timer
  cases hpt : s.point with
  | exited => exact Or.inl rfl
  | scan pt d devs fsh event =>
    have hevent := h.eventLock hs d
    cases pt with
    | asleep => exact Or.inr ⟨d, devs, fsh, event, rfl⟩
    | test =>
      simp only [timerRoutine, hpt] at hn
      split_ifs at hn
    | _ => simp [timerRoutine, hpt, hevent] at hn
  | release pt d devs fsh event =>
    have htimer := h.timerLock hs d
    cases pt <;> simp [timerRoutine, hpt, htimer] at hn
  | _ => simp [timerRoutine, hpt] at hn

theorem Stuck.over (h : s.Stuck) (hs : s.Inv) (hwork : ∀ d, (s.device d).point ≠ .work) :
    (∀ d, s.Detached d) ∧ s.point = .exited := by
  rcases h.timer_point hs with hpt | ⟨d, devs, fsh, event, hpt⟩
  · have hcounted := hs.counted
    rw [hpt] at hcounted
    exact ⟨hcounted, hpt⟩
  · -- the device that the timer sleeps on
    have hagrees := hs.agrees d
    have hflags := hagrees.asleepOn (by simp [hpt, SyncPoint.asleepOn])
    rcases h.device_point hs d with hd | hd | hd
    · exact absurd hd (hwork d)
    · rcases hagrees.asleep hd with hdone | hsignal
      · simp [hd, hdone, DevPoint.signalling] at hflags
      · simp [hpt, SyncPoint.signals] at hsignal
    · have hfsh := hagrees.fsh
      rw [Detached] at hd
      simp [hd, DevPoint.finished] at hfsh
      simp [hd, hfsh, DevPoint.signalling] at hflags

theorem run_no_deadlock {as : List (SyncAction k)} (h : Run Next (start k) as s) :
    ((∃ d, (s.device d).point ≠ .detached) ∨ s.point ≠ .exited →
      (∃ d, (s.device d).point = .work) ∨ s.timerRoutine ≠ none ∨ ∃ d, s.devStep d ≠ none) ∧
    (s.point = .exited → ∀ d, (s.device d).point = .detached) := by
  have hs : s.Inv := h.invariant Inv inv_start fun _ _ _ hs hn => hs.step hn
  constructor
  · intro hgoing
    by_contra hnone
    simp only [not_or, not_exists, not_not] at hnone
    obtain ⟨hwork, htimer, hdev⟩ := hnone
    obtain ⟨hall, hexit⟩ := Stuck.over ⟨htimer, hdev⟩ hs hwork
    rcases hgoing with ⟨d, hd⟩ | hpt
    · exact hd (hall d)
    · exact hpt hexit
  · intro hpt
    have hcounted := hs.counted
    rw [hpt] at hcounted
    exact hcounted

/-- The timer sleeps on the only device, which has begun `next_slot`. -/
theorem run_no_deadlock_asleep :
    ∃ as s, Run Next (start 1) as s ∧ s.point = .scan .asleep 0 [] 0 0 ∧
      (s.device 0).point = .lockEvent ∧
      ((∃ d, (s.device d).point = .work) ∨ s.timerRoutine ≠ none ∨ ∃ d, s.devStep d ≠ none) := by
  have hplay : ([.nextSlot 0, .timer, .timer, .timer].foldr
      (fun a t => t.bind fun s => step s a) (some (start 1))).map (fun s =>
        (s.point, (s.device 0).point)) = some (.scan .asleep 0 [] 0 0, .lockEvent) := by
    decide +kernel
  obtain ⟨s, hs, hcheck⟩ := Option.map_eq_some_iff.mp hplay
  obtain ⟨hpt, hdev⟩ := Prod.mk.inj hcheck
  have hrun : Run Next (start 1) _ s := Run.of_foldr hs
  refine ⟨_, s, hrun, hpt, hdev, (run_no_deadlock hrun).1 (Or.inl ⟨0, ?_⟩)⟩
  rw [hdev]
  simp

end TimerSync
end OSsim
