import OSsim.Timer

/-!
# Time slots are a barrier

A device that the timer has seen in the current slot keeps its `done` until the timer
clears it. Until then it sleeps in `next_slot`, so between the increment of `_time` and
the end of the releases every device is either still to be released or already counts
the new slot.
-/

namespace OSsim
variable {k : ℕ}

namespace TimerPoint

def devs : TimerPoint k → List (Fin k)
  | wait devs _ _ => devs
  | release devs _ _ => devs
  | _ => []

/-- The timer has found `d` done or detached in this slot and has not cleared its flag. -/
def Passed (d : Fin k) : TimerPoint k → Prop
  | head => False
  | wait devs _ _ => d ∉ devs
  | advance _ _ => True
  | release devs _ _ => d ∈ devs
  | exited => False

def pending (d : Fin k) : TimerPoint k → ℕ
  | release devs _ _ => if devs.contains d then 1 else 0
  | _ => 0

theorem pending_le_one (p : TimerPoint k) (d : Fin k) : p.pending d ≤ 1 := by
  cases p with
  | release devs fsh event =>
    rw [pending]
    split_ifs <;> omega
  | _ => exact Nat.zero_le 1

theorem pending_of_not_passed {p : TimerPoint k} {d : Fin k} (h : ¬ p.Passed d) :
    p.pending d = 0 := by
  cases p with
  | release devs fsh event => exact if_neg (mt List.contains_iff_mem.mp h)
  | _ => rfl

end TimerPoint

namespace Device

def inside (x : Device) : ℕ := if x.inNextSlot then 1 else 0

theorem inside_le_one (x : Device) : x.inside ≤ 1 := by
  rw [inside]
  split_ifs <;> omega

def waking (x : Device) : ℕ := if x.inNextSlot && !x.id.done then 1 else 0

end Device

namespace Timer
variable {s s' : Timer k} {d e : Fin k}

structure InTime (p : TimerPoint k) (time : ℕ) (d : Fin k) (x : Device) : Prop where
  paired : x.calls = x.returns + x.inside
  asleep : x.id.done = true → x.inNextSlot = true
  passed : p.Passed d → x.id.done = true
  clock : x.returns + x.waking + p.pending d = time

structure Synced (s : Timer k) : Prop where
  nodup : s.point.devs.Nodup
  inTime : ∀ d, (s.device d).id.fsh = false → InTime s.point s.time d (s.device d)

theorem mem_devList (d : Fin k) : d ∈ devList k := by simp [devList]

theorem nodup_devList (k : ℕ) : (devList k).Nodup := List.nodup_reverse.mpr (List.nodup_finRange k)

theorem synced_start : (start k).Synced where
  nodup := List.nodup_nil
  inTime _ _ := ⟨rfl, nofun, nofun, rfl⟩

theorem InTime.move {p q : TimerPoint k} {time : ℕ} {x : Device} (h : InTime p time d x)
    (hpassed : q.Passed d → x.id.done = true) (hpending : q.pending d = p.pending d) :
    InTime q time d x :=
  ⟨h.paired, h.asleep, hpassed, by rw [hpending]; exact h.clock⟩

theorem Synced.timerRoutine (hs : s.Synced) (h : s.timerRoutine = some s') : s'.Synced := by
  have hnodup := hs.nodup
  have hin := hs.inTime
  rcases hp : s.point with _ | ⟨_ | ⟨d, devs⟩, fsh, event⟩ | ⟨fsh, event⟩ |
    ⟨_ | ⟨d, devs⟩, fsh, event⟩ | _
  all_goals
    simp only [Timer.timerRoutine, hp, Option.some.injEq] at h
    rw [hp] at hnodup hin
  · subst h
    rcases s.timerStop with _ | _
    · exact ⟨nodup_devList k, fun e he =>
        (hin e he).move (fun hne => absurd (mem_devList e) hne) rfl⟩
    · exact ⟨List.nodup_nil, fun e he => (hin e he).move False.elim rfl⟩
  · subst h
    exact ⟨List.nodup_nil, fun e he =>
      (hin e he).move (fun _ => (hin e he).passed List.not_mem_nil) rfl⟩
  · by_cases hdone : ((s.device d).id.done || (s.device d).id.fsh) = true
    · rw [if_pos hdone] at h
      obtain rfl := Option.some.inj h
      refine ⟨(List.nodup_cons.mp hnodup).2, fun e he => (hin e he).move (fun hnot => ?_) rfl⟩
      by_cases hed : e = d
      · subst hed
        change (s.device e).id.fsh = false at he
        rwa [he, Bool.or_false] at hdone
      · exact (hin e he).passed (fun hmem => (List.mem_cons.mp hmem).elim hed hnot)
    · rw [if_neg hdone] at h
      cases h
  · -- the clock advances, and every device becomes pending
    subst h
    refine ⟨nodup_devList k, fun e he => ⟨(hin e he).paired, (hin e he).asleep,
      fun _ => (hin e he).passed trivial, ?_⟩⟩
    have hclock := (hin e he).clock
    simp only [TimerPoint.pending, List.contains_iff_mem, if_pos (mem_devList e)] at hclock ⊢
    omega
  · subst h
    by_cases hfsh : fsh = event
    · rw [if_pos hfsh]
      exact ⟨List.nodup_nil, fun e he => (hin e he).move False.elim rfl⟩
    · rw [if_neg hfsh]
      exact ⟨List.nodup_nil, fun e he => (hin e he).move False.elim rfl⟩
  · subst h
    obtain ⟨hd, hdevs⟩ := List.nodup_cons.mp hnodup
    refine ⟨hdevs, fun e he => ?_⟩
    by_cases hed : e = d
    · -- the device that is released was asleep
      subst hed
      simp only [setDevice, Function.update_self] at he ⊢
      have hx := hin e he
      have hdone := hx.passed List.mem_cons_self
      have hslot := hx.asleep hdone
      have hclock := hx.clock
      refine ⟨hx.paired, nofun, fun hpass => absurd hpass hd, ?_⟩
      simp only [Device.waking, hdone, hslot, TimerPoint.pending, List.contains_iff_mem,
        List.mem_cons_self, if_neg hd] at hclock ⊢
      exact hclock
    · simp only [setDevice, Function.update_of_ne hed] at he ⊢
      apply (hin e he).move
      · exact fun hpass => (hin e he).passed (List.mem_cons_of_mem d hpass)
      · simp only [TimerPoint.pending, List.contains_iff_mem, List.mem_cons, hed, false_or]
  · cases h

theorem Synced.setDevice (hs : s.Synced) {x : Device}
    (hx : x.id.fsh = false → InTime s.point s.time d x) : (s.setDevice d x).Synced := by
  refine ⟨hs.nodup, fun e he => ?_⟩
  by_cases hed : e = d
  · subst hed
    simp only [Timer.setDevice, Function.update_self] at he ⊢
    exact hx he
  · simp only [Timer.setDevice, Function.update_of_ne hed] at he ⊢
    exact hs.inTime e he

theorem Synced.announce (hs : s.Synced) (h : s.announce d = some s') : s'.Synced := by
  unfold Timer.announce at h
  split_ifs at h with hslot
  obtain rfl := Option.some.inj h
  apply hs.setDevice
  intro hfsh
  have hx := hs.inTime d hfsh
  have hpaired := hx.paired
  have hclock := hx.clock
  refine ⟨?_, fun _ => rfl, fun _ => rfl, ?_⟩
  · simp only [Device.inside, if_neg hslot] at hpaired
    exact congrArg (· + 1) hpaired
  · simpa [Device.waking, hslot] using hclock

theorem Synced.resume (hs : s.Synced) (h : s.resume d = some s') : s'.Synced := by
  unfold Timer.resume at h
  split_ifs at h with hcond
  obtain rfl := Option.some.inj h
  rw [Bool.and_eq_true, Bool.not_eq_true'] at hcond
  obtain ⟨hslot, hdone⟩ := hcond
  apply hs.setDevice
  intro hfsh
  have hx := hs.inTime d hfsh
  have hpaired := hx.paired
  have hclock := hx.clock
  simp only [Device.inside, Device.waking, hslot, hdone] at hpaired hclock
  refine ⟨hpaired, fun hd => ?_, hx.passed, ?_⟩
  · rw [hdone] at hd
    cases hd
  · simpa [Device.waking] using hclock

theorem Synced.detachEvent (hs : s.Synced) (d : Fin k) : (s.detachEvent d).Synced :=
  hs.setDevice nofun

theorem Synced.step {a : TimerAction k} (hs : s.Synced) (h : Next s a s') : s'.Synced := by
  cases a with
  | timer => exact hs.timerRoutine h
  | announce d => exact hs.announce h
  | resume d => exact hs.resume h
  | detach d =>
    obtain rfl := Option.some.inj h
    exact hs.detachEvent d
  | stop =>
    obtain rfl := Option.some.inj h
    exact ⟨hs.nodup, hs.inTime⟩

theorem Synced.run {as : List (TimerAction k)} (h : Run Next (start k) as s) : s.Synced :=
  h.invariant Synced synced_start fun _ _ _ hs hn => hs.step hn

/-- `current_time` lies between what a device has completed and what it has announced. -/
structure InSlot (time : ℕ) (x : Device) : Prop where
  returns_le : x.returns ≤ x.calls
  calls_le : x.calls ≤ x.returns + 1
  returns_le_time : x.returns ≤ time
  time_le : time ≤ x.calls
  working : x.inNextSlot = false → x.returns = time

theorem InTime.waking_add_pending_le {p : TimerPoint k} {time : ℕ} {x : Device}
    (h : InTime p time d x) : x.waking + p.pending d ≤ x.inside := by
  rcases hdone : x.id.done with _ | _
  · have hp : ¬ p.Passed d := by
      intro hp
      rw [h.passed hp] at hdone
      cases hdone
    rw [TimerPoint.pending_of_not_passed hp, Device.waking, hdone, Bool.not_false, Bool.and_true]
    rfl
  · have hpending := p.pending_le_one d
    rw [Device.waking, Device.inside, h.asleep hdone, hdone]
    simpa using hpending

theorem InTime.inSlot {p : TimerPoint k} {time : ℕ} {x : Device} (h : InTime p time d x) :
    InSlot time x := by
  have hpaired := h.paired
  have hclock := h.clock
  have hle := h.waking_add_pending_le
  have hone := x.inside_le_one
  refine ⟨by omega, by omega, by omega, by omega, fun hslot => ?_⟩
  have hzero : x.inside = 0 := by simp [Device.inside, hslot]
  omega

theorem InSlot.calls_le_add_one {time : ℕ} {x y : Device} (hx : InSlot time x)
    (hy : InSlot time y) : x.calls ≤ y.calls + 1 := by
  have h₁ := hx.calls_le
  have h₂ := hx.returns_le_time
  have h₃ := hy.time_le
  omega

theorem run_slots {as : List (TimerAction k)} (h : Run Next (start k) as s) :
    (∀ d, (s.device d).id.fsh = false → InSlot s.currentTime (s.device d)) ∧
      ∀ d e, (s.device d).id.fsh = false → (s.device e).id.fsh = false →
        (s.device d).returns ≤ (s.device e).calls ∧
          (s.device d).calls ≤ (s.device e).calls + 1 := by
  have hs := Synced.run h
  have hslot : ∀ d, (s.device d).id.fsh = false → InSlot s.currentTime (s.device d) :=
    fun d hd => (hs.inTime d hd).inSlot
  refine ⟨hslot, fun d e hd he => ⟨?_, (hslot d hd).calls_le_add_one (hslot e he)⟩⟩
  exact (hslot d hd).returns_le_time.trans (hslot e he).time_le

/-- Device 1 is released first and announces its second slot before device 0 has woken up. -/
def earlyBird : List (TimerAction 2) :=
  let early : Fin 2 := ⟨1, Nat.one_lt_two⟩
  [.announce early, .resume early, .timer, .timer, .timer, .timer, .timer, .announce early, .timer,
    .announce ⟨0, Nat.zero_lt_two⟩]

theorem run_slots_early : ∃ s, Run Next (start 2) earlyBird s ∧
    (s.device 1).calls = 2 ∧ (s.device 0).returns = 0 ∧
    (s.device 0).returns ≤ (s.device 1).calls ∧ (s.device 1).calls ≤ (s.device 0).calls + 1 := by
  have hplay :
      (earlyBird.foldr (fun a t => t.bind fun s => s.step a) (some (start 2))).map (fun s =>
      ((s.device 1).calls, (s.device 0).returns, (s.device 0).id.fsh, (s.device 1).id.fsh)) =
      some (2, 0, false, false) := by decide
  obtain ⟨s, hs, hcheck⟩ := Option.map_eq_some_iff.mp hplay
  simp only [Prod.mk.injEq] at hcheck
  obtain ⟨hcalls, hreturns, hfsh₀, hfsh₁⟩ := hcheck
  have hrun : Run Next (start 2) earlyBird s := Run.of_foldr hs
  exact ⟨s, hrun, hcalls, hreturns, ((run_slots hrun).2 0 1 hfsh₀ hfsh₁).1,
    ((run_slots hrun).2 1 0 hfsh₁ hfsh₀).2⟩

theorem Synced.advance (hs : s.Synced) {fsh event : ℕ} (hp : s.point = .advance fsh event)
    (hd : (s.device d).id.fsh = false) :
    (s.device d).inNextSlot = true ∧ s.currentTime ≤ (s.device d).returns := by
  have hx := hs.inTime d hd
  have hdone := hx.passed (by rw [hp]; trivial)
  have hclock := hx.clock
  rw [hp] at hclock
  simp only [Device.waking, hdone, TimerPoint.pending, Bool.not_true, Bool.and_false] at hclock
  exact ⟨hx.asleep hdone, hclock.ge⟩

theorem Synced.resume_later (hs : s.Synced) (h : s.resume d = some s')
    (hd : (s.device d).id.fsh = false) : (s.device d).returns < s.currentTime := by
  unfold Timer.resume at h
  split_ifs at h with hcond
  have hclock := (hs.inTime d hd).clock
  rw [Device.waking, if_pos hcond] at hclock
  rw [currentTime]
  omega

/-- The clock advances only while every attached device waits in `next_slot` for this very
tick, and `next_slot` returns only after it. -/
theorem run_keeps_barrier {as : List (TimerAction k)} (h : Run Next (start k) as s) :
    (∀ fsh event, s.point = .advance fsh event → ∀ d, (s.device d).id.fsh = false →
      (s.device d).inNextSlot = true ∧ s.currentTime ≤ (s.device d).returns) ∧
      ∀ d s', Next s (.resume d) s' → (s.device d).id.fsh = false →
        (s.device d).returns < s.currentTime :=
  ⟨fun _ _ hp _ hd => (Synced.run h).advance hp hd,
    fun _ _ hn hd => (Synced.run h).resume_later hn hd⟩

end Timer
end OSsim
