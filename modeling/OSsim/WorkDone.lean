import OSsim.NothingLost
import OSsim.Stopping

/-!
# All CPUs stopped

A CPU stops only behind a `get_proc` that found every queue empty, and whoever puts a
process back loads again before it can stop. So a waiting process keeps some CPU busy,
except between an `add_proc` and the end of the loader's time slot. The loader sets
`done` one slot later: no CPU stops on the strength of a load that missed the last
process.
-/

open scoped BigOperators
namespace OSsim.System
variable {n m : ℕ} {cfg : Config n} {s s' : System n m} {c d : Fin m} {as : List (Action m)}

/-- The CPU will load again before it can stop. -/
def Busy (x : Point n) : Prop := x ≠ .stopped ∧ x ≠ .recheck none

def NextInStep (cfg : Config n) (s : System n m) (a : Action m) (s' : System n m) : Prop :=
  s.InStep a ∧ Next cfg s a s'

structure Attended (s : System n m) : Prop where
  finished : s.Finished
  stopped_done : ∀ c, (s.cpu c).point = .stopped → s.done = true
  in_time : s.loader.point ≠ .stopped →
    s.time ≤ s.loader.slots + if s.loader.inNextSlot then 1 else 0
  busy : (∃ i, (s.sched.mlqReadyQueue i).proc ≠ []) →
    (∃ c, Busy (s.cpu c).point) ∨ ∃ i, s.loader.point = .addSlot i ∧ s.time ≤ s.loader.slots

theorem attended_start : (start n m).Attended where
  finished h := by cases h
  stopped_done c h := by cases h
  in_time _ := Nat.zero_le _
  busy h := absurd rfl h.choose_spec

theorem getProc_leaves_empty (q : Sched (Fin n)) (h : q.getProc.1 = none) (i : Fin maxPrio) :
    (q.getProc.2.mlqReadyQueue i).proc = [] := by
  apply List.eq_nil_of_subset_nil
  rw [← Sched.getProc_eq_none h i]
  exact q.getProc_within.level i

theorem getProc_empty_of_not_busy {x : Point n} (hx : x = .recheck s.sched.getProc.1)
    (hb : ¬ Busy x) (i : Fin maxPrio) : (s.sched.getProc.2.mlqReadyQueue i).proc = [] := by
  rcases hg : s.sched.getProc.1 with _ | p
  · exact getProc_leaves_empty _ hg i
  · exact absurd (by simp [Busy, hx, hg]) hb

theorem cpuStep_not_busy {name : List Char} (h : s.cpuStep cfg c name = some s')
    (hb : ¬ Busy (s'.cpu c).point) :
    (∀ i, (s'.sched.mlqReadyQueue i).proc = []) ∨
      (¬ Busy (s.cpu c).point ∧ s'.sched = s.sched) := by
  cases cpuStep_cases h with
  | getsAfterFree before => exact Or.inl (getProc_empty_of_not_busy (by simp) hb)
  | getsAfterPut before => exact Or.inl (getProc_empty_of_not_busy (by simp) hb)
  | stops before done => exact Or.inr ⟨by simp [Busy, before], rfl⟩
  | _ => exact absurd (by simp [Busy]) hb

theorem stops_done {name : List Char} (h : s.cpuStep cfg c name = some s')
    (hc : (s'.cpu c).point = .stopped) : s.done = true := by
  cases cpuStep_cases h with
  | stops before done => exact done
  | _ => simp at hc

theorem Attended.cpuStep (hs : s.Attended) {name : List Char}
    (h : s.cpuStep cfg c name = some s') : s'.Attended := by
  have hm := cpuStep_moved h
  have htime : s'.time = s.time := by cases hm <;> rfl
  refine ⟨hs.finished.step (a := .cpu c name) h, fun d hd => ?_, ?_, fun hne => ?_⟩
  · rw [hm.done_eq]
    by_cases hdc : d = c
    · subst hdc
      exact stops_done h hd
    · rw [hm.cpu_of_ne hdc] at hd
      exact hs.stopped_done d hd
  · rw [hm.loader_eq, htime]
    exact hs.in_time
  · by_cases hb : Busy (s'.cpu c).point
    · exact Or.inl ⟨c, hb⟩
    · rcases cpuStep_not_busy h hb with hempty | ⟨hbusy, hsched⟩
      · exact absurd (hempty _) hne.choose_spec
      · rw [hm.loader_eq, htime]
        rw [hsched] at hne
        refine (hs.busy hne).imp_left fun hex => ?_
        obtain ⟨d, hd⟩ := hex
        have hdc : d ≠ c := by
          intro heq
          subst heq
          exact hbusy hd
        exact ⟨d, by rw [hm.cpu_of_ne hdc]; exact hd⟩

theorem ldStep_slots (h : s.ldStep cfg = some s') : s'.time = s.time ∧
    s'.loader.slots = s.loader.slots + if s.loader.inNextSlot then 1 else 0 := by
  rcases hl : s.loader with ⟨x, slots⟩
  have hpt : s.loader.point = x := by rw [hl]
  have hslots : s.loader.slots = slots := by rw [hl]
  cases x with
  | load i =>
    by_cases hi : i < n
    · simp only [ldStep, hpt, dif_pos hi, Option.some.injEq] at h
      subst h
      exact ⟨rfl, hslots⟩
    · simp only [ldStep, hpt, dif_neg hi, Option.some.injEq] at h
      subst h
      exact ⟨rfl, hslots⟩
  | wait i =>
    simp only [ldStep, hpt, Option.some.injEq] at h
    subst h
    exact ⟨rfl, hslots⟩
  | waitSlot i =>
    simp only [ldStep, hpt, Option.some.injEq] at h
    subst h
    exact ⟨rfl, congrArg (· + 1) hslots⟩
  | add i =>
    simp only [ldStep, hpt, Option.some.injEq] at h
    subst h
    exact ⟨rfl, hslots⟩
  | addSlot i =>
    simp only [ldStep, hpt, Option.some.injEq] at h
    subst h
    exact ⟨rfl, congrArg (· + 1) hslots⟩
  | finish =>
    simp only [ldStep, hpt, Option.some.injEq] at h
    subst h
    exact ⟨rfl, hslots⟩
  | stopped =>
    simp only [ldStep, hpt] at h
    cases h

theorem Attended.ldStep (hs : s.Attended) (hin : s.InStep .loader) (h : s.ldStep cfg = some s') :
    s'.Attended := by
  obtain ⟨htime, hslots⟩ := ldStep_slots h
  have hcpu : s'.cpu = s.cpu := by cases ldStep_loaded h <;> rfl
  have hgoing : s.loader.point ≠ .stopped := by
    intro hpt
    simp only [System.ldStep, hpt] at h
    cases h
  have hold := hs.in_time hgoing
  rw [← hslots, ← htime] at hold
  have hbusy : s'.sched = s.sched → (∃ i, (s'.sched.mlqReadyQueue i).proc ≠ []) →
      (∃ c, Busy (s'.cpu c).point) ∨
        ∃ i, s'.loader.point = .addSlot i ∧ s'.time ≤ s'.loader.slots := by
    intro hsched hne
    rw [hsched] at hne
    left
    rcases hs.busy hne with hex | ⟨i, hpt, hle⟩
    · rw [hcpu]
      exact hex
    · -- `next_slot` has not returned yet
      have := hin (by rw [Loader.inNextSlot, hpt])
      omega
  refine ⟨hs.finished.step (a := .loader) h, fun c hc => ?_, fun _ => by omega, ?_⟩
  · rw [hcpu] at hc
    exact absurd (hs.finished (hs.stopped_done c hc)) hgoing
  · cases ldStep_loaded h with
    | loads i prio loader next same => exact hbusy rfl
    | waits loader done last same => exact hbusy rfl
    | adds i slots before =>
      intro _
      exact Or.inr ⟨i, rfl, hold⟩

theorem Attended.tick (hs : s.Attended) (hm : 0 < m) (hin : s.InStep .tick) :
    { s with time := s.time + 1 }.Attended := by
  obtain ⟨hcpus, hloader⟩ := hin
  refine ⟨hs.finished, hs.stopped_done, fun hgoing => ?_, fun hne => Or.inl ?_⟩
  · obtain ⟨hslot, hle⟩ := hloader.resolve_left hgoing
    dsimp only
    rw [if_pos hslot]
    omega
  · rcases hs.busy hne with hex | ⟨i, hpt, _⟩
    · exact hex
    · -- the loader is still at work, so every CPU waits in `next_slot`
      rcases hcpus ⟨0, hm⟩ with hc | ⟨hc, _⟩
      · have := hs.finished (hs.stopped_done _ hc)
        rw [hpt] at this
        cases this
      · refine ⟨⟨0, hm⟩, ?_⟩
        rw [Cpu.inNextSlot] at hc
        split at hc
        · next hx => simp [Busy, hx]
        · cases hc

theorem Attended.step (hs : s.Attended) (hm : 0 < m) {a : Action m} (h : NextInStep cfg s a s') :
    s'.Attended := by
  obtain ⟨hin, hn⟩ := h
  cases a with
  | loader => exact hs.ldStep hin hn
  | cpu c name => exact hs.cpuStep hn
  | tick =>
    obtain rfl := Option.some.inj hn
    exact hs.tick hm hin

structure WellRun (s : System n m) : Prop where
  custody : s.Custody
  placed : s.Placed
  kept : s.Kept
  attended : s.Attended

theorem WellRun.run (hn : n ≤ maxQueueSize) (hm : 0 < m)
    (h : Run (NextInStep cfg) (start n m) as s) : s.WellRun := by
  apply h.invariant WellRun ⟨custody_start, placed_start, kept_start, attended_start⟩
  intro s a s' hs hstep
  exact ⟨hs.custody.step hstep.2, hs.placed.step hs.custody hstep.2,
    (hs.kept.step_iff hs.custody hs.placed hstep.2).mpr (not_overflows hn s a),
    hs.attended.step hm hstep⟩

/-- The loader has added every process, nothing waits and nothing is listed, and every
process has ended and has been released once. -/
structure AllDone (s : System n m) : Prop where
  loaded : s.loader.point = .stopped
  empty : s.sched.queueEmpty = true
  unlisted : s.sched.runningList.proc = []
  ended : ∀ p, s.ended p = 1
  released : ∀ p, s.released p = 1

theorem WellRun.levels_empty (hs : s.WellRun) (hstop : ∀ c, (s.cpu c).point = .stopped)
    (hload : s.loader.point = .stopped) (i : Fin maxPrio) :
    (s.sched.mlqReadyQueue i).proc = [] := by
  by_contra hne
  rcases hs.attended.busy ⟨i, hne⟩ with ⟨c, hc⟩ | ⟨j, hpt, _⟩
  · exact hc.1 (hstop c)
  · rw [hload] at hpt
    cases hpt

theorem sum_point_stopped (f : Point n → ℕ) (hf : f .stopped = 0)
    (hstop : ∀ c, (s.cpu c).point = .stopped) : ∑ c, f (s.cpu c).point = 0 :=
  Finset.sum_eq_zero fun c _ => by rw [hstop c, hf]

theorem WellRun.allDone (hs : s.WellRun) (hm : 0 < m) (hstop : ∀ c, (s.cpu c).point = .stopped) :
    s.AllDone := by
  have hload := hs.attended.finished (hs.attended.stopped_done ⟨0, hm⟩ (hstop _))
  have hempty := hs.levels_empty hstop hload
  have howners : ∀ p, s.owners p = 0 := fun p => sum_point_stopped (Point.owns p) rfl hstop
  have hreap : ∀ p, s.toReap p = 0 := fun p => sum_point_stopped (Point.reaps p) rfl hstop
  have hfree : ∀ p, s.toFree p = 0 := fun p => sum_point_stopped (Point.frees p) rfl hstop
  have harr : ∀ p, s.arrived p = 1 := by
    intro p
    rw [arrived_eq_one, hload]
    exact p.isLt
  have hended : ∀ p, s.ended p = 1 := by
    intro p
    have hle := hs.custody.listed_le p
    rw [harr p] at hle
    by_contra hne
    have hplace := (hs.kept p (harr p) (by omega)).2
    rw [hs.placed.ready_eq, howners p] at hplace
    simp only [hempty, List.count_nil, Finset.sum_const_zero] at hplace
    omega
  refine ⟨hload, ?_, ?_, hended, fun p => ?_⟩
  · exact (queueEmpty_iff _).mpr ⟨hempty, hs.placed.ready_nil, hs.placed.run_nil⟩
  · rw [List.eq_nil_iff_forall_not_mem]
    intro p hp
    have hle := hs.custody.listed_le p
    have hpos : 0 < s.sched.listed p := List.count_pos_iff.mpr hp
    rw [harr p, hended p] at hle
    omega
  · have := hs.custody.ended_eq p
    rw [hended p, hreap p, hfree p] at this
    omega

theorem run_all_stopped (cfg : Config n) (hn : n ≤ maxQueueSize) (hm : 0 < m)
    (h : Run (NextInStep cfg) (start n m) as s) (hstop : ∀ c, (s.cpu c).point = .stopped) :
    s.AllDone :=
  (WellRun.run hn hm h).allDone hm hstop

def killer : Config 2 where
  timeSlot := 1
  timeSlot_pos := Int.zero_lt_one
  startTime _ := 0
  prio _ := 0
  path p := if p.val = 0 then ['/', 'a'] else ['/', 'b']
  text p := if p.val = 0 then [⟨.SYSCALL, 101⟩] else [⟨.CALC, 0⟩, ⟨.CALC, 0⟩]

def killerScript : List (Action 2) :=
  let first : Fin 2 := ⟨0, Nat.zero_lt_two⟩
  let second : Fin 2 := ⟨1, Nat.one_lt_two⟩
  List.flatten [List.replicate 6 (.cpu second []), List.replicate 7 (.cpu first []),
    List.replicate 3 .loader, [.tick], List.replicate 7 (.cpu first ['b']),
    List.replicate 7 (.cpu second []), List.replicate 2 (.cpu first []),
    List.replicate 4 .loader, [.tick], List.replicate 3 .loader,
    [.cpu second [], .cpu first []]]

theorem run_all_stopped_killer :
    ∃ s, Run (NextInStep killer) (start 2 2) killerScript s ∧ (s.proc 1).killed = true ∧
      (∀ c, (s.cpu c).point = .stopped) ∧ s.AllDone := by
  have hplay : ((start 2 2).playInStep killer killerScript).map (fun s =>
      ((s.proc 1).killed, decide (∀ c, (s.cpu c).point = .stopped))) = some (true, true) := by
    decide +kernel
  obtain ⟨s, hs, hcheck⟩ := Option.map_eq_some_iff.mp hplay
  obtain ⟨hkilled, hstop⟩ := Prod.mk.inj hcheck
  have hstop' := of_decide_eq_true hstop
  exact ⟨s, run_of_playInStep hs, hkilled, hstop',
    run_all_stopped killer (by decide) (by decide) (run_of_playInStep hs) hstop'⟩

end OSsim.System
