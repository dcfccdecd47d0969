import OSsim.KillByName
import OSsim.WorkDone

/-!
# What a killed process still does

`cpu_routine` tests `killed` at the top of its loop only. A process that is marked behind
the test, or on its way back to a ready queue, is handed to `run` once more; behind that
call every path leads through the test.
-/

open scoped BigOperators
namespace OSsim

/-- The process that the CPU can still hand to `run` or to `put_proc` before it tests
`killed` again. -/
def Point.ahead {n : ℕ} : Point n → Option (Fin n)
  | testEnd p => some p
  | put p => some p
  | recheck proc => proc
  | run p => some p
  | _ => none

namespace System
variable {n m : ℕ} {cfg : Config n} {s s' t : System n m} {c : Fin m} {p : Fin n}

/-- The process whose call of `run` a step begins. -/
def begins (s : System n m) : Action m → Option (Fin n)
  | .cpu c _ =>
    match (s.cpu c).point with
    | .run p => some p
    | _ => none
  | _ => none

def NextBegins (cfg : Config n) (s : System n m) (x : Action m × Option (Fin n))
    (s' : System n m) : Prop :=
  x.2 = s.begins x.1 ∧ Next cfg s x.1 s'

/-- How many calls of `run` process `p` can still get without a test of `killed`. -/
def credit (s : System n m) (p : Fin n) : ℕ :=
  s.sched.ready p + ∑ c, (s.cpu c).point.ahead.toList.count p

theorem ahead_le_owns (x : Point n) (p : Fin n) : x.ahead.toList.count p ≤ x.owns p := by
  cases x <;> simp [Point.ahead, Point.owns, Point.owner]

theorem credit_le_one (hs : s.Custody) (p : Fin n) : s.credit p ≤ 1 := by
  have hplaces := hs.places_le_one p
  have hahead : ∑ c, (s.cpu c).point.ahead.toList.count p ≤ s.owners p :=
    Finset.sum_le_sum fun c _ => ahead_le_owns _ p
  rw [places] at hplaces
  rw [credit]
  omega

@[simp] theorem goto_sched (s : System n m) (c : Fin m) (x : Point n) :
    (s.goto c x).sched = s.sched := rfl

@[simp] theorem setCpu_sched (s : System n m) (c : Fin m) (x : Cpu n) :
    (s.setCpu c x).sched = s.sched := rfl

theorem cpuStep_ahead {name : List Char} (h : s.cpuStep cfg c name = some s')
    (hkilled : (s.proc p).killed = true) :
    s'.sched.ready p + (s'.cpu c).point.ahead.toList.count p +
        (s.begins (.cpu c name)).toList.count p ≤
      s.sched.ready p + (s.cpu c).point.ahead.toList.count p := by
  have hget := s.sched.ready_getProc p
  cases cpuStep_cases h with
  | findsNone before queue =>
    rw [queue] at hget
    simpa [begins, before, Point.ahead] using hget.le
  | findsFirst q before queue =>
    rw [queue] at hget
    simpa [begins, before, queue, Point.ahead] using hget.le
  | spares q before alive =>
    -- a marked process does not get past this test
    have hq : q ≠ p := by
      intro heq
      subst heq
      rw [hkilled] at alive
      cases alive
    simp [begins, before, Point.ahead, hq]
  | puts q before =>
    have hput := s.sched.ready_putProc_le (s.proc q).prio q p
    simpa [begins, before, Point.ahead] using hput
  | getsAfterFree before => simpa [begins, before, Point.ahead] using hget.le
  | getsAfterPut before => simpa [begins, before, Point.ahead] using hget.le
  | kills q target before =>
    have hkill := (s.sched.killProcByName_counts cfg.path (fun r => (s.proc r).prio) target q p).1
    simp only [begins, before, goto_point_self, goto_sched, Point.ahead, Option.toList_none,
      List.count_nil, System.killProcByName]
    omega
  | _ =>
    -- the steps that leave the ready queues alone
    simp [begins, ‹(s.cpu c).point = _›, Point.ahead, setProc]

theorem cpuStep_killed {name : List Char} (h : s.cpuStep cfg c name = some s') (p : Fin n) :
    (s'.proc p).killed = (s.proc p).killed ∨
      ((s'.proc p).killed = true ∧ p ∈ s.sched.runningList.proc) := by
  cases cpuStep_cases h with
  | kills q target before =>
    by_cases hp : p ∈ (s.killProcByName cfg target q).killed
    · right
      refine ⟨by simp [hp], ?_⟩
      rw [System.killProcByName, Sched.killProcByName_killed] at hp
      exact List.mem_of_mem_filter hp
    · left
      simp [hp]
  | advances q k ins before =>
    left
    by_cases hq : p = q
    · subst hq
      simp [setProc]
    · simp [setProc, Function.update_of_ne hq]
  | _ =>
    left
    rfl

def MarkedArrived (s : System n m) : Prop := ∀ p, (s.proc p).killed = true → s.arrived p = 1

theorem MarkedArrived.step {a : Action m} (hm : s.MarkedArrived) (hs : s.Custody)
    (h : Next cfg s a s') : s'.MarkedArrived := by
  intro p hp
  cases a with
  | tick =>
    obtain rfl := Option.some.inj h
    exact hm p hp
  | cpu c name =>
    change s.cpuStep cfg c name = some s' at h
    rw [arrived_congr (cpuStep_moved h).loader_eq]
    rcases cpuStep_killed h p with he | ⟨_, hlist⟩
    · exact hm p (he ▸ hp)
    · have hle := hs.listed_le p
      have hone := s.arrived_le_one p
      have hpos : 0 < s.sched.listed p := List.count_pos_iff.mpr hlist
      omega
  | loader =>
    cases ldStep_loaded h with
    | loads i prio loader next same =>
      have hpi : p ≠ i := by
        intro heq
        subst heq
        simp at hp
      simp only [Function.update_of_ne hpi] at hp
      have := hm p hp
      simpa only [arrived, same] using this
    | waits loader done last same =>
      have := hm p hp
      simpa only [arrived, same] using this
    | adds i slots before =>
      have hold : (s.proc p).killed = true := by
        by_cases hpi : p = i
        · subst hpi
          simpa using hp
        · simpa only [Function.update_of_ne hpi] using hp
      have hone := hm p hold
      apply le_antisymm (arrived_le_one _ p)
      rw [arrived_add s _ before ?_ p]
      · omega
      · rfl

theorem MarkedArrived.run {as : List (Action m)} (h : Run (Next cfg) (start n m) as s) :
    s.Custody ∧ s.MarkedArrived := by
  refine h.invariant (fun s => s.Custody ∧ s.MarkedArrived) ⟨custody_start, ?_⟩ ?_
  · intro p hp
    cases hp
  · intro s a s' hs hn
    exact ⟨hs.1.step hn, hs.2.step hs.1 hn⟩

theorem credit_le_of_eq (hsched : s'.sched = s.sched) (hcpu : s'.cpu = s.cpu) (p : Fin n) :
    s'.credit p + 0 ≤ s.credit p := by
  rw [credit, credit, hsched, hcpu, Nat.add_zero]

theorem credit_step {a : Action m} (hm : s.MarkedArrived) (hkilled : (s.proc p).killed = true)
    (h : Next cfg s a s') : (s'.proc p).killed = true ∧
      s'.credit p + (s.begins a).toList.count p ≤ s.credit p := by
  cases a with
  | tick =>
    obtain rfl := Option.some.inj h
    exact ⟨hkilled, credit_le_of_eq rfl rfl p⟩
  | cpu c name =>
    change s.cpuStep cfg c name = some s' at h
    constructor
    · rcases cpuStep_killed h p with he | ⟨htrue, _⟩
      · exact he.trans hkilled
      · exact htrue
    · obtain ⟨x, hb⟩ := (cpuStep_moved h).balanced p
      have hstep := cpuStep_ahead h hkilled
      have hsum := sum_point_update (fun y => y.ahead.toList.count p) s c x
      rw [← hb.cpu] at hsum
      rw [hb.cpu, Function.update_self] at hstep
      rw [credit, credit]
      omega
  | loader =>
    have harr := hm p hkilled
    cases ldStep_loaded h with
    | loads i prio loader next same =>
      have hpi : p ≠ i := by
        intro heq
        subst heq
        have := arrived_next next
        omega
      refine ⟨by simpa only [Function.update_of_ne hpi] using hkilled, ?_⟩
      exact credit_le_of_eq rfl rfl p
    | waits loader done last same => exact ⟨hkilled, credit_le_of_eq rfl rfl p⟩
    | adds i slots before =>
      have hpi : p ≠ i := by
        intro heq
        subst heq
        have := arrived_next (s := s) (p := p) (by rw [before]; rfl)
        omega
      have hadd := s.sched.ready_addProc_le (s.proc i).prio i p
      rw [List.count_eq_zero.mpr (by simpa using hpi)] at hadd
      refine ⟨by simpa only [Function.update_of_ne hpi] using hkilled, ?_⟩
      simp only [credit, begins, Option.toList_none, List.count_nil]
      omega

theorem credit_run {as : List (Action m × Option (Fin n))} (hs : s.Custody)
    (hm : s.MarkedArrived) (hkilled : (s.proc p).killed = true)
    (h : Run (NextBegins cfg) s as t) : t.Custody ∧ t.MarkedArrived ∧ (t.proc p).killed = true ∧
      t.credit p + as.countP (·.2 = some p) ≤ s.credit p := by
  induction h with
  | nil => exact ⟨hs, hm, hkilled, credit_le_of_eq rfl rfl p⟩
  | @snoc as t t' a hr hn ih =>
    obtain ⟨ht, hmt, hk, hle⟩ := ih
    obtain ⟨hbegins, hnext⟩ := hn
    obtain ⟨hk', hstep⟩ := credit_step hmt hk hnext
    refine ⟨ht.step hnext, hmt.step ht hnext, hk', ?_⟩
    rw [← hbegins] at hstep
    rcases hb : a.2 with _ | q
    · rw [List.countP_cons_of_neg (by simp [hb])]
      omega
    · rw [hb] at hstep
      by_cases hq : q = p
      · subst hq
        rw [List.countP_cons_of_pos (by simp [hb])]
        simp only [Option.toList_some, List.count_singleton_self] at hstep
        omega
      · rw [List.countP_cons_of_neg (by simp [hb, hq])]
        omega

/-- From a reachable state in which `p` is marked, whatever happens. -/
theorem run_killed_runs_once (cfg : Config n) {before : List (Action m)}
    (hs : Run (Next cfg) (start n m) before s) (hkilled : (s.proc p).killed = true)
    {as : List (Action m × Option (Fin n))} (h : Run (NextBegins cfg) s as t) :
    as.countP (·.2 = some p) ≤ 1 := by
  obtain ⟨hcust, hmarked⟩ := MarkedArrived.run hs
  obtain ⟨_, _, _, hle⟩ := credit_run hcust hmarked hkilled h
  have hone := credit_le_one hcust p
  omega

def playBegins (cfg : Config n) (s : System n m) (as : List (Action m × Option (Fin n))) :
    Option (System n m) :=
  as.foldr (fun x t => t.bind fun t => if x.2 = t.begins x.1 then t.step cfg x.1 else none) (some s)

theorem run_of_playBegins {as : List (Action m × Option (Fin n))}
    (h : s.playBegins cfg as = some t) : Run (NextBegins cfg) s as t := by
  refine (Run.of_foldr h).mono fun u x u' hstep => ?_
  rw [ite_eq_iff] at hstep
  rcases hstep with hstep | ⟨_, hstep⟩
  · exact hstep
  · cases hstep

/-- The mark lands on the second process between the test and `put_proc` of the second
CPU; then the first CPU dispatches it. -/
theorem run_killed_runs_once_moved :
    ∃ (before : List (Action 2)) (s t : System 2 2) (as : List (Action 2 × Option (Fin 2))),
      Run (Next killer) (start 2 2) before s ∧ (s.proc 1).killed = true ∧
      (s.cpu 1).point = .put 1 ∧ Run (NextBegins killer) s as t ∧
      0 < as.countP (·.2 = some 1) ∧ as.countP (·.2 = some 1) ≤ 1 := by
  have hplay : ((start 2 2).play killer (List.replicate 4 (.cpu 0 ['b']) ++
      List.replicate 9 (.cpu 1 []) ++ List.replicate 2 (.cpu 0 []) ++
      List.replicate 7 .loader)).bind (fun s => (s.playBegins killer
        ((.cpu 0 [], some 1) :: List.replicate 9 (.cpu 0 [], none) ++ [(.cpu 1 [], none)])).map
        fun _ => ((s.proc 1).killed, (s.cpu 1).point)) = some (true, .put 1) := by
    decide +kernel
  obtain ⟨s, hs, hplay'⟩ := Option.bind_eq_some_iff.mp hplay
  obtain ⟨t, ht, hcheck⟩ := Option.map_eq_some_iff.mp hplay'
  obtain ⟨hkilled, hput⟩ := Prod.mk.inj hcheck
  have hrun := run_of_playBegins ht
  exact ⟨_, s, t, _, run_of_play hs, hkilled, hput, hrun, by decide,
    run_killed_runs_once killer (run_of_play hs) hkilled hrun⟩

end System
end OSsim
