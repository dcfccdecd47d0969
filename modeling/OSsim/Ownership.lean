import OSsim.Custody

/-!
# Exclusive ownership

No process is held twice, a released process is out of everybody's reach, and the
instructions of a process run in program order, each at most once.
-/

open scoped BigOperators
namespace OSsim.System
variable {n m : ℕ} {cfg : Config n} {s s' : System n m} {c : Fin m} {p : Fin n}

/-- The processes whose `pcb_t` a step reads or writes. `kill_proc_by_name` looks at the
path of every entry of `running_list`. -/
def derefs (s : System n m) : Action m → List (Fin n)
  | .tick => []
  | .loader =>
    match s.loader.point with
    | .load i => if h : i < n then [⟨i, h⟩] else []
    | .add i => [i]
    | _ => []
  | .cpu c _ =>
    match (s.cpu c).point with
    | .kill p _ => p :: s.sched.runningList.proc
    | .freeVictims p vs => p :: vs.take 1
    | x => x.owner.toList

/-- One step of CPU `c`, up to what it does outside of `run`. -/
inductive Ran (cfg : Config n) (s : System n m) (c : Fin m) : System n m → Prop
  | outside {s' : System n m} (x : Cpu n)
      (cpu : s'.cpu = Function.update s.cpu c x)
      (pc : ∀ q, (s'.proc q).pc = (s.proc q).pc)
      (executed : s'.executed = s.executed)
      (before : (s.cpu c).point.midway = false) (after : x.point.midway = false) :
      Ran cfg s c s'
  | fetches (p : Fin n) (ins : Inst) (before : (s.cpu c).point = .run p)
      (inst : (cfg.text p)[(s.proc p).pc]? = some ins) :
      Ran cfg s c (s.goto c (.fetched p (s.proc p).pc ins))
  | advances (p : Fin n) (k : ℕ) (ins : Inst) (before : (s.cpu c).point = .fetched p k ins) :
      Ran cfg s c
        ((s.setProc p { s.proc p with pc := (s.proc p).pc + 1 }).goto c (.execute p k ins))
  | executes (p : Fin n) (k : ℕ) (ins : Inst) (x : Point n)
      (before : (s.cpu c).point = .execute p k ins) (after : x.midway = false) :
      Ran cfg s c ({ s with
        executed := Function.update s.executed p (s.executed p ++ [k]) }.goto c x)

theorem Ran.stays {s' : System n m} {x : Cpu n} {y : Point n} (before : (s.cpu c).point = y)
    (cpu : s'.cpu = Function.update s.cpu c x) (pc : ∀ q, (s'.proc q).pc = (s.proc q).pc)
    (executed : s'.executed = s.executed) (hy : y.midway = false) (hx : x.point.midway = false) :
    Ran cfg s c s' := by
  subst before
  exact .outside x cpu pc executed hy hx

theorem cpuStep_ran {name : List Char} (h : s.cpuStep cfg c name = some s') : Ran cfg s c s' := by
  cases cpuStep_cases h with
  | fetches p ins before inst => exact .fetches p ins before inst
  | advances p k ins before => exact .advances p k ins before
  | executes p k ins before plain => exact .executes p k ins _ before rfl
  | entersKill p k ins before killall => exact .executes p k ins _ before rfl
  | _ =>
    -- the steps outside of `run`
    exact .stays ‹_› rfl (fun _ => rfl) rfl rfl rfl

structure InOrder (cfg : Config n) (s : System n m) : Prop where
  pc_le : ∀ p, (s.proc p).pc ≤ (cfg.text p).length
  fetched : ∀ c p k ins, (s.cpu c).point = .fetched p k ins →
    (s.proc p).pc = k ∧ (cfg.text p)[k]? = some ins
  execute : ∀ c p k ins, (s.cpu c).point = .execute p k ins →
    (s.proc p).pc = k + 1 ∧ s.executed p = List.range k
  settled : ∀ p, (∀ c k ins, (s.cpu c).point ≠ .execute p k ins) →
    s.executed p = List.range (s.proc p).pc
  fresh : ∀ p, s.arrived p = 0 → s.executed p = []

theorem inOrder_start : (start n m).InOrder cfg where
  pc_le _ := Nat.zero_le _
  fetched _ _ _ _ h := by cases h
  execute _ _ _ _ h := by cases h
  settled _ _ := rfl
  fresh _ _ := rfl

theorem Custody.not_execute (hs : s.Custody) (hc : (s.cpu c).point.owner = some p)
    (hne : ∀ k ins, (s.cpu c).point ≠ .execute p k ins) (d : Fin m) (k : ℕ) (ins : Inst) :
    (s.cpu d).point ≠ .execute p k ins := by
  intro hd
  have hdc : c = d := hs.owner_unique hc (by rw [hd]; rfl)
  subst hdc
  exact hne k ins hd

namespace InOrder

theorem outside (ho : s.InOrder cfg) (harr : ∀ p, s'.arrived p = s.arrived p) {x : Cpu n}
    (cpu : s'.cpu = Function.update s.cpu c x) (pc : ∀ q, (s'.proc q).pc = (s.proc q).pc)
    (executed : s'.executed = s.executed) (before : (s.cpu c).point.midway = false)
    (after : x.point.midway = false) : s'.InOrder cfg := by
  have hpoint : ∀ d y, y.midway = true → ((s'.cpu d).point = y ↔ (s.cpu d).point = y) := by
    intro d y hy
    rw [cpu]
    by_cases hdc : d = c
    · subst hdc
      rw [Function.update_self]
      constructor
      · intro heq
        subst heq
        rw [hy] at after
        cases after
      · intro heq
        subst heq
        rw [hy] at before
        cases before
    · rw [Function.update_of_ne hdc]
  refine ⟨fun p => ?_, fun d p k ins hd => ?_, fun d p k ins hd => ?_, fun p hp => ?_,
    fun p hp => ?_⟩
  · rw [pc]
    exact ho.pc_le p
  · rw [pc]
    exact ho.fetched d p k ins ((hpoint d _ rfl).mp hd)
  · rw [pc, executed]
    exact ho.execute d p k ins ((hpoint d _ rfl).mp hd)
  · rw [pc, executed]
    exact ho.settled p fun d k ins hd => hp d k ins ((hpoint d _ rfl).mpr hd)
  · rw [executed]
    exact ho.fresh p (by rw [← harr]; exact hp)

theorem fetches (ho : s.InOrder cfg) {ins : Inst} (before : (s.cpu c).point = .run p)
    (inst : (cfg.text p)[(s.proc p).pc]? = some ins) :
    (s.goto c (.fetched p (s.proc p).pc ins)).InOrder cfg := by
  refine ⟨ho.pc_le, fun d q k ins' hd => ?_, fun d q k ins' hd => ?_, fun q hq => ?_, ho.fresh⟩
  · rcases point_of_goto hd with ⟨_, hx⟩ | ⟨_, hd⟩
    · cases hx
      exact ⟨rfl, inst⟩
    · exact ho.fetched d q k ins' hd
  · rcases point_of_goto hd with ⟨_, hx⟩ | ⟨_, hd⟩
    · cases hx
    · exact ho.execute d q k ins' hd
  · refine ho.settled q fun d k ins' hd => ?_
    have hdc : d ≠ c := cpu_ne_of_point hd before (by simp)
    exact hq d k ins' (by rw [goto_cpu_of_ne _ hdc]; exact hd)

theorem advances (ho : s.InOrder cfg) (hs : s.Custody) {k : ℕ} {ins : Inst}
    (before : (s.cpu c).point = .fetched p k ins) :
    ((s.setProc p { s.proc p with pc := (s.proc p).pc + 1 }).goto c
      (.execute p k ins)).InOrder cfg := by
  obtain ⟨hpc, hins⟩ := ho.fetched c p k ins before
  have hown : (s.cpu c).point.owner = some p := by rw [before]; rfl
  have hself : (s.setProc p { s.proc p with pc := (s.proc p).pc + 1 }).proc p =
      { s.proc p with pc := (s.proc p).pc + 1 } := Function.update_self _ _ _
  have hother : ∀ q, q ≠ p → (s.setProc p { s.proc p with pc := (s.proc p).pc + 1 }).proc q =
      s.proc q := fun q hq => Function.update_of_ne hq _ _
  refine ⟨fun q => ?_, fun d q k' ins' hd => ?_, fun d q k' ins' hd => ?_, fun q hq => ?_, ho.fresh⟩
  · rw [goto_proc]
    by_cases hq : q = p
    · subst hq
      have hlt := (List.getElem?_eq_some_iff.mp hins).1
      rw [hself]
      dsimp only
      omega
    · rw [hother q hq]
      exact ho.pc_le q
  · rcases point_of_goto hd with ⟨_, hx⟩ | ⟨hdc, hd⟩
    · cases hx
    · have hd' : (s.cpu d).point = .fetched q k' ins' := hd
      rw [goto_proc, hother q (hs.owner_ne hdc hown (by rw [hd']; rfl))]
      exact ho.fetched d q k' ins' hd
  · rcases point_of_goto hd with ⟨_, hx⟩ | ⟨hdc, hd⟩
    · cases hx
      have hset := ho.settled p (hs.not_execute hown (by rw [before]; intro _ _ h; cases h))
      rw [goto_proc, hself, ← hpc]
      exact ⟨rfl, hset⟩
    · have hd' : (s.cpu d).point = .execute q k' ins' := hd
      rw [goto_proc, hother q (hs.owner_ne hdc hown (by rw [hd']; rfl))]
      exact ho.execute d q k' ins' hd
  · have hqp : q ≠ p := by
      intro heq
      subst heq
      exact hq c k ins (goto_point_self _ _ _)
    rw [goto_proc, hother q hqp]
    refine ho.settled q fun d k' ins' hd => ?_
    have hdc : d ≠ c := cpu_ne_of_point hd before (by simp)
    exact hq d k' ins' (by rw [goto_cpu_of_ne _ hdc]; exact hd)

theorem executes (ho : s.InOrder cfg) (hs : s.Custody) {k : ℕ} {ins : Inst} {x : Point n}
    (before : (s.cpu c).point = .execute p k ins) (after : x.midway = false) :
    ({ s with executed := Function.update s.executed p (s.executed p ++ [k]) }.goto c
      x).InOrder cfg := by
  obtain ⟨hpc, hex⟩ := ho.execute c p k ins before
  have hown : (s.cpu c).point.owner = some p := by rw [before]; rfl
  refine ⟨ho.pc_le, fun d q k' ins' hd => ?_, fun d q k' ins' hd => ?_, fun q hq => ?_,
    fun q hq => ?_⟩
  · rcases point_of_goto hd with ⟨_, hx⟩ | ⟨_, hd⟩
    · rw [hx] at after
      cases after
    · exact ho.fetched d q k' ins' hd
  · rcases point_of_goto hd with ⟨_, hx⟩ | ⟨hdc, hd⟩
    · rw [hx] at after
      cases after
    · have hd' : (s.cpu d).point = .execute q k' ins' := hd
      simp only [goto_executed, goto_proc]
      rw [Function.update_of_ne (hs.owner_ne hdc hown (by rw [hd']; rfl))]
      exact ho.execute d q k' ins' hd
  · simp only [goto_executed, goto_proc]
    by_cases hqp : q = p
    · subst hqp
      rw [Function.update_self, hex, hpc, List.range_succ]
    · rw [Function.update_of_ne hqp]
      refine ho.settled q fun d k' ins' hd => ?_
      have hdc : d ≠ c := cpu_ne_of_point hd before (by simp [hqp])
      exact hq d k' ins' (by rw [goto_cpu_of_ne _ hdc]; exact hd)
  · have hqp : q ≠ p := by
      intro heq
      subst heq
      have harr := hs.arrived_of_owner hown
      change s.arrived q = 0 at hq
      omega
    simp only [goto_executed]
    rw [Function.update_of_ne hqp]
    exact ho.fresh q hq

theorem cpuStep (ho : s.InOrder cfg) (hs : s.Custody) {name : List Char}
    (h : s.cpuStep cfg c name = some s') : s'.InOrder cfg := by
  have harr := arrived_congr (cpuStep_moved h).loader_eq
  cases cpuStep_ran h with
  | outside x cpu pc executed before after => exact ho.outside harr cpu pc executed before after
  | fetches p ins before inst => exact ho.fetches before inst
  | advances p k ins before => exact ho.advances hs before
  | executes p k ins x before after => exact ho.executes hs before after

theorem ldStep (ho : s.InOrder cfg) (hs : s.Custody) (h : s.ldStep cfg = some s') :
    s'.InOrder cfg := by
  cases ldStep_loaded h with
  | loads i prio loader next same =>
    have hzero := arrived_next next
    have hne : ∀ d q, (s.cpu d).point.owner = some q → q ≠ i := by
      intro d q hd heq
      subst heq
      have := hs.arrived_of_owner hd
      omega
    refine ⟨fun q => ?_, fun d q k ins hd => ?_, fun d q k ins hd => ?_, fun q hq => ?_,
      fun q hq => ho.fresh q (by simpa only [arrived, same] using hq)⟩
    · by_cases hqi : q = i
      · subst hqi
        simp only [Function.update_self, Nat.zero_le]
      · simp only [Function.update_of_ne hqi]
        exact ho.pc_le q
    · simp only [Function.update_of_ne (hne d q (by rw [show (s.cpu d).point = _ from hd]; rfl))]
      exact ho.fetched d q k ins hd
    · simp only [Function.update_of_ne (hne d q (by rw [show (s.cpu d).point = _ from hd]; rfl))]
      exact ho.execute d q k ins hd
    · by_cases hqi : q = i
      · subst hqi
        simp only [Function.update_self, List.range_zero]
        exact ho.fresh q hzero
      · simp only [Function.update_of_ne hqi]
        exact ho.settled q hq
  | waits loader done _ same =>
    exact ⟨ho.pc_le, ho.fetched, ho.execute, ho.settled,
      fun q hq => ho.fresh q (by simpa only [arrived, same] using hq)⟩
  | adds i slots before =>
    have hpc : ∀ q, (Function.update s.proc i
        { s.proc i with prio := Sched.clampPrio (s.proc i).prio } q).pc = (s.proc q).pc := by
      intro q
      by_cases hqi : q = i
      · subst hqi
        rw [Function.update_self]
      · rw [Function.update_of_ne hqi]
    refine ⟨fun q => ?_, fun d q k ins hd => ?_, fun d q k ins hd => ?_, fun q hq => ?_,
      fun q hq => ho.fresh q ?_⟩
    · rw [hpc]
      exact ho.pc_le q
    · rw [hpc]
      exact ho.fetched d q k ins hd
    · rw [hpc]
      exact ho.execute d q k ins hd
    · rw [hpc]
      exact ho.settled q hq
    · have := (arrived_add s _ before (by rfl) q).symm.trans hq
      omega

theorem step (ho : s.InOrder cfg) (hs : s.Custody) {a : Action m} (h : Next cfg s a s') :
    s'.InOrder cfg := by
  cases a with
  | loader => exact ho.ldStep hs h
  | cpu c name => exact ho.cpuStep hs h
  | tick =>
    obtain rfl := Option.some.inj h
    exact ⟨ho.pc_le, ho.fetched, ho.execute, ho.settled, ho.fresh⟩

theorem run {as : List (Action m)} (h : Run (Next cfg) (start n m) as s) : s.InOrder cfg :=
  (h.invariant (fun s => s.Custody ∧ s.InOrder cfg) ⟨custody_start, inOrder_start⟩
    fun _ _ _ hs hn => ⟨hs.1.step hn, hs.2.step hs.1 hn⟩).2

end InOrder

theorem Custody.not_released_of_deref (hs : s.Custody) {a : Action m} (hp : p ∈ s.derefs a) :
    s.released p = 0 := by
  cases a with
  | tick => cases hp
  | loader =>
    have hzero : s.arrived p = 0 := by
      simp only [derefs] at hp
      split at hp
      · next i hpt =>
        split_ifs at hp with hi
        · rw [List.mem_singleton] at hp
          subst hp
          exact arrived_next (by rw [hpt]; rfl)
        · cases hp
      · next i hpt =>
        rw [List.mem_singleton] at hp
        subst hp
        exact arrived_next (by rw [hpt]; rfl)
      · cases hp
    have h := hs.places_le p
    rw [places] at h
    omega
  | cpu c name =>
    simp only [derefs] at hp
    split at hp
    · next q _ hpt =>
      rcases List.mem_cons.mp hp with rfl | hp
      · exact hs.not_released_of_owner (c := c) (by rw [hpt]; rfl)
      · exact hs.not_released_of_listed hp
    · next q vs hpt =>
      rcases List.mem_cons.mp hp with rfl | hp
      · exact hs.not_released_of_owner (c := c) (by rw [hpt]; rfl)
      · exact hs.not_released_of_victim (c := c) (by rw [hpt]; exact List.mem_of_mem_take hp)
    · rw [Option.mem_toList] at hp
      exact hs.not_released_of_owner (c := c) hp

theorem InOrder.executed_range (ho : s.InOrder cfg) (p : Fin n) :
    s.executed p <+: List.range (cfg.text p).length := by
  have hle := ho.pc_le p
  have hprefix : ∀ k, k ≤ (cfg.text p).length →
      List.range k <+: List.range (cfg.text p).length := by
    intro k hk
    obtain ⟨d, hd⟩ := Nat.exists_eq_add_of_le hk
    rw [hd, List.range_add]
    exact List.prefix_append _ _
  by_cases hex : ∃ c k ins, (s.cpu c).point = .execute p k ins
  · obtain ⟨c, k, ins, hpt⟩ := hex
    obtain ⟨hpc, he⟩ := ho.execute c p k ins hpt
    rw [he]
    exact hprefix k (by omega)
  · rw [ho.settled p fun c k ins hpt => hex ⟨c, k, ins, hpt⟩]
    exact hprefix _ hle

theorem run_exclusive_ownership (cfg : Config n) {as : List (Action m)}
    (h : Run (Next cfg) (start n m) as s) :
    (∀ p, ∑ i, (s.sched.mlqReadyQueue i).proc.count p + s.owners p ≤ 1) ∧
    (∀ p, s.executed p <+: List.range (cfg.text p).length) ∧
    (∀ p, 0 < s.released p → (∀ i, p ∉ (s.sched.mlqReadyQueue i).proc) ∧
      p ∉ s.sched.runningList.proc ∧ ∀ c, (s.cpu c).point.owner ≠ some p) ∧
    (∀ a p, p ∈ s.derefs a → s.released p = 0) ∧
    ∀ p, s.released p ≤ 1 := by
  have hs := Custody.run h
  refine ⟨fun p => ?_, (InOrder.run h).executed_range, fun p hrel => ⟨fun i hi => ?_, fun hp => ?_,
    fun c hc => ?_⟩, fun a p => hs.not_released_of_deref, fun p => ?_⟩
  · have h₁ := hs.places_le_one p
    rw [places, Sched.ready] at h₁
    omega
  · have h₁ := hs.places_le_one p
    have h₂ := s.sched.count_level_le i p
    have h₃ := List.count_pos_iff.mpr hi
    rw [places] at h₁
    omega
  · have := hs.not_released_of_listed hp
    omega
  · have := hs.not_released_of_owner hc
    omega
  · have h₁ := hs.places_le_one p
    rw [places] at h₁
    omega

def killerAndVictim : Config 2 where
  timeSlot := 2
  timeSlot_pos := by decide
  startTime _ := 0
  prio _ := 0
  path := ![['/', 'p'], ['/', 'q']]
  text := ![[⟨.SYSCALL, 101⟩], [⟨.CALC, 0⟩]]

theorem run_exclusive_ownership_killed :
    ∃ as s, Run (Next killerAndVictim) (start 2 1) as s ∧ s.released 1 = 1 ∧
      1 ∉ s.sched.runningList.proc := by
  have hplay : ((start 2 1).play killerAndVictim
      (List.replicate 8 (.cpu 0 ['q']) ++ List.replicate 8 .loader)).map (·.released 1) =
      some 1 := by decide +kernel
  obtain ⟨s, hs, hrel⟩ := Option.map_eq_some_iff.mp hplay
  have hrun := run_of_play hs
  exact ⟨_, s, hrun, hrel,
    ((run_exclusive_ownership killerAndVictim hrun).2.2.1 1 (by rw [hrel]; decide)).2.1⟩

end OSsim.System
