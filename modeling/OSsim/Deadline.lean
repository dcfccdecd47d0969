import OSsim.Marked
import OSsim.Progress

/-!
# Every process ends in time

The loader is through at the last start time plus one slot for each process. From there
on every slot that begins with a process alive does some work, and there is no more work
than the instructions and two steps for each process. So there is a time by which all is
done, whatever the threads do inside the slots.
-/

open scoped BigOperators
namespace OSsim.System
variable {n m : ℕ} {cfg : Config n} {s s' : System n m} {c d : Fin m} {p : Fin n}
  {name : List Char} {as : List (Action m)}

def lastStart (cfg : Config n) : ℕ := Finset.univ.sup cfg.startTime

theorem startTime_le (cfg : Config n) (i : Fin n) : cfg.startTime i ≤ lastStart cfg :=
  Finset.le_sup (f := cfg.startTime) (Finset.mem_univ i)

inductive LdNext (cfg : Config n) (time : ℕ) : LdPoint n → LdPoint n → Prop
  | loads (i : ℕ) (h : i < n) : LdNext cfg time (.load i) (.wait ⟨i, h⟩)
  | finishes (i : ℕ) (h : n ≤ i) : LdNext cfg time (.load i) .finish
  | waits (i : Fin n) (early : time < cfg.startTime i) : LdNext cfg time (.wait i) (.waitSlot i)
  | goes (i : Fin n) : LdNext cfg time (.wait i) (.add i)
  | wakes (i : Fin n) : LdNext cfg time (.waitSlot i) (.wait i)
  | adds (i : Fin n) : LdNext cfg time (.add i) (.addSlot i)
  | advances (i : Fin n) : LdNext cfg time (.addSlot i) (.load (i + 1))
  | stops : LdNext cfg time .finish .stopped

theorem ldStep_next (h : s.ldStep cfg = some s') :
    LdNext cfg s.time s.loader.point s'.loader.point := by
  cases hpt : s.loader.point with
  | load i =>
    simp only [ldStep, hpt] at h
    split_ifs at h with hi <;> obtain rfl := Option.some.inj h
    · exact .loads i hi
    · exact .finishes i (Nat.le_of_not_lt hi)
  | wait i =>
    simp only [ldStep, hpt] at h
    obtain rfl := Option.some.inj h
    dsimp only
    split_ifs with hearly
    · exact .waits i hearly
    · exact .goes i
  | stopped =>
    simp only [ldStep, hpt] at h
    cases h
  | _ =>
    simp only [ldStep, hpt] at h
    obtain rfl := Option.some.inj h
    constructor

structure LdOnTime (cfg : Config n) (time : ℕ) (x : Loader n) : Prop where
  slots_le : x.slots ≤ time
  added_le : x.point.added ≤ n
  loading : x.point ≠ .stopped → time ≤ lastStart cfg + x.point.added
  waiting : ∀ i, x.point = .waitSlot i → time ≤ x.slots → time < cfg.startTime i
  adding : ∀ i, x.point = .addSlot i → time ≤ x.slots → time ≤ lastStart cfg + i

namespace LdOnTime
variable {time : ℕ} {x y : Loader n}

theorem next (h : LdOnTime cfg time x) (hn : LdNext cfg time x.point y.point)
    (hslots : y.slots ≤ time) : LdOnTime cfg time y := by
  obtain ⟨px, sx⟩ := x
  obtain ⟨py, sy⟩ := y
  dsimp only at hn
  have hadded := h.added_le
  have hloading := h.loading
  cases hn with
  | loads i hi => exact ⟨hslots, hadded, fun _ => hloading (by simp), (by simp), (by simp)⟩
  | finishes i hi =>
    refine ⟨hslots, le_rfl, fun _ => ?_, (by simp), (by simp)⟩
    have := hloading (by simp)
    simp only [LdPoint.added] at hadded this ⊢
    omega
  | waits i early =>
    refine ⟨hslots, hadded, fun _ => hloading (by simp), fun j hj _ => ?_, (by simp)⟩
    cases hj
    exact early
  | goes i => exact ⟨hslots, hadded, fun _ => hloading (by simp), (by simp), (by simp)⟩
  | wakes i => exact ⟨hslots, hadded, fun _ => hloading (by simp), (by simp), (by simp)⟩
  | adds i =>
    have hle := hloading (by simp)
    refine ⟨hslots, i.isLt, fun _ => ?_, (by simp), fun j hj _ => ?_⟩
    · simp only [LdPoint.added] at hle ⊢
      omega
    · cases hj
      exact hle
  | advances i => exact ⟨hslots, hadded, fun _ => hloading (by simp), (by simp), (by simp)⟩
  | stops => exact ⟨hslots, hadded, fun hne => absurd rfl hne, (by simp), (by simp)⟩

theorem tick (h : LdOnTime cfg time x)
    (hin : x.point = .stopped ∨ (x.inNextSlot = true ∧ time ≤ x.slots)) :
    LdOnTime cfg (time + 1) x := by
  have hslots := h.slots_le
  refine ⟨hslots.trans (Nat.le_succ _), h.added_le, fun hgoing => ?_, fun i hpt hle => ?_,
    fun i hpt hle => ?_⟩
  · obtain ⟨hslot, hle⟩ := hin.resolve_left hgoing
    rw [Loader.inNextSlot] at hslot
    split at hslot
    · next i hpt =>
      have h₁ := h.waiting i hpt hle
      have h₂ := startTime_le cfg i
      omega
    · next i hpt =>
      have h₁ := h.adding i hpt hle
      rw [hpt, LdPoint.added]
      omega
    · cases hslot
  · omega
  · omega

end LdOnTime

structure OnTime (cfg : Config n) (s : System n m) : Prop where
  cpu_slots : ∀ c, (s.cpu c).slots ≤ s.time
  loader : LdOnTime cfg s.time s.loader

theorem onTime_start : (start n m).OnTime cfg where
  cpu_slots _ := le_rfl
  loader := ⟨le_rfl, Nat.zero_le n, fun _ => Nat.zero_le _, nofun, nofun⟩

theorem cpuStep_slots (h : s.cpuStep cfg c name = some s') :
    (s'.cpu c).slots = (s.cpu c).slots + if (s.cpu c).inNextSlot then 1 else 0 := by
  cases cpuStep_cases h with
  | slot proc before => simp [Cpu.inNextSlot, before]
  | _ => simp [Cpu.inNextSlot, ‹(s.cpu c).point = _›, goto, setProc]

theorem OnTime.step {a : Action m} (ht : s.OnTime cfg) (h : NextInStep cfg s a s') :
    s'.OnTime cfg := by
  obtain ⟨hin, hn⟩ := h
  cases a with
  | loader =>
    change s.ldStep cfg = some s' at hn
    obtain ⟨htime, hslots⟩ := ldStep_slots hn
    have hcpu : s'.cpu = s.cpu := by cases ldStep_loaded hn <;> rfl
    refine ⟨by rw [hcpu, htime]; exact ht.cpu_slots, ?_⟩
    rw [htime]
    refine ht.loader.next (ldStep_next hn) ?_
    rw [hslots]
    split_ifs with hslot
    · exact hin hslot
    · exact ht.loader.slots_le
  | cpu c name =>
    change s.cpuStep cfg c name = some s' at hn
    have hm := cpuStep_moved hn
    have htime : s'.time = s.time := by cases hm <;> rfl
    refine ⟨fun d => ?_, by rw [hm.loader_eq, htime]; exact ht.loader⟩
    rw [htime]
    by_cases hd : d = c
    · subst hd
      rw [cpuStep_slots hn]
      split_ifs with hslot
      · exact hin hslot
      · exact ht.cpu_slots d
    · rw [hm.cpu_of_ne hd]
      exact ht.cpu_slots d
  | tick =>
    obtain rfl := Option.some.inj hn
    exact ⟨fun c => (ht.cpu_slots c).trans (Nat.le_succ _), ht.loader.tick hin.2⟩

theorem inNextSlot_point {x : Cpu n} (h : x.inNextSlot = true) :
    ∃ proc, x.point = .inSlot proc := by
  rw [Cpu.inNextSlot] at h
  split at h
  · next proc hpt => exact ⟨proc, hpt⟩
  · cases h

theorem not_pending_of_tick (hin : s.InStep .tick) : ¬ s.Pending := by
  have hidle : ∀ c, ¬ Committed s.time (s.cpu c) ∧ ¬ Seeking s.time (s.cpu c) := by
    intro c
    rcases hin.1 c with hpt | ⟨hslot, hle⟩
    · simp [Committed, Seeking, hpt]
    · obtain ⟨proc, hpt⟩ := inNextSlot_point hslot
      cases proc <;> simp [Committed, Seeking, hpt, hle]
  rintro (⟨c, hc⟩ | ⟨_, c, hc⟩)
  · exact (hidle c).1 hc
  · exact (hidle c).2 hc

theorem arrived_of_stopped (hload : s.loader.point = .stopped) (p : Fin n) : s.arrived p = 1 := by
  rw [arrived_eq_one, hload]
  exact p.isLt

theorem enters_slot (ht : s.OnTime cfg) (hin : s.InStep .tick)
    (hc : (s.cpu c).point ≠ .stopped) : ∃ proc, (s.cpu c).point = .inSlot proc ∧
      (s.cpu c).slots < s.time + 1 := by
  obtain ⟨proc, hpt⟩ := inNextSlot_point ((hin.1 c).resolve_left hc).1
  exact ⟨proc, hpt, Nat.lt_succ_of_le (ht.cpu_slots c)⟩

theorem pending_after_tick (hs : s.WellRun) (ht : s.OnTime cfg) (hin : s.InStep .tick)
    (hload : s.loader.point = .stopped) (hp : s.ended p = 0) :
    { s with time := s.time + 1 }.Pending := by
  have hplace := (hs.kept p (arrived_of_stopped hload p) hp).2
  rcases Nat.eq_zero_or_pos (s.owners p) with ho | ho
  · -- the process waits, and some CPU has not stopped
    have hready : 0 < s.sched.ready p := by omega
    obtain ⟨i, _, hi⟩ := Finset.exists_ne_zero_of_sum_ne_zero
      (s := Finset.univ) (f := fun i => (s.sched.mlqReadyQueue i).proc.count p)
      (by rw [← hs.placed.ready_eq]; exact hready.ne')
    have hne : (s.sched.mlqReadyQueue i).proc ≠ [] :=
      List.ne_nil_of_mem (List.count_pos_iff.mp (Nat.pos_of_ne_zero hi))
    rcases hs.attended.busy ⟨i, hne⟩ with ⟨c, hbusy⟩ | ⟨j, hpt, _⟩
    · obtain ⟨proc, hpt, hlt⟩ := enters_slot ht hin hbusy.1
      cases proc with
      | none => exact Or.inr ⟨⟨p, hready⟩, c, by simp [Seeking, hpt, hlt]⟩
      | some q => exact Or.inl ⟨c, by simp [Committed, hpt, hlt]⟩
    · rw [hload] at hpt
      cases hpt
  · obtain ⟨_, c, hc, _⟩ := owned_of_owners hs.custody (p := p) (by omega) (by omega)
    have hgoing : (s.cpu c).point ≠ .stopped := by
      intro hpt
      rw [hpt] at hc
      cases hc
    obtain ⟨proc, hpt, hlt⟩ := enters_slot ht hin hgoing
    rw [hpt] at hc
    simp only [Point.owner] at hc
    subst hc
    exact Or.inl ⟨c, by simp [Committed, hpt, hlt]⟩

def loadedBy (cfg : Config n) : ℕ := lastStart cfg + n

structure Ended (s : System n m) : Prop where
  loaded : s.loader.point = .stopped
  ended : ∀ p, 0 < s.ended p

def Paced (cfg : Config n) (s : System n m) : Prop :=
  s.time ≤ loadedBy cfg + s.work cfg ∨
    (s.time ≤ loadedBy cfg + s.work cfg + 1 ∧ s.Pending) ∨ s.Ended

theorem Paced.loading (ht : s.OnTime cfg) (hload : s.loader.point ≠ .stopped) : s.Paced cfg := by
  have h₁ := ht.loader.loading hload
  have h₂ := ht.loader.added_le
  left
  rw [loadedBy]
  omega

theorem Ended.cpuStep (he : s.Ended) (h : s.cpuStep cfg c name = some s') : s'.Ended := by
  have hm := cpuStep_moved h
  refine ⟨by rw [hm.loader_eq]; exact he.loaded, fun p => ?_⟩
  obtain ⟨x, hb⟩ := hm.balanced p
  exact (he.ended p).trans_le hb.ended_le

theorem Paced.cpuStep (hp : s.Paced cfg) (hs : s.WellRun) (ho : s.InOrder cfg)
    (h : s.cpuStep cfg c name = some s') : s'.Paced cfg := by
  have hle := work_le hs.custody ho h
  have htime : s'.time = s.time := by cases cpuStep_moved h <;> rfl
  rw [Paced, htime]
  rcases hp with hp | ⟨hp, hpend⟩ | hp
  · exact Or.inl (by omega)
  · rcases hpend.cpuStep hs.custody ho hs.placed h with hlt | hpend'
    · exact Or.inl (by omega)
    · exact Or.inr (Or.inl ⟨by omega, hpend'⟩)
  · exact Or.inr (Or.inr (hp.cpuStep h))

theorem Paced.ldStep (ht : s.OnTime cfg) (h : s.ldStep cfg = some s') : s'.Paced cfg := by
  have hgoing : s.loader.point ≠ .stopped := by
    intro hpt
    simp only [System.ldStep, hpt] at h
    cases h
  have h₁ := ht.loader.loading hgoing
  have h₂ := ht.loader.added_le
  left
  rw [(ldStep_slots h).1, loadedBy]
  omega

theorem Paced.tick (hp : s.Paced cfg) (hs : s.WellRun) (ht : s.OnTime cfg)
    (hin : s.InStep .tick) : { s with time := s.time + 1 }.Paced cfg := by
  have hwork : { s with time := s.time + 1 }.work cfg = s.work cfg := rfl
  by_cases hload : s.loader.point = .stopped
  · rcases hp with hp | ⟨_, hpend⟩ | hp
    · by_cases hall : ∀ p, 0 < s.ended p
      · exact Or.inr (Or.inr ⟨hload, hall⟩)
      · obtain ⟨p, hp'⟩ := not_forall.mp hall
        refine Or.inr (Or.inl ⟨?_, pending_after_tick hs ht hin hload (p := p) (by omega)⟩)
        rw [hwork]
        dsimp only
        omega
    · exact absurd hpend (not_pending_of_tick hin)
    · exact Or.inr (Or.inr ⟨hp.loaded, hp.ended⟩)
  · exact Paced.loading
      ⟨fun c => (ht.cpu_slots c).trans (Nat.le_succ _), ht.loader.tick hin.2⟩ hload

def Over (cfg : Config n) (s : System n m) (p : Fin n) : Prop :=
  (s.proc p).killed = true ∨ (s.proc p).pc = (cfg.text p).length

structure Settled (cfg : Config n) (s : System n m) : Prop where
  finish : ∀ c p, (s.cpu c).point = .finish p → s.Over cfg p
  ended : ∀ p, 0 < s.ended p → s.Over cfg p

theorem settled_start : (start n m).Settled cfg where
  finish _ _ h := by cases h
  ended _ h := absurd h (lt_irrefl 0)

theorem victims_subset_killed (q : Sched (Fin n)) (path : Fin n → List Char) (prio : Fin n → ℕ)
    (name : List Char) (caller : Fin n) :
    (q.killProcByName path prio name caller).victims ⊆
      (q.killProcByName path prio name caller).killed := by
  refine Sched.killLoop_invariant (fun k => k.victims ⊆ k.killed) ?_ ?_ _ _ _ (List.Subset.refl _)
  · intro r p _ _ _ hr
    exact List.append_subset.mpr ⟨List.Subset.trans hr (List.subset_append_left _ _),
      List.subset_append_right _ _⟩
  · intro r p _ _ _ hr
    exact List.Subset.trans hr (List.subset_append_left _ _)

theorem Over.cpuStep (ho : s.InOrder cfg) (h : s.cpuStep cfg c name = some s')
    (hp : s.Over cfg p) : s'.Over cfg p := by
  rcases hp with hk | hpc
  · left
    rcases cpuStep_killed h p with heq | ⟨hk', _⟩
    · exact heq.trans hk
    · exact hk'
  · right
    cases cpuStep_ran h with
    | outside x cpu pc executed before after => exact (pc p).trans hpc
    | fetches q ins before inst => exact hpc
    | advances q k ins before =>
      obtain ⟨hk, hins⟩ := ho.fetched c q k ins before
      have hpq : p ≠ q := by
        intro heq
        subst heq
        have := (List.getElem?_eq_some_iff.mp hins).1
        omega
      simpa [setProc, Function.update_of_ne hpq] using hpc
    | executes q k ins x before after => exact hpc

theorem Settled.cpuStep (hse : s.Settled cfg) (ho : s.InOrder cfg)
    (h : s.cpuStep cfg c name = some s') : s'.Settled cfg := by
  have hm := cpuStep_moved h
  refine ⟨fun d p hd => ?_, fun p hp => ?_⟩
  · by_cases hdc : d = c
    · subst hdc
      cases cpuStep_cases h with
      | reaps q before killed =>
        rw [goto_point_self] at hd
        cases hd
        exact Or.inl killed
      | ends q before done =>
        rw [goto_point_self] at hd
        cases hd
        exact Or.inr done
      | _ => simp at hd
    · rw [hm.cpu_of_ne hdc] at hd
      exact (hse.finish d p hd).cpuStep ho h
  · rcases Nat.eq_zero_or_pos (s.ended p) with hz | hpos
    · cases cpuStep_cases h with
      | finishes q before =>
        have hq : p = q := by
          by_contra hne
          simp [goto, setCpu, Function.update_of_ne hne, hz] at hp
        subst hq
        exact (hse.finish c p before).cpuStep ho h
      | kills q target before =>
        left
        simp only [goto, setCpu, hz, Nat.zero_add, List.count_pos_iff] at hp
        have := victims_subset_killed _ _ _ _ _ hp
        simp only [goto_proc, System.killProcByName, Bool.or_eq_true]
        exact Or.inr (decide_eq_true this)
      | _ => exact absurd hp (by simpa [goto, setCpu, setProc] using hz.le)
    · exact (hse.ended p hpos).cpuStep ho h

theorem Settled.ldStep (hse : s.Settled cfg) (hs : s.Custody) (h : s.ldStep cfg = some s') :
    s'.Settled cfg := by
  cases ldStep_loaded h with
  | loads i prio loader next same =>
    -- nothing of the process that is filled in has been seen yet
    have hzero := arrived_next next
    have hover : ∀ p, p ≠ i → s.Over cfg p → Over cfg { s with
        proc := Function.update s.proc i ⟨0, prio, false⟩, loader := loader } p := by
      intro p hpi hp
      simpa only [Over, Function.update_of_ne hpi] using hp
    refine ⟨fun c p hc => hover p ?_ (hse.finish c p hc), fun p hp => hover p ?_ (hse.ended p hp)⟩
    · intro heq
      subst heq
      have := hs.arrived_of_owner (c := c) (p := p) (by rw [show (s.cpu c).point = _ from hc]; rfl)
      omega
    · intro heq
      subst heq
      have hle := hs.listed_le p
      change 0 < s.ended p at hp
      omega
  | waits loader done last same => exact ⟨hse.finish, hse.ended⟩
  | adds i slots before =>
    have hover : ∀ p, s.Over cfg p → Over cfg { s with
        proc := Function.update s.proc i { s.proc i with prio := Sched.clampPrio (s.proc i).prio }
        sched := s.sched.addProc (s.proc i).prio i
        loader := ⟨.addSlot i, slots⟩ } p := by
      intro p hp
      by_cases hpi : p = i
      · subst hpi
        simpa only [Over, Function.update_self] using hp
      · simpa only [Over, Function.update_of_ne hpi] using hp
    exact ⟨fun c p hc => hover p (hse.finish c p hc), fun p hp => hover p (hse.ended p hp)⟩

def deadline (cfg : Config n) : ℕ := loadedBy cfg + ∑ p, ((cfg.text p).length + 2) + 1

structure Released (s : System n m) : Prop where
  loaded : s.loader.point = .stopped
  released : ∀ p, 0 < s.released p

structure Timely (cfg : Config n) (s : System n m) : Prop where
  wellRun : s.WellRun
  inOrder : s.InOrder cfg
  onTime : s.OnTime cfg
  settled : s.Settled cfg
  paced : s.Paced cfg
  deadline : deadline cfg < s.time → s.Released

theorem timely_start : (start n m).Timely cfg where
  wellRun := ⟨custody_start, placed_start, kept_start, attended_start⟩
  inOrder := inOrder_start
  onTime := onTime_start
  settled := settled_start
  paced := Or.inl (Nat.zero_le _)
  deadline h := absurd h (Nat.not_lt_zero _)

theorem Released.cpuStep (hr : s.Released) (h : s.cpuStep cfg c name = some s') : s'.Released := by
  have hm := cpuStep_moved h
  refine ⟨by rw [hm.loader_eq]; exact hr.loaded, fun p => (hr.released p).trans_le ?_⟩
  cases hm with
  | frees q x before after =>
    dsimp only
    rw [update_succ]
    exact Nat.le_add_right _ _
  | freesVictim q v vs x before after =>
    dsimp only
    rw [update_succ]
    exact Nat.le_add_right _ _
  | _ => exact le_rfl

theorem released_of_tick (hs : s.Custody) (he : s.Ended) (hin : s.InStep .tick) : s.Released := by
  refine ⟨he.loaded, fun p => ?_⟩
  have hpoint : ∀ c, (s.cpu c).point.reaps p = 0 ∧ (s.cpu c).point.frees p = 0 := by
    intro c
    rcases hin.1 c with hpt | ⟨hslot, _⟩
    · rw [hpt]
      exact ⟨rfl, rfl⟩
    · obtain ⟨proc, hpt⟩ := inNextSlot_point hslot
      rw [hpt]
      exact ⟨rfl, rfl⟩
  have hreap : s.toReap p = 0 := Finset.sum_eq_zero fun c _ => (hpoint c).1
  have hfree : s.toFree p = 0 := Finset.sum_eq_zero fun c _ => (hpoint c).2
  have hended := hs.ended_eq p
  have hpos := he.ended p
  omega

theorem Timely.tick (h : s.Timely cfg) (hs' : { s with time := s.time + 1 }.WellRun)
    (hin : s.InStep .tick) : { s with time := s.time + 1 }.Timely cfg where
  wellRun := hs'
  inOrder := ⟨h.inOrder.pc_le, h.inOrder.fetched, h.inOrder.execute, h.inOrder.settled,
    h.inOrder.fresh⟩
  onTime := ⟨fun c => (h.onTime.cpu_slots c).trans (Nat.le_succ _), h.onTime.loader.tick hin.2⟩
  settled := ⟨h.settled.finish, h.settled.ended⟩
  paced := h.paced.tick h.wellRun h.onTime hin
  deadline hlate := by
    have htotal := h.wellRun.custody.work_le_total h.inOrder
    have hreleased : s.Released := by
      rcases h.paced with hp | ⟨_, hpend⟩ | he
      · apply h.deadline
        exfalso
        rw [System.deadline] at hlate
        dsimp only at hlate
        omega
      · exact absurd hpend (not_pending_of_tick hin)
      · exact released_of_tick h.wellRun.custody he hin
    exact ⟨hreleased.loaded, hreleased.released⟩

theorem WellRun.step (hs : s.WellRun) (hn : n ≤ maxQueueSize) (hm : 0 < m) {a : Action m}
    (h : NextInStep cfg s a s') : s'.WellRun :=
  ⟨hs.custody.step h.2, hs.placed.step hs.custody h.2,
    (hs.kept.step_iff hs.custody hs.placed h.2).mpr (not_overflows hn s a), hs.attended.step hm h⟩

theorem Timely.step (hn : n ≤ maxQueueSize) (hm : 0 < m) {a : Action m} (h : s.Timely cfg)
    (hstep : NextInStep cfg s a s') : s'.Timely cfg := by
  have hw : s'.WellRun := h.wellRun.step hn hm hstep
  have ho := h.inOrder.step h.wellRun.custody hstep.2
  have ht := h.onTime.step hstep
  cases a with
  | tick =>
    obtain ⟨hin, hnext⟩ := hstep
    obtain rfl := Option.some.inj hnext
    exact h.tick hw hin
  | cpu c name =>
    refine ⟨hw, ho, ht, h.settled.cpuStep h.inOrder hstep.2,
      h.paced.cpuStep h.wellRun h.inOrder hstep.2, fun hlate => ?_⟩
    have htime : s'.time = s.time := by cases cpuStep_moved hstep.2 <;> rfl
    rw [htime] at hlate
    exact (h.deadline hlate).cpuStep hstep.2
  | loader =>
    refine ⟨hw, ho, ht, h.settled.ldStep h.wellRun.custody hstep.2,
      Paced.ldStep h.onTime hstep.2, fun hlate => ?_⟩
    rw [(ldStep_slots hstep.2).1] at hlate
    have hpt := (h.deadline hlate).loaded
    have hnext := hstep.2
    simp only [Next, System.step, System.ldStep, hpt] at hnext
    cases hnext

theorem Timely.run (hn : n ≤ maxQueueSize) (hm : 0 < m)
    (h : Run (NextInStep cfg) (start n m) as s) : s.Timely cfg :=
  h.invariant (Timely cfg) timely_start fun _ _ _ hs hstep => hs.step hn hm hstep

theorem Custody.released_places (hs : s.Custody) (hp : 0 < s.released p) :
    s.sched.ready p = 0 ∧ s.owners p = 0 ∧ s.sched.listed p = 0 ∧ s.ended p = 1 ∧
      s.released p = 1 := by
  have h₁ := hs.places_le_one p
  have h₂ := hs.ended_eq p
  have h₃ := hs.listed_le p
  have h₄ := s.arrived_le_one p
  rw [places] at h₁
  omega

structure Quiescent (cfg : Config n) (s : System n m) : Prop where
  allDone : s.AllDone
  idle : ∀ c, (s.cpu c).point.owner = none
  fate : ∀ p, (s.proc p).killed = true ∨ s.executed p = List.range (cfg.text p).length

theorem Timely.quiescent (h : s.Timely cfg) (hr : s.Released) : s.Quiescent cfg := by
  have hs := h.wellRun.custody
  have hplaces := fun p => hs.released_places (hr.released p)
  have hidle : ∀ c, (s.cpu c).point.owner = none := by
    intro c
    rcases hc : (s.cpu c).point.owner with _ | p
    · rfl
    · have := hs.not_released_of_owner hc
      have := hr.released p
      omega
  refine ⟨⟨hr.loaded, ?_, ?_, fun p => (hplaces p).2.2.2.1, fun p => (hplaces p).2.2.2.2⟩, hidle,
    fun p => ?_⟩
  · refine (queueEmpty_iff _).mpr
      ⟨fun i => ?_, h.wellRun.placed.ready_nil, h.wellRun.placed.run_nil⟩
    rw [List.eq_nil_iff_forall_not_mem]
    intro p hp
    have hle := s.sched.count_level_le i p
    have hpos := List.count_pos_iff.mpr hp
    have := (hplaces p).1
    omega
  · rw [List.eq_nil_iff_forall_not_mem]
    intro p hp
    have hpos : 0 < s.sched.listed p := List.count_pos_iff.mpr hp
    have := (hplaces p).2.2.1
    omega
  · refine (h.settled.ended p (by rw [(hplaces p).2.2.2.1]; exact Nat.one_pos)).imp_right
      fun hpc => ?_
    rw [← hpc]
    refine h.inOrder.settled p fun c k ins hc => ?_
    have := hidle c
    rw [hc] at this
    cases this

theorem run_quiescent_after_deadline (cfg : Config n) (hn : n ≤ maxQueueSize) (hm : 0 < m)
    (h : Run (NextInStep cfg) (start n m) as s) (hlate : deadline cfg < s.time) :
    s.Quiescent cfg :=
  (Timely.run hn hm h).quiescent ((Timely.run hn hm h).deadline hlate)

/-- The process runs in slot 0 and is released in slot 1; the clock goes on. -/
def oneCalcLate : List (Action 1) :=
  let cpu : Action 1 := .cpu ⟨0, Nat.one_pos⟩ []
  List.flatten [List.replicate 5 .tick, List.replicate 7 cpu, List.replicate 3 .loader, [.tick],
    List.replicate 6 cpu, List.replicate 3 .loader]

theorem run_quiescent_after_deadline_oneCalc :
    ∃ s, Run (NextInStep oneCalc) (start 1 1) oneCalcLate s ∧ s.time = 6 ∧
      deadline oneCalc = 5 ∧ s.Quiescent oneCalc := by
  have hplay : ((start 1 1).playInStep oneCalc oneCalcLate).map (·.time) = some 6 := by
    decide +kernel
  obtain ⟨s, hs, htime⟩ := Option.map_eq_some_iff.mp hplay
  have hdeadline : deadline oneCalc = 5 := by decide
  refine ⟨s, run_of_playInStep hs, htime, hdeadline, ?_⟩
  exact run_quiescent_after_deadline oneCalc (by decide) (by decide) (run_of_playInStep hs)
    (by rw [hdeadline, htime]; decide)

end OSsim.System
