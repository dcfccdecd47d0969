import OSsim.TimeSlice
import OSsim.WorkDone

/-!
# Work done in a slot

`work` counts instructions and ends of processes. It never falls, and it has risen by the
end of a slot in which a CPU had a process or could get one: a process that is put back
is there for whoever loads next, and a `killall` that empties a queue ends what stood in
it.
-/

open scoped BigOperators
namespace OSsim

def Point.tried {n : ℕ} : Point n → Option (Fin n)
  | execute p _ _ => some p
  | kill p _ => some p
  | freeVictims p _ => some p
  | ran p => some p
  | inSlot proc => proc
  | top proc => proc
  | testEnd p => some p
  | finish p => some p
  | _ => none

namespace System
variable {n m : ℕ} {cfg : Config n} {s s' : System n m} {c d : Fin m} {p : Fin n}
  {name : List Char}

def spent (cfg : Config n) (pc : Fin n → ℕ) (x : Point n) : ℕ :=
  x.tried.toList.countP fun p => pc p = (cfg.text p).length

def work (cfg : Config n) (s : System n m) : ℕ :=
  ∑ p, s.pcs p + 2 * ∑ p, s.ended p + ∑ c, spent cfg s.pcs (s.cpu c).point

theorem spent_congr {pc pc' : Fin n → ℕ} {x : Point n} (h : ∀ p, x.tried = some p → pc' p = pc p) :
    spent cfg pc' x = spent cfg pc x := by
  rcases hx : x.tried with _ | p
  · simp [spent, hx]
  · simp [spent, hx, h p hx]

theorem Point.owner_of_tried {x : Point n} (h : x.tried = some p) : x.owner = some p := by
  cases x <;> simp_all [Point.tried, Point.owner]

theorem spent_le_one (cfg : Config n) (pc : Fin n → ℕ) (x : Point n) : spent cfg pc x ≤ 1 := by
  rw [spent]
  exact List.countP_le_length.trans (by cases x.tried <;> simp)

theorem work_of_same_pc (cfg : Config n) (s s' : System n m) {x : Cpu n}
    (hcpu : s'.cpu = Function.update s.cpu c x)
    (hpc : ∀ q, (s'.proc q).pc = (s.proc q).pc) :
    s'.work cfg + 2 * ∑ p, s.ended p + spent cfg s.pcs (s.cpu c).point =
      s.work cfg + 2 * ∑ p, s'.ended p + spent cfg s.pcs x.point := by
  have hpcs : s'.pcs = s.pcs := funext hpc
  have hsum := sum_point_update (spent cfg s.pcs) s c x
  rw [work, work, hpcs, hcpu]
  omega

theorem sum_update_succ (f : Fin n → ℕ) (p : Fin n) :
    ∑ q, Function.update f p (f p + 1) q = ∑ q, f q + 1 := by
  have h := Accounting.sum_update Finset.univ (fun a : ℕ => a) f (Finset.mem_univ p) (f p + 1)
  omega

theorem work_advances (hs : s.Custody) {k : ℕ} {ins : Inst}
    (before : (s.cpu c).point = .fetched p k ins) :
    s.work cfg < ((s.setProc p { s.proc p with pc := (s.proc p).pc + 1 }).goto c
      (.execute p k ins)).work cfg := by
  have hown : (s.cpu c).point.owner = some p := by rw [before]; rfl
  have hpcs : ((s.setProc p { s.proc p with pc := (s.proc p).pc + 1 }).goto c
      (.execute p k ins)).pcs = Function.update s.pcs p (s.pcs p + 1) := by
    funext q
    by_cases hq : q = p
    · subst hq
      simp [pcs, setProc]
    · simp [pcs, setProc, Function.update_of_ne hq]
  -- nobody else has the process, and its own CPU has not called `run` before
  have hothers : ∀ d, spent cfg (Function.update s.pcs p (s.pcs p + 1)) (s.cpu d).point =
      spent cfg s.pcs (s.cpu d).point := by
    intro d
    apply spent_congr
    intro q hq
    apply Function.update_of_ne
    intro heq
    subst heq
    have hdc := hs.owner_unique (Point.owner_of_tried hq) hown
    subst hdc
    rw [before] at hq
    cases hq
  have hsum := sum_point_update (spent cfg (Function.update s.pcs p (s.pcs p + 1))) s c
    { s.cpu c with point := .execute p k ins }
  have hown' : spent cfg (Function.update s.pcs p (s.pcs p + 1)) (s.cpu c).point = 0 := by
    rw [before]
    rfl
  rw [hown', Finset.sum_congr rfl fun d _ => hothers d] at hsum
  rw [work, work, hpcs, sum_update_succ]
  simp only [goto, setCpu, setProc] at hsum ⊢
  omega

theorem work_finishes (s : System n m) (c : Fin m) (p : Fin n) :
    s.work cfg < ({ s with
      sched := s.sched.finishProc p
      ended := Function.update s.ended p (s.ended p + 1) }.goto c (.free p)).work cfg := by
  have hsum := work_of_same_pc cfg s
    ({ s with
      sched := s.sched.finishProc p
      ended := Function.update s.ended p (s.ended p + 1) }.goto c (.free p)) rfl (fun _ => rfl)
  have hone := spent_le_one cfg s.pcs (s.cpu c).point
  have hended := sum_update_succ s.ended p
  simp only [goto, setCpu] at hsum ⊢
  omega

theorem sum_count_eq_length (l : List (Fin n)) : ∑ p, l.count p = l.length := by
  have h := Multiset.sum_count_eq_card (m := (l : Multiset (Fin n))) fun p _ => Finset.mem_univ p
  simpa only [Multiset.coe_count, Multiset.coe_card] using h

theorem work_kills {target : List Char} (before : (s.cpu c).point = .kill p target)
    (h : s.cpuStep cfg c name = some s') :
    s'.work cfg = s.work cfg + 2 * (s.killProcByName cfg target p).victims.length := by
  simp only [cpuStep, before, Option.some.injEq] at h
  subst h
  have hsum := work_of_same_pc cfg s ({ s with
    sched := (s.killProcByName cfg target p).sched
    proc := fun q => { s.proc q with
      killed := (s.proc q).killed || q ∈ (s.killProcByName cfg target p).killed }
    ended := fun q => s.ended q + (s.killProcByName cfg target p).victims.count q }.goto c
      (.freeVictims p (s.killProcByName cfg target p).victims)) rfl (fun _ => rfl)
  have hspent : spent cfg s.pcs (s.cpu c).point =
      spent cfg s.pcs (.freeVictims p (s.killProcByName cfg target p).victims) := by
    rw [before]
    rfl
  simp only [goto, setCpu, Finset.sum_add_distrib, sum_count_eq_length] at hsum ⊢
  omega

theorem work_le_of_spent {x : Cpu n} (hcpu : s'.cpu = Function.update s.cpu c x)
    (hpc : ∀ q, (s'.proc q).pc = (s.proc q).pc) (hended : s'.ended = s.ended)
    (hle : spent cfg s.pcs (s.cpu c).point ≤ spent cfg s.pcs x.point) :
    s.work cfg ≤ s'.work cfg := by
  have hsum := work_of_same_pc cfg s s' hcpu hpc
  rw [hended] at hsum
  omega

theorem work_runsOut (ho : s.InOrder cfg) (before : (s.cpu c).point = .run p)
    (inst : (cfg.text p)[(s.proc p).pc]? = none) : s.work cfg < (s.goto c (.ran p)).work cfg := by
  have hsum := work_of_same_pc cfg s (s.goto c (.ran p)) rfl (fun _ => rfl)
  have hend : s.pcs p = (cfg.text p).length :=
    le_antisymm (ho.pc_le p) (List.getElem?_eq_none_iff.mp inst)
  have hnew : spent cfg s.pcs (.ran p) = 1 := by simp [spent, Point.tried, hend]
  have hold : spent cfg s.pcs (s.cpu c).point = 0 := by rw [before]; rfl
  simp only [goto, setCpu] at hsum ⊢
  omega

theorem work_le (hs : s.Custody) (ho : s.InOrder cfg)
    (h : s.cpuStep cfg c name = some s') : s.work cfg ≤ s'.work cfg := by
  cases cpuStep_cases h with
  | advances p k ins before => exact (work_advances hs before).le
  | finishes p before => exact (work_finishes s c p).le
  | runsOut p before inst => exact (work_runsOut ho before inst).le
  | kills p target before => exact (work_kills before h).symm ▸ Nat.le_add_right _ _
  | ends p before done =>
    exact work_le_of_spent rfl (fun _ => rfl) rfl (by simp [spent, Point.tried, before])
  | expires p before more left =>
    exact work_le_of_spent rfl (fun _ => rfl) rfl (by simp [spent, Point.tried, before, pcs, more])
  | continues p before more left =>
    exact work_le_of_spent rfl (fun _ => rfl) rfl (by simp [spent, Point.tried, before, pcs, more])
  | _ =>
    exact work_le_of_spent rfl (fun _ => rfl) rfl
      (by simp [spent, Point.tried, ‹(s.cpu c).point = _›])

theorem spent_add_reaps_le (pc : Fin n → ℕ) (x : Point n) :
    spent cfg pc x + ∑ p, x.reaps p ≤ ∑ p, x.owns p := by
  rcases hx : x.tried with _ | p
  · have hzero : spent cfg pc x = 0 := by simp [spent, hx]
    have hle := Finset.sum_le_sum fun p (_ : p ∈ Finset.univ) => x.reaps_le_owns p
    omega
  · have hreaps : ∑ q, x.reaps q = 0 := by
      cases x <;> simp_all [Point.tried, Point.reaps, Point.reaped]
    have howns : ∑ q, x.owns q = 1 := by
      simp only [Point.owns, Point.owner_of_tried hx]
      exact sum_count_eq_length _
    have hone := spent_le_one cfg pc x
    omega

theorem Custody.spent_add_ended_le (hs : s.Custody) (cfg : Config n) :
    ∑ c, spent cfg s.pcs (s.cpu c).point + ∑ p, s.ended p ≤ n := by
  have hcpus : ∑ c, spent cfg s.pcs (s.cpu c).point + ∑ p, s.toReap p ≤ ∑ p, s.owners p := by
    simp only [toReap, owners]
    rw [Finset.sum_comm, Finset.sum_comm (f := fun p c => (s.cpu c).point.owns p),
      ← Finset.sum_add_distrib]
    exact Finset.sum_le_sum fun c _ => spent_add_reaps_le _ _
  have hprocs : ∑ p, (s.owners p + s.ended p) ≤ ∑ p, (s.toReap p + 1) := by
    refine Finset.sum_le_sum fun p _ => ?_
    have h₁ := hs.places_le_one p
    have h₂ := hs.ended_eq p
    rw [places] at h₁
    omega
  simp only [Finset.sum_add_distrib, Finset.sum_const, Finset.card_univ, Fintype.card_fin,
    smul_eq_mul, mul_one] at hprocs
  omega

theorem Custody.work_le_total (hs : s.Custody) (ho : s.InOrder cfg) :
    s.work cfg ≤ ∑ p, ((cfg.text p).length + 2) := by
  have hpc : ∑ p, s.pcs p ≤ ∑ p, (cfg.text p).length := Finset.sum_le_sum fun p _ => ho.pc_le p
  have hspent := hs.spent_add_ended_le cfg
  simp only [Finset.sum_add_distrib, Finset.sum_const, Finset.card_univ, Fintype.card_fin,
    smul_eq_mul]
  rw [work]
  omega

/-- The CPU has a process that it will run, end or put back in this slot. -/
def Committed (time : ℕ) (x : Cpu n) : Prop :=
  match x.point with
  | .inSlot (some _) => x.slots < time
  | .top (some _) => True
  | .testEnd _ => True
  | .finish _ => True
  | .put _ => True
  | .recheck (some _) => True
  | .run _ => True
  | .fetched _ _ _ => True
  | _ => False

/-- The CPU will load in this slot. -/
def Seeking (time : ℕ) (x : Cpu n) : Prop :=
  match x.point with
  | .inSlot none => x.slots < time
  | .top none => True
  | .afterFree => True
  | .afterPut => True
  | _ => False

def Pending (s : System n m) : Prop :=
  (∃ c, Committed s.time (s.cpu c)) ∨
    (∃ p, 0 < s.sched.ready p) ∧ ∃ c, Seeking s.time (s.cpu c)

theorem committed_of_other (hd : Committed s.time (s.cpu d)) (htime : s'.time = s.time)
    (hcpu : s'.cpu d = s.cpu d) : s'.Pending :=
  Or.inl ⟨d, by rw [htime, hcpu]; exact hd⟩

theorem Pending.bystander (hp : s.Pending) (htime : s'.time = s.time)
    (hcpu : ∀ d, d ≠ c → s'.cpu d = s.cpu d) (hready : ∀ p, s.sched.ready p ≤ s'.sched.ready p)
    (hc : ¬ Committed s.time (s.cpu c) ∧ ¬ Seeking s.time (s.cpu c)) : s'.Pending := by
  rcases hp with ⟨d, hd⟩ | ⟨⟨p, hp⟩, d, hd⟩
  · refine committed_of_other hd htime (hcpu d ?_)
    intro heq
    subst heq
    exact hc.1 hd
  · refine Or.inr ⟨⟨p, hp.trans_le (hready p)⟩, d, ?_⟩
    rw [htime, hcpu d]
    · exact hd
    · intro heq
      subst heq
      exact hc.2 hd

theorem Placed.ready_eq_zero (hp : s.Placed) (hempty : s.sched.getProc.1 = none) (p : Fin n) :
    s.sched.ready p = 0 := by
  simp [hp.ready_eq, Sched.getProc_eq_none hempty]

theorem Pending.findsNone (hp : s.Pending) (hplaced : s.Placed)
    (hempty : s.sched.getProc.1 = none) (htime : s'.time = s.time)
    (hcpu : ∀ d, d ≠ c → s'.cpu d = s.cpu d) (hc : ¬ Committed s.time (s.cpu c)) :
    s'.Pending := by
  rcases hp with ⟨d, hd⟩ | ⟨⟨p, hp⟩, _⟩
  · refine committed_of_other hd htime (hcpu d ?_)
    intro heq
    subst heq
    exact hc hd
  · rw [hplaced.ready_eq_zero hempty] at hp
    exact absurd hp (lt_irrefl 0)

theorem Pending.loads (hp : s.Pending) (hplaced : s.Placed) (htime : s'.time = s.time)
    (hcpu : ∀ d, d ≠ c → s'.cpu d = s.cpu d) (hc : ¬ Committed s.time (s.cpu c))
    (hpt : (s'.cpu c).point = .recheck s.sched.getProc.1) : s'.Pending := by
  rcases hq : s.sched.getProc.1 with _ | p
  · exact hp.findsNone hplaced hq htime hcpu hc
  · rw [hq] at hpt
    exact Or.inl ⟨c, by simp [Committed, hpt]⟩

theorem putProc_ready (hp : s.Placed) (harr : s.arrived p = 1) :
    ∃ q, 0 < (s.sched.putProc (s.proc p).prio p).ready q := by
  have hlt := hp.prio_lt p harr
  have hne : ((s.sched.putProc (s.proc p).prio p).mlqReadyQueue ⟨_, hlt⟩).proc ≠ [] := by
    rw [Sched.putProc, dif_pos hlt]
    simp only [Sched.modifyLevel, Function.update_self]
    rcases Nat.lt_or_ge (s.sched.mlqReadyQueue ⟨_, hlt⟩).proc.length maxQueueSize with hroom | hfull
    · rw [Queue.enqueue_proc_of_lt hroom]
      simp
    · rw [Queue.enqueue_of_full hfull]
      exact List.ne_nil_of_length_pos ((by decide : 0 < maxQueueSize).trans_le hfull)
  obtain ⟨q, hq⟩ := List.exists_mem_of_ne_nil _ hne
  exact ⟨q, (List.count_pos_iff.mpr hq).trans_le (Sched.count_level_le _ _ q)⟩

theorem Pending.cpuStep (hp : s.Pending) (hs : s.Custody) (ho : s.InOrder cfg) (hplaced : s.Placed)
    (h : s.cpuStep cfg c name = some s') :
    s.work cfg < s'.work cfg ∨ s'.Pending := by
  have hm := cpuStep_moved h
  have htime : s'.time = s.time := by cases hm <;> rfl
  have hcpu : ∀ d, d ≠ c → s'.cpu d = s.cpu d := fun d => hm.cpu_of_ne
  cases cpuStep_cases h with
  | finishes p before => exact Or.inl (work_finishes s c p)
  | runsOut p before inst => exact Or.inl (work_runsOut ho before inst)
  | advances p k ins before => exact Or.inl (work_advances hs before)
  | kills p target before =>
    by_cases hv : (s.killProcByName cfg target p).victims = []
    · have hready : ∀ q, s.sched.ready q ≤ (s.killProcByName cfg target p).sched.ready q := by
        intro q
        have := (s.sched.killProcByName_counts cfg.path (fun r => (s.proc r).prio) target p q).1
        rw [System.killProcByName] at hv ⊢
        rw [hv, List.count_nil] at this
        omega
      exact Or.inr (hp.bystander htime hcpu hready (by simp [Committed, Seeking, before]))
    · left
      have := List.length_pos_iff.mpr hv
      rw [work_kills before h]
      omega
  | findsNone before queue =>
    exact Or.inr (hp.findsNone hplaced queue htime hcpu (by simp [Committed, before]))
  | getsAfterFree before =>
    exact Or.inr (hp.loads hplaced htime hcpu (by simp [Committed, before]) (by simp))
  | getsAfterPut before =>
    exact Or.inr (hp.loads hplaced htime hcpu (by simp [Committed, before]) (by simp))
  | puts p before =>
    have hready := putProc_ready hplaced
      (hs.arrived_of_owner (c := c) (p := p) (by rw [before]; rfl))
    exact Or.inr (Or.inr ⟨hready, c, by simp [Seeking]⟩)
  | slot proc before =>
    cases proc with
    | none =>
      rcases hp with ⟨d, hd⟩ | ⟨hready, _⟩
      · refine Or.inr (committed_of_other hd htime (hcpu d ?_))
        intro heq
        subst heq
        simp [Committed, before] at hd
      · exact Or.inr (Or.inr ⟨hready, c, by simp [Seeking]⟩)
    | some p => exact Or.inr (Or.inl ⟨c, by simp [Committed]⟩)
  | frees p before | stops before done | idles before done | executes p k ins before plain
  | entersKill p k ins before killall | leavesKill p before | freesVictim p v vs before
  | counts p before =>
    exact Or.inr (hp.bystander htime hcpu (fun _ => le_rfl) (by simp [Committed, Seeking, before]))
  | _ =>
    -- the process stays with its CPU, or has just been loaded
    exact Or.inr (Or.inl ⟨c, by simp [Committed]⟩)

end System
end OSsim
