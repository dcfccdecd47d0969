import OSsim.SchedSpec

/-!
# Termination by name

`kill_proc_by_name` walks through `running_list` while it takes entries out of it. It
meets every entry once all the same: an entry that leaves makes room for the next one at
the same index. On queues that hold each waiting process once, at the level of its
priority, what it does to every queue is to filter the victims out of it.
-/

namespace OSsim.Sched
variable {α : Type*} [DecidableEq α] {s : Sched α} {hit : α → Bool} {prio : α → ℕ}

theorem drop_erase_getElem {l : List α} {i : ℕ} {p : α} (h : l[i]? = some p) :
    (l.erase p).drop i = l.drop (i + 1) := by
  induction l generalizing i with
  | nil => simp at h
  | cons a l ih =>
    cases i with
    | zero =>
      rw [List.getElem?_cons_zero, Option.some.injEq] at h
      subst h
      simp
    | succ i =>
      rw [List.getElem?_cons_succ] at h
      by_cases ha : a = p
      · subst ha
        simp
      · rw [List.erase_cons_tail (by simpa using ha)]
        simpa using ih h

theorem killLoop_killed (fuel i : ℕ) (r : Killed α)
    (hfuel : (r.sched.runningList.proc.drop i).length ≤ fuel) :
    (killLoop hit prio fuel i r).killed =
      r.killed ++ (r.sched.runningList.proc.drop i).filter hit := by
  induction fuel generalizing i r with
  | zero =>
    rw [List.length_eq_zero_iff.mp (Nat.le_zero.mp hfuel)]
    simp [killLoop]
  | succ fuel ih =>
    rw [killLoop]
    split
    · next hnone =>
      rw [List.drop_eq_nil_of_le (List.getElem?_eq_none_iff.mp hnone)]
      simp
    · next p hp =>
      obtain ⟨hi, hpi⟩ := List.getElem?_eq_some_iff.mp hp
      have hdrop : r.sched.runningList.proc.drop i =
          p :: r.sched.runningList.proc.drop (i + 1) := by
        rw [List.drop_eq_getElem_cons hi, hpi]
      rw [hdrop, List.length_cons] at hfuel
      rw [hdrop]
      split_ifs with hhit hready
      · have hlist : ((r.sched.takeReady (prio p) p).2.finishProc p).runningList.proc =
            r.sched.runningList.proc.erase p := by
          rw [finishProc, Queue.removeFromQueue_proc, takeReady_runningList]
        rw [ih, hlist, drop_erase_getElem hp, List.filter_cons_of_pos hhit]
        · simp
        · rw [hlist, drop_erase_getElem hp]
          omega
      · rw [ih, takeReady_runningList, List.filter_cons_of_pos hhit]
        · simp
        · rw [takeReady_runningList]
          omega
      · rw [ih _ _ (by omega), List.filter_cons_of_neg hhit]

def Matches (path : α → List Char) (name : List Char) (caller p : α) : Prop :=
  p ≠ caller ∧ procName (path p) = name

instance (path : α → List Char) (name : List Char) (caller p : α) :
    Decidable (Matches path name caller p) := inferInstanceAs (Decidable (_ ∧ _))

theorem killProcByName_killed (s : Sched α) (path : α → List Char) (prio : α → ℕ)
    (name : List Char) (caller : α) :
    (s.killProcByName path prio name caller).killed =
      s.runningList.proc.filter fun p => Matches path name caller p := by
  rw [killProcByName, killLoop_killed _ _ _ (by rw [List.drop_zero])]
  rw [List.nil_append, List.drop_zero]
  apply List.filter_congr
  intro p _
  rw [Bool.eq_iff_iff, decide_eq_true_iff]
  simp [Matches]

inductive QueueId
  | readyQueue
  | runQueue
  | runningList
  | level (i : Fin maxPrio)

def queue (s : Sched α) : QueueId → Queue α
  | .readyQueue => s.readyQueue
  | .runQueue => s.runQueue
  | .runningList => s.runningList
  | .level i => s.mlqReadyQueue i

/-- `running_list` has no duplicates, and a process in a ready queue is there once, at the
level of its priority, and is listed. -/
structure WellQueued (s : Sched α) (prio : α → ℕ) : Prop where
  listed : s.runningList.proc.Nodup
  waiting : ∀ p, 0 < s.ready p → s.ready p = 1 ∧ p ∈ s.runningList.proc ∧
    ∃ h : prio p < maxPrio, p ∈ (s.mlqReadyQueue ⟨prio p, h⟩).proc

namespace WellQueued

theorem count_eq_one (hs : s.WellQueued prio) {p : α} (hp : 0 < s.ready p) :
    ∃ h : prio p < maxPrio, (s.mlqReadyQueue ⟨prio p, h⟩).proc.count p = 1 ∧
      p ∉ s.readyQueue.proc ∧ p ∉ s.runQueue.proc ∧
      ∀ i, i ≠ ⟨prio p, h⟩ → p ∉ (s.mlqReadyQueue i).proc := by
  obtain ⟨hone, _, h, hmem⟩ := hs.waiting p hp
  have hpos := List.count_pos_iff.mpr hmem
  have hsum := Finset.add_sum_erase Finset.univ (fun i => (s.mlqReadyQueue i).proc.count p)
    (Finset.mem_univ ⟨prio p, h⟩)
  rw [ready, ← hsum] at hone
  refine ⟨h, by omega, List.count_eq_zero.mp (by omega), List.count_eq_zero.mp (by omega), ?_⟩
  intro i hi
  have hle := Finset.single_le_sum (f := fun i => (s.mlqReadyQueue i).proc.count p)
    (fun _ _ => Nat.zero_le _) (Finset.mem_erase.mpr ⟨hi, Finset.mem_univ i⟩)
  exact List.count_eq_zero.mp (by omega)

theorem nodup_of_le_ready (hs : s.WellQueued prio) {l : List α}
    (hl : ∀ a, l.count a ≤ s.ready a) : l.Nodup := by
  rw [List.nodup_iff_count_le_one]
  intro a
  have hle := hl a
  rcases Nat.eq_zero_or_pos (s.ready a) with h | h
  · omega
  · have := (hs.waiting a h).1
    omega

theorem queue_nodup (hs : s.WellQueued prio) (c : QueueId) : (s.queue c).proc.Nodup := by
  cases c with
  | readyQueue => exact hs.nodup_of_le_ready fun a => by simp only [queue, ready]; omega
  | runQueue => exact hs.nodup_of_le_ready fun a => by simp only [queue, ready]; omega
  | runningList => exact hs.listed
  | level i => exact hs.nodup_of_le_ready fun a => s.count_level_le i a

theorem takeReady_eq (hs : s.WellQueued prio) {p : α} (hp : 0 < s.ready p) :
    ∃ h : prio p < maxPrio, s.takeReady (prio p) p =
      (true, s.modifyLevel ⟨prio p, h⟩ fun q => (q.removeFromQueue p).2) := by
  obtain ⟨h, hone, hready, hrun, _⟩ := hs.count_eq_one hp
  have hmem : p ∈ (s.mlqReadyQueue ⟨prio p, h⟩).proc := List.count_pos_iff.mp (by omega)
  refine ⟨h, ?_⟩
  simp [takeReady, hready, hrun, h, hmem]

theorem taken_queue (hs : s.WellQueued prio) {p : α} (hp : 0 < s.ready p) (c : QueueId) :
    (((s.takeReady (prio p) p).2.finishProc p).queue c).proc = (s.queue c).proc.erase p := by
  obtain ⟨h, _, hready, hrun, hlevel⟩ := hs.count_eq_one hp
  obtain ⟨_, he⟩ := hs.takeReady_eq hp
  rw [he]
  cases c with
  | readyQueue => exact (List.erase_of_not_mem hready).symm
  | runQueue => exact (List.erase_of_not_mem hrun).symm
  | runningList => exact Queue.removeFromQueue_proc _ _
  | level i =>
    by_cases hi : i = ⟨prio p, h⟩
    · subst hi
      simp [queue, finishProc, modifyLevel]
    · simp only [queue, finishProc, modifyLevel, Function.update_of_ne hi]
      exact (List.erase_of_not_mem (hlevel i hi)).symm

theorem not_waiting (hs : s.WellQueued prio) {p : α} (h : (s.takeReady (prio p) p).1 = false) :
    s.ready p = 0 := by
  by_contra hne
  obtain ⟨_, he⟩ := hs.takeReady_eq (Nat.pos_of_ne_zero hne)
  rw [he] at h
  cases h

end WellQueued

structure KillInv (s : Sched α) (prio : α → ℕ) (k : Killed α) : Prop where
  queue : ∀ c, (k.sched.queue c).proc = (s.queue c).proc.filter (· ∉ k.victims)
  ready : ∀ p, k.sched.ready p + k.victims.count p = s.ready p
  listed : ∀ p, k.sched.listed p + k.victims.count p = s.listed p
  victims : k.victims ⊆ k.killed
  waiting : ∀ p ∈ k.killed, 0 < s.ready p → p ∈ k.victims

namespace KillInv
variable {k : Killed α}

theorem wellQueued (hk : KillInv s prio k) (hs : s.WellQueued prio) :
    k.sched.WellQueued prio := by
  have hkeep : ∀ p c, p ∉ k.victims → p ∈ (s.queue c).proc → p ∈ (k.sched.queue c).proc := by
    intro p c hp hmem
    rw [hk.queue c]
    exact List.mem_filter.mpr ⟨hmem, by simpa using hp⟩
  constructor
  · have hnodup := hs.listed.filter (· ∉ k.victims)
    change (List.filter _ (s.queue .runningList).proc).Nodup at hnodup
    rw [← hk.queue] at hnodup
    exact hnodup
  · intro p hp
    have hready := hk.ready p
    obtain ⟨hone, hlisted, h, hlevel⟩ := hs.waiting p (by omega)
    have hp' : p ∉ k.victims := List.count_eq_zero.mp (by omega)
    exact ⟨by omega, hkeep p .runningList hp' hlisted, h, hkeep p (.level _) hp' hlevel⟩

theorem of_waiting (hk : KillInv s prio k) (hs : s.WellQueued prio) {p : α}
    (hmem : p ∈ k.sched.runningList.proc) (hready : (k.sched.takeReady (prio p) p).1 = true) :
    KillInv s prio ⟨(k.sched.takeReady (prio p) p).2.finishProc p, k.killed ++ [p],
      k.victims ++ [p]⟩ := by
  have hw := hk.wellQueued hs
  have hpos : 0 < k.sched.ready p := by
    have := ready_takeReady hready p
    rw [List.count_singleton_self] at this
    omega
  constructor
  · intro c
    rw [hw.taken_queue hpos, (hw.queue_nodup c).erase_eq_filter, hk.queue, List.filter_filter]
    apply List.filter_congr
    intro a _
    rw [Bool.eq_iff_iff]
    simp [and_comm]
  · intro a
    have := hk.ready a
    have := counts_taken hmem hready a
    dsimp only
    rw [List.count_append]
    omega
  · intro a
    have := hk.listed a
    have := counts_taken hmem hready a
    dsimp only
    rw [List.count_append]
    omega
  · exact List.append_subset.mpr
      ⟨List.subset_append_of_subset_left _ hk.victims, List.subset_append_right _ _⟩
  · intro a ha hpos
    rw [List.mem_append] at ha ⊢
    exact ha.imp_left fun ha => hk.waiting a ha hpos

theorem of_running (hk : KillInv s prio k) (hs : s.WellQueued prio) {p : α}
    (hready : (k.sched.takeReady (prio p) p).1 = false) :
    KillInv s prio ⟨k.sched, k.killed ++ [p], k.victims⟩ := by
  refine ⟨hk.queue, hk.ready, hk.listed, List.subset_append_of_subset_left _ hk.victims, ?_⟩
  intro a ha hpos
  rcases List.mem_append.mp ha with ha | ha
  · exact hk.waiting a ha hpos
  · -- a match that is in no ready queue now and was in one has been handed out
    have hzero := (hk.wellQueued hs).not_waiting hready
    have hcount := hk.ready p
    rw [List.mem_singleton.mp ha] at hpos
    have hv : p ∈ k.victims := List.count_pos_iff.mp (by omega)
    rwa [List.mem_singleton.mp ha]

end KillInv

theorem killProcByName_inv (hs : s.WellQueued prio) (path : α → List Char) (name : List Char)
    (caller : α) : KillInv s prio (s.killProcByName path prio name caller) := by
  refine killLoop_invariant (KillInv s prio) ?_ ?_ _ _ _ ?_
  · intro k p _ hmem hready hk
    exact hk.of_waiting hs hmem hready
  · intro k p _ _ hready hk
    exact hk.of_running hs hready
  · exact ⟨by simp, by simp, by simp, by simp, by simp⟩

theorem killProcByName_exact (hs : s.WellQueued prio) (path : α → List Char) (name : List Char)
    (caller : α) :
    let k := s.killProcByName path prio name caller
    k.killed.length = s.runningList.proc.countP (fun p => Matches path name caller p) ∧
    (∀ p, p ∈ k.killed ↔ p ∈ s.runningList.proc ∧ Matches path name caller p) ∧
    k.victims.Nodup ∧ k.victims.length ≤ maxQueueSize ∧
    (∀ p, p ∈ k.victims ↔
      p ∈ s.runningList.proc ∧ Matches path name caller p ∧ 0 < s.ready p) ∧
    (∀ p ∈ k.victims, k.sched.ready p = 0 ∧ p ∉ k.sched.runningList.proc) ∧
    (∀ p ∈ k.killed, p ∉ k.victims → p ∈ k.sched.runningList.proc) ∧
    (∀ c, (k.sched.queue c).proc = (s.queue c).proc.filter (· ∉ k.victims)) ∧
    k.sched.slotUsed = s.slotUsed := by
  intro k
  have hk : KillInv s prio k := killProcByName_inv hs path name caller
  have hkilled : k.killed = _ := s.killProcByName_killed path prio name caller
  have hmem : ∀ p, p ∈ k.killed ↔ p ∈ s.runningList.proc ∧ Matches path name caller p := by
    intro p
    rw [hkilled, List.mem_filter, decide_eq_true_iff]
  have hone : ∀ p, k.victims.count p ≤ 1 := by
    intro p
    have := hk.listed p
    have := List.nodup_iff_count_le_one.mp hs.listed p
    rw [listed, listed] at *
    omega
  have hnodup : k.victims.Nodup := List.nodup_iff_count_le_one.mpr hone
  have hsub : k.victims ⊆ s.runningList.proc := fun p hp => ((hmem p).mp (hk.victims hp)).1
  have hwaiting : ∀ p, p ∈ k.victims ↔
      p ∈ s.runningList.proc ∧ Matches path name caller p ∧ 0 < s.ready p := by
    intro p
    constructor
    · intro hp
      have hcount := hk.ready p
      have hpos := List.count_pos_iff.mpr hp
      obtain ⟨hlist, hmatch⟩ := (hmem p).mp (hk.victims hp)
      exact ⟨hlist, hmatch, by omega⟩
    · intro hp
      exact hk.waiting p ((hmem p).mpr ⟨hp.1, hp.2.1⟩) hp.2.2
  refine ⟨?_, hmem, hnodup, ?_, hwaiting, ?_, ?_, hk.queue, ?_⟩
  · rw [hkilled, List.countP_eq_length_filter]
  · exact (hnodup.subperm hsub).length_le.trans s.runningList.size_le
  · intro p hp
    have hcount := hk.ready p
    have hpos := List.count_pos_iff.mpr hp
    have hready := (hs.waiting p ((hwaiting p).mp hp).2.2).1
    refine ⟨by omega, fun hlist => ?_⟩
    have hfilter := hk.queue .runningList
    rw [queue, queue] at hfilter
    rw [hfilter, List.mem_filter] at hlist
    simpa [hp] using hlist.2
  · intro p hp hv
    have hfilter := hk.queue .runningList
    rw [queue, queue] at hfilter
    rw [hfilter, List.mem_filter]
    exact ⟨((hmem p).mp hp).1, by simpa using hv⟩
  · exact killProcByName_slotUsed _ _ _ _ _

/-- Process 0 runs and process 1 waits when process 2 kills both. -/
theorem killProcByName_exact_two :
    let s : Sched ℕ := ((initScheduler.addProc 0 0).addProc 1 1).getProc.2
    let k := s.killProcByName (fun _ => ['p']) id ['p'] 2
    s.WellQueued id ∧ k.killed = [0, 1] ∧ k.victims.Nodup ∧ k.victims = [1] := by
  intro s k
  have hs : s.WellQueued id := by
    refine ⟨by decide +kernel, fun p hp => ?_⟩
    have hget := ((initScheduler.addProc 0 0).addProc 1 1).ready_getProc p
    have hone := ready_addProc_le (initScheduler.addProc 0 0) 1 1 p
    have hzero := ready_addProc_le (initScheduler (α := ℕ)) 0 0 p
    have hinit : (initScheduler (α := ℕ)).ready p = 0 := by simp [ready, initScheduler]
    have hcount : 0 < [0].count p + [1].count p := by
      change 0 < (((initScheduler.addProc 0 0).addProc 1 1).getProc.2).ready p at hp
      omega
    rcases p with _ | _ | p
    · exact absurd hp (by decide +kernel)
    · decide +kernel
    · simp at hcount
  exact ⟨hs, by decide +kernel, (killProcByName_exact hs (fun _ => ['p']) ['p'] 2).2.2.1,
    by decide +kernel⟩

end OSsim.Sched
