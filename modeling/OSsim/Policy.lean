import OSsim.Fairness
import OSsim.KillByName

/-!
# The selection policy

`get_mlq_proc` serves the highest level that has a process and slots left, and begins a
new round only when there is none. Within a level the queue is first in, first out:
enqueueing appends, serving takes the head, and a kill only thins the queue out.
-/

open scoped List
namespace OSsim.Sched
variable {α : Type*} {s t : Sched α} {a : Call α} {as : List (Call α)}

def SlotsBounded (s : Sched α) : Prop := ∀ i, s.slotUsed i ≤ slot i

theorem SlotsBounded.init : (initScheduler : Sched α).SlotsBounded := fun _ => Nat.zero_le _

theorem SlotsBounded.of_eq (hs : s.SlotsBounded) (h : t.slotUsed = s.slotUsed) :
    t.SlotsBounded := by
  intro i
  rw [h]
  exact hs i

theorem SlotsBounded.getProc (hs : s.SlotsBounded) : s.getProc.2.SlotsBounded := by
  intro j
  rcases s.getProc_rounds with ⟨i, p, q, hi, _, _, he⟩ | ⟨_, i, p, q, _, _, he⟩ | ⟨_, he⟩
  · rw [he]
    by_cases hj : j = i
    · subst hj
      simpa only [Function.update_self, Nat.succ_le_iff] using hi.2
    · simpa only [Function.update_of_ne hj] using hs j
  · rw [he]
    by_cases hj : j = i
    · subst hj
      simpa only [Function.update_self, Nat.succ_le_iff] using slot_pos j
    · simp only [Function.update_of_ne hj, Nat.zero_le]
  · rw [he]
    exact Nat.zero_le _

section Calls
variable [DecidableEq α]

theorem getProc_of_next {result : Option (Fin maxPrio × α)} (h : Next s (.getProc result) t) :
    t = s.getProc.2 := by
  rcases result with _ | ⟨i, p⟩
  · exact (congrArg Prod.snd h).symm
  · exact (congrArg Prod.snd h.1).symm

theorem SlotsBounded.next (hs : s.SlotsBounded) (h : Next s a t) : t.SlotsBounded := by
  cases a with
  | addProc prio p =>
    rw [Next] at h
    exact hs.of_eq (h ▸ putProc_slotUsed _ _ _)
  | putProc prio p =>
    rw [Next] at h
    exact hs.of_eq (h ▸ putProc_slotUsed _ _ _)
  | getProc result =>
    rw [getProc_of_next h]
    exact hs.getProc
  | killProcByName path prio name caller =>
    rw [Next] at h
    exact hs.of_eq (h ▸ killProcByName_slotUsed _ _ _ _ _)
  | finishProc p =>
    rw [Next] at h
    exact hs.of_eq (h ▸ rfl)

end Calls

/-- A call of `get_proc` takes the oldest process of level `i`, leaves the counters
`used` behind and touches no other queue. -/
def Serves (s : Sched α) (i : Fin maxPrio) (used : Fin maxPrio → ℕ) : Prop :=
  ∃ p, s.getProc.1 = some p ∧ (s.mlqReadyQueue i).proc = p :: (s.getProc.2.mlqReadyQueue i).proc ∧
    (∀ c, c ≠ .level i → s.getProc.2.queue c = s.queue c) ∧ s.getProc.2.slotUsed = used

theorem serves_of_eq {i : Fin maxPrio} {p : α} {q : Queue α} {used : Fin maxPrio → ℕ}
    (hq : (s.mlqReadyQueue i).dequeue = some (p, q))
    (he : s.getProc = (some p, { s.modifyLevel i fun _ => q with slotUsed := used })) :
    s.Serves i used := by
  refine ⟨p, by rw [he], ?_, ?_, by rw [he]⟩
  · rw [he, Queue.dequeue_eq_some hq]
    simp only [modifyLevel, Function.update_self]
  · intro c hc
    rw [he]
    cases c with
    | level j =>
      have hj : j ≠ i := fun hj => hc (by rw [hj])
      simp only [queue, modifyLevel, Function.update_of_ne hj]
    | readyQueue => rfl
    | runQueue => rfl
    | runningList => rfl

theorem getProc_serves_eligible {i : Fin maxPrio} (hi : s.Eligible i)
    (hfirst : ∀ j, j < i → ¬ s.Eligible j) :
    s.Serves i (Function.update s.slotUsed i (s.slotUsed i + 1)) := by
  rcases s.getProc_rounds with ⟨k, p, q, hk, hk', hq, he⟩ | ⟨hnone, _⟩ | ⟨hempty, _⟩
  · rcases lt_trichotomy k i with h | h | h
    · exact absurd hk (hfirst k h)
    · subst h
      exact serves_of_eq hq he
    · exact absurd hi (hk' i h)
  · exact absurd hi (hnone i)
  · exact absurd (hempty i) hi.1

theorem getProc_serves_round {i : Fin maxPrio} (hnone : ∀ j, ¬ s.Eligible j)
    (hi : (s.mlqReadyQueue i).proc ≠ []) (hfirst : ∀ j, j < i → (s.mlqReadyQueue j).proc = []) :
    s.Serves i (Function.update (fun _ => 0) i 1) := by
  rcases s.getProc_rounds with ⟨k, _, _, hk, _⟩ | ⟨_, k, p, q, hk', hq, he⟩ | ⟨hempty, _⟩
  · exact absurd hk (hnone k)
  · rcases lt_trichotomy k i with h | h | h
    · have hcons := Queue.dequeue_eq_some hq
      rw [hfirst k h] at hcons
      cases hcons
    · subst h
      exact serves_of_eq hq he
    · exact absurd (hk' i h) hi
  · exact absurd (hempty i) hi

theorem getProc_eq_none_iff (s : Sched α) :
    s.getProc.1 = none ↔ ∀ i, (s.mlqReadyQueue i).proc = [] := by
  constructor
  · exact getProc_eq_none
  · intro h
    rw [getProc_of_empty h]

def Call.arrival (i : Fin maxPrio) : Call α → List α
  | .addProc prio p => if clampPrio prio = i then [p] else []
  | .putProc prio p => if prio = i then [p] else []
  | _ => []

/-- The process that a call returns from level `i`, if it does. -/
def Call.served (i : Fin maxPrio) : Call α → List α
  | .getProc (some (j, p)) => if j = i then [p] else []
  | _ => []

def arrivals (i : Fin maxPrio) (as : List (Call α)) : List α := as.reverse.flatMap (Call.arrival i)
def servedFrom (i : Fin maxPrio) (as : List (Call α)) : List α := as.reverse.flatMap (Call.served i)

theorem putProc_level (s : Sched α) (prio : ℕ) (p : α) (i : Fin maxPrio) :
    ((s.putProc prio p).mlqReadyQueue i).proc <+
      (s.mlqReadyQueue i).proc ++ if prio = i then [p] else [] := by
  unfold putProc
  split_ifs with hprio hi hi
  · obtain rfl : i = ⟨prio, hprio⟩ := Fin.ext hi.symm
    simp only [modifyLevel, Function.update_self]
    unfold Queue.enqueue
    split_ifs
    · exact List.sublist_append_left _ _
    · exact List.Sublist.refl _
  · have hne : i ≠ ⟨prio, hprio⟩ := fun h => hi (by rw [h])
    simp only [modifyLevel, Function.update_of_ne hne, List.append_nil, List.Sublist.refl]
  · exact absurd (hi ▸ i.isLt) hprio
  · rw [List.append_nil]

section Fifo
variable [DecidableEq α]

theorem takeReady_level (s : Sched α) (prio : ℕ) (p : α) (i : Fin maxPrio) :
    ((s.takeReady prio p).2.mlqReadyQueue i).proc <+ (s.mlqReadyQueue i).proc := by
  unfold takeReady
  split_ifs with _ _ hprio
  · exact List.Sublist.refl _
  · exact List.Sublist.refl _
  · by_cases hi : i = ⟨prio, hprio⟩
    · subst hi
      simpa only [modifyLevel, Function.update_self, Queue.removeFromQueue_proc] using
        List.erase_sublist
    · simp only [modifyLevel, Function.update_of_ne hi, List.Sublist.refl]
  · exact List.Sublist.refl _

theorem killProcByName_level (s : Sched α) (path : α → List Char) (prio : α → ℕ)
    (name : List Char) (caller : α) (i : Fin maxPrio) :
    ((s.killProcByName path prio name caller).sched.mlqReadyQueue i).proc <+
      (s.mlqReadyQueue i).proc := by
  refine killLoop_invariant (fun k => (k.sched.mlqReadyQueue i).proc <+ (s.mlqReadyQueue i).proc)
    ?_ ?_ _ _ _ (List.Sublist.refl _)
  · intro k p _ _ _ hk
    exact (takeReady_level k.sched (prio p) p i).trans hk
  · intro k p _ _ _ hk
    exact hk

theorem next_level (h : Next s a t) (i : Fin maxPrio) :
    a.served i ++ (t.mlqReadyQueue i).proc <+ (s.mlqReadyQueue i).proc ++ a.arrival i := by
  cases a with
  | addProc prio p =>
    rw [Next] at h
    subst h
    exact putProc_level _ _ _ _
  | putProc prio p =>
    rw [Next] at h
    subst h
    simpa only [Call.served, Call.arrival, Fin.val_inj, List.nil_append] using
      putProc_level s prio p i
  | killProcByName path prio name caller =>
    rw [Next] at h
    subst h
    simpa [Call.served, Call.arrival] using killProcByName_level s path prio name caller i
  | finishProc p =>
    rw [Next] at h
    subst h
    simp [Call.served, Call.arrival, finishProc]
  | getProc result =>
    rcases result with _ | ⟨j, p⟩
    · rw [getProc_of_next h, getProc_of_empty (getProc_eq_none (congrArg Prod.fst h))]
      simp [Call.served, Call.arrival, resetSlots]
    · rcases s.getProc_cases with ⟨x, k, q, used, hq, he⟩ | he
      · obtain ⟨rfl, _⟩ := level_eq_of_next h he
        by_cases hi : j = i
        · subst hi
          simp [Call.served, Call.arrival, h.2]
        · have ht : t.mlqReadyQueue i = s.mlqReadyQueue i := by
            rw [getProc_of_next h, he]
            simp only [modifyLevel, Function.update_of_ne (Ne.symm hi)]
          simp [Call.served, Call.arrival, hi, ht]
      · cases (Prod.mk.inj (h.1.symm.trans he)).1

theorem run_level (h : Run Next s as t) (i : Fin maxPrio) :
    servedFrom i as ++ (t.mlqReadyQueue i).proc <+ (s.mlqReadyQueue i).proc ++ arrivals i as := by
  induction h with
  | nil => simp [servedFrom, arrivals]
  | @snoc as t t' a hr hn ih =>
    have hstep := next_level hn i
    simp only [servedFrom, arrivals, List.reverse_cons, List.flatMap_append,
      List.flatMap_cons, List.flatMap_nil, List.append_nil, List.append_assoc] at ih ⊢
    calc _ <+ as.reverse.flatMap (Call.served i) ++ ((t.mlqReadyQueue i).proc ++ a.arrival i) :=
          hstep.append_left _
      _ <+ _ := by
          rw [← List.append_assoc, ← List.append_assoc]
          exact ih.append_right _

/-- The counters, the choice and the order of service in every reachable state `s`; the
order is that of the queue in `s` and of what is enqueued in any calls `as` after it. -/
theorem run_policy {before : List (Call α)} (h : Run Next initScheduler before s) :
    (∀ i : Fin maxPrio, s.slotUsed i ≤ maxPrio - i) ∧
    (s.getProc.1 = none ↔ ∀ i, (s.mlqReadyQueue i).proc = []) ∧
    (∀ i, s.Eligible i → (∀ j, j < i → ¬ s.Eligible j) →
      s.Serves i (Function.update s.slotUsed i (s.slotUsed i + 1))) ∧
    (∀ i, (∀ j, ¬ s.Eligible j) → (s.mlqReadyQueue i).proc ≠ [] →
      (∀ j, j < i → (s.mlqReadyQueue j).proc = []) →
      s.Serves i (Function.update (fun _ => 0) i 1)) ∧
    (∀ as t i, Run Next s as t →
      servedFrom i as ++ (t.mlqReadyQueue i).proc <+
        (s.mlqReadyQueue i).proc ++ arrivals i as) := by
  refine ⟨?_, s.getProc_eq_none_iff, ?_, ?_, ?_⟩
  · exact h.invariant SlotsBounded .init fun s a s' hs hn => hs.next hn
  · intro i hi hfirst
    exact getProc_serves_eligible hi hfirst
  · intro i hnone hi hfirst
    exact getProc_serves_round hnone hi hfirst
  · intro as t i hrun
    exact run_level hrun i

theorem run_policy_added :
    ∃ s : Sched ℕ, Run Next initScheduler [.addProc 1 1, .addProc 0 0] s ∧
      s.getProc.1 = some 0 ∧ ∀ i : Fin maxPrio, s.slotUsed i ≤ maxPrio - i := by
  have hrun : Run Next (initScheduler : Sched ℕ) [.addProc 1 1, .addProc 0 0]
      ((initScheduler.addProc 0 0).addProc 1 1) := .snoc (.snoc .nil rfl) rfl
  exact ⟨_, hrun, by decide +kernel, (run_policy hrun).1⟩

end Fifo
end OSsim.Sched
