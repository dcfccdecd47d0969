import OSsim.Sched

/-!
# Where the scheduler operations move a process

A process counts once for every place it takes in the ready queues (`ready`) and in
`running_list` (`listed`). Each operation moves these counts by what it inserts or
removes; only an `enqueue` on a full queue loses something.
-/

open scoped BigOperators
namespace OSsim.Sched
variable {α : Type*} {s s' : Sched α} {p : α}

theorem slot_pos (i : Fin maxPrio) : 0 < slot i := Nat.sub_pos_of_lt i.isLt

/-- Level `i` has a process and has not used up its slots. -/
def Eligible (s : Sched α) (i : Fin maxPrio) : Prop :=
  (s.mlqReadyQueue i).proc ≠ [] ∧ s.slotUsed i < slot i

theorem round_cases (s : Sched α) :
    (∃ i p q, s.Eligible i ∧ (∀ j, j < i → ¬ s.Eligible j) ∧
      (s.mlqReadyQueue i).dequeue = some (p, q) ∧
      s.round = some (p, { s.modifyLevel i fun _ => q with
        slotUsed := Function.update s.slotUsed i (s.slotUsed i + 1) })) ∨
      ((∀ i, ¬ s.Eligible i) ∧ s.round = none) := by
  have hcond : ∀ i, (!(s.mlqReadyQueue i).empty && decide (s.slotUsed i < slot i)) = true ↔
      s.Eligible i := by
    intro i
    simp [Queue.empty, Eligible]
  rcases hf : (List.finRange maxPrio).find? fun i =>
      !(s.mlqReadyQueue i).empty && s.slotUsed i < slot i with _ | i
  · right
    refine ⟨fun i hi => ?_, by simp only [round, hf]⟩
    exact List.find?_eq_none.mp hf i (List.mem_finRange i) ((hcond i).mpr hi)
  · left
    obtain ⟨hi, front, back, hsplit, hfront⟩ := List.find?_eq_some_iff_append.mp hf
    have he := (hcond i).mp hi
    rcases hd : (s.mlqReadyQueue i).dequeue with _ | ⟨p, q⟩
    · exact absurd (Queue.dequeue_eq_none hd) he.1
    · refine ⟨i, p, q, he, fun j hj hej => ?_, hd, by simp only [round, hf, hd]⟩
      -- the levels are scanned in increasing order, so `j` stands before `i`
      have hsorted := List.pairwise_lt_finRange maxPrio
      have hmem := List.mem_finRange j
      rw [hsplit] at hsorted hmem
      rcases List.mem_append.mp hmem with hj' | hj'
      · have := hfront j hj'
        rw [(hcond j).mpr hej] at this
        cases this
      · have hback := (List.pairwise_append.mp hsorted).2.1
        rcases List.mem_cons.mp hj' with rfl | hj'
        · exact lt_irrefl _ hj
        · exact lt_asymm hj (List.rel_of_pairwise_cons hback hj')

/-- `get_mlq_proc` serves the first eligible level, begins a new round to find one, or
finds every level empty. -/
theorem getProc_rounds (s : Sched α) :
    (∃ i p q, s.Eligible i ∧ (∀ j, j < i → ¬ s.Eligible j) ∧
      (s.mlqReadyQueue i).dequeue = some (p, q) ∧
      s.getProc = (some p, { s.modifyLevel i fun _ => q with
        slotUsed := Function.update s.slotUsed i (s.slotUsed i + 1) })) ∨
    ((∀ i, ¬ s.Eligible i) ∧ ∃ i p q, (∀ j, j < i → (s.mlqReadyQueue j).proc = []) ∧
      (s.mlqReadyQueue i).dequeue = some (p, q) ∧
      s.getProc = (some p, { s.modifyLevel i fun _ => q with
        slotUsed := Function.update (fun _ => 0) i 1 })) ∨
    ((∀ i, (s.mlqReadyQueue i).proc = []) ∧ s.getProc = (none, s.resetSlots)) := by
  have hreset : ∀ i, ¬ s.resetSlots.Eligible i → (s.mlqReadyQueue i).proc = [] := by
    intro i hi
    by_contra hne
    exact hi ⟨hne, slot_pos i⟩
  rcases s.round_cases with ⟨i, p, q, hi, hfirst, hq, he⟩ | ⟨hnone, he₁⟩
  · exact Or.inl ⟨i, p, q, hi, hfirst, hq, by simp only [getProc, he]⟩
  · right
    rcases s.resetSlots.round_cases with ⟨i, p, q, _, hfirst, hq, he₂⟩ | ⟨hnone₂, he₂⟩
    · left
      refine ⟨hnone, i, p, q, fun j hj => hreset j (hfirst j hj), hq, ?_⟩
      simp only [getProc, he₁, he₂]
      rfl
    · right
      exact ⟨fun i => hreset i (hnone₂ i), by simp only [getProc, he₁, he₂]⟩

theorem getProc_cases (s : Sched α) :
    (∃ p i q used, (s.mlqReadyQueue i).dequeue = some (p, q) ∧
      s.getProc = (some p, { s.modifyLevel i fun _ => q with slotUsed := used })) ∨
      s.getProc = (none, s.resetSlots) := by
  rcases s.getProc_rounds with ⟨i, p, q, _, _, hq, he⟩ | ⟨_, i, p, q, _, hq, he⟩ | ⟨_, he⟩
  · exact Or.inl ⟨p, i, q, _, hq, he⟩
  · exact Or.inl ⟨p, i, q, _, hq, he⟩
  · exact Or.inr he

theorem getProc_eq_none (h : s.getProc.1 = none) (i : Fin maxPrio) :
    (s.mlqReadyQueue i).proc = [] := by
  rcases s.getProc_rounds with ⟨j, p, q, _, _, _, he⟩ | ⟨_, j, p, q, _, _, he⟩ | ⟨hempty, _⟩
  · rw [he] at h
    cases h
  · rw [he] at h
    cases h
  · exact hempty i

theorem getProc_of_empty (h : ∀ i, (s.mlqReadyQueue i).proc = []) :
    s.getProc = (none, s.resetSlots) := by
  rcases s.getProc_cases with ⟨p, i, q, used, hq, _⟩ | he
  · have hi := Queue.dequeue_eq_some hq
    rw [h i] at hi
    cases hi
  · exact he

theorem getProc_runningList (s : Sched α) : s.getProc.2.runningList = s.runningList := by
  rcases s.getProc_cases with ⟨p, i, q, used, _, he⟩ | he <;> rw [he] <;> rfl

theorem putProc_runningList (s : Sched α) (prio : ℕ) (p : α) :
    (s.putProc prio p).runningList = s.runningList := by
  unfold putProc
  split_ifs <;> rfl

theorem putProc_slotUsed (s : Sched α) (prio : ℕ) (p : α) :
    (s.putProc prio p).slotUsed = s.slotUsed := by
  unfold putProc
  split_ifs <;> rfl

theorem addProc_runningList (s : Sched α) (prio : ℕ) (p : α) :
    (s.addProc prio p).runningList = s.runningList.enqueue p :=
  putProc_runningList _ _ _

theorem clampPrio_lt (prio : ℕ) : clampPrio prio < maxPrio := by
  unfold clampPrio maxPrio
  split_ifs <;> omega

/-- No process stands in a ready queue of `s'` that was not in the same queue of `s`. -/
structure Within (s' s : Sched α) : Prop where
  ready : s'.readyQueue.proc ⊆ s.readyQueue.proc
  run : s'.runQueue.proc ⊆ s.runQueue.proc
  level : ∀ i, (s'.mlqReadyQueue i).proc ⊆ (s.mlqReadyQueue i).proc

theorem Within.refl (s : Sched α) : s.Within s :=
  ⟨List.Subset.refl _, List.Subset.refl _, fun _ => List.Subset.refl _⟩

theorem Within.trans {u : Sched α} (h : u.Within s') (h' : s'.Within s) : u.Within s :=
  ⟨List.Subset.trans h.ready h'.ready, List.Subset.trans h.run h'.run,
    fun i => List.Subset.trans (h.level i) (h'.level i)⟩

theorem modifyLevel_within {i : Fin maxPrio} {f : Queue α → Queue α}
    (h : (f (s.mlqReadyQueue i)).proc ⊆ (s.mlqReadyQueue i).proc) :
    (s.modifyLevel i f).Within s := by
  refine ⟨List.Subset.refl _, List.Subset.refl _, fun j => ?_⟩
  by_cases hj : j = i
  · subst hj
    simpa only [modifyLevel, Function.update_self] using h
  · simp only [modifyLevel, Function.update_of_ne hj, List.Subset.refl]

theorem getProc_within (s : Sched α) : s.getProc.2.Within s := by
  rcases s.getProc_cases with ⟨p, i, q, used, hq, he⟩ | he
  · rw [he]
    have hw : (s.modifyLevel i fun _ => q).Within s := by
      apply modifyLevel_within
      rw [Queue.dequeue_eq_some hq]
      exact List.subset_cons_self _ _
    exact ⟨hw.ready, hw.run, hw.level⟩
  · rw [he]
    exact ⟨List.Subset.refl _, List.Subset.refl _, fun _ => List.Subset.refl _⟩

section Count
variable [DecidableEq α]

def ready (s : Sched α) (p : α) : ℕ :=
  s.readyQueue.proc.count p + s.runQueue.proc.count p + ∑ i, (s.mlqReadyQueue i).proc.count p

def listed (s : Sched α) (p : α) : ℕ := s.runningList.proc.count p

@[simp] theorem ready_resetSlots (s : Sched α) (a : α) : s.resetSlots.ready a = s.ready a := by
  simp only [ready, resetSlots]

theorem ready_modifyLevel (s : Sched α) (i : Fin maxPrio) (f : Queue α → Queue α) (a : α) :
    (s.modifyLevel i f).ready a + (s.mlqReadyQueue i).proc.count a =
      s.ready a + (f (s.mlqReadyQueue i)).proc.count a := by
  have h := Accounting.sum_update Finset.univ (fun q : Queue α => q.proc.count a)
    s.mlqReadyQueue (Finset.mem_univ i) (f (s.mlqReadyQueue i))
  simp only [ready, modifyLevel]
  omega

theorem count_level_le (s : Sched α) (i : Fin maxPrio) (a : α) :
    (s.mlqReadyQueue i).proc.count a ≤ s.ready a := by
  have h := Finset.single_le_sum (f := fun i => (s.mlqReadyQueue i).proc.count a)
    (fun _ _ => Nat.zero_le _) (Finset.mem_univ i)
  simp only [ready]
  omega

theorem ready_getProc (s : Sched α) (a : α) :
    s.getProc.2.ready a + s.getProc.1.toList.count a = s.ready a := by
  rcases s.getProc_cases with ⟨p, i, q, used, hq, he⟩ | he
  · rw [he]
    have hl := s.ready_modifyLevel i (fun _ => q) a
    have hc := Queue.count_dequeue hq a
    simp only [ready, Option.toList_some] at hl ⊢
    omega
  · simp [he]

theorem ready_putProc_le (s : Sched α) (prio : ℕ) (p a : α) :
    (s.putProc prio p).ready a ≤ s.ready a + [p].count a := by
  unfold putProc
  split_ifs with h
  · have hl := s.ready_modifyLevel ⟨prio, h⟩ (fun q => q.enqueue p) a
    have hc := (s.mlqReadyQueue ⟨prio, h⟩).count_enqueue_le p a
    omega
  · exact Nat.le_add_right _ _

theorem ready_putProc (prio : Fin maxPrio)
    (h : (s.mlqReadyQueue prio).proc.length < maxQueueSize) (p a : α) :
    (s.putProc prio p).ready a = s.ready a + [p].count a := by
  rw [putProc, dif_pos prio.isLt]
  have hl := s.ready_modifyLevel prio (fun q => q.enqueue p) a
  rw [Queue.enqueue_proc_of_lt h, List.count_append] at hl
  simp only [Fin.eta]
  omega

theorem ready_addProc_le (s : Sched α) (prio : ℕ) (p a : α) :
    (s.addProc prio p).ready a ≤ s.ready a + [p].count a :=
  ready_putProc_le { s with runningList := s.runningList.enqueue p } _ p a

theorem ready_addProc (prio : ℕ)
    (h : (s.mlqReadyQueue ⟨clampPrio prio, clampPrio_lt prio⟩).proc.length < maxQueueSize)
    (p a : α) : (s.addProc prio p).ready a = s.ready a + [p].count a :=
  ready_putProc (s := { s with runningList := s.runningList.enqueue p })
    ⟨clampPrio prio, clampPrio_lt prio⟩ h p a

theorem listed_addProc (h : s.runningList.proc.length < maxQueueSize) (prio : ℕ) (p a : α) :
    (s.addProc prio p).listed a = s.listed a + [p].count a := by
  rw [listed, addProc_runningList, Queue.enqueue_proc_of_lt h, List.count_append, listed]

theorem listed_addProc_of_full (h : maxQueueSize ≤ s.runningList.proc.length) (prio : ℕ)
    (p a : α) : (s.addProc prio p).listed a = s.listed a := by
  rw [listed, addProc_runningList, Queue.enqueue_of_full h, listed]

theorem listed_addProc_le (s : Sched α) (prio : ℕ) (p a : α) :
    (s.addProc prio p).listed a ≤ s.listed a + [p].count a := by
  rw [listed, addProc_runningList]
  exact s.runningList.count_enqueue_le p a

@[simp] theorem ready_finishProc (s : Sched α) (p a : α) :
    (s.finishProc p).ready a = s.ready a := by
  simp only [ready, finishProc]

theorem finishProc_of_notMem (h : p ∉ s.runningList.proc) : s.finishProc p = s := by
  rw [finishProc, Queue.remove_of_notMem h]

theorem listed_finishProc (h : p ∈ s.runningList.proc) (a : α) :
    (s.finishProc p).listed a + [p].count a = s.listed a :=
  Queue.count_remove_add h a

theorem takeReady_of_false {prio : ℕ} (h : (s.takeReady prio p).1 = false) :
    (s.takeReady prio p).2 = s := by
  unfold takeReady at h ⊢
  split_ifs at h ⊢ with h₁ h₂ h₃
  · simp only [Queue.removeFromQueue_fst, decide_eq_false_iff_not] at h
    simp only [modifyLevel, Queue.remove_of_notMem h, Function.update_eq_self]
  · rfl

theorem takeReady_runningList (s : Sched α) (prio : ℕ) (p : α) :
    (s.takeReady prio p).2.runningList = s.runningList := by
  unfold takeReady
  split_ifs <;> rfl

theorem ready_takeReady {prio : ℕ} (h : (s.takeReady prio p).1 = true) (a : α) :
    (s.takeReady prio p).2.ready a + [p].count a = s.ready a := by
  unfold takeReady at h ⊢
  split_ifs at h ⊢ with h₁ h₂ h₃
  · rw [Queue.removeFromQueue_fst, decide_eq_true_eq] at h₁
    have := Queue.count_remove_add h₁ a
    simp only [ready]
    omega
  · rw [Queue.removeFromQueue_fst, decide_eq_true_eq] at h₂
    have := Queue.count_remove_add h₂ a
    simp only [ready]
    omega
  · rw [Queue.removeFromQueue_fst, decide_eq_true_eq] at h
    have hl := s.ready_modifyLevel ⟨prio, h₃⟩ (fun q => (q.removeFromQueue p).2) a
    have := Queue.count_remove_add h a
    simp only
    omega

theorem takeReady_within (s : Sched α) (prio : ℕ) (p : α) : (s.takeReady prio p).2.Within s := by
  unfold takeReady
  split_ifs
  · refine ⟨?_, List.Subset.refl _, fun _ => List.Subset.refl _⟩
    rw [Queue.removeFromQueue_proc]
    exact List.erase_subset
  · refine ⟨List.Subset.refl _, ?_, fun _ => List.Subset.refl _⟩
    rw [Queue.removeFromQueue_proc]
    exact List.erase_subset
  · dsimp only
    apply modifyLevel_within
    rw [Queue.removeFromQueue_proc]
    exact List.erase_subset
  · exact Within.refl s

section Loop
variable {hit : α → Bool} {prio : α → ℕ}

/-- What both kinds of match keep, a waiting process and a running one, the whole loop
keeps. -/
theorem killLoop_invariant (I : Killed α → Prop)
    (hwaiting : ∀ r p, hit p → p ∈ r.sched.runningList.proc →
      (r.sched.takeReady (prio p) p).1 = true → I r →
      I ⟨(r.sched.takeReady (prio p) p).2.finishProc p, r.killed ++ [p], r.victims ++ [p]⟩)
    (hrunning : ∀ r p, hit p → p ∈ r.sched.runningList.proc →
      (r.sched.takeReady (prio p) p).1 = false → I r → I ⟨r.sched, r.killed ++ [p], r.victims⟩)
    (fuel i : ℕ) (r : Killed α) (hr : I r) : I (killLoop hit prio fuel i r) := by
  induction fuel generalizing i r with
  | zero => exact hr
  | succ fuel ih =>
    rw [killLoop]
    split
    · exact hr
    · next p hp =>
      have hmem := List.mem_of_getElem? hp
      split_ifs with hhit hready
      · exact ih _ _ (hwaiting r p hhit hmem hready hr)
      · have hready' : (r.sched.takeReady (prio p) p).1 = false := by simpa using hready
        rw [takeReady_of_false hready']
        exact ih _ _ (hrunning r p hhit hmem hready' hr)
      · exact ih _ _ hr

end Loop

theorem counts_taken {prio : ℕ} (hp : p ∈ s.runningList.proc)
    (hready : (s.takeReady prio p).1 = true) (a : α) :
    ((s.takeReady prio p).2.finishProc p).ready a + [p].count a = s.ready a ∧
      ((s.takeReady prio p).2.finishProc p).listed a + [p].count a = s.listed a := by
  have hl := (takeReady_runningList s prio p).symm
  constructor
  · rw [ready_finishProc]
    exact ready_takeReady hready a
  · rw [hl] at hp
    rw [listed_finishProc hp a, listed, listed, hl]

theorem killProcByName_counts (s : Sched α) (path : α → List Char) (prio : α → ℕ)
    (name : List Char) (caller a : α) :
    let k := s.killProcByName path prio name caller
    k.sched.ready a + k.victims.count a = s.ready a ∧
      k.sched.listed a + k.victims.count a = s.listed a := by
  refine killLoop_invariant (fun k => k.sched.ready a + k.victims.count a = s.ready a ∧
    k.sched.listed a + k.victims.count a = s.listed a) ?_ ?_ _ _ _
    ⟨Nat.add_zero _, Nat.add_zero _⟩
  · intro r p _ hp hready hconj
    have hcounts := counts_taken hp hready a
    dsimp only
    rw [List.count_append]
    omega
  · intro r p _ _ _ h
    exact h

theorem killProcByName_within (s : Sched α) (path : α → List Char) (prio : α → ℕ)
    (name : List Char) (caller : α) : (s.killProcByName path prio name caller).sched.Within s := by
  refine killLoop_invariant (fun k => k.sched.Within s) ?_ ?_ _ _ _ (Within.refl s)
  · intro r p _ _ _ hr
    have ht := (takeReady_within r.sched (prio p) p).trans hr
    exact ⟨ht.ready, ht.run, ht.level⟩
  · intro r p _ _ _ hr
    exact hr

theorem takeReady_slotUsed (s : Sched α) (prio : ℕ) (p : α) :
    (s.takeReady prio p).2.slotUsed = s.slotUsed := by
  unfold takeReady
  split_ifs <;> rfl

theorem killProcByName_slotUsed (s : Sched α) (path : α → List Char) (prio : α → ℕ)
    (name : List Char) (caller : α) :
    (s.killProcByName path prio name caller).sched.slotUsed = s.slotUsed := by
  refine killLoop_invariant (fun k => k.sched.slotUsed = s.slotUsed) ?_ ?_ _ _ _ rfl
  · intro r p _ _ _ hr
    exact (takeReady_slotUsed r.sched (prio p) p).trans hr
  · intro r p _ _ _ hr
    exact hr

end Count
end OSsim.Sched
