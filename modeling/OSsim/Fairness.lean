import OSsim.SchedSpec
import OSsim.Lib.Run

/-!
# Lower priorities do not starve

A level that waits with slots left is only passed over for a higher one, and each of
these has its own slots to use up. When the level's slots are used up, the round ends
after the slots of the other levels at the latest, and the next round can only end after
the level has been served again.
-/

open scoped BigOperators
namespace OSsim.Sched
variable {α : Type*} {s t : Sched α} {p : Fin maxPrio}

def slotsLeft (S : Finset (Fin maxPrio)) (s : Sched α) : ℕ := ∑ i ∈ S, (slot i - s.slotUsed i)

def above (p : Fin maxPrio) : Finset (Fin maxPrio) := Finset.univ.filter (· < p)
def others (p : Fin maxPrio) : Finset (Fin maxPrio) := Finset.univ.filter (· ≠ p)

def patience (p : Fin maxPrio) (s : Sched α) : ℕ :=
  if s.slotUsed p < slot p then slotsLeft (above p) s
  else slotsLeft (others p) s + ∑ i ∈ above p, slot i

theorem slotsLeft_le (S : Finset (Fin maxPrio)) (s : Sched α) : slotsLeft S s ≤ ∑ i ∈ S, slot i :=
  Finset.sum_le_sum fun _ _ => Nat.sub_le _ _

theorem patience_le (p : Fin maxPrio) (s : Sched α) :
    s.patience p ≤ ∑ i ∈ others p, slot i + ∑ i ∈ above p, slot i := by
  unfold patience
  split_ifs
  · exact (slotsLeft_le _ s).trans (Nat.le_add_left _ _)
  · exact Nat.add_le_add_right (slotsLeft_le _ s) _

theorem patience_congr (h : t.slotUsed = s.slotUsed) : t.patience p = s.patience p := by
  simp only [patience, slotsLeft, h]

theorem slotsLeft_lt {S : Finset (Fin maxPrio)} {i : Fin maxPrio} (hi : i ∈ S)
    (hlt : s.slotUsed i < slot i)
    (ht : t.slotUsed = Function.update s.slotUsed i (s.slotUsed i + 1)) :
    slotsLeft S t < slotsLeft S s := by
  apply Finset.sum_lt_sum
  · intro j _
    rw [ht]
    by_cases hj : j = i
    · subst hj
      rw [Function.update_self]
      omega
    · rw [Function.update_of_ne hj]
  · refine ⟨i, hi, ?_⟩
    rw [ht, Function.update_self]
    omega

theorem patience_lt_of_served {i : Fin maxPrio} (hwait : (s.mlqReadyQueue p).proc ≠ [])
    (hi : s.Eligible i) (hfirst : ∀ j, j < i → ¬ s.Eligible j) (hip : i ≠ p)
    (ht : t.slotUsed = Function.update s.slotUsed i (s.slotUsed i + 1)) :
    t.patience p < s.patience p := by
  have hp : t.slotUsed p = s.slotUsed p := by rw [ht, Function.update_of_ne hip.symm]
  unfold patience
  rw [hp]
  split_ifs with hslots
  · have hlt : i < p := by
      rcases lt_trichotomy i p with h | h | h
      · exact h
      · exact absurd h hip
      · exact absurd ⟨hwait, hslots⟩ (hfirst p h)
    exact slotsLeft_lt (Finset.mem_filter.mpr ⟨Finset.mem_univ i, hlt⟩) hi.2 ht
  · have hmem : i ∈ others p := Finset.mem_filter.mpr ⟨Finset.mem_univ i, hip⟩
    exact Nat.add_lt_add_right (slotsLeft_lt hmem hi.2 ht) _

theorem patience_lt_of_reset {i : Fin maxPrio} (hwait : (s.mlqReadyQueue p).proc ≠ [])
    (hnone : ∀ j, ¬ s.Eligible j) (hfirst : ∀ j, j < i → (s.mlqReadyQueue j).proc = [])
    (hip : i ≠ p) (ht : t.slotUsed = Function.update (fun _ => 0) i 1) :
    t.patience p < s.patience p := by
  have hused : ¬ s.slotUsed p < slot p := fun h => hnone p ⟨hwait, h⟩
  have hp : t.slotUsed p = 0 := by rw [ht, Function.update_of_ne hip.symm]
  have hlt : i < p := by
    rcases lt_trichotomy i p with h | h | h
    · exact h
    · exact absurd h hip
    · exact absurd (hfirst p h) hwait
  have hleft : slotsLeft (above p) t < ∑ i ∈ above p, slot i := by
    apply Finset.sum_lt_sum (fun _ _ => Nat.sub_le _ _)
    refine ⟨i, Finset.mem_filter.mpr ⟨Finset.mem_univ i, hlt⟩, ?_⟩
    have := slot_pos i
    rw [ht, Function.update_self]
    omega
  unfold patience
  rw [if_pos (by rw [hp]; exact slot_pos p), if_neg hused]
  omega

/-- A call of the scheduler. For `get_proc` with what it returns and the level that it
takes it from. -/
inductive Call (α : Type*)
  | addProc (prio : ℕ) (proc : α)
  | putProc (prio : Fin maxPrio) (proc : α)
  | getProc (result : Option (Fin maxPrio × α))
  | killProcByName (path : α → List Char) (prio : α → ℕ) (name : List Char) (caller : α)
  | finishProc (proc : α)

def Call.returnsProc : Call α → Bool
  | getProc (some _) => true
  | _ => false

section Calls
variable [DecidableEq α]

def Next (s : Sched α) : Call α → Sched α → Prop
  | .addProc prio proc, s' => s' = s.addProc prio proc
  | .putProc prio proc, s' => s' = s.putProc prio proc
  | .getProc none, s' => s.getProc = (none, s')
  | .getProc (some (i, proc)), s' =>
    s.getProc = (some proc, s') ∧ (s.mlqReadyQueue i).proc = proc :: (s'.mlqReadyQueue i).proc
  | .killProcByName path prio name caller, s' => s' = (s.killProcByName path prio name caller).sched
  | .finishProc proc, s' => s' = s.finishProc proc

theorem next_unique (s : Sched α) (a : Call α) (t t' : Sched α) (h : Next s a t)
    (h' : Next s a t') : t = t' := by
  cases a with
  | getProc result =>
    rcases result with _ | ⟨i, x⟩
    · exact (Prod.mk.inj (h.symm.trans h')).2
    · exact (Prod.mk.inj (h.1.symm.trans h'.1)).2
  | addProc prio x => exact h.trans h'.symm
  | putProc prio x => exact h.trans h'.symm
  | killProcByName path prio name caller => exact h.trans h'.symm
  | finishProc x => exact h.trans h'.symm

theorem level_eq_of_next {i j : Fin maxPrio} {x y : α} {q : Queue α} {used : Fin maxPrio → ℕ}
    (h : Next s (.getProc (some (j, y))) t)
    (he : s.getProc = (some x, { s.modifyLevel i fun _ => q with slotUsed := used })) :
    j = i ∧ t.slotUsed = used := by
  obtain ⟨hget, hlevel⟩ := h
  obtain ⟨_, rfl⟩ := Prod.mk.inj (hget.symm.trans he)
  refine ⟨?_, rfl⟩
  by_contra hne
  simp only [modifyLevel, Function.update_of_ne hne] at hlevel
  exact List.cons_ne_self _ _ hlevel.symm

theorem patience_next {a : Call α} (h : Next s a t) (hwait : (s.mlqReadyQueue p).proc ≠ [])
    (hpass : ∀ x, a ≠ .getProc (some (p, x))) :
    t.patience p + (if a.returnsProc then 1 else 0) ≤ s.patience p := by
  cases a with
  | addProc prio x =>
    rw [Next] at h
    subst h
    exact (patience_congr (putProc_slotUsed _ _ _)).le
  | putProc prio x =>
    rw [Next] at h
    subst h
    exact (patience_congr (putProc_slotUsed _ _ _)).le
  | killProcByName path prio name caller =>
    rw [Next] at h
    subst h
    exact (patience_congr (killProcByName_slotUsed _ _ _ _ _)).le
  | finishProc x =>
    rw [Next] at h
    subst h
    exact (patience_congr rfl).le
  | getProc result =>
    rcases s.getProc_rounds with ⟨i, x, q, hi, hfirst, _, he⟩ | ⟨hnone, i, x, q, hfirst, _, he⟩ |
      ⟨hempty, _⟩
    · rcases result with _ | ⟨j, y⟩
      · cases (Prod.mk.inj (h.symm.trans he)).1
      · obtain ⟨rfl, ht⟩ := level_eq_of_next h he
        have hjp : j ≠ p := fun hjp => hpass y (by rw [hjp])
        exact patience_lt_of_served hwait hi hfirst hjp ht
    · rcases result with _ | ⟨j, y⟩
      · cases (Prod.mk.inj (h.symm.trans he)).1
      · obtain ⟨rfl, ht⟩ := level_eq_of_next h he
        have hjp : j ≠ p := fun hjp => hpass y (by rw [hjp])
        exact patience_lt_of_reset hwait hnone hfirst hjp ht
    · exact absurd (hempty p) hwait

theorem run_patience {before window : List (Call α)}
    (h : Run Next initScheduler (window ++ before) t)
    (hwait : ∀ as u, before <:+ as → as <:+ window ++ before → Run Next initScheduler as u →
      (u.mlqReadyQueue p).proc ≠ [])
    (hpass : ∀ x, .getProc (some (p, x)) ∉ window) :
    t.patience p + window.countP Call.returnsProc ≤
      ∑ i ∈ others p, slot i + ∑ i ∈ above p, slot i := by
  induction window generalizing t with
  | nil => exact patience_le p t
  | cons a window ih =>
    rw [List.cons_append] at h hwait
    cases h with
    | @snoc _ u _ _ hr hn =>
      have hold := ih hr (fun as v hb ha hv => hwait as v hb (ha.trans (List.suffix_cons _ _)) hv)
        (fun x hx => hpass x (List.mem_cons_of_mem a hx))
      have hu := hwait _ u (List.suffix_append window before) (List.suffix_cons _ _) hr
      have hstep := patience_next hn hu fun x hx => hpass x (by rw [hx]; exact List.mem_cons_self)
      rw [List.countP_cons]
      omega

theorem run_no_starvation {before window : List (Call α)}
    (h : Run Next initScheduler (window ++ before) t)
    (hwait : ∀ as u, before <:+ as → as <:+ window ++ before → Run Next initScheduler as u →
      (u.mlqReadyQueue p).proc ≠ [])
    (hpass : ∀ x, .getProc (some (p, x)) ∉ window) :
    window.countP Call.returnsProc ≤
      ∑ i ∈ Finset.univ.filter (· ≠ p), (maxPrio - (i : ℕ)) +
        ∑ i ∈ Finset.univ.filter (· < p), (maxPrio - (i : ℕ)) :=
  (Nat.le_add_left _ _).trans (run_patience h hwait hpass)

/-- Process 1 waits at level 1 while `get_proc` returns process 0. -/
theorem run_no_starvation_passed :
    ∃ t : Sched ℕ, Run Next initScheduler
      ([.getProc (some (⟨0, by decide⟩, 0))] ++ [.addProc 1 1, .addProc 0 0]) t ∧
      [Call.getProc (some (⟨0, by decide⟩, 0))].countP Call.returnsProc ≤
        ∑ i ∈ Finset.univ.filter (· ≠ (⟨1, by decide⟩ : Fin maxPrio)), (maxPrio - (i : ℕ)) +
          ∑ i ∈ Finset.univ.filter (· < (⟨1, by decide⟩ : Fin maxPrio)), (maxPrio - (i : ℕ)) := by
  have hadded : Run Next (initScheduler : Sched ℕ) [.addProc 1 1, .addProc 0 0]
      ((initScheduler.addProc 0 0).addProc 1 1) := .snoc (.snoc .nil rfl) rfl
  have hget : ((initScheduler.addProc 0 0).addProc 1 1).getProc =
      (some 0, ((initScheduler.addProc 0 0).addProc 1 1).getProc.2) := by
    refine Prod.ext ?_ rfl
    decide +kernel
  have hrun : Run Next (initScheduler : Sched ℕ)
      ([.getProc (some (⟨0, by decide⟩, 0))] ++ [.addProc 1 1, .addProc 0 0])
      ((initScheduler.addProc 0 0).addProc 1 1).getProc.2 :=
    .snoc hadded ⟨hget, by decide +kernel⟩
  refine ⟨_, hrun, run_no_starvation hrun (fun as u hb ha hr => ?_) (by simp)⟩
  rcases List.suffix_cons_iff.mp ha with rfl | ha
  · cases hr with
    | snoc hr hn =>
      obtain rfl := hr.unique next_unique hadded
      obtain ⟨hu, _⟩ := hn
      rw [← (Prod.mk.inj (hget.symm.trans hu)).2]
      decide +kernel
  · obtain rfl := ha.eq_of_length_le hb.length_le
    obtain rfl := hr.unique next_unique hadded
    decide +kernel

end Calls
end OSsim.Sched
