import OSsim.Barrier

/-!
# Idle CPUs at the end of the work

`cpu_routine` tests `done` only behind the release or the return of a process. A CPU
that has just given its process up stops there; one whose first load of an iteration
fails goes around the loop for ever, however long all work has been done.
-/

namespace OSsim.System
variable {n m : ℕ} {cfg : Config n} {s s' t : System n m} {c d : Fin m} {as : List (Action m)}

/-- The loader is done, nothing waits and nobody owns a process. -/
structure WorkOver (s : System n m) : Prop where
  done : s.done = true
  empty : s.sched.queueEmpty = true
  idle : ∀ c, (s.cpu c).point.owner = none

/-- Whatever the other threads do in between, CPU `c` has stopped after `k` steps of its
own, and until then its next step is possible. -/
def StopsWithin (cfg : Config n) (c : Fin m) (k : ℕ) (s : System n m) : Prop :=
  ∀ as t, Run (Next cfg) s as t → (t.cpu c).point = .stopped ∨
    (as.countP (Action.isCpu c) < k ∧ ∃ name t', Next cfg t (.cpu c name) t')

theorem queueEmpty_iff (q : Sched (Fin n)) : q.queueEmpty = true ↔
    (∀ i, (q.mlqReadyQueue i).proc = []) ∧ q.readyQueue.proc = [] ∧ q.runQueue.proc = [] := by
  simp [Sched.queueEmpty, Queue.empty, and_assoc]

theorem WorkOver.getProc (hw : s.WorkOver) : s.sched.getProc = (none, s.sched.resetSlots) :=
  Sched.getProc_of_empty ((queueEmpty_iff _).mp hw.empty).1

def Finished (s : System n m) : Prop := s.done = true → s.loader.point = .stopped

theorem Finished.step {a : Action m} (hs : s.Finished) (h : Next cfg s a s') : s'.Finished := by
  cases a with
  | tick =>
    obtain rfl := Option.some.inj h
    exact hs
  | cpu c name =>
    have hm := cpuStep_moved h
    rw [Finished, hm.loader_eq, hm.done_eq]
    exact hs
  | loader =>
    change s.ldStep cfg = some s' at h
    intro hd
    rcases hdone : s.done with _ | _
    · cases ldStep_loaded h with
      | loads i prio loader next same => exact absurd hd (by simp [hdone])
      | waits loader done last same => exact (last hd).resolve_left (by simp [hdone])
      | adds i slots before => exact absurd hd (by simp [hdone])
    · simp only [ldStep, hs hdone] at h
      cases h

theorem Finished.run (h : Run (Next cfg) (start n m) as s) : s.Finished :=
  h.invariant Finished (fun h => by cases h) fun _ _ _ hs hn => hs.step hn

theorem WorkOver.cpuStep (hw : s.WorkOver) {name : List Char}
    (h : s.cpuStep cfg d name = some s') : s'.WorkOver := by
  have hm := cpuStep_moved h
  have hd := hw.idle d
  have hidle : ∀ x : Cpu n, x.point.owner = none →
      ∀ c, (Function.update s.cpu d x c).point.owner = none := by
    intro x hx c
    by_cases hc : c = d
    · subst hc
      rw [Function.update_self]
      exact hx
    · rw [Function.update_of_ne hc]
      exact hw.idle c
  cases hm with
  | keeps x proc executed owner victims reaped prio =>
    exact ⟨hw.done, hw.empty, hidle x (owner.trans hd)⟩
  | gets x idle owner victims reaped =>
    rw [hw.getProc] at owner ⊢
    exact ⟨hw.done, hw.empty, hidle x owner⟩
  | finishes p x before after =>
    rw [before] at hd
    cases hd
  | frees p x before after =>
    rw [before] at hd
    cases hd
  | puts p x before after =>
    rw [before] at hd
    cases hd
  | kills p name x proc before after prio =>
    rw [before] at hd
    cases hd
  | freesVictim p v vs x before after =>
    rw [before] at hd
    cases hd

theorem WorkOver.step {a : Action m} (hw : s.WorkOver) (hf : s.Finished) (h : Next cfg s a s') :
    s'.WorkOver := by
  cases a with
  | tick =>
    obtain rfl := Option.some.inj h
    exact ⟨hw.done, hw.empty, hw.idle⟩
  | cpu d name => exact hw.cpuStep h
  | loader =>
    simp only [Next, System.step, ldStep, hf hw.done] at h
    cases h

theorem cpu_of_other {a : Action m} (h : Next cfg s a s') (ha : a.isCpu c = false) :
    s'.cpu c = s.cpu c := by
  cases a with
  | tick =>
    obtain rfl := Option.some.inj h
    rfl
  | cpu d name =>
    have hcd : c ≠ d := by
      intro heq
      subst heq
      simp [Action.isCpu] at ha
    exact (cpuStep_moved h).cpu_of_ne hcd
  | loader => cases ldStep_loaded h <;> rfl

def Leaving (x : Point n) : Prop := x = .afterFree ∨ x = .afterPut ∨ x = .recheck none

def Idling (x : Point n) : Prop := x = .top none ∨ x = .inSlot none

theorem leaving_or_idling {x : Point n} (ho : x.owner = none) (hx : x ≠ .stopped) :
    Leaving x ∨ Idling x := by
  cases x <;> simp_all [Leaving, Idling, Point.owner]

theorem WorkOver.point_next (hw : s.WorkOver) {name : List Char} (h : Next cfg s (.cpu c name) s') :
    ((s.cpu c).point = .top none → (s'.cpu c).point = .inSlot none) ∧
    ((s.cpu c).point = .inSlot none → (s'.cpu c).point = .top none) ∧
    ((s.cpu c).point = .recheck none → (s'.cpu c).point = .stopped) ∧
    ((s.cpu c).point = .afterFree ∨ (s.cpu c).point = .afterPut →
      (s'.cpu c).point = .recheck none) := by
  cases cpuStep_cases h with
  | findsNone before queue => simp [before]
  | findsFirst p before queue =>
    rw [hw.getProc] at queue
    cases queue
  | getsAfterFree before => simp [before, hw.getProc]
  | getsAfterPut before => simp [before, hw.getProc]
  | stops before done => simp [before]
  | idles before done =>
    rw [hw.done] at done
    cases done
  | slot proc before => simp [before]
  | _ => simp [‹(s.cpu c).point = _›]

theorem enabled (cfg : Config n) (hc : (s.cpu c).point ≠ .stopped) (name : List Char) :
    ∃ s', Next cfg s (.cpu c name) s' := by
  change ∃ s', s.cpuStep cfg c name = some s'
  unfold cpuStep
  split
  all_goals first | exact ⟨_, rfl⟩ | skip
  · split <;> exact ⟨_, rfl⟩
  · next hpt => exact absurd hpt hc

theorem WorkOver.run (hw : s.WorkOver) (hf : s.Finished) (h : Run (Next cfg) s as t) :
    t.WorkOver ∧ t.Finished :=
  h.invariant (fun t => t.WorkOver ∧ t.Finished) ⟨hw, hf⟩ fun _ _ _ hs hn =>
    ⟨hs.1.step hs.2 hn, hs.2.step hn⟩

theorem idling_run (hw : s.WorkOver) (hf : s.Finished) (hc : Idling (s.cpu c).point)
    (h : Run (Next cfg) s as t) : Idling (t.cpu c).point := by
  induction h with
  | nil => exact hc
  | @snoc as t t' a hr hn ih =>
    have ht := (hw.run hf hr).1
    rcases ha : a.isCpu c with _ | _
    · rw [cpu_of_other hn ha]
      exact ih
    · obtain ⟨name, rfl⟩ := Action.eq_cpu ha
      obtain ⟨htop, hslot, _, _⟩ := ht.point_next hn
      exact ih.elim (fun h => Or.inr (htop h)) (fun h => Or.inl (hslot h))

theorem leaving_run (hw : s.WorkOver) (hf : s.Finished) (hc : Leaving (s.cpu c).point)
    (h : Run (Next cfg) s as t) : (t.cpu c).point = .stopped ∨
      ((t.cpu c).point = .recheck none ∧ as.countP (Action.isCpu c) ≤ 1) ∨
      (((t.cpu c).point = .afterFree ∨ (t.cpu c).point = .afterPut) ∧
        as.countP (Action.isCpu c) = 0) := by
  induction h with
  | nil =>
    rcases hc with h | h | h
    · exact Or.inr (Or.inr ⟨Or.inl h, rfl⟩)
    · exact Or.inr (Or.inr ⟨Or.inr h, rfl⟩)
    · exact Or.inr (Or.inl ⟨h, Nat.zero_le _⟩)
  | @snoc as t t' a hr hn ih =>
    have ht := (hw.run hf hr).1
    rcases ha : a.isCpu c with _ | _
    · rw [cpu_of_other hn ha, List.countP_cons_of_neg (by simp [ha])]
      exact ih
    · obtain ⟨name, rfl⟩ := Action.eq_cpu ha
      obtain ⟨_, _, htest, hgive⟩ := ht.point_next hn
      rw [List.countP_cons_of_pos ha]
      rcases ih with h | ⟨h, _⟩ | ⟨h, hz⟩
      · simp only [Next, System.step, cpuStep, h] at hn
        cases hn
      · exact Or.inl (htest h)
      · exact Or.inr (Or.inl ⟨hgive h, by omega⟩)

theorem idling_spins (hw : s.WorkOver) (hf : s.Finished) (hc : Idling (s.cpu c).point) (k : ℕ) :
    ∃ as t, Run (Next cfg) s as t ∧ as.countP (Action.isCpu c) = k := by
  induction k with
  | zero => exact ⟨[], s, .nil, rfl⟩
  | succ k ih =>
    obtain ⟨as, t, hr, hk⟩ := ih
    have ht := idling_run hw hf hc hr
    obtain ⟨t', hn⟩ := enabled (c := c) (s := t) cfg (by rcases ht with h | h <;> simp [h]) []
    refine ⟨_, t', .snoc hr hn, ?_⟩
    rw [List.countP_cons_of_pos (by simp [Action.isCpu]), hk]

theorem idling_never_stops (hw : s.WorkOver) (hf : s.Finished) (hc : Idling (s.cpu c).point)
    (k : ℕ) : ¬ StopsWithin cfg c k s := by
  intro hstop
  obtain ⟨as, t, hr, hk⟩ := idling_spins hw hf hc k
  rcases hstop as t hr with h | ⟨h, _⟩
  · rcases idling_run hw hf hc hr with ht | ht <;> rw [ht] at h <;> cases h
  · omega

theorem leaving_stops (hw : s.WorkOver) (hf : s.Finished) (hc : Leaving (s.cpu c).point) {k : ℕ}
    (hk : 2 ≤ k) : StopsWithin cfg c k s := by
  intro as t hr
  have hrun := leaving_run hw hf hc hr
  by_cases hst : (t.cpu c).point = .stopped
  · exact Or.inl hst
  · right
    obtain ⟨t', hn⟩ := enabled cfg hst []
    refine ⟨?_, [], t', hn⟩
    rcases hrun with h | ⟨_, h⟩ | ⟨_, h⟩
    · exact absurd h hst
    · omega
    · omega

theorem run_stops_iff (cfg : Config n) (h : Run (Next cfg) (start n m) as s) (hw : s.WorkOver)
    (c : Fin m) (hc : (s.cpu c).point ≠ .stopped) (k : ℕ) (hk : 2 ≤ k) :
    StopsWithin cfg c k s ↔ Leaving (s.cpu c).point := by
  have hf := Finished.run h
  constructor
  · intro hstop
    rcases leaving_or_idling (hw.idle c) hc with hl | hi
    · exact hl
    · exact absurd hstop (idling_never_stops hw hf hi k)
  · intro hl
    exact leaving_stops hw hf hl hk

def oneCalc : Config 1 where
  timeSlot := 1
  timeSlot_pos := by decide
  startTime _ := 0
  prio _ := 0
  path _ := ['/', 'p']
  text _ := [⟨.CALC, 0⟩]

/-- CPU 0 runs the process in slot 0 while CPU 1 finds nothing, and releases it in
slot 1 after the loader has set `done`. -/
def oneCalcScript : List (Action 2) :=
  List.replicate 6 (.cpu 0 []) ++ List.replicate 3 .loader ++ [.tick] ++ [.cpu 1 []] ++
    List.replicate 6 (.cpu 0 []) ++ List.replicate 3 .loader

theorem workOver_of_check
    (h : (s.done && s.sched.queueEmpty && decide (∀ c, (s.cpu c).point.owner = none)) = true) :
    s.WorkOver := by
  simp only [Bool.and_eq_true, decide_eq_true_eq] at h
  exact ⟨h.1.1, h.1.2, h.2⟩

theorem run_stops_iff_leaving :
    ∃ as s, Run (Next oneCalc) (start 1 2) as s ∧ s.WorkOver ∧ StopsWithin oneCalc 0 2 s := by
  have hplay : ((start 1 2).play oneCalc oneCalcScript).map (fun s =>
      (s.done && s.sched.queueEmpty && decide (∀ c, (s.cpu c).point.owner = none),
        (s.cpu 0).point)) = some (true, .recheck none) := by decide +kernel
  obtain ⟨s, hs, hcheck⟩ := Option.map_eq_some_iff.mp hplay
  obtain ⟨hover, hpt⟩ := Prod.mk.inj hcheck
  have hw := workOver_of_check hover
  refine ⟨_, s, run_of_play hs, hw, ?_⟩
  exact (run_stops_iff oneCalc (run_of_play hs) hw 0 (by rw [hpt]; decide) 2 (le_refl 2)).mpr
    (Or.inr (Or.inr hpt))

theorem idle_cpu_repeats :
    ∃ as s, Run (fun s a s' => s.InStep a ∧ Next oneCalc s a s') (start 1 2) as s ∧ s.WorkOver ∧
      (∀ k, ¬ StopsWithin oneCalc 1 k s) ∧
      ∀ bs t, Run (Next oneCalc) s bs t → (t.cpu 1).point ≠ .stopped := by
  have hplay : ((start 1 2).playInStep oneCalc oneCalcScript).map (fun s =>
      (s.done && s.sched.queueEmpty && decide (∀ c, (s.cpu c).point.owner = none),
        (s.cpu 1).point)) = some (true, .inSlot none) := by decide +kernel
  obtain ⟨s, hs, hcheck⟩ := Option.map_eq_some_iff.mp hplay
  obtain ⟨hover, hpt⟩ := Prod.mk.inj hcheck
  have hw := workOver_of_check hover
  have hrun := run_of_playInStep hs
  have hf : s.Finished := Finished.run (hrun.mono fun _ _ _ h => h.2)
  refine ⟨_, s, hrun, hw, idling_never_stops hw hf (Or.inr hpt), fun bs t ht => ?_⟩
  rcases idling_run hw hf (Or.inr hpt) ht with h | h <;> rw [h] <;> simp

end OSsim.System
