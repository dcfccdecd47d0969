import OSsim.Barrier
import OSsim.Custody

/-!
# No process is lost

`running_list` has room for `MAX_QUEUE_SIZE` processes and `add_proc` cannot report that
it is full. As long as fewer processes than that are alive whenever one arrives, every
received process stays listed and is waiting at its own level or owned by one CPU until
it ends; the first arrival beyond that is lost to `running_list`.
-/

open scoped BigOperators
namespace OSsim.System
variable {n m : ℕ} {cfg : Config n} {s s' t : System n m} {c : Fin m} {p : Fin n}
  {as : List (Action m)}

/-- Once in its level's queue, in no other one, and owned by nobody. -/
def Waits (s : System n m) (p : Fin n) : Prop :=
  (∃ i : Fin maxPrio, (s.proc p).prio = i ∧ (s.sched.mlqReadyQueue i).proc.count p = 1 ∧
    ∀ j, j ≠ i → p ∉ (s.sched.mlqReadyQueue j).proc) ∧
  ∀ c, (s.cpu c).point.owner ≠ some p

def Owned (s : System n m) (p : Fin n) : Prop :=
  (∀ i, p ∉ (s.sched.mlqReadyQueue i).proc) ∧ ∃! c, (s.cpu c).point.owner = some p

def NothingLost (s : System n m) : Prop :=
  ∀ p : Fin n, (p : ℕ) < s.loader.point.added → s.ended p = 0 →
    p ∈ s.sched.runningList.proc ∧ (s.Waits p ∨ s.Owned p)

def live (s : System n m) : Finset (Fin n) :=
  Finset.univ.filter fun p => (p : ℕ) < s.loader.point.added ∧ s.ended p = 0

/-- The action is an `add_proc` that finds `MAX_QUEUE_SIZE` processes alive. -/
def Overflows (s : System n m) (a : Action m) : Prop :=
  a = .loader ∧ (∃ i, s.loader.point = .add i) ∧ maxQueueSize ≤ s.live.card

theorem arrived_eq_one : s.arrived p = 1 ↔ (p : ℕ) < s.loader.point.added := by
  rw [arrived]
  split_ifs with h <;> simp [h]

structure Placed (s : System n m) : Prop where
  ready_nil : s.sched.readyQueue.proc = []
  run_nil : s.sched.runQueue.proc = []
  level : ∀ i p, p ∈ (s.sched.mlqReadyQueue i).proc → (s.proc p).prio = i
  prio_lt : ∀ p, s.arrived p = 1 → (s.proc p).prio < maxPrio

theorem placed_start : (start n m).Placed where
  ready_nil := rfl
  run_nil := rfl
  level _ _ h := by cases h
  prio_lt _ _ := Nat.zero_lt_succ 139

theorem Placed.within (hp : s.Placed) (hw : s'.sched.Within s.sched)
    (hprio : ∀ q, (s'.proc q).prio = (s.proc q).prio) (hl : s'.loader = s.loader) : s'.Placed where
  ready_nil := List.eq_nil_of_subset_nil (by rw [← hp.ready_nil]; exact hw.ready)
  run_nil := List.eq_nil_of_subset_nil (by rw [← hp.run_nil]; exact hw.run)
  level i p h := by
    rw [hprio]
    exact hp.level i p (hw.level i h)
  prio_lt p h := by
    rw [hprio]
    exact hp.prio_lt p (by rw [← arrived_congr hl]; exact h)

theorem mem_putProc {q : Sched (Fin n)} {prio : ℕ} {r : Fin n} {i : Fin maxPrio}
    (h : r ∈ ((q.putProc prio p).mlqReadyQueue i).proc) :
    r ∈ (q.mlqReadyQueue i).proc ∨ (r = p ∧ prio = i) := by
  unfold Sched.putProc at h
  split_ifs at h with hlt
  · by_cases hi : i = ⟨prio, hlt⟩
    · subst hi
      simp only [Sched.modifyLevel, Function.update_self] at h
      exact (Queue.mem_enqueue h).imp_right fun hr => ⟨hr, rfl⟩
    · simp only [Sched.modifyLevel, Function.update_of_ne hi] at h
      exact Or.inl h
  · exact Or.inl h

theorem putProc_readyQueue (q : Sched (Fin n)) (prio : ℕ) (p : Fin n) :
    (q.putProc prio p).readyQueue = q.readyQueue ∧ (q.putProc prio p).runQueue = q.runQueue := by
  unfold Sched.putProc
  split_ifs <;> exact ⟨rfl, rfl⟩

theorem Placed.cpuStep (hp : s.Placed) {name : List Char} (h : s.cpuStep cfg c name = some s') :
    s'.Placed := by
  cases cpuStep_moved h with
  | keeps x proc executed owner victims reaped prio =>
    exact hp.within (Sched.Within.refl _) prio rfl
  | gets x idle owner victims reaped => exact hp.within s.sched.getProc_within (fun _ => rfl) rfl
  | finishes p x before after =>
    exact hp.within ⟨List.Subset.refl _, List.Subset.refl _, fun _ => List.Subset.refl _⟩
      (fun _ => rfl) rfl
  | frees p x before after => exact hp.within (Sched.Within.refl _) (fun _ => rfl) rfl
  | puts p x before after =>
    obtain ⟨h₁, h₂⟩ := putProc_readyQueue s.sched (s.proc p).prio p
    refine ⟨?_, ?_, fun i q hq => ?_, hp.prio_lt⟩
    · dsimp only
      rw [h₁]
      exact hp.ready_nil
    · dsimp only
      rw [h₂]
      exact hp.run_nil
    · rcases mem_putProc hq with hq | ⟨rfl, hi⟩
      · exact hp.level i q hq
      · exact hi
  | kills p name x proc before after prio =>
    exact hp.within (s.sched.killProcByName_within cfg.path _ name p) prio rfl
  | freesVictim p v vs x before after => exact hp.within (Sched.Within.refl _) (fun _ => rfl) rfl

theorem Placed.ldStep (hp : s.Placed) (hs : s.Custody) (h : s.ldStep cfg = some s') :
    s'.Placed := by
  cases ldStep_loaded h with
  | loads i prio loader next same =>
    -- the process that is filled in stands in no queue yet
    have hzero := arrived_next next
    have hne : ∀ j q, q ∈ (s.sched.mlqReadyQueue j).proc → q ≠ i := by
      intro j q hq heq
      subst heq
      have := hs.arrived_of_level hq
      omega
    refine ⟨hp.ready_nil, hp.run_nil, fun j q hq => ?_, fun q hq => ?_⟩
    · simp only [Function.update_of_ne (hne j q hq)]
      exact hp.level j q hq
    · have hq' : s.arrived q = 1 := by simpa only [arrived, same] using hq
      have hqi : q ≠ i := by
        intro heq
        subst heq
        omega
      simp only [Function.update_of_ne hqi]
      exact hp.prio_lt q hq'
  | waits loader done last same =>
    exact ⟨hp.ready_nil, hp.run_nil, hp.level,
      fun q hq => hp.prio_lt q (by simpa only [arrived, same] using hq)⟩
  | adds i slots before =>
    have hzero : s.arrived i = 0 := arrived_next (by rw [before]; rfl)
    obtain ⟨h₁, h₂⟩ := putProc_readyQueue
      { s.sched with runningList := s.sched.runningList.enqueue i }
      (Sched.clampPrio (s.proc i).prio) i
    refine ⟨?_, ?_, fun j q hq => ?_, fun q hq => ?_⟩
    · dsimp only [Sched.addProc]
      rw [h₁]
      exact hp.ready_nil
    · dsimp only [Sched.addProc]
      rw [h₂]
      exact hp.run_nil
    · rcases mem_putProc hq with hq | ⟨rfl, hj⟩
      · have hqi : q ≠ i := by
          intro heq
          subst heq
          have := hs.arrived_of_level (p := q) hq
          omega
        simp only [Function.update_of_ne hqi]
        exact hp.level j q hq
      · simp only [Function.update_self]
        exact hj
    · by_cases hqi : q = i
      · subst hqi
        simp only [Function.update_self]
        exact Sched.clampPrio_lt _
      · have ha := (arrived_add s _ before (by rfl) q).symm.trans hq
        simp only [Function.update_of_ne hqi]
        refine hp.prio_lt q ?_
        rw [List.count_eq_zero.mpr (by simpa using hqi)] at ha
        exact ha

theorem Placed.step {a : Action m} (hp : s.Placed) (hs : s.Custody) (h : Next cfg s a s') :
    s'.Placed := by
  cases a with
  | loader => exact hp.ldStep hs h
  | cpu c name => exact hp.cpuStep h
  | tick =>
    obtain rfl := Option.some.inj h
    exact ⟨hp.ready_nil, hp.run_nil, hp.level, hp.prio_lt⟩

def Kept (s : System n m) : Prop :=
  ∀ p, s.arrived p = 1 → s.ended p = 0 → s.sched.listed p = 1 ∧ s.sched.ready p + s.owners p = 1

theorem Placed.ready_eq (hp : s.Placed) (p : Fin n) :
    s.sched.ready p = ∑ i, (s.sched.mlqReadyQueue i).proc.count p := by
  rw [Sched.ready, hp.ready_nil, hp.run_nil, List.count_nil, Nat.zero_add]

theorem waits_of_ready (hp : s.Placed) (hr : s.sched.ready p = 1) (ho : s.owners p = 0) :
    s.Waits p := by
  have hpos : 0 < ∑ i, (s.sched.mlqReadyQueue i).proc.count p := by
    rw [← hp.ready_eq, hr]
    exact Nat.one_pos
  obtain ⟨i, _, hi⟩ := Finset.exists_ne_zero_of_sum_ne_zero hpos.ne'
  have hmem := List.count_pos_iff.mp (Nat.pos_of_ne_zero hi)
  have hprio := hp.level i p hmem
  refine ⟨⟨i, hprio, ?_, fun j hj hpj => ?_⟩, fun c hc => ?_⟩
  · have := s.sched.count_level_le i p
    omega
  · exact hj (Fin.ext ((hp.level j p hpj).symm.trans hprio))
  · have := s.owns_le_owners c p
    rw [Point.owns_of_owner hc] at this
    omega

theorem owned_of_owners (hs : s.Custody) (hr : s.sched.ready p = 0) (ho : s.owners p = 1) :
    s.Owned p := by
  refine ⟨fun i hi => ?_, ?_⟩
  · have h₁ := s.sched.count_level_le i p
    have h₂ := List.count_pos_iff.mpr hi
    omega
  · obtain ⟨c, _, hc⟩ := Finset.exists_ne_zero_of_sum_ne_zero (s := Finset.univ)
      (f := fun c => (s.cpu c).point.owns p) (by rw [← owners, ho]; exact Nat.one_ne_zero)
    have hown : (s.cpu c).point.owner = some p := by
      by_contra hne
      exact hc (Point.owns_eq_zero.mpr hne)
    exact ⟨c, hown, fun d hd => hs.owner_unique hd hown⟩

theorem nothingLost_iff_kept (hs : s.Custody) (hp : s.Placed) : s.NothingLost ↔ s.Kept := by
  constructor
  · intro h p harr hend
    obtain ⟨hmem, hplace⟩ := h p (arrived_eq_one.mp harr) hend
    have h₁ : 0 < s.sched.listed p := List.count_pos_iff.mpr hmem
    have h₂ := hs.listed_le p
    have h₃ := hs.places_le_one p
    rw [places] at h₃
    refine ⟨by omega, ?_⟩
    rcases hplace with ⟨⟨i, _, hi, _⟩, _⟩ | ⟨_, c, hc, _⟩
    · have := s.sched.count_level_le i p
      omega
    · have := s.owns_le_owners c p
      rw [Point.owns_of_owner hc] at this
      omega
  · intro h p harr hend
    obtain ⟨hl, hplace⟩ := h p (arrived_eq_one.mpr harr) hend
    have hpos : 0 < s.sched.runningList.proc.count p := by
      change 0 < s.sched.listed p
      omega
    refine ⟨List.count_pos_iff.mp hpos, ?_⟩
    rcases Nat.eq_zero_or_pos (s.owners p) with ho | ho
    · exact Or.inl (waits_of_ready hp (by omega) ho)
    · exact Or.inr (owned_of_owners hs (by omega) (by omega))

namespace Kept

theorem level_le_listed (hk : s.Kept) (hs : s.Custody) (i : Fin maxPrio) (p : Fin n) :
    (s.sched.mlqReadyQueue i).proc.count p ≤ s.sched.listed p := by
  rcases Nat.eq_zero_or_pos ((s.sched.mlqReadyQueue i).proc.count p) with h | h
  · rw [h]
    exact Nat.zero_le _
  · have hmem := List.count_pos_iff.mp h
    have h₁ := (hk p (hs.arrived_of_level hmem) (hs.ended_of_level hmem)).1
    have h₂ := s.sched.count_level_le i p
    have h₃ := hs.places_le_one p
    rw [places] at h₃
    omega

theorem level_length_le (hk : s.Kept) (hs : s.Custody) (i : Fin maxPrio) :
    (s.sched.mlqReadyQueue i).proc.length ≤ s.sched.runningList.proc.length :=
  (List.subperm_iff_count.mpr (hk.level_le_listed hs i)).length_le

theorem hasRoom (hk : s.Kept) (hs : s.Custody) (hp : s.Placed) (c : Fin m) : s.HasRoom c := by
  intro q hq
  have ho : (s.cpu c).point.owner = some q := by rw [hq]; rfl
  have harr := hs.arrived_of_owner ho
  have hsub : List.Subperm (q :: (s.sched.mlqReadyQueue ⟨_, hp.prio_lt q harr⟩).proc)
      s.sched.runningList.proc := by
    rw [List.subperm_iff_count]
    intro p
    by_cases hpq : p = q
    · subst hpq
      have h₁ := (hk p harr (hs.ended_of_owner ho (by rw [hq]; rfl))).1
      have h₂ := s.sched.count_level_le ⟨_, hp.prio_lt p harr⟩ p
      have h₃ := hs.places_le_one p
      have h₄ := s.owns_le_owners c p
      rw [Point.owns_of_owner ho] at h₄
      rw [places] at h₃
      rw [Sched.listed] at h₁
      rw [List.count_cons_self]
      omega
    · rw [List.count_cons_of_ne (Ne.symm hpq)]
      exact hk.level_le_listed hs _ p
  have hle := hsub.length_le
  have hcap := s.sched.runningList.size_le
  rw [List.length_cons] at hle
  exact ⟨⟨_, hp.prio_lt q harr⟩, rfl, by omega⟩

theorem card_live (hk : s.Kept) (hs : s.Custody) :
    s.live.card = s.sched.runningList.proc.length := by
  have hle : ∀ p, s.sched.runningList.proc.count p ≤ 1 := by
    intro p
    have h₁ := hs.listed_le p
    have h₂ := s.arrived_le_one p
    rw [Sched.listed] at h₁
    omega
  rw [← List.toFinset_card_of_nodup (List.nodup_iff_count_le_one.mpr hle)]
  congr 1
  ext p
  rw [live, Finset.mem_filter, List.mem_toFinset, ← List.count_pos_iff, ← arrived_eq_one]
  constructor
  · intro hconj
    obtain ⟨_, harr, hend⟩ := hconj
    have := (hk p harr hend).1
    rw [Sched.listed] at this
    omega
  · intro hpos
    have h₁ := hs.listed_le p
    have h₂ := s.arrived_le_one p
    rw [Sched.listed] at h₁
    exact ⟨Finset.mem_univ p, by omega, by omega⟩

theorem cpuStep (hk : s.Kept) (hs : s.Custody) (hp : s.Placed) {name : List Char}
    (h : s.cpuStep cfg c name = some s') : s'.Kept := by
  intro p harr hend
  have hm := cpuStep_moved h
  obtain ⟨x, hb⟩ := hm.balanced p
  rw [arrived_congr hm.loader_eq] at harr
  have hle := hb.ended_le
  have hend' : s.ended p = 0 := by omega
  obtain ⟨hl, hplace⟩ := hk p harr hend'
  refine ⟨?_, ?_⟩
  · rcases hb.listed_eq with he | ⟨_, hz, _, _⟩
    · omega
    · omega
  · have h₁ := hb.places_sum_eq (hk.hasRoom hs hp c)
    have h₂ := hs.ended_eq p
    have h₃ := (hs.cpuStep h).ended_eq p
    rw [places, places] at h₁
    omega

theorem adds_iff (hk : s.Kept) (hs : s.Custody) {i : Fin n} (before : s.loader.point = .add i)
    (h : s.ldStep cfg = some s') : s'.Kept ↔ s.live.card < maxQueueSize := by
  have hzero : s.arrived i = 0 := arrived_next (by rw [before]; rfl)
  have hlisted := hs.listed_le i
  have hplaces := hs.places_le i
  have harr : ∀ p, s'.arrived p = s.arrived p + [i].count p := by
    intro p
    apply arrived_add s s' before
    simp only [System.ldStep, before, Option.some.injEq] at h
    rw [← h]
  simp only [System.ldStep, before, Option.some.injEq] at h
  have hsched : s'.sched = s.sched.addProc (s.proc i).prio i := by rw [← h]
  have hended : s'.ended = s.ended := by rw [← h]; rfl
  have howners : ∀ p, s'.owners p = s.owners p := by
    intro p
    rw [← h]
    rfl
  rw [hk.card_live hs]
  constructor
  · intro hk'
    by_contra hfull
    have h₁ := hk' i (by rw [harr i, hzero]; simp) (by rw [hended]; omega)
    rw [hsched, Sched.listed_addProc_of_full (by omega)] at h₁
    omega
  · intro hlt p hp hend
    have hroom := (hk.level_length_le hs ⟨_, Sched.clampPrio_lt (s.proc i).prio⟩).trans_lt hlt
    rw [hsched, Sched.listed_addProc hlt, Sched.ready_addProc _ hroom, howners]
    rw [hended] at hend
    rw [harr] at hp
    by_cases hpi : p = i
    · subst hpi
      rw [places] at hplaces
      simp only [List.count_singleton_self]
      omega
    · have hc : [i].count p = 0 := List.count_eq_zero.mpr (by simpa using hpi)
      simp only [hc, Nat.add_zero] at hp ⊢
      exact hk p hp hend

theorem step_iff (hk : s.Kept) (hs : s.Custody) (hp : s.Placed) {a : Action m}
    (h : Next cfg s a s') : s'.Kept ↔ ¬ s.Overflows a := by
  cases a with
  | tick =>
    obtain rfl := Option.some.inj h
    exact iff_of_true hk (fun h => by cases h.1)
  | cpu c name => exact iff_of_true (hk.cpuStep hs hp h) (fun h => by cases h.1)
  | loader =>
    by_cases hadd : ∃ i, s.loader.point = .add i
    · obtain ⟨i, before⟩ := hadd
      rw [hk.adds_iff hs before h, Overflows]
      simp [before]
    · refine iff_of_true ?_ (fun h => hadd h.2.1)
      cases ldStep_loaded h with
      | loads i prio loader next same =>
        intro p hp hend
        exact hk p (by simpa only [arrived, same] using hp) hend
      | waits loader done last same =>
        intro p hp hend
        exact hk p (by simpa only [arrived, same] using hp) hend
      | adds i slots before => exact absurd ⟨i, before⟩ hadd

end Kept

theorem kept_start : (start n m).Kept := by
  intro p hp
  simp [arrived, start, LdPoint.added] at hp

theorem not_overflows (hn : n ≤ maxQueueSize) (s : System n m) (a : Action m) :
    ¬ s.Overflows a := by
  intro hover
  obtain ⟨_, ⟨i, hpt⟩, hfull⟩ := hover
  -- the process that arrives is not among the live ones
  have hlt : s.live.card < (Finset.univ : Finset (Fin n)).card := by
    apply Finset.card_lt_card
    refine ⟨Finset.subset_univ _, fun hsub => ?_⟩
    have := (Finset.mem_filter.mp (hsub (Finset.mem_univ i))).2.1
    rw [hpt] at this
    exact lt_irrefl _ this
  rw [Finset.card_univ, Fintype.card_fin] at hlt
  omega

theorem run_nothingLost_iff (cfg : Config n) (h : Run (Next cfg) (start n m) as s) :
    (∀ pre t, pre <:+ as → Run (Next cfg) (start n m) pre t → t.NothingLost) ↔
      ∀ a pre t, a :: pre <:+ as → Run (Next cfg) (start n m) pre t → ¬ t.Overflows a := by
  have hinv : ∀ (s : System n m) a s', s.Custody ∧ s.Placed → Next cfg s a s' →
      s'.Custody ∧ s'.Placed := fun s a s' hs hn => ⟨hs.1.step hn, hs.2.step hs.1 hn⟩
  have hstart : (start n m).Custody ∧ (start n m).Placed := ⟨custody_start, placed_start⟩
  rw [← Run.along_iff (fun s a t t' h h' => Option.some.inj (h.symm.trans h'))
    (fun s => s.Custody ∧ s.Placed) Kept Overflows hstart kept_start hinv
    (fun s a s' hs hk hn => hk.step_iff hs.1 hs.2 hn) h]
  refine forall₄_congr fun pre t _ hr => ?_
  have ht := hr.invariant _ hstart hinv
  exact nothingLost_iff_kept ht.1 ht.2

def crowd (n : ℕ) : Config n where
  timeSlot := 200
  timeSlot_pos := by decide
  startTime _ := 0
  prio _ := 0
  path _ := ['/', 'p']
  text _ := List.replicate 200 ⟨.CALC, 0⟩

/-- `k + 1` time slots of one CPU, which stays with the first process, and the loader,
which adds one process in each. -/
def crowdScript (k : ℕ) : List (Action 1) :=
  (List.replicate k
    (List.replicate 8 (.cpu 0 []) ++ List.replicate 4 .loader ++ [.tick])).flatten ++
  (List.replicate 6 (.cpu 0 []) ++ List.replicate 3 .loader)

theorem run_nothingLost_iff_full :
    ∃ s, Run (Next (crowd 100)) (start 100 1) (crowdScript 99) s ∧
      (s.cpu 0).point.owner = some 0 ∧
      (s.sched.mlqReadyQueue ⟨0, Nat.succ_pos 139⟩).proc.length = 99 ∧
      s.sched.runningList.proc.length = maxQueueSize ∧ s.NothingLost := by
  have hplay : ((start 100 1).play (crowd 100) (crowdScript 99)).map (fun s =>
      ((s.cpu 0).point.owner, (s.sched.mlqReadyQueue ⟨0, Nat.succ_pos 139⟩).proc.length,
        s.sched.runningList.proc.length)) = some (some 0, 99, 100) := by decide +kernel
  obtain ⟨s, hs, hcheck⟩ := Option.map_eq_some_iff.mp hplay
  obtain ⟨howner, hrest⟩ := Prod.mk.inj hcheck
  obtain ⟨hwaiting, hlisted⟩ := Prod.mk.inj hrest
  have hrun := run_of_play hs
  refine ⟨s, hrun, howner, hwaiting, hlisted, ?_⟩
  exact (run_nothingLost_iff (crowd 100) hrun).mpr
    (fun a _ t _ _ => not_overflows (by decide) t a) _ s List.suffix_rfl hrun

theorem crowd_loses_process :
    ∃ as s, Run (fun s a s' => s.InStep a ∧ Next (crowd 101) s a s') (start 101 1) as s ∧
      ¬ s.NothingLost := by
  have hplay : ((start 101 1).playInStep (crowd 101) (crowdScript 100)).map (fun s =>
      (s.loader.point.added, s.ended 100, decide (100 ∈ s.sched.runningList.proc))) =
      some (101, 0, false) := by decide +kernel
  obtain ⟨s, hs, hcheck⟩ := Option.map_eq_some_iff.mp hplay
  obtain ⟨hadded, hrest⟩ := Prod.mk.inj hcheck
  obtain ⟨hended, hlisted⟩ := Prod.mk.inj hrest
  refine ⟨_, s, run_of_playInStep hs, fun hkept => ?_⟩
  have hmem := (hkept 100 (by rw [hadded]; decide) hended).1
  exact absurd hmem (of_decide_eq_false hlisted)

end OSsim.System
