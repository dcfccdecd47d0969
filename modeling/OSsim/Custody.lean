import OSsim.Places

/-!
# Custody of processes

Every arrived process is in at most one place, and one that has ended has left
`running_list`. Both hold in every interleaving, also when a full queue drops a process.
-/

open scoped BigOperators
namespace OSsim.System
variable {n m : ℕ} {cfg : Config n} {s s' : System n m} {c : Fin m} {p : Fin n}

theorem sum_point_update (f : Point n → ℕ) (s : System n m) (c : Fin m) (x : Cpu n) :
    ∑ d, f (Function.update s.cpu c x d).point + f (s.cpu c).point =
      ∑ d, f (s.cpu d).point + f x.point :=
  Accounting.sum_update Finset.univ (fun y : Cpu n => f y.point) s.cpu (Finset.mem_univ c) x

theorem update_succ (f : Fin n → ℕ) (q p : Fin n) :
    Function.update f q (f q + 1) p = f p + [q].count p := by
  by_cases h : p = q
  · subst h
    simp
  · simp [Function.update_of_ne h, Ne.symm h]

def HasRoom (s : System n m) (c : Fin m) : Prop :=
  ∀ q, (s.cpu c).point = .put q → ∃ i : Fin maxPrio, (s.proc q).prio = i ∧
    (s.sched.mlqReadyQueue i).proc.length < maxQueueSize

/-- A CPU step from `s` to `s'` that leaves CPU `c` at `x` moves process `p` between
places without making a new one. -/
structure Balanced (s s' : System n m) (c : Fin m) (x : Cpu n) (p : Fin n) : Prop where
  cpu : s'.cpu = Function.update s.cpu c x
  places_le : s'.sched.ready p + x.point.owns p + x.point.frees p + s'.released p ≤
    s.sched.ready p + (s.cpu c).point.owns p + (s.cpu c).point.frees p + s.released p
  places_eq : s.HasRoom c →
    s'.sched.ready p + x.point.owns p + x.point.frees p + s'.released p =
      s.sched.ready p + (s.cpu c).point.owns p + (s.cpu c).point.frees p + s.released p
  ended_eq : s'.ended p + ((s.cpu c).point.reaps p + (s.cpu c).point.frees p + s.released p) =
    s.ended p + (x.point.reaps p + x.point.frees p + s'.released p)
  ended_le : s.ended p ≤ s'.ended p
  listed_eq : s'.sched.listed p + s'.ended p = s.sched.listed p + s.ended p ∨
    ((s.cpu c).point = .finish p ∧ s.sched.listed p = 0 ∧ s'.sched.listed p = 0 ∧
      s'.ended p = s.ended p + 1)

theorem Moved.balanced (h : Moved cfg s c s') (p : Fin n) : ∃ x, Balanced s s' c x p := by
  cases h with
  | keeps x proc executed ho hv hr _ =>
    have e₁ : x.point.owns p = (s.cpu c).point.owns p := by rw [Point.owns, ho, Point.owns]
    have e₂ : x.point.frees p = (s.cpu c).point.frees p := by rw [Point.frees, hv, Point.frees]
    have e₃ : x.point.reaps p = (s.cpu c).point.reaps p := by rw [Point.reaps, hr, Point.reaps]
    refine ⟨x, rfl, ?_, fun _ => ?_, ?_, le_refl _, Or.inl rfl⟩ <;> rw [e₂] <;>
      simp only [e₁, e₃, le_refl]
  | gets x idle ho hv hr =>
    have hg := s.sched.ready_getProc p
    have hl : s.sched.getProc.2.listed p = s.sched.listed p := by
      rw [Sched.listed, Sched.getProc_runningList, Sched.listed]
    refine ⟨x, rfl, ?_, fun _ => ?_, ?_, le_refl _, Or.inl (by simp only [hl])⟩ <;>
      simp only [Point.owns, Point.frees, Point.reaps, idle, ho, hv, hr, Option.toList_none,
        List.count_nil]
    · omega
    · omega
  | finishes q x hb ha =>
    refine ⟨x, rfl, ?_, fun _ => ?_, ?_, ?_, ?_⟩ <;>
      simp only [hb, ha, Point.owns, Point.owner, Point.frees, Point.victims, Point.reaps,
        Point.reaped, Option.toList_some, Option.toList_none, List.count_nil, update_succ,
        Sched.ready_finishProc, le_refl, Point.finish.injEq]
    · omega
    · omega
    · rcases Nat.eq_zero_or_pos (s.sched.listed q) with hz | hpos
      · -- a process that a full `running_list` has refused
        have hnot : q ∉ s.sched.runningList.proc := List.count_eq_zero.mp hz
        rw [Sched.finishProc_of_notMem hnot]
        by_cases hqp : q = p
        · subst hqp
          right
          simp [hz]
        · left
          simp [hqp]
      · left
        have hl := Sched.listed_finishProc (List.count_pos_iff.mp hpos) p
        omega
  | frees q x hb ha =>
    refine ⟨x, rfl, ?_, fun _ => ?_, ?_, le_refl _, Or.inl rfl⟩ <;>
      simp only [hb, ha, Point.owns, Point.owner, Point.frees, Point.victims, Point.reaps,
        Point.reaped, Option.toList_some, Option.toList_none, List.count_nil, update_succ] <;>
      omega
  | puts q x hb ha =>
    have hle := s.sched.ready_putProc_le (s.proc q).prio q p
    have hl : (s.sched.putProc (s.proc q).prio q).listed p = s.sched.listed p := by
      rw [Sched.listed, Sched.putProc_runningList, Sched.listed]
    refine ⟨x, rfl, ?_, fun hroom => ?_, ?_, le_refl _, Or.inl (by simp only [hl])⟩ <;>
      simp only [hb, ha, Point.owns, Point.owner, Point.frees, Point.victims, Point.reaps,
        Point.reaped, Option.toList_some, Option.toList_none, List.count_nil]
    · omega
    · obtain ⟨i, hi, hlen⟩ := hroom q hb
      have heq := Sched.ready_putProc i hlen q p
      rw [hi]
      omega
  | kills q name x proc hb ha _ =>
    obtain ⟨hr, hl⟩ := s.sched.killProcByName_counts cfg.path (fun r => (s.proc r).prio) name q p
    refine ⟨x, rfl, ?_, fun _ => ?_, ?_, Nat.le_add_right _ _, Or.inl ?_⟩ <;>
      simp only [hb, ha, Point.owns, Point.owner, Point.frees, Point.victims, Point.reaps,
        Point.reaped, Option.toList_some, Option.toList_none, List.count_nil,
        System.killProcByName] <;>
      omega
  | freesVictim q v vs x hb ha =>
    have hc : (v :: vs).count p = vs.count p + [v].count p := by
      rw [List.count_cons, List.count_cons, List.count_nil, Nat.zero_add]
    refine ⟨x, rfl, ?_, fun _ => ?_, ?_, le_refl _, Or.inl rfl⟩ <;>
      simp only [hb, ha, Point.owns, Point.owner, Point.frees, Point.victims, Point.reaps,
        Point.reaped, update_succ] <;>
      omega

theorem Balanced.places_sum_le {x : Cpu n} (h : Balanced s s' c x p) :
    s'.places p ≤ s.places p := by
  have h₁ := sum_point_update (Point.owns p) s c x
  have h₂ := sum_point_update (Point.frees p) s c x
  have h₃ := h.places_le
  simp only [places, owners, toFree, h.cpu]
  omega

theorem Balanced.places_sum_eq {x : Cpu n} (h : Balanced s s' c x p) (hroom : s.HasRoom c) :
    s'.places p = s.places p := by
  have h₁ := sum_point_update (Point.owns p) s c x
  have h₂ := sum_point_update (Point.frees p) s c x
  have h₃ := h.places_eq hroom
  simp only [places, owners, toFree, h.cpu]
  omega

theorem Balanced.ended_sum_eq {x : Cpu n} (h : Balanced s s' c x p) :
    s'.ended p + (s.toReap p + s.toFree p + s.released p) =
      s.ended p + (s'.toReap p + s'.toFree p + s'.released p) := by
  have h₁ := sum_point_update (Point.reaps p) s c x
  have h₂ := sum_point_update (Point.frees p) s c x
  have h₃ := h.ended_eq
  simp only [toReap, toFree, h.cpu]
  omega

theorem arrived_le_one (s : System n m) (p : Fin n) : s.arrived p ≤ 1 := by
  rw [arrived]
  split_ifs <;> omega

theorem arrived_next (h : (p : ℕ) = s.loader.point.added) : s.arrived p = 0 := by
  rw [arrived, h, if_neg (Nat.lt_irrefl _)]

theorem arrived_congr (h : s'.loader = s.loader) (p : Fin n) : s'.arrived p = s.arrived p := by
  rw [arrived, arrived, h]

theorem arrived_add (s s' : System n m) {i : Fin n} (before : s.loader.point = .add i)
    (after : s'.loader.point = .addSlot i) (p : Fin n) :
    s'.arrived p = s.arrived p + [i].count p := by
  simp only [arrived, before, after, LdPoint.added]
  by_cases hp : p = i
  · subst hp
    simp
  · have hne : (p : ℕ) ≠ i := fun h => hp (Fin.ext h)
    rw [List.count_eq_zero.mpr (by simpa using hp)]
    split_ifs <;> omega

structure Custody (s : System n m) : Prop where
  places_le : ∀ p, s.places p ≤ s.arrived p
  ended_eq : ∀ p, s.ended p = s.toReap p + s.toFree p + s.released p
  listed_le : ∀ p, s.sched.listed p + s.ended p ≤ s.arrived p

theorem custody_start : (start n m).Custody where
  places_le p := by
    simp [places, owners, toFree, start, Point.owns, Point.owner, Point.frees, Point.victims,
      Sched.ready, Sched.initScheduler]
  ended_eq p := by
    simp [toReap, toFree, start, Point.reaps, Point.reaped, Point.frees, Point.victims]
  listed_le p := by simp [start, Sched.listed, Sched.initScheduler]

theorem owns_le_owners (s : System n m) (c : Fin m) (p : Fin n) :
    (s.cpu c).point.owns p ≤ s.owners p :=
  Finset.single_le_sum (f := fun d => (s.cpu d).point.owns p) (fun _ _ => Nat.zero_le _)
    (Finset.mem_univ c)

theorem toReap_le_owners (s : System n m) (p : Fin n) : s.toReap p ≤ s.owners p :=
  Finset.sum_le_sum fun d _ => (s.cpu d).point.reaps_le_owns p

theorem toReap_lt_owners (ho : (s.cpu c).point.owner = some p)
    (hr : (s.cpu c).point.reaped = none) : s.toReap p < s.owners p := by
  apply Finset.sum_lt_sum (fun d _ => (s.cpu d).point.reaps_le_owns p)
  refine ⟨c, Finset.mem_univ c, ?_⟩
  simp [Point.reaps, Point.owns, ho, hr]

namespace Custody

theorem ended_of_owner (hs : s.Custody) (ho : (s.cpu c).point.owner = some p)
    (hr : (s.cpu c).point.reaped = none) : s.ended p = 0 := by
  have h₁ := hs.places_le p
  have h₂ := toReap_lt_owners ho hr
  have h₃ := s.arrived_le_one p
  rw [places] at h₁
  rw [hs.ended_eq p]
  omega

theorem ended_of_level (hs : s.Custody) {i : Fin maxPrio}
    (hp : p ∈ (s.sched.mlqReadyQueue i).proc) : s.ended p = 0 := by
  have h₁ := hs.places_le p
  have h₂ := s.sched.count_level_le i p
  have h₃ := List.count_pos_iff.mpr hp
  have h₄ := s.arrived_le_one p
  have h₅ := s.toReap_le_owners p
  rw [places] at h₁
  rw [hs.ended_eq p]
  omega

theorem arrived_of_owner (hs : s.Custody) (hc : (s.cpu c).point.owner = some p) :
    s.arrived p = 1 := by
  have h₁ := hs.places_le p
  have h₂ := s.owns_le_owners c p
  have h₃ := s.arrived_le_one p
  rw [Point.owns_of_owner hc] at h₂
  rw [places] at h₁
  omega

theorem arrived_of_level (hs : s.Custody) {i : Fin maxPrio}
    (hp : p ∈ (s.sched.mlqReadyQueue i).proc) : s.arrived p = 1 := by
  have h₁ := hs.places_le p
  have h₂ := s.sched.count_level_le i p
  have h₃ := List.count_pos_iff.mpr hp
  have h₄ := s.arrived_le_one p
  rw [places] at h₁
  omega

theorem cpuStep (hs : s.Custody) {name : List Char} (h : s.cpuStep cfg c name = some s') :
    s'.Custody where
  places_le p := by
    obtain ⟨x, hb⟩ := (cpuStep_moved h).balanced p
    rw [arrived_congr (cpuStep_moved h).loader_eq]
    exact hb.places_sum_le.trans (hs.places_le p)
  ended_eq p := by
    obtain ⟨x, hb⟩ := (cpuStep_moved h).balanced p
    have h₁ := hb.ended_sum_eq
    have h₂ := hs.ended_eq p
    omega
  listed_le p := by
    obtain ⟨x, hb⟩ := (cpuStep_moved h).balanced p
    rw [arrived_congr (cpuStep_moved h).loader_eq]
    rcases hb.listed_eq with he | ⟨hpt, hz, hz', he⟩
    · rw [he]
      exact hs.listed_le p
    · -- the reported process was never listed, so all that counts is that it is owned
      have ho : (s.cpu c).point.owner = some p := by rw [hpt]; rfl
      have h₁ := hs.ended_of_owner ho (by rw [hpt]; rfl)
      have h₂ := hs.arrived_of_owner ho
      omega

theorem ldStep (hs : s.Custody) (h : s.ldStep cfg = some s') : s'.Custody := by
  cases ldStep_loaded h with
  | loads i prio loader next same =>
    have ha : ∀ p, arrived { s with
        proc := Function.update s.proc i ⟨0, prio, false⟩, loader := loader } p = s.arrived p := by
      intro p
      simp only [arrived, same]
    exact ⟨fun p => (ha p).symm ▸ hs.places_le p, hs.ended_eq,
      fun p => (ha p).symm ▸ hs.listed_le p⟩
  | waits loader done _ same =>
    have ha : ∀ p, arrived { s with loader := loader, done := done } p = s.arrived p := by
      intro p
      simp only [arrived, same]
    exact ⟨fun p => (ha p).symm ▸ hs.places_le p, hs.ended_eq,
      fun p => (ha p).symm ▸ hs.listed_le p⟩
  | adds i slots before =>
    refine ⟨fun p => ?_, hs.ended_eq, fun p => ?_⟩
    · have h₁ := s.sched.ready_addProc_le (s.proc i).prio i p
      have h₂ := hs.places_le p
      refine le_trans ?_ (arrived_add s _ before (by rfl) p).ge
      simp only [places, owners, toFree] at h₂ ⊢
      omega
    · have h₁ := s.sched.listed_addProc_le (s.proc i).prio i p
      have h₂ := hs.listed_le p
      refine le_trans ?_ (arrived_add s _ before (by rfl) p).ge
      dsimp only
      omega

theorem step (hs : s.Custody) {a : Action m} (h : Next cfg s a s') : s'.Custody := by
  cases a with
  | loader => exact hs.ldStep h
  | cpu c name => exact hs.cpuStep h
  | tick =>
    obtain rfl := Option.some.inj h
    exact ⟨hs.places_le, hs.ended_eq, hs.listed_le⟩

theorem run {as : List (Action m)} (h : Run (Next cfg) (start n m) as s) : s.Custody :=
  h.invariant Custody custody_start fun _ _ _ hs hn => hs.step hn

theorem places_le_one (hs : s.Custody) (p : Fin n) : s.places p ≤ 1 :=
  (hs.places_le p).trans (s.arrived_le_one p)

theorem owner_unique (hs : s.Custody) {d : Fin m} (hc : (s.cpu c).point.owner = some p)
    (hd : (s.cpu d).point.owner = some p) : c = d := by
  have h := hs.places_le_one p
  rw [places] at h
  apply Accounting.eq_of_sum_le_one (S := Finset.univ) (g := fun d => (s.cpu d).point.owns p)
    (h := by rw [← owners]; omega) (Finset.mem_univ c) (Finset.mem_univ d)
  · rw [Point.owns_of_owner hc]
    exact Nat.one_pos
  · rw [Point.owns_of_owner hd]
    exact Nat.one_pos

theorem owner_ne (hs : s.Custody) {d : Fin m} {q : Fin n} (hdc : d ≠ c)
    (hc : (s.cpu c).point.owner = some p) (hd : (s.cpu d).point.owner = some q) : q ≠ p := by
  intro heq
  subst heq
  exact hdc (hs.owner_unique hd hc)

theorem not_released_of_owner (hs : s.Custody) (hc : (s.cpu c).point.owner = some p) :
    s.released p = 0 := by
  have h₁ := hs.places_le_one p
  have h₂ := s.owns_le_owners c p
  rw [Point.owns_of_owner hc] at h₂
  rw [places] at h₁
  omega

theorem not_released_of_listed (hs : s.Custody) (hp : p ∈ s.sched.runningList.proc) :
    s.released p = 0 := by
  have h₁ := hs.listed_le p
  have h₂ := hs.ended_eq p
  have h₃ : 0 < s.sched.listed p := List.count_pos_iff.mpr hp
  have h₄ := s.arrived_le_one p
  omega

theorem not_released_of_victim (hs : s.Custody) (hp : p ∈ (s.cpu c).point.victims) :
    s.released p = 0 := by
  have h₁ := hs.places_le_one p
  have h₂ : (s.cpu c).point.frees p ≤ s.toFree p :=
    Finset.single_le_sum (f := fun d => (s.cpu d).point.frees p) (fun _ _ => Nat.zero_le _)
      (Finset.mem_univ c)
  have h₃ : 0 < (s.cpu c).point.frees p := List.count_pos_iff.mpr hp
  rw [places] at h₁
  omega

end Custody
end OSsim.System
