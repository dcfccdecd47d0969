import OSsim.Deadline

/-!
# A bounded number of steps in a slot

Between two calls of `next_slot` a CPU goes once through its loop, and the loader through
part of its own. There is always a step that the barrier allows, so the threads cannot
help reaching the deadline.
-/

open scoped BigOperators
namespace OSsim
variable {n m : ℕ}

def Point.rank : Point n → ℕ
  | top _ => 0
  | testEnd _ => 1
  | finish _ => 2
  | free _ => 3
  | afterFree => 4
  | put _ => 2
  | afterPut => 3
  | recheck _ => 5
  | run _ => 6
  | fetched _ _ _ => 7
  | execute _ _ _ => 8
  | kill _ _ => 9
  | freeVictims _ victims => 10 + (n - victims.length)
  | ran _ => 11 + n
  | inSlot _ => 12 + n
  | stopped => 12 + n

theorem Point.rank_le (x : Point n) : x.rank ≤ 12 + n := by
  cases x <;> simp only [rank] <;> omega

def LdPoint.rank : LdPoint n → ℕ
  | load _ => 0
  | wait _ => 1
  | waitSlot _ => 2
  | add _ => 2
  | addSlot _ => 3
  | finish => 1
  | stopped => 2

theorem LdPoint.rank_le (x : LdPoint n) : x.rank ≤ 3 := by
  cases x <;> simp [rank]

def Cpu.steps (x : Cpu n) : ℕ := (13 + n) * x.slots + x.point.rank

def Loader.steps (x : Loader n) : ℕ := 4 * x.slots + x.point.rank

namespace System
variable {cfg : Config n} {s s' : System n m} {c d : Fin m} {p : Fin n} {name : List Char}
  {as : List (Action m)}

def steps (s : System n m) : ℕ := s.time + s.loader.steps + ∑ c, (s.cpu c).steps

theorem Custody.victims_length (hs : s.Custody) (c : Fin m) :
    (s.cpu c).point.victims.length ≤ n := by
  have hnodup : (s.cpu c).point.victims.Nodup := by
    rw [List.nodup_iff_count_le_one]
    intro p
    have h₁ := hs.places_le_one p
    have h₂ : (s.cpu c).point.frees p ≤ s.toFree p :=
      Finset.single_le_sum (f := fun d => (s.cpu d).point.frees p) (fun _ _ => Nat.zero_le _)
        (Finset.mem_univ c)
    rw [places] at h₁
    rw [Point.frees] at h₂
    omega
  simpa using hnodup.length_le_card

theorem cpuStep_steps (hs : s.Custody) (h : s.cpuStep cfg c name = some s') :
    (s.cpu c).steps < (s'.cpu c).steps := by
  have hvictims := hs.victims_length c
  cases cpuStep_cases h with
  | slot proc before =>
    simp only [Cpu.steps, before, setCpu_cpu_self, Point.rank]
    ring_nf
    omega
  | freesVictim p v vs before =>
    rw [before, Point.victims, List.length_cons] at hvictims
    simp [Cpu.steps, before, Point.rank, goto]
    omega
  | _ =>
    simp only [Cpu.steps, ‹(s.cpu c).point = _›, Point.rank, goto, setProc, setCpu_cpu_self]
    omega

theorem LdNext.steps {time : ℕ} {x y : Loader n} (h : LdNext cfg time x.point y.point)
    (hslots : y.slots = x.slots + if x.inNextSlot then 1 else 0) : x.steps < y.steps := by
  obtain ⟨px, sx⟩ := x
  obtain ⟨py, sy⟩ := y
  dsimp only at h
  cases h <;> simp only [Loader.inNextSlot, Loader.steps, LdPoint.rank] at hslots ⊢ <;>
    subst hslots <;> simp <;> omega

theorem steps_lt (hs : s.Custody) {a : Action m} (h : Next cfg s a s') : s.steps < s'.steps := by
  cases a with
  | tick =>
    obtain rfl := Option.some.inj h
    simp only [steps]
    omega
  | cpu c name =>
    change s.cpuStep cfg c name = some s' at h
    have hm := cpuStep_moved h
    have htime : s'.time = s.time := by cases hm <;> rfl
    have hlt := cpuStep_steps hs h
    have hcpu : s'.cpu = Function.update s.cpu c (s'.cpu c) := by
      funext d
      by_cases hd : d = c
      · subst hd
        rw [Function.update_self]
      · rw [Function.update_of_ne hd, hm.cpu_of_ne hd]
    have hsum := Accounting.sum_update Finset.univ Cpu.steps s.cpu (Finset.mem_univ c) (s'.cpu c)
    rw [← hcpu] at hsum
    rw [steps, steps, htime, hm.loader_eq]
    omega
  | loader =>
    change s.ldStep cfg = some s' at h
    have hcpu : s'.cpu = s.cpu := by cases ldStep_loaded h <;> rfl
    obtain ⟨htime, hslots⟩ := ldStep_slots h
    have hlt := LdNext.steps (ldStep_next h) hslots
    rw [steps, steps, htime, hcpu]
    omega

theorem length_le_steps (h : Run (NextInStep cfg) (start n m) as s) : as.length ≤ s.steps := by
  have hrun : s.Custody ∧ as.length ≤ s.steps := by
    induction h with
    | nil => exact ⟨custody_start, Nat.zero_le _⟩
    | snoc _ hn ih =>
      have hlt := steps_lt ih.1 hn.2
      exact ⟨ih.1.step hn.2, by rw [List.length_cons]; omega⟩
  exact hrun.2

def stepsBy (n m t : ℕ) : ℕ := t + (4 * t + 3) + m * ((13 + n) * t + (12 + n))

theorem OnTime.steps_le (ht : s.OnTime cfg) : s.steps ≤ stepsBy n m s.time := by
  have hloader : s.loader.steps ≤ 4 * s.time + 3 :=
    Nat.add_le_add (Nat.mul_le_mul_left 4 ht.loader.slots_le) (LdPoint.rank_le _)
  have hcpu : ∀ c, (s.cpu c).steps ≤ (13 + n) * s.time + (12 + n) := fun c =>
    Nat.add_le_add (Nat.mul_le_mul_left _ (ht.cpu_slots c)) (Point.rank_le _)
  have hsum := Finset.sum_le_sum fun c (_ : c ∈ Finset.univ) => hcpu c
  simp only [Finset.sum_const, Finset.card_univ, Fintype.card_fin, smul_eq_mul] at hsum
  rw [steps, stepsBy]
  omega

theorem stepsBy_mono {t t' : ℕ} (h : t ≤ t') : stepsBy n m t ≤ stepsBy n m t' := by
  have hmul := Nat.mul_le_mul_left (13 + n) h
  have hcpus := Nat.mul_le_mul_left m (Nat.add_le_add_right hmul (12 + n))
  rw [stepsBy, stepsBy]
  omega

theorem ld_enabled (cfg : Config n) (hl : s.loader.point ≠ .stopped) :
    ∃ s', Next cfg s .loader s' := by
  change ∃ s', s.ldStep cfg = some s'
  cases hpt : s.loader.point with
  | load i =>
    simp only [ldStep, hpt]
    split_ifs <;> exact ⟨_, rfl⟩
  | stopped => exact absurd hpt hl
  | _ =>
    simp only [ldStep, hpt]
    exact ⟨_, rfl⟩

theorem exists_nextInStep (cfg : Config n) (s : System n m) : ∃ a s', NextInStep cfg s a s' := by
  by_cases hcpus : ∀ c, (s.cpu c).point = .stopped ∨
      ((s.cpu c).inNextSlot = true ∧ s.time ≤ (s.cpu c).slots)
  · by_cases hloader : s.loader.point = .stopped ∨
        (s.loader.inNextSlot = true ∧ s.time ≤ s.loader.slots)
    · exact ⟨.tick, _, ⟨hcpus, hloader⟩, rfl⟩
    · obtain ⟨hgoing, hslot⟩ := not_or.mp hloader
      obtain ⟨s', hn⟩ := ld_enabled cfg hgoing
      exact ⟨.loader, s', fun hl => Nat.lt_of_not_le fun hle => hslot ⟨hl, hle⟩, hn⟩
  · obtain ⟨c, hc⟩ := not_forall.mp hcpus
    obtain ⟨hgoing, hslot⟩ := not_or.mp hc
    obtain ⟨s', hn⟩ := enabled cfg hgoing []
    exact ⟨.cpu c [], s', fun hl => Nat.lt_of_not_le fun hle => hslot ⟨hl, hle⟩, hn⟩

theorem run_quiescent_after_steps (cfg : Config n) (hn : n ≤ maxQueueSize) (hm : 0 < m)
    (h : Run (NextInStep cfg) (start n m) as s) :
    (∃ a s', NextInStep cfg s a s') ∧
      (stepsBy n m (deadline cfg) < as.length → s.Quiescent cfg) := by
  refine ⟨exists_nextInStep cfg s, fun hlong => ?_⟩
  have ht := Timely.run hn hm h
  refine ht.quiescent (ht.deadline (Nat.lt_of_not_le fun hle => ?_))
  have h₁ := length_le_steps h
  have h₂ := ht.onTime.steps_le
  have h₃ := stepsBy_mono (n := n) (m := m) hle
  omega

theorem run_quiescent_after_steps_oneCalc :
    ∃ as s, Run (NextInStep oneCalc) (start 1 1) as s ∧ stepsBy 1 1 (deadline oneCalc) = 111 ∧
      111 < as.length ∧ s.Quiescent oneCalc := by
  have hplay : (((start 1 1).playInStep oneCalc (List.replicate 100 .tick ++ oneCalcLate)).map
      (·.time)) = some 106 := by decide +kernel
  obtain ⟨s, hs, _⟩ := Option.map_eq_some_iff.mp hplay
  have hbound : stepsBy 1 1 (deadline oneCalc) = 111 := by decide
  have hlong : 111 < (List.replicate 100 Action.tick ++ oneCalcLate).length := by
    rw [List.length_append, List.length_replicate]
    decide
  refine ⟨_, s, run_of_playInStep hs, hbound, hlong, ?_⟩
  exact (run_quiescent_after_steps oneCalc (by decide) (by decide) (run_of_playInStep hs)).2
    (by rw [hbound]; exact hlong)

end System
end OSsim
