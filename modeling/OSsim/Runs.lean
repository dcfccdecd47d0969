import OSsim.Libmem
import OSsim.Lib.Run

/-!
# Runs of the memory system

A run starts from the devices `main` has set up and interleaves creations,
instructions and releases of any processes. A process changes only through its own
operations, so facts about a single address space carry over to whole runs.
-/

namespace OSsim

/-- The memory sizes that `read_config` accepts, read as `int`, and with which `main` gets
to its threads. -/
structure AcceptedMemory (memramsz : ℤ) (memswpsz : ℕ → ℤ) : Prop where
  ramLe : (pagingPagesz : ℤ) ≤ memramsz
  swpLe : (pagingPagesz : ℤ) ≤ memswpsz 0
  ramInt : memramsz < 2 ^ 31
  swpInt : memswpsz 0 < 2 ^ 31
  swpNonneg : ∀ sit, sit < pagingMaxMmswp → 0 ≤ memswpsz sit

namespace Kernel
variable {ι : Type*} [DecidableEq ι]

omit [DecidableEq ι] in
theorem main_eq_some {memramsz : ℤ} {memswpsz : ℕ → ℤ} {s : Kernel ι} :
    main memramsz memswpsz = some s ↔ 0 ≤ memramsz ∧
      (∀ sit, sit < pagingMaxMmswp → 0 ≤ memswpsz sit) ∧ boot memramsz memswpsz = s := by
  simp [main, initMemphy, ← and_assoc]

def Next (s : Kernel ι) (op : Op ι) (s' : Kernel ι) : Prop := s' = (s.step op).2

variable {s s' : Kernel ι} {p q : ι} {mm mm' : Mm}

@[simp] theorem commit_mm_self (s : Kernel ι) (p : ι) (c : Pcb) : (s.commit p c).mm p = some c.mm :=
  Function.update_self _ _ _

theorem commit_mm_of_ne (s : Kernel ι) (c : Pcb) (h : q ≠ p) : (s.commit p c).mm q = s.mm q :=
  Function.update_of_ne h _ _

theorem step_create (hp : s.mm p = none) :
    s.step (.create p) = (.done, { s with mm := Function.update s.mm p (some initMm) }) := by
  simp only [step, hp]

theorem step_exec (hp : s.mm p = some mm) (i : Instr) :
    s.step (.exec p i) =
      (((s.caller mm).exec i).1, s.commit p ((s.caller mm).exec i).2) := by
  simp only [step, hp]

theorem step_release (hp : s.mm p = some mm) :
    s.step (.release p) = (.done, ⟨(s.caller mm).freePcbMemph.mram, (s.caller mm).freePcbMemph.mswp,
      Function.update s.mm p none⟩) := by
  simp only [step, hp]

inductive Stepped (s : Kernel ι) : Op ι → Kernel ι → Prop
  | idle {op : Op ι} : (s.step op).1 = .failed → Stepped s op s
  | created {p : ι} : s.mm p = none →
      Stepped s (.create p) { s with mm := Function.update s.mm p (some initMm) }
  | executed {p : ι} {mm : Mm} (i : Instr) : s.mm p = some mm →
      Stepped s (.exec p i) (s.commit p ((s.caller mm).exec i).2)
  | released {p : ι} {mm : Mm} : s.mm p = some mm →
      Stepped s (.release p) ⟨(s.caller mm).freePcbMemph.mram, (s.caller mm).freePcbMemph.mswp,
        Function.update s.mm p none⟩

theorem step_cases (s : Kernel ι) (op : Op ι) : Stepped s op (s.step op).2 := by
  cases op with
  | create p =>
    rcases hp : s.mm p with _ | mm
    · rw [step_create hp]
      exact .created hp
    · have he : s.step (.create p) = (.failed, s) := by simp only [step, hp]
      rw [he]
      exact .idle (by rw [he])
  | exec p i =>
    rcases hp : s.mm p with _ | mm
    · have he : s.step (.exec p i) = (.failed, s) := by simp only [step, hp]
      rw [he]
      exact .idle (by rw [he])
    · rw [step_exec hp]
      exact .executed i hp
  | release p =>
    rcases hp : s.mm p with _ | mm
    · have he : s.step (.release p) = (.failed, s) := by simp only [step, hp]
      rw [he]
      exact .idle (by rw [he])
    · rw [step_release hp]
      exact .released hp

theorem live_after {op : Op ι} (hs : Stepped s op s') (hq : s'.mm q = some mm') :
    s.mm q = some mm' ∨ (op = .create q ∧ mm' = initMm) ∨
      ∃ mm i, op = .exec q i ∧ s.mm q = some mm ∧ mm' = ((s.caller mm).exec i).2.mm := by
  cases hs with
  | idle => exact Or.inl hq
  | @created p hp =>
    by_cases hqp : q = p
    · subst hqp
      simp only [Function.update_self, Option.some.injEq] at hq
      exact Or.inr (Or.inl ⟨rfl, hq.symm⟩)
    · simp only [Function.update_of_ne hqp] at hq
      exact Or.inl hq
  | @executed p mm i hp =>
    by_cases hqp : q = p
    · subst hqp
      simp only [commit_mm_self, Option.some.injEq] at hq
      exact Or.inr (Or.inr ⟨mm, i, rfl, hp, hq.symm⟩)
    · rw [commit_mm_of_ne _ _ hqp] at hq
      exact Or.inl hq
  | @released p mm hp =>
    by_cases hqp : q = p
    · subst hqp
      simp at hq
    · simp only [Function.update_of_ne hqp] at hq
      exact Or.inl hq

theorem next_unique (s : Kernel ι) (op : Op ι) (t t' : Kernel ι) (h : Next s op t)
    (h' : Next s op t') : t = t' := h.trans h'.symm

theorem run_foldr (s : Kernel ι) (ops : List (Op ι)) :
    Run Next s ops (ops.foldr (fun op s => (s.step op).2) s) := by
  induction ops with
  | nil => exact .nil
  | cons op ops ih => exact .snoc ih rfl

def All (P : Mm → Prop) (s : Kernel ι) : Prop := ∀ p mm, s.mm p = some mm → P mm

omit [DecidableEq ι] in
theorem all_boot (P : Mm → Prop) (memramsz : ℤ) (memswpsz : ℕ → ℤ) :
    (boot memramsz memswpsz : Kernel ι).All P := fun _ _ hp => by cases hp

/-- A property of single address spaces that holds of a new one and is kept by every
instruction is kept by every step. -/
theorem all_step {P : Mm → Prop} (hinit : P initMm)
    (hexec : ∀ c i, P c.mm → P (Pcb.exec c i).2.mm) (s : Kernel ι) (op : Op ι) (s' : Kernel ι)
    (hs : s.All P) (hn : Next s op s') : s'.All P := by
  intro p mm' hp
  rw [Next] at hn
  subst hn
  rcases live_after (s.step_cases op) hp with hq | ⟨_, rfl⟩ | ⟨mm, i, _, hq, rfl⟩
  · exact hs p mm' hq
  · exact hinit
  · exact hexec _ i (hs p mm hq)

end Kernel
end OSsim
