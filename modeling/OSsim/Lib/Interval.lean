import Mathlib.Tactic

/-!
# Half-open intervals of addresses

An interval `[lo, hi)` is measured by the indicator of its points, and a list of
intervals by the number of its members that contain a point. Splitting and joining
intervals leave that number alone; where it never exceeds one the intervals are
pairwise disjoint.
-/

namespace Interval
variable {ρ : Type*}

def ind (lo hi a : ℕ) : ℕ := if lo ≤ a ∧ a < hi then 1 else 0

theorem ind_pos {lo hi a : ℕ} : 0 < ind lo hi a ↔ lo ≤ a ∧ a < hi := by
  unfold ind
  split_ifs with h <;> simp [h]

theorem ind_eq_zero {lo hi a : ℕ} : ind lo hi a = 0 ↔ ¬ (lo ≤ a ∧ a < hi) := by
  unfold ind
  split_ifs with h <;> simp [h]

theorem ind_le_one (lo hi a : ℕ) : ind lo hi a ≤ 1 := by
  unfold ind
  split_ifs <;> omega

theorem ind_split {lo mid hi : ℕ} (h₁ : lo ≤ mid) (h₂ : mid ≤ hi) (a : ℕ) :
    ind lo hi a = ind lo mid a + ind mid hi a := by
  unfold ind
  split_ifs <;> omega

theorem ind_empty {lo hi : ℕ} (h : hi ≤ lo) (a : ℕ) : ind lo hi a = 0 := by
  rw [ind_eq_zero]
  omega

def cover (lo hi : ρ → ℕ) (l : List ρ) (a : ℕ) : ℕ := (l.map fun r => ind (lo r) (hi r) a).sum

section Cover
variable (lo hi : ρ → ℕ)

@[simp] theorem cover_nil (a : ℕ) : cover lo hi [] a = 0 := rfl

@[simp] theorem cover_cons (r : ρ) (l : List ρ) (a : ℕ) :
    cover lo hi (r :: l) a = ind (lo r) (hi r) a + cover lo hi l a := by
  simp [cover]

theorem cover_pos {l : List ρ} {a : ℕ} :
    0 < cover lo hi l a ↔ ∃ r ∈ l, lo r ≤ a ∧ a < hi r := by
  induction l with
  | nil => simp
  | cons r l ih =>
    rw [cover_cons]
    constructor
    · intro h
      by_cases hr : 0 < ind (lo r) (hi r) a
      · exact ⟨r, List.mem_cons_self, ind_pos.mp hr⟩
      · obtain ⟨r', hm, hr'⟩ := ih.mp (by omega)
        exact ⟨r', List.mem_cons_of_mem _ hm, hr'⟩
    · intro hconj
      obtain ⟨r', hm, hr'⟩ := hconj
      rcases List.mem_cons.mp hm with rfl | hm
      · have := ind_pos.mpr hr'
        omega
      · have := ih.mpr ⟨r', hm, hr'⟩
        omega

theorem pairwise_of_cover_le_one {l : List ρ} (h : ∀ a, cover lo hi l a ≤ 1) :
    l.Pairwise fun r r' => ∀ a, ¬ ((lo r ≤ a ∧ a < hi r) ∧ lo r' ≤ a ∧ a < hi r') := by
  induction l with
  | nil => exact .nil
  | cons r l ih =>
    simp only [cover_cons] at h
    refine List.pairwise_cons.mpr ⟨?_, ih fun a => by have := h a; omega⟩
    intro r' hm a hconj
    obtain ⟨hr, hr'⟩ := hconj
    have h1 := ind_pos.mpr hr
    have h2 := (cover_pos lo hi).mpr ⟨r', hm, hr'⟩
    have := h a
    omega

/-- No two non-empty members overlap or touch. -/
def Gapped (l : List ρ) : Prop :=
  l.Pairwise fun r r' => lo r < hi r → lo r' < hi r' → hi r < lo r' ∨ hi r' < lo r

section Gapped
variable {lo hi} {l l' : List ρ} (h : Gapped lo hi l)
include h

theorem Gapped.eq_or {r r' : ρ} (hr : r ∈ l) (hr' : r' ∈ l) (hne : lo r < hi r)
    (hne' : lo r' < hi r') : r = r' ∨ hi r < lo r' ∨ hi r' < lo r := by
  by_cases heq : r = r'
  · exact Or.inl heq
  · have hsymm : Std.Symm fun r r' : ρ =>
        lo r < hi r → lo r' < hi r' → hi r < lo r' ∨ hi r' < lo r :=
      ⟨fun _ _ hrel h₁ h₂ => (hrel h₂ h₁).symm⟩
    exact Or.inr (List.Pairwise.forall h hr hr' heq hne hne')

theorem Gapped.block {a n : ℕ} (hcov : ∀ i ≤ n, 0 < cover lo hi l (a + i)) :
    ∃ r ∈ l, lo r ≤ a ∧ a + n < hi r := by
  induction n with
  | zero => exact (cover_pos lo hi).mp (hcov 0 le_rfl)
  | succ n ih =>
    obtain ⟨r, hr, h₁, h₂⟩ := ih fun i hi => hcov i (by omega)
    obtain ⟨r', hr', h₃, h₄⟩ := (cover_pos lo hi).mp (hcov (n + 1) le_rfl)
    rcases h.eq_or hr hr' (by omega) (by omega) with rfl | hgap
    · exact ⟨r, hr, h₁, h₄⟩
    · omega

theorem Gapped.mem_of_cover (h' : Gapped lo hi l')
    (hcov : ∀ a, 0 < cover lo hi l a ↔ 0 < cover lo hi l' a) {r : ρ} (hr : r ∈ l)
    (hne : lo r < hi r) : ∃ r' ∈ l', lo r' = lo r ∧ hi r' = hi r := by
  have hblock : ∀ i ≤ hi r - lo r - 1, 0 < cover lo hi l' (lo r + i) := by
    intro i hle
    exact (hcov _).mp ((cover_pos lo hi).mpr ⟨r, hr, by omega, by omega⟩)
  obtain ⟨r', hr', h₁, h₂⟩ := h'.block hblock
  have hback : ∀ i ≤ hi r' - lo r' - 1, 0 < cover lo hi l (lo r' + i) := by
    intro i hle
    exact (hcov _).mpr ((cover_pos lo hi).mpr ⟨r', hr', by omega, by omega⟩)
  obtain ⟨r'', hr'', h₃, h₄⟩ := h.block hback
  refine ⟨r', hr', ?_⟩
  rcases h.eq_or hr hr'' hne (by omega) with rfl | hgap
  · omega
  · omega

end Gapped
end Cover
end Interval
