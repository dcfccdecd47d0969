import Mathlib.Algebra.BigOperators.Group.Finset.Piecewise
import Mathlib.Algebra.Order.BigOperators.Group.Finset
import Mathlib.Data.Fintype.BigOperators
import Mathlib.Tactic

/-!
# Accounting for tokens held in the cells of a table

Every cell of a table holds some weight of a token. Overwriting one cell moves the
total by the difference of the two weights, and a total of at most one leaves room
for a single holder. If each token has exactly one holder, or lies in a pool, the pool
and the holdings add up to the number of tokens.
-/

open scoped BigOperators
namespace Accounting
variable {κ β : Type*} [DecidableEq κ]

theorem sum_update (S : Finset κ) (g : β → ℕ) (f : κ → β) {k : κ} (hk : k ∈ S) (b : β) :
    ∑ x ∈ S, g (Function.update f k b x) + g (f k) = ∑ x ∈ S, g (f x) + g b := by
  rw [← Finset.add_sum_erase S _ hk, ← Finset.add_sum_erase S (fun x => g (f x)) hk]
  have hrest : ∑ x ∈ S.erase k, g (Function.update f k b x) = ∑ x ∈ S.erase k, g (f x) := by
    apply Finset.sum_congr rfl
    intro x hx
    rw [Function.update_of_ne (Finset.ne_of_mem_erase hx)]
  rw [hrest, Function.update_self]
  omega

theorem add_le_sum {S : Finset κ} {g : κ → ℕ} {i j : κ} (hi : i ∈ S) (hj : j ∈ S)
    (hne : i ≠ j) : g i + g j ≤ ∑ x ∈ S, g x := by
  have hj' : j ∈ S.erase i := Finset.mem_erase.mpr ⟨Ne.symm hne, hj⟩
  rw [← Finset.add_sum_erase S g hi]
  exact Nat.add_le_add_left (Finset.single_le_sum (fun _ _ => Nat.zero_le _) hj') _

theorem eq_of_sum_le_one {S : Finset κ} {g : κ → ℕ} (h : ∑ x ∈ S, g x ≤ 1) {i j : κ}
    (hi : i ∈ S) (hj : j ∈ S) (hgi : 0 < g i) (hgj : 0 < g j) : i = j := by
  by_contra hne
  have := add_le_sum (g := g) hi hj hne
  omega

omit [DecidableEq κ] in
theorem length_add_sum [Fintype κ] {N : ℕ} {pool : List ℕ} {own : κ → ℕ → ℕ}
    (h : ∀ f, pool.count f + ∑ q, own q f = if f < N then 1 else 0) :
    pool.length + ∑ q, ∑ f ∈ Finset.range N, own q f = N := by
  have hmem : ∀ f ∈ (pool : Multiset ℕ), f ∈ Finset.range N := by
    intro f hf
    have ha := h f
    have hpos : 0 < pool.count f := List.count_pos_iff.mpr hf
    split_ifs at ha with hlt
    · exact Finset.mem_range.mpr hlt
    · omega
  have hcount : ∑ f ∈ Finset.range N, pool.count f = pool.length := by
    simpa only [Multiset.coe_count, Multiset.coe_card] using Multiset.sum_count_eq_card hmem
  have hall : ∑ f ∈ Finset.range N, (pool.count f + ∑ q, own q f) = N := by
    rw [Finset.sum_congr rfl fun f hf => by rw [h f, if_pos (Finset.mem_range.mp hf)]]
    simp
  rw [Finset.sum_add_distrib, hcount, Finset.sum_comm] at hall
  exact hall

omit [DecidableEq κ] in
theorem sum_holds {S : Finset κ} {P : κ → Prop} [DecidablePred P] {g : κ → ℕ} {N : ℕ}
    (hlt : ∀ k ∈ S, P k → g k < N) :
    ∑ f ∈ Finset.range N, ∑ k ∈ S, (if P k ∧ g k = f then 1 else 0) = (S.filter P).card := by
  rw [Finset.sum_comm, Finset.card_filter]
  refine Finset.sum_congr rfl fun k hk => ?_
  by_cases hp : P k
  · simp only [hp, true_and, Finset.sum_ite_eq, Finset.mem_range, hlt k hk hp, if_true]
  · simp only [hp, false_and, if_false, Finset.sum_const_zero]

end Accounting
