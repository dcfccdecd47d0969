import Mathlib.Tactic

/-!
# Arrays with checked accesses

An array of fixed length whose indices are integers. An access outside of the array ends
the computation with the index. The array holds a list if its first cells are the items
of the list; what the other cells contain does not matter.
-/

namespace Cells
variable {n : ℕ} {α : Type*}

def read (a : Fin n → α) (i : ℤ) : Except ℤ α :=
  if h : 0 ≤ i ∧ i < n then .ok (a ⟨i.toNat, by omega⟩) else .error i

def write (a : Fin n → α) (i : ℤ) (x : α) : Except ℤ (Fin n → α) :=
  if h : 0 ≤ i ∧ i < n then .ok (Function.update a ⟨i.toNat, by omega⟩ x) else .error i

structure Holds (a : Fin n → α) (l : List α) : Prop where
  length_le : l.length ≤ n
  cell : ∀ (i : Fin n) (h : i.val < l.length), a i = l[i.val]

theorem Holds.nil (a : Fin n → α) : Holds a [] := ⟨Nat.zero_le n, fun _ h => by cases h⟩

variable {a : Fin n → α} {l : List α} {x : α}

namespace Holds
variable (h : Holds a l)
include h

theorem take {l' : List α} (hl : l' <+: l) : Holds a l' where
  length_le := hl.length_le.trans h.length_le
  cell i hi := by
    rw [h.cell i (hi.trans_le hl.length_le)]
    exact (hl.getElem hi).symm

theorem read {i : ℕ} (hi : i < l.length) : Cells.read a i = .ok l[i] := by
  have hn := h.length_le
  have hcell := h.cell ⟨i, by omega⟩ hi
  rw [Cells.read, dif_pos ⟨by omega, by omega⟩]
  simp only [Int.toNat_natCast, hcell]

theorem write {i : ℕ} (hi : i < l.length) (x : α) :
    ∃ a', Cells.write a i x = .ok a' ∧ Holds a' (l.set i x) := by
  have hn := h.length_le
  refine ⟨Function.update a ⟨i, by omega⟩ x, ?_, ⟨by rwa [List.length_set], fun j hj => ?_⟩⟩
  · rw [Cells.write, dif_pos ⟨by omega, by omega⟩]
    simp only [Int.toNat_natCast]
  · rw [List.length_set] at hj
    by_cases hij : j.val = i
    · subst hij
      rw [List.getElem_set_self]
      exact Function.update_self _ _ _
    · rw [List.getElem_set_ne (Ne.symm hij), Function.update_of_ne (fun he => hij (congrArg _ he))]
      exact h.cell j hj

theorem append (hn : l.length < n) (x : α) :
    ∃ a', Cells.write a l.length x = .ok a' ∧ Holds a' (l ++ [x]) := by
  refine ⟨Function.update a ⟨l.length, hn⟩ x, ?_, ⟨?_, fun j hj => ?_⟩⟩
  · rw [Cells.write, dif_pos ⟨by omega, by omega⟩]
    simp only [Int.toNat_natCast]
  · rwa [List.length_append, List.length_singleton]
  · rw [List.length_append, List.length_singleton] at hj
    by_cases hlast : j.val = l.length
    · have hj' : j = ⟨l.length, hn⟩ := Fin.ext hlast
      subst hj'
      rw [Function.update_self, List.getElem_append_right le_rfl]
      simp
    · rw [Function.update_of_ne (fun he => hlast (congrArg Fin.val he)),
        List.getElem_append_left (by omega)]
      exact h.cell j (by omega)

end Holds

theorem set_eraseIdx_succ {i : ℕ} (h : i + 1 < l.length) :
    (l.set i l[i + 1]).eraseIdx (i + 1) = l.eraseIdx i := by
  apply List.ext_getElem?
  intro j
  simp only [List.getElem?_eraseIdx, List.getElem?_set]
  grind

end Cells
