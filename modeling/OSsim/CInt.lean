import Mathlib.Tactic

/-!
# C integer conversions and paging constants

`int` values are integers, and `unsigned long` values natural numbers below `2^64`.
Arithmetic whose result is stored in an `int` is wrapped to 32 bits, as the
unoptimised build of the Makefile computes it. The constants are those of
`include/mm.h` and `include/os-mm.h`.
-/

namespace OSsim

/-- Storing a value in an `int`. -/
def toInt (x : ℤ) : ℤ := (x + 2 ^ 31) % 2 ^ 32 - 2 ^ 31

/-- A value that fits in `int`. -/
def FitsInt (z : ℤ) : Prop := -2 ^ 31 ≤ z ∧ z < 2 ^ 31

/-- Storing a value in an `unsigned long`. -/
def toULong (x : ℤ) : ℕ := (x % 2 ^ 64).toNat

def pagingPagesz : ℕ := 256

/-- `DIV_ROUND_UP(BIT(22), 256)`. -/
def pagingMaxPgn : ℕ := 16384

def pagingMaxSymtblSz : ℕ := 30

instance : NeZero pagingMaxSymtblSz := ⟨by decide⟩

def pagingMaxMmswp : ℕ := 4

theorem toInt_of_mem {x : ℤ} (h₁ : -2 ^ 31 ≤ x) (h₂ : x < 2 ^ 31) : toInt x = x := by
  unfold toInt
  omega

theorem toInt_natCast {n : ℕ} (h : n < 2 ^ 31) : toInt (n : ℤ) = n :=
  toInt_of_mem (by omega) (by omega)

theorem toInt_ofNat_word {n : ℕ} (h : n < 2 ^ 31) : (BitVec.ofNat 32 n).toInt = n := by
  rw [BitVec.toInt_eq_toNat_cond, BitVec.toNat_ofNat, Nat.mod_eq_of_lt (by omega),
    if_pos (by omega)]

theorem toInt_lt (x : ℤ) : toInt x < 2 ^ 31 := by
  unfold toInt
  omega

theorem toULong_natCast {n : ℕ} (h : n < 2 ^ 64) : toULong (n : ℤ) = n := by
  unfold toULong
  omega

theorem toULong_toInt {n : ℕ} (h : n < 2 ^ 31) : toULong (toInt n) = n := by
  rw [toInt_natCast h, toULong_natCast (by omega)]

/-- `PAGING_PAGE_ALIGNSZ(sz)`: the sum `sz + 256 - 1` is an `int` computation. -/
def pagingPageAlignsz (sz : ℤ) : ℤ :=
  (toInt (toInt (sz + pagingPagesz) - 1)).tdiv pagingPagesz * pagingPagesz

theorem pagingPageAlignsz_eq {sz : ℤ} (h₀ : 0 < sz) (h₁ : sz < 2 ^ 31) :
    pagingPageAlignsz sz ≤ 0 ∨
      (sz ≤ pagingPageAlignsz sz ∧ pagingPageAlignsz sz < sz + 256) := by
  unfold pagingPageAlignsz pagingPagesz
  by_cases hs : sz + 255 < 2 ^ 31
  · right
    have he : toInt (toInt (sz + (256 : ℕ)) - 1) = sz + 255 := by
      unfold toInt
      omega
    rw [he, Int.tdiv_eq_ediv_of_nonneg (by omega)]
    omega
  · left
    have he : toInt (toInt (sz + (256 : ℕ)) - 1) = -(2 ^ 32 - 255 - sz) := by
      unfold toInt
      omega
    have hn : 0 ≤ (2 ^ 32 - 255 - sz).tdiv ((256 : ℕ) : ℤ) :=
      Int.tdiv_nonneg (by omega) (by omega)
    rw [he, Int.neg_tdiv]
    omega

theorem tdiv_mul_le (x : ℤ) : x.tdiv pagingPagesz * pagingPagesz ≤ max x 0 := by
  simp only [pagingPagesz]
  by_cases hx : 0 ≤ x
  · rw [Int.tdiv_eq_ediv_of_nonneg hx]
    omega
  · have hd : 0 ≤ (-x).tdiv ((256 : ℕ) : ℤ) := Int.tdiv_nonneg (by omega) (by omega)
    rw [Int.neg_tdiv] at hd
    omega

theorem pagingPageAlignsz_lt (sz : ℤ) : pagingPageAlignsz sz < 2 ^ 31 := by
  have h := tdiv_mul_le (toInt (toInt (sz + pagingPagesz) - 1))
  have hlt := toInt_lt (toInt (sz + pagingPagesz) - 1)
  simp only [pagingPageAlignsz]
  omega

theorem dvd_pagingPageAlignsz (sz : ℤ) : (256 : ℤ) ∣ pagingPageAlignsz sz :=
  ⟨_, Int.mul_comm _ _⟩

end OSsim
