import OSsim.Lib.BitField
import OSsim.CInt

/-!
# Page table entries

The layout of `include/mm.h`: bit 31 present, bit 30 swapped, the frame number of
a resident page in bits 0 to 12, and for a swapped page the swap device in bits
0 to 4 and the swap frame in bits 5 to 25. The frame number overlaps both swap
fields, so a setter has to drop what the other one left.
-/

namespace OSsim
open BitField

abbrev Pte := BitVec 32

def bit (nr : ℕ) : Pte := 1#32 <<< nr
def genmask (h l : ℕ) : Pte := mask 32 h l

def ptePresentMask : Pte := bit 31
def pteSwappedMask : Pte := bit 30
def pteFpnMask : Pte := genmask 12 0
def pteSwptypMask : Pte := genmask 4 0
def pteSwpoffMask : Pte := genmask 25 5

def setbit (v m : Pte) : Pte := v ||| m
def clrbit (v m : Pte) : Pte := v &&& ~~~m
def setval (v : Pte) (value : ℕ) (m : Pte) (offst : ℕ) : Pte :=
  insert v (BitVec.ofNat 32 value) m offst
def getval (v m : Pte) (offst : ℕ) : ℕ := (extract v m offst).toNat

def pagingPagePresent (pte : Pte) : Prop := pte &&& ptePresentMask ≠ 0
def pagingPageSwapped (pte : Pte) : Prop := pte &&& pteSwappedMask ≠ 0

instance (pte : Pte) : Decidable (pagingPagePresent pte) := inferInstanceAs (Decidable (_ ≠ _))
instance (pte : Pte) : Decidable (pagingPageSwapped pte) := inferInstanceAs (Decidable (_ ≠ _))

def pagingFpn (pte : Pte) : ℕ := getval pte pteFpnMask 0
def pagingPteSwp (pte : Pte) : ℕ := getval pte pteSwpoffMask 5
def pagingPteSwptyp (pte : Pte) : ℕ := getval pte pteSwptypMask 0

def pteSetSwap (pte : Pte) (swptyp swpoff : ℕ) : Pte :=
  let pte := setbit pte ptePresentMask
  let pte := setbit pte pteSwappedMask
  let pte := setval pte swptyp pteSwptypMask 0
  setval pte swpoff pteSwpoffMask 5

def pteSetFpn (pte : Pte) (fpn : ℕ) : Pte :=
  let pte := setbit pte ptePresentMask
  let pte := clrbit pte pteSwappedMask
  -- the stale swap offset overlaps the frame number
  let pte := clrbit pte pteSwpoffMask
  setval pte fpn pteFpnMask 0

/-- `PAGING_PGN(addr)` and `PAGING_OFFST(addr)` of an `int` address. -/
def pagingPgn (addr : ℤ) : ℕ := getval (BitVec.ofInt 32 addr) (genmask 21 8) 8
def pagingOffst (addr : ℤ) : ℕ := getval (BitVec.ofInt 32 addr) (genmask 7 0) 0

theorem getLsbD_bit {nr : ℕ} (h : nr < 32) (i : ℕ) : (bit nr).getLsbD i = decide (i = nr) := by
  simp only [bit, BitVec.getLsbD_shiftLeft, BitVec.getLsbD_one]
  by_cases hi : i = nr
  · subst hi; simp [h]
  · by_cases hlt : i < nr
    · simp [hi, hlt]
    · have : i - nr ≠ 0 := by omega
      simp [hi, this]

theorem and_bit_ne_zero {nr : ℕ} (h : nr < 32) (v : Pte) :
    v &&& bit nr ≠ 0 ↔ v.getLsbD nr = true := by
  rw [← not_iff_not, not_not, Bool.not_eq_true]
  constructor
  · intro he
    have hb := congrArg (fun x : Pte => x.getLsbD nr) he
    simpa [getLsbD_bit h] using hb
  · intro hv
    apply BitVec.eq_of_getLsbD_eq
    intro i _
    by_cases hi : i = nr
    · subst hi; simp [hv]
    · simp [getLsbD_bit h, hi]

theorem pagingPagePresent_iff (pte : Pte) : pagingPagePresent pte ↔ pte.getLsbD 31 = true :=
  and_bit_ne_zero (by decide) pte

theorem pagingPageSwapped_iff (pte : Pte) : pagingPageSwapped pte ↔ pte.getLsbD 30 = true :=
  and_bit_ne_zero (by decide) pte

theorem getLsbD_setval {h l : ℕ} (hw : h < 32) (v : Pte) (x i : ℕ) :
    (setval v x (genmask h l) l).getLsbD i =
      if l ≤ i ∧ i ≤ h then (BitVec.ofNat 32 x).getLsbD (i - l) else v.getLsbD i :=
  getLsbD_insert hw v _ i

theorem getval_setval_self {h l x : ℕ} (hw : h < 32) (hx : x < 2 ^ (h + 1 - l)) (v : Pte) :
    getval (setval v x (genmask h l) l) (genmask h l) l = x := by
  have h32 : 2 ^ (h + 1 - l) ≤ 2 ^ 32 := Nat.pow_le_pow_right (by decide) (by omega)
  rw [getval, setval, genmask, extract_insert_self hw, BitVec.toNat_ofNat,
    Nat.mod_eq_of_lt (lt_of_lt_of_le hx h32), Nat.mod_eq_of_lt hx]

theorem getLsbD_setbit {nr : ℕ} (h : nr < 32) (v : Pte) (i : ℕ) :
    (setbit v (bit nr)).getLsbD i = (v.getLsbD i || decide (i = nr)) := by
  rw [setbit, BitVec.getLsbD_or, getLsbD_bit h]

theorem getLsbD_clrbit (v m : Pte) {i : ℕ} (h : i < 32) :
    (clrbit v m).getLsbD i = (v.getLsbD i && !m.getLsbD i) := by
  simp only [clrbit, BitVec.getLsbD_and, BitVec.getLsbD_not, h, decide_true, Bool.true_and]

theorem getLsbD_pteSetFpn (pte : Pte) (fpn : ℕ) {i : ℕ} (hi : 12 < i) (h32 : i < 32) :
    (pteSetFpn pte fpn).getLsbD i =
      (decide (i = 31) || (pte.getLsbD i && decide (25 < i) && decide (i ≠ 30))) := by
  rw [pteSetFpn, pteFpnMask, getLsbD_setval (by decide), if_neg (by omega),
    getLsbD_clrbit _ _ h32, getLsbD_clrbit _ _ h32, ptePresentMask, getLsbD_setbit (by decide),
    pteSwappedMask, getLsbD_bit (by decide), pteSwpoffMask, genmask, getLsbD_mask (by decide)]
  by_cases h31 : i = 31
  · subst h31
    simp
  · by_cases h25 : 25 < i
    · simp [h31, h25, show ¬ i ≤ 25 by omega]
    · simp [h31, h25, show 5 ≤ i by omega, show i ≤ 25 by omega]

@[simp] theorem pteSetFpn_present (pte : Pte) (fpn : ℕ) :
    pagingPagePresent (pteSetFpn pte fpn) := by
  rw [pagingPagePresent_iff, getLsbD_pteSetFpn _ _ (by decide) (by decide)]
  simp only [decide_true, Bool.true_or]

@[simp] theorem pteSetFpn_not_swapped (pte : Pte) (fpn : ℕ) :
    ¬ pagingPageSwapped (pteSetFpn pte fpn) := by
  rw [pagingPageSwapped_iff, getLsbD_pteSetFpn _ _ (by decide) (by decide)]
  simp

theorem getLsbD_pteSetSwap (pte : Pte) (t o : ℕ) {i : ℕ} (h : 25 < i) :
    (pteSetSwap pte t o).getLsbD i = (pte.getLsbD i || decide (i = 31) || decide (i = 30)) := by
  rw [pteSetSwap, pteSwpoffMask, getLsbD_setval (by decide), if_neg (by omega), pteSwptypMask,
    getLsbD_setval (by decide), if_neg (by omega), pteSwappedMask, getLsbD_setbit (by decide),
    ptePresentMask, getLsbD_setbit (by decide)]

@[simp] theorem pteSetSwap_present (pte : Pte) (t o : ℕ) :
    pagingPagePresent (pteSetSwap pte t o) := by
  rw [pagingPagePresent_iff, getLsbD_pteSetSwap _ _ _ (by decide)]
  simp only [decide_true, Bool.or_true, Bool.true_or]

@[simp] theorem pteSetSwap_swapped (pte : Pte) (t o : ℕ) :
    pagingPageSwapped (pteSetSwap pte t o) := by
  rw [pagingPageSwapped_iff, getLsbD_pteSetSwap _ _ _ (by decide)]
  simp only [decide_true, Bool.or_true]

theorem pagingFpn_pteSetFpn {fpn : ℕ} (h : fpn < 2 ^ 13) (pte : Pte) :
    pagingFpn (pteSetFpn pte fpn) = fpn :=
  getval_setval_self (by decide) h _

theorem pagingPteSwp_pteSetSwap {o : ℕ} (h : o < 2 ^ 21) (pte : Pte) (t : ℕ) :
    pagingPteSwp (pteSetSwap pte t o) = o :=
  getval_setval_self (by decide) h _

theorem pagingPteSwptyp_pteSetSwap {t : ℕ} (h : t < 2 ^ 5) (pte : Pte) (o : ℕ) :
    pagingPteSwptyp (pteSetSwap pte t o) = t := by
  have hd : pagingPteSwptyp (pteSetSwap pte t o) =
      getval (setval (setbit (setbit pte ptePresentMask) pteSwappedMask) t pteSwptypMask 0)
        pteSwptypMask 0 :=
    congrArg BitVec.toNat (extract_insert_of_disjoint (by decide) (by decide) (by decide) _ _)
  rw [hd]
  exact getval_setval_self (by decide) h _

theorem pagingFpn_lt (pte : Pte) : pagingFpn pte < 2 ^ 13 := extract_lt (by decide) pte

theorem pagingPteSwp_lt (pte : Pte) : pagingPteSwp pte < 2 ^ 21 := extract_lt (by decide) pte

theorem ofInt_natCast_toNat {n : ℕ} (h : n < 2 ^ 31) : (BitVec.ofInt 32 (n : ℤ)).toNat = n := by
  simp only [BitVec.ofInt_natCast, BitVec.toNat_ofNat]
  omega

theorem pagingPgn_natCast {n : ℕ} (h : n < 2 ^ 31) : pagingPgn n = n % 2 ^ 22 / 256 := by
  unfold pagingPgn getval genmask
  rw [extract_toNat (by decide), ofInt_natCast_toNat h]
  rfl

theorem pagingPgn_of_lt {n : ℕ} (h : n < 2 ^ 22) : pagingPgn n = n / 256 := by
  rw [pagingPgn_natCast (by omega), Nat.mod_eq_of_lt h]

theorem pagingOffst_natCast {n : ℕ} (h : n < 2 ^ 31) : pagingOffst n = n % 256 := by
  unfold pagingOffst getval genmask
  rw [extract_toNat (by decide), ofInt_natCast_toNat h]
  omega

inductive PteCall
  | setFpn (fpn : Fin (2 ^ 13))
  | setSwap (swptyp : Fin 32) (swpoff : Fin (2 ^ 21))

namespace PteCall

def apply (pte : Pte) : PteCall → Pte
  | setFpn fpn => pteSetFpn pte fpn
  | setSwap swptyp swpoff => pteSetSwap pte swptyp swpoff

/-- The decoders give back what the call has stored. -/
def Decodes (pte : Pte) : PteCall → Prop
  | setFpn fpn => ¬ pagingPageSwapped pte ∧ pagingFpn pte = fpn
  | setSwap swptyp swpoff =>
    pagingPageSwapped pte ∧ pagingPteSwptyp pte = swptyp ∧ pagingPteSwp pte = swpoff

theorem apply_present (pte : Pte) (call : PteCall) : pagingPagePresent (call.apply pte) := by
  cases call with
  | setFpn fpn => exact pteSetFpn_present pte fpn
  | setSwap swptyp swpoff => exact pteSetSwap_present pte swptyp swpoff

theorem apply_decodes (pte : Pte) (call : PteCall) : call.Decodes (call.apply pte) := by
  cases call with
  | setFpn fpn => exact ⟨pteSetFpn_not_swapped pte fpn, pagingFpn_pteSetFpn fpn.isLt pte⟩
  | setSwap swptyp swpoff =>
    exact ⟨pteSetSwap_swapped pte swptyp swpoff, pagingPteSwptyp_pteSetSwap swptyp.isLt pte swpoff,
      pagingPteSwp_pteSetSwap swpoff.isLt pte swptyp⟩

theorem apply_reserved (pte : Pte) (call : PteCall) {i : ℕ} (hlo : 26 ≤ i) (hhi : i ≤ 29) :
    (call.apply pte).getLsbD i = pte.getLsbD i := by
  have h31 : i ≠ 31 := by omega
  have h30 : i ≠ 30 := by omega
  have h25 : 25 < i := by omega
  cases call with
  | setFpn fpn =>
    rw [apply, getLsbD_pteSetFpn pte fpn (by omega) (by omega)]
    simp [h31, h30, h25]
  | setSwap swptyp swpoff =>
    rw [apply, getLsbD_pteSetSwap _ _ _ h25]
    simp [h31, h30]

theorem foldl_reserved (pte : Pte) (calls : List PteCall) {i : ℕ} (hlo : 26 ≤ i) (hhi : i ≤ 29) :
    (calls.foldl apply pte).getLsbD i = pte.getLsbD i := by
  induction calls generalizing pte with
  | nil => rfl
  | cons call calls ih => rw [List.foldl_cons, ih, apply_reserved pte call hlo hhi]

/-- After any calls an entry decodes to what the last one has stored; the bits outside of
all fields are never touched. -/
theorem history_decodes (pte : Pte) (calls : List PteCall) (last : PteCall) :
    let result := (calls ++ [last]).foldl apply pte
    pagingPagePresent result ∧ last.Decodes result ∧
      ∀ i, 26 ≤ i → i ≤ 29 → result.getLsbD i = pte.getLsbD i := by
  intro result
  have hresult : result = last.apply (calls.foldl apply pte) := by
    simp only [result, List.foldl_append, List.foldl_cons, List.foldl_nil]
  refine ⟨?_, ?_, fun i hlo hhi => foldl_reserved pte _ hlo hhi⟩
  · rw [hresult]
    exact apply_present _ last
  · rw [hresult]
    exact apply_decodes _ last

end PteCall
end OSsim
