import OSsim.CInt

/-!
# Physical memory devices

A device of `mm-memphy.c`: its bytes, its size, the cursor of a sequential device
and the list of free frames. A sequential device moves its cursor on every access
and otherwise returns and stores the same bytes as a random access one, so no
lemma below asks for the access mode. `swapCpPage` copies one frame between two
devices; every address it forms is `fpn * 256 + cell` with `fpn < 2^23`, within
the range of `int`.
-/

namespace OSsim

abbrev Byte := BitVec 8

structure Memphy where
  storage : ℕ → Byte
  maxsz : ℤ
  rdmflg : Bool
  cursor : ℕ
  freeFpList : List ℕ

namespace Memphy
variable (mp : Memphy)

def mvCsr (offset : ℤ) : Memphy :=
  { mp with cursor := (fun c => (c + 1) % mp.maxsz.toNat)^[(min offset mp.maxsz).toNat] 0 }

def seqRead (addr : ℤ) : Option Byte × Memphy :=
  if mp.rdmflg then (none, mp) else (some (mp.storage addr.toNat), mp.mvCsr addr)

def read (addr : ℤ) : Option Byte × Memphy :=
  if addr < 0 ∨ mp.maxsz ≤ addr then (none, mp)
  else if mp.rdmflg then (some (mp.storage addr.toNat), mp)
  else mp.seqRead addr

def seqWrite (addr : ℤ) (value : Byte) : Memphy :=
  if mp.rdmflg then mp
  else { mp.mvCsr addr with storage := Function.update mp.storage addr.toNat value }

def write (addr : ℤ) (data : Byte) : Memphy :=
  if addr < 0 ∨ mp.maxsz ≤ addr then mp
  else if mp.rdmflg then { mp with storage := Function.update mp.storage addr.toNat data }
  else mp.seqWrite addr data

def numfp : ℕ := (mp.maxsz.tdiv pagingPagesz).toNat

def format : Memphy :=
  if mp.maxsz.tdiv pagingPagesz ≤ 0 then mp else { mp with freeFpList := List.range mp.numfp }

def getFreefp : Option (ℕ × Memphy) :=
  match mp.freeFpList with
  | [] => none
  | fpn :: rest => some (fpn, { mp with freeFpList := rest })

def putFreefp (fpn : ℕ) : Memphy := { mp with freeFpList := fpn :: mp.freeFpList }

end Memphy

def Memphy.fresh (maxSize : ℤ) (randomflg : Bool) : Memphy :=
  let mp : Memphy := ⟨fun _ => 0, maxSize, true, 0, []⟩
  { mp.format with rdmflg := randomflg }

/-- A negative size becomes a huge one for `malloc`, which returns NULL; `none` stands for
the crash of the `memset` behind it. -/
def initMemphy (maxSize : ℤ) (randomflg : Bool) : Option Memphy :=
  if maxSize < 0 then none else some (.fresh maxSize randomflg)

/-- One round of the copy loop. A failed read leaves `data` uninitialised; the byte is then
taken to be 0. That happens only for a frame outside the device, so never within the limits
of the page table entries, and no result about bytes goes beyond these. -/
def swapCpCell (srcfpn dstfpn : ℕ) (m : Memphy × Memphy) (cellidx : ℕ) : Memphy × Memphy :=
  let data := m.1.read ((srcfpn * pagingPagesz + cellidx : ℕ) : ℤ)
  (data.2, m.2.write ((dstfpn * pagingPagesz + cellidx : ℕ) : ℤ) (data.1.getD 0))

def swapCpPage (mpsrc : Memphy) (srcfpn : ℕ) (mpdst : Memphy) (dstfpn : ℕ) : Memphy × Memphy :=
  (List.range pagingPagesz).foldl (swapCpCell srcfpn dstfpn) (mpsrc, mpdst)

namespace Memphy
variable (mp : Memphy)

@[simp] theorem read_storage (addr : ℤ) : (mp.read addr).2.storage = mp.storage := by
  unfold read seqRead
  split_ifs <;> rfl

@[simp] theorem read_maxsz (addr : ℤ) : (mp.read addr).2.maxsz = mp.maxsz := by
  unfold read seqRead
  split_ifs <;> rfl

@[simp] theorem read_freeFpList (addr : ℤ) : (mp.read addr).2.freeFpList = mp.freeFpList := by
  unfold read seqRead
  split_ifs <;> rfl

theorem read_value {n : ℕ} (h : (n : ℤ) < mp.maxsz) : (mp.read n).1 = some (mp.storage n) := by
  have hn : ¬ ((n : ℤ) < 0 ∨ mp.maxsz ≤ n) := by omega
  unfold read seqRead
  rw [if_neg hn]
  split_ifs <;> rfl

@[simp] theorem write_maxsz (addr : ℤ) (b : Byte) : (mp.write addr b).maxsz = mp.maxsz := by
  unfold write seqWrite
  split_ifs <;> rfl

@[simp] theorem write_freeFpList (addr : ℤ) (b : Byte) :
    (mp.write addr b).freeFpList = mp.freeFpList := by
  unfold write seqWrite
  split_ifs <;> rfl

theorem write_storage {n : ℕ} (h : (n : ℤ) < mp.maxsz) (b : Byte) :
    (mp.write n b).storage = Function.update mp.storage n b := by
  have hn : ¬ ((n : ℤ) < 0 ∨ mp.maxsz ≤ n) := by omega
  unfold write seqWrite
  rw [if_neg hn]
  split_ifs <;> rfl

theorem write_storage_of_ne {n a : ℕ} (h : a ≠ n) (b : Byte) :
    (mp.write n b).storage a = mp.storage a := by
  by_cases hn : (n : ℤ) < mp.maxsz
  · rw [write_storage mp hn, Function.update_of_ne h]
  · unfold write
    rw [if_pos (by omega)]

theorem mul_pagesz_le_maxsz {f : ℕ} (h : f < mp.numfp) :
    ((f * 256 + 256 : ℕ) : ℤ) ≤ mp.maxsz := by
  unfold numfp pagingPagesz at h
  by_cases hm : 0 ≤ mp.maxsz
  · rw [Int.tdiv_eq_ediv_of_nonneg hm] at h
    omega
  · have hneg : mp.maxsz = -(-mp.maxsz) := by omega
    have hd : 0 ≤ (-mp.maxsz).tdiv ((256 : ℕ) : ℤ) := Int.tdiv_nonneg (by omega) (by omega)
    rw [hneg, Int.neg_tdiv] at h
    omega

end Memphy

@[simp] theorem Memphy.fresh_maxsz (sz : ℤ) (r : Bool) : (fresh sz r).maxsz = sz := by
  unfold fresh format
  dsimp only
  split_ifs <;> rfl

def framesOf (sz : ℤ) : ℕ := (sz.tdiv pagingPagesz).toNat

theorem framesOf_eq {sz : ℤ} (h : (pagingPagesz : ℤ) ≤ sz) : (framesOf sz : ℤ) = sz / 256 := by
  simp only [pagingPagesz] at h
  simp only [framesOf, pagingPagesz]
  rw [Int.tdiv_eq_ediv_of_nonneg (by omega)]
  omega

theorem Memphy.fresh_freeFpList (sz : ℤ) (r : Bool) :
    (fresh sz r).freeFpList = List.range (framesOf sz) := by
  unfold fresh format numfp framesOf
  dsimp only
  split_ifs with h
  · rw [Int.toNat_of_nonpos h, List.range_zero]
  · rfl

section Copy
variable (src dst : Memphy) (f g : ℕ)

def swapCpPrefix (n : ℕ) : Memphy × Memphy := (List.range n).foldl (swapCpCell f g) (src, dst)

theorem swapCpPrefix_succ (n : ℕ) :
    swapCpPrefix src dst f g (n + 1) = swapCpCell f g (swapCpPrefix src dst f g n) n := by
  rw [swapCpPrefix, List.range_succ, List.foldl_append]
  rfl

theorem swapCpPrefix_frame (n : ℕ) :
    (swapCpPrefix src dst f g n).1.storage = src.storage ∧
    (swapCpPrefix src dst f g n).1.maxsz = src.maxsz ∧
    (swapCpPrefix src dst f g n).1.freeFpList = src.freeFpList ∧
    (swapCpPrefix src dst f g n).2.maxsz = dst.maxsz ∧
    (swapCpPrefix src dst f g n).2.freeFpList = dst.freeFpList := by
  induction n with
  | zero => exact ⟨rfl, rfl, rfl, rfl, rfl⟩
  | succ n ih =>
    obtain ⟨h1, h2, h3, h4, h5⟩ := ih
    rw [swapCpPrefix_succ]
    simp only [swapCpCell, Memphy.read_storage, Memphy.read_maxsz, Memphy.read_freeFpList,
      Memphy.write_maxsz, Memphy.write_freeFpList]
    exact ⟨h1, h2, h3, h4, h5⟩

theorem swapCpPrefix_storage_of_outside (n a : ℕ) (ha : a < g * 256 ∨ g * 256 + n ≤ a) :
    (swapCpPrefix src dst f g n).2.storage a = dst.storage a := by
  induction n with
  | zero => rfl
  | succ n ih =>
    rw [swapCpPrefix_succ]
    simp only [swapCpCell, pagingPagesz]
    rw [Memphy.write_storage_of_ne _ (by omega)]
    exact ih (by omega)

theorem swapCpPrefix_storage_inside (n : ℕ) (hn : n ≤ 256)
    (hsrc : ((f * 256 + 256 : ℕ) : ℤ) ≤ src.maxsz) (hdst : ((g * 256 + 256 : ℕ) : ℤ) ≤ dst.maxsz)
    (i : ℕ) (hi : i < n) :
    (swapCpPrefix src dst f g n).2.storage (g * 256 + i) = src.storage (f * 256 + i) := by
  induction n with
  | zero => omega
  | succ n ih =>
    obtain ⟨h1, h2, _, h4, _⟩ := swapCpPrefix_frame src dst f g n
    rw [swapCpPrefix_succ]
    simp only [swapCpCell, pagingPagesz]
    by_cases he : i = n
    · subst he
      rw [Memphy.write_storage _ (by rw [h4]; omega), Function.update_self,
        Memphy.read_value _ (by rw [h2]; omega), Option.getD_some, h1]
    · rw [Memphy.write_storage_of_ne _ (by omega)]
      exact ih (by omega) (by omega)

@[simp] theorem swapCpPage_fst_storage : (swapCpPage src f dst g).1.storage = src.storage :=
  (swapCpPrefix_frame src dst f g 256).1

@[simp] theorem swapCpPage_fst_maxsz : (swapCpPage src f dst g).1.maxsz = src.maxsz :=
  (swapCpPrefix_frame src dst f g 256).2.1

@[simp] theorem swapCpPage_fst_freeFpList :
    (swapCpPage src f dst g).1.freeFpList = src.freeFpList :=
  (swapCpPrefix_frame src dst f g 256).2.2.1

@[simp] theorem swapCpPage_snd_maxsz : (swapCpPage src f dst g).2.maxsz = dst.maxsz :=
  (swapCpPrefix_frame src dst f g 256).2.2.2.1

@[simp] theorem swapCpPage_snd_freeFpList :
    (swapCpPage src f dst g).2.freeFpList = dst.freeFpList :=
  (swapCpPrefix_frame src dst f g 256).2.2.2.2

theorem swapCpPage_eq : swapCpPage src f dst g = swapCpPrefix src dst f g 256 := rfl

theorem swapCpPage_inside (hf : f < src.numfp) (hg : g < dst.numfp) {i : ℕ} (hi : i < 256) :
    (swapCpPage src f dst g).2.storage (g * 256 + i) = src.storage (f * 256 + i) := by
  rw [swapCpPage_eq]
  exact swapCpPrefix_storage_inside src dst f g 256 le_rfl (src.mul_pagesz_le_maxsz hf)
    (dst.mul_pagesz_le_maxsz hg) i hi

theorem swapCpPage_outside {h i : ℕ} (hne : h ≠ g) (hi : i < 256) :
    (swapCpPage src f dst g).2.storage (h * 256 + i) = dst.storage (h * 256 + i) := by
  rw [swapCpPage_eq]
  exact swapCpPrefix_storage_of_outside src dst f g 256 _ (by omega)

end Copy

theorem foldl_putFreefp (l : List ℕ) (mp : Memphy) :
    l.foldl Memphy.putFreefp mp = { mp with freeFpList := l.reverse ++ mp.freeFpList } := by
  induction l generalizing mp with
  | nil => rfl
  | cons f l ih =>
    rw [List.foldl_cons, ih]
    simp [Memphy.putFreefp]

end OSsim
