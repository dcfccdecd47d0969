import OSsim.Lib.Interval
import OSsim.CInt

/-!
# Memory regions and the free list

The half-open regions of a virtual memory area. `enlistFreerg` walks the free
list once, unlinking every region that touches the one being returned and growing
it by them; `firstFit` is a first-fit search that unlinks an exact match and
shortens a larger region from below. Both are measured by the number of listed
regions that contain an address.
-/

namespace OSsim
open Interval

structure VmRg where
  rgStart : ℕ
  rgEnd : ℕ
  deriving DecidableEq, Repr

namespace VmRg

def ind (r : VmRg) (a : ℕ) : ℕ := Interval.ind r.rgStart r.rgEnd a

/-- Every region the code builds is bounded by an `int`. -/
def Wf (r : VmRg) : Prop := r.rgStart ≤ r.rgEnd ∧ r.rgEnd < 2 ^ 31

end VmRg

def regionCover (l : List VmRg) (a : ℕ) : ℕ := cover VmRg.rgStart VmRg.rgEnd l a

@[simp] theorem regionCover_nil (a : ℕ) : regionCover [] a = 0 := rfl

@[simp] theorem regionCover_cons (r : VmRg) (l : List VmRg) (a : ℕ) :
    regionCover (r :: l) a = r.ind a + regionCover l a := cover_cons _ _ r l a

def VmRg.absorb (rgElmt rgit : VmRg) : VmRg :=
  ⟨if rgit.rgStart < rgElmt.rgStart then rgit.rgStart else rgElmt.rgStart,
    if rgElmt.rgEnd < rgit.rgEnd then rgit.rgEnd else rgElmt.rgEnd⟩

/-- The loop of `enlist_vm_freerg_list`: the grown region and the regions kept. -/
def mergeWalk (rgElmt : VmRg) : List VmRg → VmRg × List VmRg
  | [] => (rgElmt, [])
  | rgit :: rest =>
    if rgit.rgEnd = rgElmt.rgStart ∨ rgElmt.rgEnd = rgit.rgStart then
      mergeWalk (rgElmt.absorb rgit) rest
    else
      let r := mergeWalk rgElmt rest
      (r.1, rgit :: r.2)

def enlistFreerg (l : List VmRg) (rgElmt : VmRg) : List VmRg :=
  if rgElmt.rgEnd ≤ rgElmt.rgStart then l
  else
    let r := mergeWalk rgElmt l
    r.1 :: r.2

/-- The loop of `get_free_vmrg_area`: the region taken and the list left. -/
def firstFit (size : ℤ) : List VmRg → Option (VmRg × List VmRg)
  | [] => none
  | rgit :: rest =>
    let stop := toULong (rgit.rgStart + size)
    if stop = rgit.rgEnd then some (rgit, rest)
    else if stop < rgit.rgEnd then some (⟨rgit.rgStart, stop⟩, ⟨stop, rgit.rgEnd⟩ :: rest)
    else (firstFit size rest).map fun r => (r.1, rgit :: r.2)

section Absorb
variable {e r : VmRg} (he : e.rgStart < e.rgEnd) (hr : r.Wf)
  (hadj : r.rgEnd = e.rgStart ∨ e.rgEnd = r.rgStart)

theorem absorb_le : (e.absorb r).rgStart ≤ e.rgStart ∧ e.rgEnd ≤ (e.absorb r).rgEnd := by
  unfold VmRg.absorb
  constructor <;> dsimp only <;> split_ifs <;> omega

include hr in
theorem absorb_lt (hb : e.rgEnd < 2 ^ 31) : (e.absorb r).rgEnd < 2 ^ 31 := by
  unfold VmRg.Wf at hr
  unfold VmRg.absorb
  dsimp only
  split_ifs <;> omega

include he hr hadj in
theorem absorb_ind (a : ℕ) : (e.absorb r).ind a = e.ind a + r.ind a := by
  unfold VmRg.Wf at hr
  simp only [VmRg.ind, VmRg.absorb, Interval.ind]
  rcases hadj with h | h
  · split_ifs <;> omega
  · split_ifs <;> omega

end Absorb

theorem mergeWalk_cover {e : VmRg} {l : List VmRg} (he : e.rgStart < e.rgEnd)
    (hl : ∀ r ∈ l, r.Wf) (a : ℕ) :
    (mergeWalk e l).1.ind a + regionCover (mergeWalk e l).2 a = e.ind a + regionCover l a := by
  induction l generalizing e with
  | nil => rfl
  | cons r l ih =>
    have hr := hl r List.mem_cons_self
    have hl' := fun x hx => hl x (List.mem_cons_of_mem r hx)
    unfold mergeWalk
    split_ifs with hadj
    · have hle := absorb_le (e := e) (r := r)
      rw [ih (by omega) hl', regionCover_cons, absorb_ind he hr hadj]
      omega
    · simp only [regionCover_cons]
      have := ih he hl'
      omega

theorem mergeWalk_wf {e : VmRg} {l : List VmRg} (he : e.rgStart < e.rgEnd) (hb : e.rgEnd < 2 ^ 31)
    (hl : ∀ r ∈ l, r.Wf) :
    ((mergeWalk e l).1.rgStart ≤ e.rgStart ∧ e.rgEnd ≤ (mergeWalk e l).1.rgEnd ∧
      (mergeWalk e l).1.rgEnd < 2 ^ 31) ∧ ∀ r ∈ (mergeWalk e l).2, r.Wf := by
  induction l generalizing e with
  | nil => exact ⟨⟨le_rfl, le_rfl, hb⟩, by simp [mergeWalk]⟩
  | cons r l ih =>
    have hr := hl r List.mem_cons_self
    have hl' := fun x hx => hl x (List.mem_cons_of_mem r hx)
    unfold mergeWalk
    split_ifs with hadj
    · have hle := absorb_le (e := e) (r := r)
      obtain ⟨⟨h1, h2, h3⟩, h4⟩ := ih (e := e.absorb r) (by omega) (absorb_lt hr hb) hl'
      exact ⟨⟨h1.trans hle.1, hle.2.trans h2, h3⟩, h4⟩
    · obtain ⟨h1, h2⟩ := ih he hb hl'
      exact ⟨h1, List.forall_mem_cons.mpr ⟨hr, h2⟩⟩

theorem enlistFreerg_cover {e : VmRg} {l : List VmRg} (hl : ∀ r ∈ l, r.Wf) (a : ℕ) :
    regionCover (enlistFreerg l e) a = e.ind a + regionCover l a := by
  unfold enlistFreerg
  split_ifs with h
  · rw [VmRg.ind, ind_empty h, Nat.zero_add]
  · exact mergeWalk_cover (by omega) hl a

theorem enlistFreerg_wf {e : VmRg} {l : List VmRg} (hb : e.rgEnd < 2 ^ 31) (hl : ∀ r ∈ l, r.Wf) :
    ∀ r ∈ enlistFreerg l e, r.Wf := by
  unfold enlistFreerg
  split_ifs with h
  · exact hl
  · obtain ⟨⟨h1, h2, h3⟩, h4⟩ := mergeWalk_wf (by omega) hb hl
    intro x hx
    rcases List.mem_cons.mp hx with rfl | hx
    · unfold VmRg.Wf
      omega
    · exact h4 x hx

theorem enlistFreerg_contains {e : VmRg} {l : List VmRg} (he : e.rgStart < e.rgEnd)
    (hb : e.rgEnd < 2 ^ 31) (hl : ∀ r ∈ l, r.Wf) :
    ∃ r ∈ enlistFreerg l e, r.rgStart ≤ e.rgStart ∧ e.rgEnd ≤ r.rgEnd := by
  obtain ⟨⟨h1, h2, _⟩, _⟩ := mergeWalk_wf he hb hl
  unfold enlistFreerg
  rw [if_neg (by omega)]
  exact ⟨_, List.mem_cons_self, h1, h2⟩

section FirstFit
variable {size : ℤ} (h₀ : 0 < size) (h₁ : size < 2 ^ 31)
include h₀ h₁

theorem toULong_add {r : VmRg} (hr : r.Wf) :
    toULong (r.rgStart + size) = r.rgStart + size.toNat := by
  unfold VmRg.Wf at hr
  unfold toULong
  omega

theorem firstFit_spec {l l' : List VmRg} {rg : VmRg} (hl : ∀ r ∈ l, r.Wf)
    (h : firstFit size l = some (rg, l')) :
    rg.rgEnd = rg.rgStart + size.toNat ∧ rg.Wf ∧ (∀ r ∈ l', r.Wf) ∧
      ∀ a, regionCover l a = rg.ind a + regionCover l' a := by
  induction l generalizing l' with
  | nil => simp [firstFit] at h
  | cons r l ih =>
    have hr := hl r List.mem_cons_self
    have hl' := fun x hx => hl x (List.mem_cons_of_mem r hx)
    unfold firstFit at h
    dsimp only at h
    rw [toULong_add h₀ h₁ hr] at h
    split_ifs at h with heq hlt
    · obtain ⟨rfl, rfl⟩ := by simpa using h
      exact ⟨heq.symm, hr, hl', fun a => regionCover_cons _ _ a⟩
    · obtain ⟨rfl, rfl⟩ := by simpa using h
      unfold VmRg.Wf at hr
      refine ⟨rfl, ⟨by dsimp only; omega, by dsimp only; omega⟩, ?_, ?_⟩
      · intro x hx
        rcases List.mem_cons.mp hx with rfl | hx
        · exact ⟨by dsimp only; omega, by dsimp only; omega⟩
        · exact hl' x hx
      · intro a
        have hs : r.ind a = Interval.ind r.rgStart (r.rgStart + size.toNat) a +
            Interval.ind (r.rgStart + size.toNat) r.rgEnd a := ind_split (by omega) (by omega) a
        rw [regionCover_cons, regionCover_cons, hs, Nat.add_assoc]
        rfl
    · obtain ⟨⟨rg', l''⟩, hf, he⟩ := Option.map_eq_some_iff.mp h
      obtain ⟨rfl, rfl⟩ := by simpa using he
      obtain ⟨h1, h2, h3, h4⟩ := ih hl' hf
      refine ⟨h1, h2, ?_, ?_⟩
      · intro x hx
        rcases List.mem_cons.mp hx with rfl | hx
        · exact hr
        · exact h3 x hx
      · intro a
        rw [regionCover_cons, regionCover_cons, h4 a]
        omega

theorem firstFit_isSome {l : List VmRg} (hl : ∀ r ∈ l, r.Wf) :
    (firstFit size l).isSome ↔ ∃ r ∈ l, r.rgStart + size.toNat ≤ r.rgEnd := by
  induction l with
  | nil => simp [firstFit]
  | cons r l ih =>
    have hr := hl r List.mem_cons_self
    have hl' := fun x hx => hl x (List.mem_cons_of_mem r hx)
    unfold firstFit
    dsimp only
    rw [toULong_add h₀ h₁ hr]
    split_ifs with heq hlt
    · simp only [Option.isSome_some, true_iff]
      exact ⟨r, List.mem_cons_self, heq.le⟩
    · simp only [Option.isSome_some, true_iff]
      exact ⟨r, List.mem_cons_self, hlt.le⟩
    · rw [Option.isSome_map, ih hl']
      simp only [List.mem_cons, exists_eq_or_imp]
      constructor
      · exact Or.inr
      · intro hor
        rcases hor with h | h
        · omega
        · exact h

end FirstFit

def RegionsDisjoint (r r' : VmRg) : Prop :=
  ∀ a, ¬ ((r.rgStart ≤ a ∧ a < r.rgEnd) ∧ r'.rgStart ≤ a ∧ a < r'.rgEnd)

theorem regions_pairwise {l : List VmRg} (h : ∀ a, regionCover l a ≤ 1) :
    l.Pairwise RegionsDisjoint := pairwise_of_cover_le_one _ _ h

theorem regionCover_pos {l : List VmRg} {a : ℕ} :
    0 < regionCover l a ↔ ∃ r ∈ l, r.rgStart ≤ a ∧ a < r.rgEnd := cover_pos _ _

end OSsim
