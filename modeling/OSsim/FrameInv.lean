import OSsim.Lib.Accounting
import OSsim.FrameMoves

/-!
# Conservation of frames and of page contents for one caller

The invariant is stated from the point of view of the process that runs: `ramExt`
and `swpExt` count the frames that page tables of other processes hold, and `hand`
the frames the running call has taken and not yet mapped. Each frame of RAM and of
the active swap device then has exactly one holder. Under it every move of a page
keeps the bytes of all present pages and of all frames held elsewhere.
-/

open scoped BigOperators
namespace OSsim

def ramHold (f : ℕ) (pte : Pte) : ℕ := if Resident pte ∧ pagingFpn pte = f then 1 else 0

def swpHold (w : ℕ) (pte : Pte) : ℕ := if Swapped pte ∧ pagingPteSwp pte = w then 1 else 0

def Mm.ramOwn (mm : Mm) (f : ℕ) : ℕ := ∑ k ∈ Finset.range pagingMaxPgn, ramHold f (mm.pgd k)

def Mm.swpOwn (mm : Mm) (w : ℕ) : ℕ := ∑ k ∈ Finset.range pagingMaxPgn, swpHold w (mm.pgd k)

theorem ramHold_of_not_resident {pte : Pte} (h : ¬ Resident pte) (f : ℕ) : ramHold f pte = 0 :=
  if_neg fun hc => h hc.1

theorem swpHold_of_not_swapped {pte : Pte} (h : ¬ Swapped pte) (w : ℕ) : swpHold w pte = 0 :=
  if_neg fun hc => h hc.1

theorem ramHold_of_resident {pte : Pte} (h : Resident pte) (f : ℕ) :
    ramHold f pte = [pagingFpn pte].count f := by
  by_cases hf : pagingFpn pte = f
  · rw [ramHold, if_pos ⟨h, hf⟩, hf, List.count_singleton_self]
  · rw [ramHold, if_neg fun hc => hf hc.2, List.count_singleton, if_neg (by simpa using hf)]

theorem swpHold_of_swapped {pte : Pte} (h : Swapped pte) (w : ℕ) :
    swpHold w pte = [pagingPteSwp pte].count w := by
  by_cases hw : pagingPteSwp pte = w
  · rw [swpHold, if_pos ⟨h, hw⟩, hw, List.count_singleton_self]
  · rw [swpHold, if_neg fun hc => hw hc.2, List.count_singleton, if_neg (by simpa using hw)]

section Own
variable (pgd : ℕ → Pte) {k : ℕ}

theorem ramOwn_update (hk : k < pagingMaxPgn) (pte : Pte) (f : ℕ) :
    ∑ x ∈ Finset.range pagingMaxPgn, ramHold f (Function.update pgd k pte x) + ramHold f (pgd k) =
      ∑ x ∈ Finset.range pagingMaxPgn, ramHold f (pgd x) + ramHold f pte :=
  Accounting.sum_update _ _ _ (Finset.mem_range.mpr hk) _

theorem swpOwn_update (hk : k < pagingMaxPgn) (pte : Pte) (w : ℕ) :
    ∑ x ∈ Finset.range pagingMaxPgn, swpHold w (Function.update pgd k pte x) + swpHold w (pgd k) =
      ∑ x ∈ Finset.range pagingMaxPgn, swpHold w (pgd x) + swpHold w pte :=
  Accounting.sum_update _ _ _ (Finset.mem_range.mpr hk) _

end Own

/-- Byte `i` of page `k`, wherever the page currently lives. -/
def Pcb.pageByte (c : Pcb) (k i : ℕ) : Byte :=
  let pte := c.mm.pgd k
  if pagingPageSwapped pte then (c.mswp (pagingPteSwptyp pte)).storage (pagingPteSwp pte * 256 + i)
  else c.mram.storage (pagingFpn pte * 256 + i)

theorem Pcb.pageByte_resident {c : Pcb} {k : ℕ} (hk : Resident (c.mm.pgd k)) (i : ℕ) :
    c.pageByte k i = c.mram.storage (pagingFpn (c.mm.pgd k) * 256 + i) := by
  simp only [Pcb.pageByte, if_neg hk.2]

theorem Pcb.pageByte_of_swapped {c : Pcb} {k : ℕ} (hk : pagingPageSwapped (c.mm.pgd k)) (i : ℕ) :
    c.pageByte k i = (c.mswp (pagingPteSwptyp (c.mm.pgd k))).storage
      (pagingPteSwp (c.mm.pgd k) * 256 + i) := by
  simp only [Pcb.pageByte, if_pos hk]

structure FrameInv (nr ns : ℕ) (ramExt swpExt : ℕ → ℕ) (c : Pcb) (hand : List ℕ) : Prop where
  ramDim : c.mram.numfp = nr
  swpDim : (c.mswp activeMswpId).numfp = ns
  ramLe : nr ≤ 2 ^ 13
  swpLe : ns ≤ 2 ^ 21
  ramAcct : ∀ f, c.mram.freeFpList.count f + c.mm.ramOwn f + hand.count f + ramExt f =
    if f < nr then 1 else 0
  swpAcct : ∀ w, (c.mswp activeMswpId).freeFpList.count w + c.mm.swpOwn w + swpExt w =
    if w < ns then 1 else 0
  fifoNodup : c.mm.fifoPgn.Nodup
  fifoMem : ∀ k, k ∈ c.mm.fifoPgn ↔ Resident (c.mm.pgd k)
  swpTyp : ∀ k, Swapped (c.mm.pgd k) → pagingPteSwptyp (c.mm.pgd k) = activeMswpId
  inTable : ∀ k, pagingPagePresent (c.mm.pgd k) → k < pagingMaxPgn

/-- Bytes survive: those of every present page of the caller, and those of every
frame that some other process holds. -/
structure Keeps (ramExt swpExt : ℕ → ℕ) (c c' : Pcb) : Prop where
  present : ∀ k, pagingPagePresent (c.mm.pgd k) → pagingPagePresent (c'.mm.pgd k)
  bytes : ∀ k, pagingPagePresent (c.mm.pgd k) → ∀ i < 256, c'.pageByte k i = c.pageByte k i
  ramOut : ∀ f, 0 < ramExt f → ∀ i < 256,
    c'.mram.storage (f * 256 + i) = c.mram.storage (f * 256 + i)
  swpOut : ∀ w, 0 < swpExt w → ∀ i < 256,
    (c'.mswp activeMswpId).storage (w * 256 + i) = (c.mswp activeMswpId).storage (w * 256 + i)

section
variable {nr ns : ℕ} {ramExt swpExt : ℕ → ℕ} {c c' c'' : Pcb} {hand : List ℕ}

theorem Keeps.refl (c : Pcb) : Keeps ramExt swpExt c c :=
  ⟨fun _ h => h, fun _ _ _ _ => rfl, fun _ _ _ _ => rfl, fun _ _ _ _ => rfl⟩

theorem Keeps.trans (h : Keeps ramExt swpExt c c') (h' : Keeps ramExt swpExt c' c'') :
    Keeps ramExt swpExt c c'' where
  present k hk := h'.present k (h.present k hk)
  bytes k hk i hi := (h'.bytes k (h.present k hk) i hi).trans (h.bytes k hk i hi)
  ramOut f hf i hi := (h'.ramOut f hf i hi).trans (h.ramOut f hf i hi)
  swpOut w hw i hi := (h'.swpOut w hw i hi).trans (h.swpOut w hw i hi)

theorem Keeps.of_eq (hp : c'.mm.pgd = c.mm.pgd) (hr : c'.mram.storage = c.mram.storage)
    (hs : ∀ t, (c'.mswp t).storage = (c.mswp t).storage) : Keeps ramExt swpExt c c' where
  present k hk := by rw [hp]; exact hk
  bytes k _ i _ := by simp only [Pcb.pageByte, hp, hr, hs]
  ramOut f _ i _ := by rw [hr]
  swpOut w _ i _ := by rw [hs]

namespace FrameInv
variable (h : FrameInv nr ns ramExt swpExt c hand)
include h

theorem ramOwn_pos {k : ℕ} (hk : Resident (c.mm.pgd k)) :
    0 < c.mm.ramOwn (pagingFpn (c.mm.pgd k)) := by
  have hle : ramHold (pagingFpn (c.mm.pgd k)) (c.mm.pgd k) ≤ c.mm.ramOwn (pagingFpn (c.mm.pgd k)) :=
    Finset.single_le_sum (f := fun x => ramHold (pagingFpn (c.mm.pgd k)) (c.mm.pgd x))
      (fun _ _ => Nat.zero_le _) (Finset.mem_range.mpr (h.inTable k hk.1))
  rw [ramHold_of_resident hk, List.count_singleton_self] at hle
  exact hle

theorem swpOwn_pos {k : ℕ} (hk : Swapped (c.mm.pgd k)) :
    0 < c.mm.swpOwn (pagingPteSwp (c.mm.pgd k)) := by
  have hle : swpHold (pagingPteSwp (c.mm.pgd k)) (c.mm.pgd k) ≤
      c.mm.swpOwn (pagingPteSwp (c.mm.pgd k)) :=
    Finset.single_le_sum (f := fun x => swpHold (pagingPteSwp (c.mm.pgd k)) (c.mm.pgd x))
      (fun _ _ => Nat.zero_le _) (Finset.mem_range.mpr (h.inTable k hk.1))
  rw [swpHold_of_swapped hk, List.count_singleton_self] at hle
  exact hle

theorem ram_single (f : ℕ)
    (hf : 0 < c.mram.freeFpList.count f + c.mm.ramOwn f + hand.count f + ramExt f) :
    f < nr ∧ c.mram.freeFpList.count f + c.mm.ramOwn f + hand.count f + ramExt f = 1 := by
  have ha := h.ramAcct f
  by_cases hlt : f < nr
  · rw [if_pos hlt] at ha
    exact ⟨hlt, ha⟩
  · rw [if_neg hlt] at ha
    omega

theorem swp_single (w : ℕ)
    (hw : 0 < (c.mswp activeMswpId).freeFpList.count w + c.mm.swpOwn w + swpExt w) :
    w < ns ∧ (c.mswp activeMswpId).freeFpList.count w + c.mm.swpOwn w + swpExt w = 1 := by
  have ha := h.swpAcct w
  by_cases hlt : w < ns
  · rw [if_pos hlt] at ha
    exact ⟨hlt, ha⟩
  · rw [if_neg hlt] at ha
    omega

theorem resident_lt {k : ℕ} (hk : Resident (c.mm.pgd k)) : pagingFpn (c.mm.pgd k) < nr :=
  (h.ram_single _ (by have := h.ramOwn_pos hk; omega)).1

theorem swapped_lt {k : ℕ} (hk : Swapped (c.mm.pgd k)) : pagingPteSwp (c.mm.pgd k) < ns :=
  (h.swp_single _ (by have := h.swpOwn_pos hk; omega)).1

theorem fifoPresent : c.FifoPresent := fun k hk => ((h.fifoMem k).mp hk).1

theorem pageByte_swapped {k : ℕ} (hk : Swapped (c.mm.pgd k)) (i : ℕ) :
    c.pageByte k i = (c.mswp activeMswpId).storage (pagingPteSwp (c.mm.pgd k) * 256 + i) := by
  rw [Pcb.pageByte_of_swapped hk.2, h.swpTyp k hk]

theorem taken {f : ℕ} {rest : List ℕ} (hm : c.mram.freeFpList = f :: rest) :
    FrameInv nr ns ramExt swpExt (c.taken rest) (f :: hand) where
  ramDim := h.ramDim
  swpDim := h.swpDim
  ramLe := h.ramLe
  swpLe := h.swpLe
  ramAcct x := by
    have ha := h.ramAcct x
    rw [hm, List.count_cons] at ha
    rw [List.count_cons]
    simp only [Pcb.taken]
    omega
  swpAcct := h.swpAcct
  fifoNodup := h.fifoNodup
  fifoMem := h.fifoMem
  swpTyp := h.swpTyp
  inTable := h.inTable

theorem requeued {l : List ℕ} {v : ℕ} (hf : c.mm.fifoPgn = l ++ [v]) :
    FrameInv nr ns ramExt swpExt (c.requeued (v :: l)) hand where
  ramDim := h.ramDim
  swpDim := h.swpDim
  ramLe := h.ramLe
  swpLe := h.swpLe
  ramAcct := h.ramAcct
  swpAcct := h.swpAcct
  fifoNodup := by
    have hn := h.fifoNodup
    rw [hf] at hn
    exact (List.perm_append_singleton v l).nodup hn
  fifoMem k := by
    change k ∈ v :: l ↔ Resident (c.mm.pgd k)
    rw [← h.fifoMem k, hf]
    exact (List.perm_append_singleton v l).symm.mem_iff
  swpTyp := h.swpTyp
  inTable := h.inTable

theorem swap_frame_lt {w : ℕ} {rest : List ℕ} (hs : (c.mswp activeMswpId).freeFpList = w :: rest) :
    w < ns ∧ c.mm.swpOwn w = 0 ∧ swpExt w = 0 := by
  have hw := h.swp_single w (by rw [hs, List.count_cons_self]; omega)
  rw [hs, List.count_cons_self] at hw
  omega

section Evict
variable {l rest : List ℕ} {v w : ℕ} (hf : c.mm.fifoPgn = l ++ [v])
  (hs : (c.mswp activeMswpId).freeFpList = w :: rest)
include hf

theorem victim_resident : Resident (c.mm.pgd v) := (h.fifoMem v).mp (by rw [hf]; simp)

theorem victim_notMem : v ∉ l := by
  have hn := h.fifoNodup
  rw [hf] at hn
  exact fun hm => (List.nodup_append.mp hn).2.2 v hm v (by simp) rfl

include hs

theorem evicted :
    FrameInv nr ns ramExt swpExt (c.evicted l v w rest) (pagingFpn (c.mm.pgd v) :: hand) := by
  have hv := h.victim_resident hf
  have hvl := h.victim_notMem hf
  have hw := (h.swap_frame_lt hs).1
  have hvt := h.inTable v hv.1
  have hwp : w < 2 ^ 21 := hw.trans_le h.swpLe
  refine ⟨?_, ?_, h.ramLe, h.swpLe, ?_, ?_, ?_, ?_, ?_, ?_⟩
  · rw [← h.ramDim]
    simp only [Memphy.numfp, Pcb.evicted, swapCpPage_fst_maxsz]
  · rw [← h.swpDim]
    simp only [Memphy.numfp, Pcb.evicted, Function.update_self, swapCpPage_snd_maxsz]
  · intro x
    have ha := h.ramAcct x
    have hu := ramOwn_update c.mm.pgd hvt (pteSetSwap (c.mm.pgd v) activeMswpId w) x
    rw [ramHold_of_resident hv, ramHold_of_not_resident (not_resident_pteSetSwap _ _ _),
      List.count_singleton] at hu
    simp only [Mm.ramOwn] at ha
    simp only [Pcb.evicted, swapCpPage_fst_freeFpList, Mm.ramOwn, List.count_cons]
    omega
  · intro x
    have ha := h.swpAcct x
    have hu := swpOwn_update c.mm.pgd hvt (pteSetSwap (c.mm.pgd v) activeMswpId w) x
    rw [swpHold_of_not_swapped (fun hc => hv.2 hc.2), swpHold_of_swapped (swapped_pteSetSwap _ _ _),
      pagingPteSwp_pteSetSwap hwp, List.count_singleton] at hu
    rw [hs, List.count_cons] at ha
    simp only [Mm.swpOwn] at ha
    simp only [Pcb.evicted, Function.update_self, swapCpPage_snd_freeFpList, Mm.swpOwn]
    omega
  · have hn := h.fifoNodup
    rw [hf] at hn
    exact (List.nodup_append.mp hn).1
  · intro k
    simp only [Pcb.evicted]
    by_cases hk : k = v
    · subst hk
      simp [hvl]
    · have hm := h.fifoMem k
      rw [hf] at hm
      rw [Function.update_of_ne hk, ← hm]
      simp [hk]
  · intro k hk
    simp only [Pcb.evicted] at hk ⊢
    by_cases hkv : k = v
    · subst hkv
      rw [Function.update_self]
      exact pagingPteSwptyp_pteSetSwap (by decide) _ _
    · rw [Function.update_of_ne hkv] at hk ⊢
      exact h.swpTyp k hk
  · intro k hk
    exact h.inTable k ((Pcb.present_update_swap hv.1 _ _ k).mp hk)

theorem keeps_evicted : Keeps ramExt swpExt c (c.evicted l v w rest) := by
  have hv := h.victim_resident hf
  obtain ⟨hw, hown, hext⟩ := h.swap_frame_lt hs
  have hwp : w < 2 ^ 21 := hw.trans_le h.swpLe
  have hfr := h.resident_lt hv
  refine ⟨?_, ?_, ?_, ?_⟩
  · intro k hk
    exact (Pcb.present_update_swap hv.1 _ _ k).mpr hk
  · intro k hk i hi
    by_cases hkv : k = v
    · -- the victim: its bytes are now those of the copy
      subst hkv
      rw [Pcb.pageByte_resident hv]
      simp only [Pcb.pageByte, Pcb.evicted, Function.update_self, if_pos (pteSetSwap_swapped _ _ _),
        pagingPteSwp_pteSetSwap hwp,
        pagingPteSwptyp_pteSetSwap (show activeMswpId < 2 ^ 5 by decide)]
      exact swapCpPage_inside _ _ _ _ (by rw [h.ramDim]; exact hfr)
        (by rw [← h.swpDim] at hw; exact hw) hi
    · by_cases hsw : pagingPageSwapped (c.mm.pgd k)
      · have hkw : pagingPteSwp (c.mm.pgd k) ≠ w := by
          intro he
          have hp := h.swpOwn_pos ⟨hk, hsw⟩
          rw [he] at hp
          omega
        simp only [Pcb.pageByte, Pcb.evicted, Function.update_of_ne hkv, if_pos hsw,
          h.swpTyp k ⟨hk, hsw⟩, Function.update_self]
        exact swapCpPage_outside _ _ _ _ hkw hi
      · simp only [Pcb.pageByte, Pcb.evicted, Function.update_of_ne hkv, if_neg hsw,
          swapCpPage_fst_storage]
  · intro f _ i _
    simp only [Pcb.evicted, swapCpPage_fst_storage]
  · intro x hx i hi
    have hne : x ≠ w := by
      intro he
      subst he
      omega
    simp only [Pcb.evicted, Function.update_self]
    exact swapCpPage_outside _ _ _ _ hne hi

end Evict

end FrameInv
end
end OSsim
