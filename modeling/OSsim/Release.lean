import OSsim.FrameInv
import OSsim.Tokens

/-!
# Releasing an address space

`free_pcb_memph` walks the page table once and returns the frame of every present
page to the device that holds it. Each round trades one holding of the table for one
entry of a free list, so at the end the table holds nothing and the free lists hold
what it held.
-/

open scoped BigOperators
namespace OSsim

def pageHold (pte : Pte) : ℕ := if pagingPagePresent pte then 1 else 0

def Mm.pages (mm : Mm) : ℕ := ∑ k ∈ Finset.range pagingMaxPgn, pageHold (mm.pgd k)

theorem Paged.pages_eq {mm : Mm} {v : VmArea} (h : Paged mm v) : mm.pages = v.vmEnd / 256 := by
  have hlim := h.limit
  have hset : (Finset.range pagingMaxPgn).filter (fun k => pagingPagePresent (mm.pgd k)) =
      Finset.range (v.vmEnd / 256) := by
    ext k
    simp only [Finset.mem_filter, Finset.mem_range, h.present k]
    simp only [pagingMaxPgn, pagingPagesz] at hlim ⊢
    omega
  simp only [Mm.pages, pageHold]
  rw [← Finset.card_filter, hset, Finset.card_range]

structure Returns (c c' : Pcb) : Prop where
  ramMaxsz : c'.mram.maxsz = c.mram.maxsz
  swpMaxsz : (c'.mswp activeMswpId).maxsz = (c.mswp activeMswpId).maxsz
  ramStorage : c'.mram.storage = c.mram.storage
  swpStorage : (c'.mswp activeMswpId).storage = (c.mswp activeMswpId).storage
  ram : ∀ f, c'.mram.freeFpList.count f + c'.mm.ramOwn f =
    c.mram.freeFpList.count f + c.mm.ramOwn f
  swp : ∀ w, (c'.mswp activeMswpId).freeFpList.count w + c'.mm.swpOwn w =
    (c.mswp activeMswpId).freeFpList.count w + c.mm.swpOwn w
  tokens : c'.tokens + c'.mm.pages = c.tokens + c.mm.pages
  pgd : ∀ k, c'.mm.pgd k = c.mm.pgd k ∨ c'.mm.pgd k = 0

section
variable {c c' c'' : Pcb}

theorem Returns.refl (c : Pcb) : Returns c c :=
  ⟨rfl, rfl, rfl, rfl, fun _ => rfl, fun _ => rfl, rfl, fun _ => Or.inl rfl⟩

theorem Returns.trans (h : Returns c c') (h' : Returns c' c'') : Returns c c'' where
  ramMaxsz := h'.ramMaxsz.trans h.ramMaxsz
  swpMaxsz := h'.swpMaxsz.trans h.swpMaxsz
  ramStorage := h'.ramStorage.trans h.ramStorage
  swpStorage := h'.swpStorage.trans h.swpStorage
  ram f := (h'.ram f).trans (h.ram f)
  swp w := (h'.swp w).trans (h.swp w)
  tokens := h'.tokens.trans h.tokens
  pgd k := by
    rcases h'.pgd k with he | he
    · rw [he]
      exact h.pgd k
    · exact Or.inr he

theorem Returns.swpTyp (h : Returns c c')
    (ht : ∀ k, Swapped (c.mm.pgd k) → pagingPteSwptyp (c.mm.pgd k) = activeMswpId) (k : ℕ)
    (hk : Swapped (c'.mm.pgd k)) : pagingPteSwptyp (c'.mm.pgd k) = activeMswpId := by
  rcases h.pgd k with he | he
  · rw [he] at hk ⊢
    exact ht k hk
  · rw [he] at hk
    exact absurd hk.1 not_present_zero

theorem Returns.absent (h : Returns c c') {k : ℕ} (hk : ¬ pagingPagePresent (c.mm.pgd k)) :
    ¬ pagingPagePresent (c'.mm.pgd k) := by
  rcases h.pgd k with he | he
  · rw [he]
    exact hk
  · rw [he]
    exact not_present_zero

section Page
variable {k : ℕ} (hk : k < pagingMaxPgn)
include hk

theorem pages_clear (hp : pagingPagePresent (c.mm.pgd k)) :
    (c.mm.setPte k 0).pages + 1 = c.mm.pages := by
  have hu := Accounting.sum_update (Finset.range pagingMaxPgn) pageHold c.mm.pgd
    (Finset.mem_range.mpr hk) 0
  have h1 : pageHold (c.mm.pgd k) = 1 := if_pos hp
  have h0 : pageHold 0 = 0 := if_neg not_present_zero
  rw [h1, h0] at hu
  simp only [Mm.pages, Mm.setPte]
  exact hu.trans (Nat.add_zero _)

theorem ramOwn_clear (f : ℕ) :
    (c.mm.setPte k 0).ramOwn f + ramHold f (c.mm.pgd k) = c.mm.ramOwn f := by
  have hu := ramOwn_update c.mm.pgd hk 0 f
  have hz : ramHold f 0 = 0 := ramHold_of_not_resident (fun h => not_present_zero h.1) f
  rw [hz, Nat.add_zero] at hu
  simp only [Mm.ramOwn, Mm.setPte]
  exact hu

theorem swpOwn_clear (w : ℕ) :
    (c.mm.setPte k 0).swpOwn w + swpHold w (c.mm.pgd k) = c.mm.swpOwn w := by
  have hu := swpOwn_update c.mm.pgd hk 0 w
  have hz : swpHold w 0 = 0 := swpHold_of_not_swapped (fun h => not_present_zero h.1) w
  rw [hz, Nat.add_zero] at hu
  simp only [Mm.swpOwn, Mm.setPte]
  exact hu

theorem pgd_clear (j : ℕ) : (c.mm.setPte k 0).pgd j = c.mm.pgd j ∨ (c.mm.setPte k 0).pgd j = 0 := by
  by_cases hj : j = k
  · subst hj
    exact Or.inr (Function.update_self _ _ _)
  · exact Or.inl (Function.update_of_ne hj _ _)

theorem freePage_returns
    (ht : ∀ k, Swapped (c.mm.pgd k) → pagingPteSwptyp (c.mm.pgd k) = activeMswpId) :
    Returns c (c.freePage k) ∧ ¬ pagingPagePresent ((c.freePage k).mm.pgd k) := by
  by_cases hp : pagingPagePresent (c.mm.pgd k)
  swap
  · simp only [Pcb.freePage, if_pos hp]
    exact ⟨Returns.refl c, hp⟩
  have hpg := pages_clear hk hp
  have hgone : ¬ pagingPagePresent ((c.mm.setPte k 0).pgd k) := by
    simp only [Mm.setPte, Function.update_self]
    exact not_present_zero
  by_cases hsw : pagingPageSwapped (c.mm.pgd k)
  · have hty := ht k ⟨hp, hsw⟩
    simp only [Pcb.freePage, not_not.mpr hp, if_false, if_pos hsw, hty]
    refine ⟨⟨rfl, ?_, rfl, ?_, fun f => ?_, fun w => ?_, ?_, pgd_clear hk⟩, hgone⟩
    · simp only [Function.update_self, Memphy.putFreefp]
    · simp only [Function.update_self, Memphy.putFreefp]
    · have ho := ramOwn_clear (c := c) hk f
      rw [ramHold_of_not_resident fun h => h.2 hsw, Nat.add_zero] at ho
      rw [ho]
    · have ho := swpOwn_clear (c := c) hk w
      rw [swpHold_of_swapped ⟨hp, hsw⟩, List.count_singleton] at ho
      simp only [Function.update_self, Memphy.putFreefp, List.count_cons]
      omega
    · simp only [Pcb.tokens, Function.update_self, Memphy.putFreefp, List.length_cons]
      omega
  · simp only [Pcb.freePage, not_not.mpr hp, if_false, if_neg hsw]
    refine ⟨⟨rfl, rfl, rfl, rfl, fun f => ?_, fun w => ?_, ?_, pgd_clear hk⟩, hgone⟩
    · have ho := ramOwn_clear (c := c) hk f
      rw [ramHold_of_resident ⟨hp, hsw⟩, List.count_singleton] at ho
      simp only [Memphy.putFreefp, List.count_cons]
      omega
    · have ho := swpOwn_clear (c := c) hk w
      rw [swpHold_of_not_swapped fun h => hsw h.2, Nat.add_zero] at ho
      rw [ho]
    · simp only [Pcb.tokens, Memphy.putFreefp, List.length_cons]
      omega

end Page

theorem foldl_freePage_returns (l : List ℕ) (hl : ∀ k ∈ l, k < pagingMaxPgn)
    (ht : ∀ k, Swapped (c.mm.pgd k) → pagingPteSwptyp (c.mm.pgd k) = activeMswpId) :
    Returns c (l.foldl Pcb.freePage c) ∧
      ∀ k ∈ l, ¬ pagingPagePresent ((l.foldl Pcb.freePage c).mm.pgd k) := by
  induction l generalizing c with
  | nil => exact ⟨Returns.refl c, fun k hk => absurd hk List.not_mem_nil⟩
  | cons k l ih =>
    obtain ⟨h1, hgone⟩ := freePage_returns (hl k List.mem_cons_self) ht
    obtain ⟨h2, hall⟩ := ih (fun j hj => hl j (List.mem_cons_of_mem k hj)) (h1.swpTyp ht)
    rw [List.foldl_cons]
    refine ⟨h1.trans h2, fun j hj => ?_⟩
    rcases List.mem_cons.mp hj with rfl | hj
    · exact h2.absent hgone
    · exact hall j hj

theorem freePcbMemph_returns
    (ht : ∀ k, Swapped (c.mm.pgd k) → pagingPteSwptyp (c.mm.pgd k) = activeMswpId) :
    Returns c c.freePcbMemph ∧ (∀ f, c.freePcbMemph.mm.ramOwn f = 0) ∧
      (∀ w, c.freePcbMemph.mm.swpOwn w = 0) ∧ c.freePcbMemph.mm.pages = 0 := by
  obtain ⟨h, hgone⟩ := foldl_freePage_returns (List.range pagingMaxPgn)
    (fun k hk => List.mem_range.mp hk) ht
  rw [← Pcb.freePcbMemph] at h hgone
  have habs : ∀ k ∈ Finset.range pagingMaxPgn,
      ¬ pagingPagePresent (c.freePcbMemph.mm.pgd k) := by
    intro k hk
    exact hgone k (List.mem_range.mpr (Finset.mem_range.mp hk))
  refine ⟨h, fun f => ?_, fun w => ?_, ?_⟩
  · rw [Mm.ramOwn]
    exact Finset.sum_eq_zero fun k hk => ramHold_of_not_resident (fun hr => habs k hk hr.1) f
  · rw [Mm.swpOwn]
    exact Finset.sum_eq_zero fun k hk => swpHold_of_not_swapped (fun hr => habs k hk hr.1) w
  · rw [Mm.pages]
    exact Finset.sum_eq_zero fun k hk => if_neg (habs k hk)

end
end OSsim
