import OSsim.RegionRuns

/-!
# The free list is fully coalesced

`enlist_vm_freerg_list` walks the free list once while the region it inserts grows. A
region that it has already passed could touch the grown one only at the far end of a
neighbour absorbed later, and then these two would have touched before.
-/

open scoped BigOperators
namespace OSsim
open Interval

/-- No two non-empty regions of the list overlap or touch. -/
def Coalesced (l : List VmRg) : Prop := Gapped VmRg.rgStart VmRg.rgEnd l

section Walk
variable {e : VmRg} {l : List VmRg}

theorem mergeWalk_sublist (e : VmRg) (l : List VmRg) : (mergeWalk e l).2.Sublist l := by
  induction l generalizing e with
  | nil => exact List.Sublist.refl _
  | cons r l ih =>
    unfold mergeWalk
    split_ifs
    · exact (ih _).trans (List.sublist_cons_self r l)
    · exact (ih e).cons_cons r

theorem absorb_ends {r : VmRg} (he : e.rgStart < e.rgEnd)
    (hadj : r.rgEnd = e.rgStart ∨ e.rgEnd = r.rgStart) :
    ((e.absorb r).rgStart = e.rgStart ∨
      (r.rgStart < r.rgEnd ∧ (e.absorb r).rgStart = r.rgStart)) ∧
    ((e.absorb r).rgEnd = e.rgEnd ∨
      (r.rgStart < r.rgEnd ∧ (e.absorb r).rgEnd = r.rgEnd)) := by
  unfold VmRg.absorb
  constructor <;> dsimp only <;> split_ifs <;> omega

theorem mergeWalk_ends (he : e.rgStart < e.rgEnd) :
    ((mergeWalk e l).1.rgStart = e.rgStart ∨
      ∃ r ∈ l, r.rgStart < r.rgEnd ∧ (mergeWalk e l).1.rgStart = r.rgStart) ∧
    ((mergeWalk e l).1.rgEnd = e.rgEnd ∨
      ∃ r ∈ l, r.rgStart < r.rgEnd ∧ (mergeWalk e l).1.rgEnd = r.rgEnd) := by
  induction l generalizing e with
  | nil => exact ⟨Or.inl rfl, Or.inl rfl⟩
  | cons r l ih =>
    unfold mergeWalk
    split_ifs with hadj
    · have hle := absorb_le (e := e) (r := r)
      obtain ⟨hs, ht⟩ := absorb_ends he hadj
      obtain ⟨hs', ht'⟩ := ih (e := e.absorb r) (by omega)
      constructor
      · rcases hs' with hs' | ⟨r', hr', hne, heq⟩
        · rw [hs']
          exact hs.imp_right fun hr => ⟨r, List.mem_cons_self, hr⟩
        · exact Or.inr ⟨r', List.mem_cons_of_mem r hr', hne, heq⟩
      · rcases ht' with ht' | ⟨r', hr', hne, heq⟩
        · rw [ht']
          exact ht.imp_right fun hr => ⟨r, List.mem_cons_self, hr⟩
        · exact Or.inr ⟨r', List.mem_cons_of_mem r hr', hne, heq⟩
    · obtain ⟨hs, ht⟩ := ih he
      refine ⟨hs.imp_right fun hex => ?_, ht.imp_right fun hex => ?_⟩
      · obtain ⟨r', hr', hrest⟩ := hex
        exact ⟨r', List.mem_cons_of_mem r hr', hrest⟩
      · obtain ⟨r', hr', hrest⟩ := hex
        exact ⟨r', List.mem_cons_of_mem r hr', hrest⟩

theorem mergeWalk_not_touching (he : e.rgStart < e.rgEnd) (hl : Coalesced l) :
    ∀ r ∈ (mergeWalk e l).2, r.rgStart < r.rgEnd →
      r.rgEnd ≠ (mergeWalk e l).1.rgStart ∧ (mergeWalk e l).1.rgEnd ≠ r.rgStart := by
  induction l generalizing e with
  | nil => exact fun r hr => absurd hr List.not_mem_nil
  | cons r l ih =>
    obtain ⟨hgap, hl'⟩ := List.pairwise_cons.mp hl
    unfold mergeWalk
    split_ifs with hadj
    · have hle := absorb_le (e := e) (r := r)
      exact ih (by omega) hl'
    · rw [not_or] at hadj
      intro x hx hne
      rcases List.mem_cons.mp hx with rfl | hx
      · -- a region passed by the walk and the neighbours absorbed after it
        obtain ⟨hs, ht⟩ := mergeWalk_ends (l := l) he
        constructor
        · rcases hs with hs | ⟨y, hy, hney, heq⟩
          · rw [hs]
            exact hadj.1
          · have := hgap y hy hne hney
            dsimp only
            omega
        · rcases ht with ht | ⟨y, hy, hney, heq⟩
          · rw [ht]
            exact hadj.2
          · have := hgap y hy hne hney
            dsimp only
            omega
      · exact ih he hl' x hx hne

theorem Coalesced.enlistFreerg (hl : Coalesced l) (hw : ∀ r ∈ l, r.Wf)
    (hcover : ∀ a, e.ind a + regionCover l a ≤ 1) : Coalesced (enlistFreerg l e) := by
  unfold OSsim.enlistFreerg
  split_ifs with hempty
  · exact hl
  · have he : e.rgStart < e.rgEnd := by omega
    have hsub := mergeWalk_sublist e l
    refine List.pairwise_cons.mpr ⟨fun r hr hne hne' => ?_, hl.sublist hsub⟩
    obtain ⟨h₁, h₂⟩ := mergeWalk_not_touching he hl r hr hne'
    -- the two regions share no address, so one ends before the other begins
    have hdisj : ∀ a, (mergeWalk e l).1.ind a + r.ind a ≤ 1 := by
      intro a
      have hc := mergeWalk_cover he hw a
      have hle : r.ind a ≤ regionCover (mergeWalk e l).2 a := by
        by_cases ha : r.rgStart ≤ a ∧ a < r.rgEnd
        · have hpos := regionCover_pos.mpr ⟨r, hr, ha⟩
          have := ind_le_one r.rgStart r.rgEnd a
          rw [VmRg.ind]
          omega
        · rw [VmRg.ind, ind_eq_zero.mpr ha]
          exact Nat.zero_le _
      have := hcover a
      omega
    have hd₁ := hdisj r.rgStart
    have hd₂ := hdisj (mergeWalk e l).1.rgStart
    simp only [VmRg.ind, Interval.ind] at hd₁ hd₂
    split_ifs at hd₁ hd₂ <;> omega

section FirstFit
variable {size : ℤ} {rg : VmRg} {l' : List VmRg} (h₀ : 0 < size) (h₁ : size < 2 ^ 31)
  (hw : ∀ r ∈ l, r.Wf) (hf : firstFit size l = some (rg, l'))
include h₀ h₁ hw hf

theorem firstFit_shrinks : ∀ x ∈ l', ∃ y ∈ l, y.rgStart ≤ x.rgStart ∧ x.rgEnd = y.rgEnd ∧
    (y.rgStart < y.rgEnd → x.rgStart < x.rgEnd) := by
  induction l generalizing l' with
  | nil => simp [firstFit] at hf
  | cons r l ih =>
    have hr := hw r List.mem_cons_self
    have hw' := fun x hx => hw x (List.mem_cons_of_mem r hx)
    unfold firstFit at hf
    dsimp only at hf
    rw [toULong_add h₀ h₁ hr] at hf
    intro x hx
    split_ifs at hf with heq hlt
    · obtain ⟨rfl, rfl⟩ := by simpa using hf
      exact ⟨x, List.mem_cons_of_mem r hx, le_rfl, rfl, id⟩
    · obtain ⟨rfl, rfl⟩ := by simpa using hf
      rcases List.mem_cons.mp hx with rfl | hx
      · exact ⟨r, List.mem_cons_self, Nat.le_add_right _ _, rfl, fun _ => hlt⟩
      · exact ⟨x, List.mem_cons_of_mem r hx, le_rfl, rfl, id⟩
    · obtain ⟨⟨rg', l''⟩, hf', he⟩ := Option.map_eq_some_iff.mp hf
      obtain ⟨rfl, rfl⟩ := by simpa using he
      rcases List.mem_cons.mp hx with rfl | hx
      · exact ⟨x, List.mem_cons_self, le_rfl, rfl, id⟩
      · obtain ⟨y, hy, hrest⟩ := ih hw' hf' x hx
        exact ⟨y, List.mem_cons_of_mem r hy, hrest⟩

theorem Coalesced.firstFit (hl : Coalesced l) : Coalesced l' := by
  induction l generalizing l' with
  | nil => simp [OSsim.firstFit] at hf
  | cons r l ih =>
    obtain ⟨hgap, hl'⟩ := List.pairwise_cons.mp hl
    have hr := hw r List.mem_cons_self
    have hw' := fun x hx => hw x (List.mem_cons_of_mem r hx)
    unfold OSsim.firstFit at hf
    dsimp only at hf
    rw [toULong_add h₀ h₁ hr] at hf
    split_ifs at hf with heq hlt
    · obtain ⟨rfl, rfl⟩ := by simpa using hf
      exact hl'
    · obtain ⟨rfl, rfl⟩ := by simpa using hf
      refine List.pairwise_cons.mpr ⟨fun y hy hne hney => ?_, hl'⟩
      have := hgap y hy (by omega) hney
      dsimp only
      omega
    · obtain ⟨⟨rg', l''⟩, hf', he⟩ := Option.map_eq_some_iff.mp hf
      obtain ⟨rfl, rfl⟩ := by simpa using he
      refine List.pairwise_cons.mpr ⟨fun x hx hne hnex => ?_, ih hw' hf' hl'⟩
      obtain ⟨y, hy, hle, hend, _⟩ := firstFit_shrinks h₀ h₁ hw' hf' x hx
      have := hgap y hy hne (by omega)
      omega

end FirstFit
end Walk

/-- The free list has no empty region, except the one it is created with. -/
def Tight (l : List VmRg) (vmEnd : ℕ) : Prop :=
  (∀ r ∈ l, r.rgStart < r.rgEnd) ∨ (l = [⟨0, 0⟩] ∧ vmEnd = 0)

structure Tiled (mm : Mm) (v : VmArea) : Prop where
  packed : Packed mm v
  coalesced : Coalesced v.vmFreergList
  tight : Tight v.vmFreergList v.vmEnd

theorem tiled_initMm : Tiled initMm ⟨0, 0, 0, 0, [⟨0, 0⟩]⟩ :=
  ⟨packed_initMm, List.pairwise_singleton _ _, Or.inr ⟨rfl, rfl⟩⟩

theorem nonempty_enlistFreerg {e : VmRg} {l : List VmRg} (hl : ∀ r ∈ l, r.rgStart < r.rgEnd)
    (hb : e.rgEnd < 2 ^ 31) (hw : ∀ r ∈ l, r.Wf) :
    ∀ r ∈ enlistFreerg l e, r.rgStart < r.rgEnd := by
  unfold enlistFreerg
  split_ifs with hempty
  · exact hl
  · have he : e.rgStart < e.rgEnd := by omega
    obtain ⟨h₁, h₂, _⟩ := (mergeWalk_wf he hb hw).1
    intro r hr
    rcases List.mem_cons.mp hr with rfl | hr
    · omega
    · exact hl r ((mergeWalk_sublist e l).subset hr)

section
variable {c c' : Pcb} {v : VmArea} {i : Instr} {o : Outcome}

theorem Packed.grown_cover {mm : Mm} (h : Packed mm v) (n a : ℕ) :
    (⟨v.vmEnd, v.vmEnd + n * 256⟩ : VmRg).ind a + regionCover v.vmFreergList a ≤ 1 := by
  have hc := h.count_le a
  have hsplit := ind_split (Nat.zero_le v.vmEnd) (Nat.le_add_right v.vmEnd (n * 256)) a
  have hle := ind_le_one 0 (v.vmEnd + n * 256) a
  simp only [Mm.addressCount] at hc
  simp only [VmRg.ind]
  omega

theorem Packed.sym_cover {mm : Mm} (h : Packed mm v) (j : Fin pagingMaxSymtblSz) (a : ℕ) :
    (mm.symrgtbl j).ind a + regionCover v.vmFreergList a ≤ 1 := by
  have hc := (h.count_le a).trans (ind_le_one 0 v.vmEnd a)
  have hle := Finset.single_le_sum (f := fun j => (mm.symrgtbl j).ind a)
    (fun _ _ => Nat.zero_le _) (Finset.mem_univ j)
  simp only [Mm.addressCount] at hc
  omega

theorem Packed.sym_le {mm : Mm} (h : Packed mm v) {j : Fin pagingMaxSymtblSz}
    (hne : (mm.symrgtbl j).rgStart < (mm.symrgtbl j).rgEnd) : (mm.symrgtbl j).rgEnd ≤ v.vmEnd :=
  (h.inside (List.mem_append_left _ ((List.mem_ofFn' _ _).mpr ⟨j, rfl⟩)) hne).2

theorem Tiled.grown {mm : Mm} (h : Tiled mm v) {n : ℕ} (hn : 0 < n)
    (hb : v.vmEnd + n * 256 < 2 ^ 31) :
    Coalesced (v.grown n).vmFreergList ∧ ∀ r ∈ (v.grown n).vmFreergList, r.rgStart < r.rgEnd := by
  refine ⟨h.coalesced.enlistFreerg h.packed.space.freeWf (h.packed.grown_cover n), ?_⟩
  rcases h.tight with hne | ⟨hl, hz⟩
  · exact nonempty_enlistFreerg hne hb h.packed.space.freeWf
  · -- the first growth swallows the region of the new area
    have hgrown : (v.grown n).vmFreergList = [⟨0, n * 256⟩] := by
      simp only [VmArea.grown, hl, hz, OSsim.enlistFreerg, mergeWalk, VmRg.absorb]
      rw [if_neg (by omega)]
      simp
    rw [hgrown]
    intro r hr
    rw [List.mem_singleton.mp hr]
    exact Nat.mul_pos hn (by decide)

theorem Tiled.firstFit {mm : Mm} {size : ℤ} {rg : VmRg} {l : List VmRg} (h : Tiled mm v)
    (h₀ : 0 < size) (h₁ : size < 2 ^ 31) (hf : OSsim.firstFit size v.vmFreergList = some (rg, l)) :
    Coalesced l ∧ Tight l v.vmEnd := by
  have hw := h.packed.space.freeWf
  refine ⟨h.coalesced.firstFit h₀ h₁ hw hf, Or.inl fun x hx => ?_⟩
  obtain ⟨y, hy, _, _, hne⟩ := firstFit_shrinks h₀ h₁ hw hf x hx
  rcases h.tight with htight | ⟨hl, _⟩
  · exact hne (htight y hy)
  · have hsome : (OSsim.firstFit size v.vmFreergList).isSome := by rw [hf]; rfl
    obtain ⟨r, hr, hfit⟩ := (firstFit_isSome h₀ h₁ hw).mp hsome
    rw [hl, List.mem_singleton] at hr
    subst hr
    dsimp only at hfit
    omega

theorem Pcb.Effect.tiled (h : Tiled c.mm v) (he : Pcb.Effect c v i o c') :
    ∃ v', c'.mm.mmap = [v'] ∧ Coalesced v'.vmFreergList ∧ Tight v'.vmFreergList v'.vmEnd := by
  have hs := h.packed.space
  have hsame : ∀ c1 : Pcb, c1.mm.mmap = c.mm.mmap →
      ∃ v', c1.mm.mmap = [v'] ∧ Coalesced v'.vmFreergList ∧ Tight v'.vmFreergList v'.vmEnd :=
    fun c1 hm => ⟨v, hm.trans hs.mmap, h.coalesced, h.tight⟩
  cases he with
  | refused => exact hsame c rfl
  | outOfFrames _ _ ha => exact hsame c' (allocPagesRange_space ha).1
  | @placed size _ j rg l hi hpos hf =>
    exact ⟨{ v with vmFreergList := l }, rfl, h.firstFit hpos BitVec.toInt_lt hf⟩
  | @allocGrown size _ j fs c1 rg l hi hpos _ hr ha hf =>
    have hb := (growthInRange_iff hr.1).mp hr
    have hlt : size.toInt < 2 ^ 31 := BitVec.toInt_lt
    obtain ⟨hcoal, hne⟩ := h.grown (growPages_mul hr.1).1 hb
    have hw : ∀ r ∈ (v.grown (growPages size.toInt)).vmFreergList, r.Wf :=
      enlistFreerg_wf hb hs.freeWf
    refine ⟨{ v.grown (growPages size.toInt) with vmFreergList := l }, rfl,
      hcoal.firstFit hpos hlt hw hf, Or.inl fun x hx => ?_⟩
    obtain ⟨y, hy, _, _, hyne⟩ := firstFit_shrinks hpos hlt hw hf x hx
    exact hyne (hne y hy)
  | @grown _ incSz fs c1 _ hr ha =>
    have hb := (growthInRange_iff hr.1).mp hr
    obtain ⟨hcoal, hne⟩ := h.grown (growPages_mul hr.1).1 hb
    exact ⟨v.grown (growPages incSz.toInt), rfl, hcoal, Or.inl hne⟩
  | @freed _ j hi hne =>
    refine ⟨_, rfl, h.coalesced.enlistFreerg hs.freeWf (h.packed.sym_cover j), ?_⟩
    rcases h.tight with htight | ⟨_, hz⟩
    · exact Or.inl (nonempty_enlistFreerg htight (hs.symWf j).2 hs.freeWf)
    · -- an area that has never grown has no region to return
      have hin := h.packed.sym_le hne
      omega
  | @reads _ _ va _ => exact hsame _ (pgGetval_space c va).1
  | @writes data _ _ va _ => exact hsame _ (pgSetval_space c va data).1

theorem Tiled.exec (h : Tiled c.mm v) (i : Instr) : ∃ v', Tiled (c.exec i).2.mm v' := by
  obtain ⟨v', hp⟩ := h.packed.exec i
  obtain ⟨w, hm, hcoal, htight⟩ := (h.packed.space.exec_cases i).tiled h
  obtain rfl : w = v' := List.singleton_inj.mp (hm.symm.trans hp.space.mmap)
  exact ⟨w, hp, hcoal, htight⟩

theorem Tiled.fits_iff {mm : Mm} (h : Tiled mm v) {size : ℤ} (h₀ : 0 < size) (h₁ : size < 2 ^ 31) :
    (OSsim.firstFit size v.vmFreergList).isSome ↔
      ∃ a, ∀ b, a ≤ b → b < a + size.toNat →
        ∃ r ∈ v.vmFreergList, r.rgStart ≤ b ∧ b < r.rgEnd := by
  rw [firstFit_isSome h₀ h₁ h.packed.space.freeWf]
  constructor
  · intro hex
    obtain ⟨r, hr, hfit⟩ := hex
    exact ⟨r.rgStart, fun b h₂ h₃ => ⟨r, hr, h₂, by omega⟩⟩
  · intro hex
    obtain ⟨a, ha⟩ := hex
    have hblock : ∀ i ≤ size.toNat - 1, 0 < regionCover v.vmFreergList (a + i) :=
      fun i hi => regionCover_pos.mpr (ha (a + i) (Nat.le_add_right _ _) (by omega))
    obtain ⟨r, hr, h₂, h₃⟩ := h.coalesced.block hblock
    exact ⟨r, hr, by omega⟩

theorem Coalesced.mem_iff {l l' : List VmRg} (hl : Coalesced l) (hl' : Coalesced l')
    (hne : ∀ r ∈ l, r.rgStart < r.rgEnd) (hne' : ∀ r ∈ l', r.rgStart < r.rgEnd)
    (hcover : ∀ a, regionCover l a = regionCover l' a) (r : VmRg) : r ∈ l ↔ r ∈ l' := by
  have hmem : ∀ {l l' : List VmRg}, Coalesced l → Coalesced l' →
      (∀ r ∈ l, r.rgStart < r.rgEnd) → (∀ a, regionCover l a = regionCover l' a) →
      r ∈ l → r ∈ l' := by
    intro l l' hl hl' hne hcover hr
    have hpos : ∀ a, 0 < cover VmRg.rgStart VmRg.rgEnd l a ↔
        0 < cover VmRg.rgStart VmRg.rgEnd l' a := by
      intro a
      change 0 < regionCover l a ↔ 0 < regionCover l' a
      rw [hcover a]
    obtain ⟨⟨start, stop⟩, hr', hs, ht⟩ := hl.mem_of_cover hl' hpos hr (hne r hr)
    obtain ⟨start', stop'⟩ := r
    obtain rfl : start = start' := hs
    obtain rfl : stop = stop' := ht
    exact hr'
  exact ⟨hmem hl hl' hne hcover, hmem hl' hl hne' fun a => (hcover a).symm⟩

theorem Tiled.alloc_served (h : Tiled c.mm v) {size rgid : BitVec 32}
    (hdone : (c.exec (.alloc size rgid)).1 = .done)
    (hkeep : ∀ v', (c.exec (.alloc size rgid)).2.mm.mmap = [v'] → v'.vmEnd = v.vmEnd) :
    ∃ i rg l, symIndex rgid.toInt = some i ∧ 0 < size.toInt ∧
      OSsim.firstFit size.toInt v.vmFreergList = some (rg, l) ∧
      (c.exec (.alloc size rgid)).2 = c.placed v i rg l := by
  have he := h.packed.space.exec_cases (.alloc size rgid)
  generalize hinst : Instr.alloc size rgid = inst at he hdone hkeep
  rcases hr : c.exec inst with ⟨o, c1⟩
  rw [hr] at he hdone hkeep
  dsimp only at he hdone hkeep ⊢
  subst hdone
  generalize hout : Outcome.done = o at he
  cases he with
  | refused => cases hout
  | outOfFrames => cases hout
  | @placed size' _ i rg l hi hpos hf =>
    cases hinst
    exact ⟨i, rg, l, hi, hpos, hf, rfl⟩
  | @allocGrown size' _ j fs c2 rg l hi hpos _ hrange ha hf =>
    have hv := hkeep _ rfl
    have hn := (growPages_mul hrange.1).1
    simp only [VmArea.grown] at hv
    omega
  | grown => cases hinst
  | freed => cases hinst
  | reads => cases hinst
  | writes => cases hinst

theorem Tiled.alloc_free (h : Tiled c.mm v) {size rgid : BitVec 32}
    (hdone : (c.exec (.alloc size rgid)).1 = .done)
    (hkeep : ∀ v', (c.exec (.alloc size rgid)).2.mm.mmap = [v'] → v'.vmEnd = v.vmEnd) :
    ((c.exec (.alloc size rgid)).2.exec (.free rgid)).1 = .done ∧
      ∃ v', ((c.exec (.alloc size rgid)).2.exec (.free rgid)).2.mm.mmap = [v'] ∧
        ∀ r, r ∈ v'.vmFreergList ↔ r ∈ v.vmFreergList := by
  have hlt : size.toInt < 2 ^ 31 := BitVec.toInt_lt
  obtain ⟨i, rg, l, hi, hpos, hf, hc1⟩ := h.alloc_served hdone hkeep
  obtain ⟨v1, h1⟩ := h.exec (.alloc size rgid)
  rw [hc1] at h1 ⊢
  obtain rfl : { v with vmFreergList := l } = v1 := List.singleton_inj.mp h1.packed.space.mmap
  obtain ⟨hlen, hrg, _, hcover⟩ := firstFit_spec hpos hlt h.packed.space.freeWf hf
  have hsym : (c.placed v i rg l).mm.symrgtbl i = rg := Function.update_self _ _ _
  obtain ⟨v2, h2⟩ := h1.exec (.free rgid)
  have he := h1.packed.space.exec_cases (.free rgid)
  generalize hinst : Instr.free rgid = inst at he h2 ⊢
  rcases hr : (c.placed v i rg l).exec inst with ⟨o, c2⟩
  rw [hr] at he h2
  dsimp only at he h2 ⊢
  cases he with
  | refused hno =>
    subst hinst
    have := hno i hi
    rw [hsym] at this
    omega
  | outOfFrames hw =>
    subst hinst
    exact hw.elim
  | @freed _ j hj hne =>
    cases hinst
    obtain rfl : i = j := Option.some.inj (hi.symm.trans hj)
    obtain rfl := List.singleton_inj.mp h2.packed.space.mmap
    have hin := h1.packed.sym_le hne
    have hgrown : v.vmEnd ≠ 0 := by
      dsimp only at hin
      omega
    refine ⟨rfl, _, rfl, ?_⟩
    apply Coalesced.mem_iff h2.coalesced h.coalesced
      (h2.tight.resolve_right fun hz => hgrown hz.2) (h.tight.resolve_right fun hz => hgrown hz.2)
    intro a
    dsimp only
    rw [enlistFreerg_cover h1.packed.space.freeWf, hsym, hcover a]
  | placed => cases hinst
  | allocGrown => cases hinst
  | grown => cases hinst
  | reads => cases hinst
  | writes => cases hinst

end

namespace Kernel
variable {ι : Type*} [DecidableEq ι] {memramsz : ℤ} {memswpsz : ℕ → ℤ}
  {ops : List (Op ι)} {s : Kernel ι} {p : ι} {mm : Mm}

theorem all_tiled_step (s : Kernel ι) (op : Op ι) (s' : Kernel ι)
    (hs : s.All fun mm => ∃ v, Tiled mm v) (hn : Next s op s') :
    s'.All fun mm => ∃ v, Tiled mm v := by
  refine all_step ⟨_, tiled_initMm⟩ ?_ s op s' hs hn
  intro c i hex
  obtain ⟨v, h⟩ := hex
  exact h.exec i

/-- In every state no two non-empty free regions overlap or touch, a request finds a free
region exactly when that many consecutive addresses are free, and an ALLOC that does not
grow the area is undone by the FREE of its register. -/
theorem run_coalesced (hrun : Run Next (boot memramsz memswpsz) ops s) (hp : s.mm p = some mm) :
    ∃ v, mm.mmap = [v] ∧ v.vmId = 0 ∧
      (v.vmFreergList.Pairwise fun r r' => r.rgStart < r.rgEnd → r'.rgStart < r'.rgEnd →
        RegionsDisjoint r r' ∧ r.rgEnd ≠ r'.rgStart ∧ r'.rgEnd ≠ r.rgStart) ∧
      (∀ size : ℤ, 0 < size → size < 2 ^ 31 → ((mm.getFreeVmrgArea 0 size).isSome ↔
        ∃ a, ∀ b, a ≤ b → b < a + size.toNat →
          ∃ r ∈ v.vmFreergList, r.rgStart ≤ b ∧ b < r.rgEnd)) ∧
      ∀ size rgid s₁ mm₁ v₁, s.step (.exec p (.alloc size rgid)) = (.done, s₁) →
        s₁.mm p = some mm₁ → mm₁.mmap = [v₁] → v₁.vmEnd = v.vmEnd →
        ∃ s₂ mm₂ v₂, s₁.step (.exec p (.free rgid)) = (.done, s₂) ∧ s₂.mm p = some mm₂ ∧
          mm₂.mmap = [v₂] ∧ ∀ r, r ∈ v₂.vmFreergList ↔ r ∈ v.vmFreergList := by
  obtain ⟨v, h⟩ := hrun.invariant _ (all_boot _ _ _) all_tiled_step p mm hp
  have h' : Tiled (s.caller mm).mm v := h
  refine ⟨v, h.packed.space.mmap, h.packed.space.vmId, ?_, ?_, ?_⟩
  · refine h.coalesced.imp fun {r r'} hgap hne hne' => ?_
    have hor := hgap hne hne'
    refine ⟨fun a ha => ?_, by omega, by omega⟩
    omega
  · intro size h₀ h₁
    have hget : mm.getFreeVmrgArea 0 size = _ := h'.packed.space.getFreeVmrgArea size
    rw [← h.fits_iff h₀ h₁, hget, Option.isSome_map]
  · intro size rgid s₁ mm₁ v₁ halloc hp₁ hm₁ hkeep
    rw [step_exec hp, Prod.mk.injEq] at halloc
    obtain ⟨hdone, rfl⟩ := halloc
    rw [commit_mm_self, Option.some.injEq] at hp₁
    subst hp₁
    obtain ⟨hfree, v₂, hm₂, hmem⟩ := h'.alloc_free hdone fun w hw => by
      rw [hw, List.singleton_inj] at hm₁
      rw [hm₁, hkeep]
    have hstep := step_exec (commit_mm_self s p ((s.caller mm).exec (.alloc size rgid)).2)
      (.free rgid)
    exact ⟨_, _, v₂, hstep.trans (Prod.ext hfree rfl), commit_mm_self _ _ _, hm₂, hmem⟩

/-- 212 bytes are left of the two pages; an ALLOC of 100 of them into register 1 and its FREE
bring the region back. -/
theorem run_coalesced_alloc_free :
    ∃ (s s₁ s₂ : Kernel Unit) (v v₂ : VmArea),
      Run Next (boot 512 fun _ => 256) [.exec () (.alloc 300 0), .create ()] s ∧
      v.vmFreergList = [⟨300, 512⟩] ∧ s.step (.exec () (.alloc 100 1)) = (.done, s₁) ∧
      s₁.step (.exec () (.free 1)) = (.done, s₂) ∧
      ∀ r, r ∈ v₂.vmFreergList ↔ r ∈ v.vmFreergList := by
  have hrun := run_foldr (boot 512 fun _ => 256) [Op.exec () (.alloc 300 0), .create ()]
  generalize hs : List.foldr (fun op (s : Kernel Unit) => (s.step op).2) (boot 512 fun _ => 256)
    [Op.exec () (.alloc 300 0), .create ()] = s at hrun
  have hfree : (s.mm ()).map (fun mm => mm.mmap.map fun v => (v.vmEnd, v.vmFreergList)) =
      some [(512, [⟨300, 512⟩])] := by
    rw [← hs]
    decide +kernel
  have hdone : (s.step (.exec () (.alloc 100 1))).1 = .done := by
    rw [← hs]
    decide +kernel
  have hkeep : ((s.step (.exec () (.alloc 100 1))).2.mm ()).map
      (fun mm => mm.mmap.map VmArea.vmEnd) = some [512] := by
    rw [← hs]
    decide +kernel
  obtain ⟨mm, hp, hm⟩ := Option.map_eq_some_iff.mp hfree
  obtain ⟨mm₁, hp₁, hm₁⟩ := Option.map_eq_some_iff.mp hkeep
  obtain ⟨v, hv, _, _, _, hundo⟩ := run_coalesced hrun hp
  rw [hv] at hm
  obtain ⟨v₁, hv₁, hend⟩ := List.map_eq_singleton_iff.mp hm₁
  obtain ⟨hend₀, hlist⟩ := Prod.mk.inj (List.singleton_inj.mp hm)
  obtain ⟨s₂, mm₂, v₂, hstep, _, _, hmem⟩ := hundo 100 1 _ mm₁ v₁ (Prod.ext hdone rfl) hp₁ hv₁
    (hend.trans hend₀.symm)
  exact ⟨s, _, s₂, v, v₂, hrun, hlist, Prod.ext hdone rfl, hstep, hmem⟩

end Kernel
end OSsim
