import OSsim.FrameInv

/-!
# Frames through allocation, mapping and page faults

The loops of `alloc_pages_range` and `vmap_page_range` and the fault path of
`pg_getpage` keep the accounting of `FrameInv` and the bytes of every page. The
frames an allocation has collected are the `hand` of the invariant: they reach it
through `grabFrame` and leave it through a page table entry or, when the
allocation fails, through the free list.
-/

namespace OSsim
section
variable {nr ns : ℕ} {ramExt swpExt : ℕ → ℕ} {c c' : Pcb} {hand : List ℕ} {f : ℕ}

structure GrabKeeps (ramExt swpExt : ℕ → ℕ) (c c' : Pcb) : Prop where
  keeps : Keeps ramExt swpExt c c'
  shuffles : Pcb.Shuffles c c'
  swapped : ∀ k, Swapped (c.mm.pgd k) → c'.mm.pgd k = c.mm.pgd k

theorem GrabKeeps.refl (c : Pcb) : GrabKeeps ramExt swpExt c c :=
  ⟨Keeps.refl c, Pcb.Shuffles.refl c, fun _ _ => rfl⟩

theorem GrabKeeps.trans {c c' c'' : Pcb} (h : GrabKeeps ramExt swpExt c c')
    (h' : GrabKeeps ramExt swpExt c' c'') : GrabKeeps ramExt swpExt c c'' := by
  refine ⟨h.keeps.trans h'.keeps, h.shuffles.trans h'.shuffles, ?_⟩
  intro k hk
  have he := h.swapped k hk
  exact (h'.swapped k (he ▸ hk)).trans he

theorem FrameInv.stuck (h : FrameInv nr ns ramExt swpExt c hand) (hs : Pcb.Stuck c c') :
    FrameInv nr ns ramExt swpExt c' hand ∧ GrabKeeps ramExt swpExt c c' := by
  cases hs with
  | noVictim => exact ⟨h, GrabKeeps.refl c⟩
  | swapFull _ hf _ =>
    exact ⟨h.requeued hf, Keeps.of_eq rfl rfl fun _ => rfl, ⟨rfl, rfl, fun _ => Iff.rfl⟩,
      fun _ _ => rfl⟩

theorem FrameInv.grabbed (h : FrameInv nr ns ramExt swpExt c hand) (hg : Pcb.Grabbed c f c') :
    FrameInv nr ns ramExt swpExt c' (f :: hand) ∧ GrabKeeps ramExt swpExt c c' := by
  have hsh := hg.shuffles h.fifoPresent
  cases hg with
  | free hm => exact ⟨h.taken hm, Keeps.of_eq rfl rfl fun _ => rfl, hsh, fun _ _ => rfl⟩
  | @evict l rest v w hm hf hs =>
    refine ⟨h.evicted hf hs, h.keeps_evicted hf hs, hsh, ?_⟩
    intro k hk
    have hkv : k ≠ v := by
      intro he
      subst he
      exact (h.victim_resident hf).2 hk.2
    exact Function.update_of_ne hkv _ _

theorem FrameInv.putBack (h : FrameInv nr ns ramExt swpExt c hand) :
    FrameInv nr ns ramExt swpExt
      { c with mram := { c.mram with freeFpList := hand.reverse ++ c.mram.freeFpList } } [] where
  ramDim := h.ramDim
  swpDim := h.swpDim
  ramLe := h.ramLe
  swpLe := h.swpLe
  ramAcct x := by
    have ha := h.ramAcct x
    simp only [List.count_append, List.count_reverse, List.count_nil]
    omega
  swpAcct := h.swpAcct
  fifoNodup := h.fifoNodup
  fifoMem := h.fifoMem
  swpTyp := h.swpTyp
  inTable := h.inTable

theorem FrameInv.allocPagesLoop (n : ℕ) (h : FrameInv nr ns ramExt swpExt c hand) :
    ∃ r c', Pcb.allocPagesLoop n hand c = (r, c') ∧
      FrameInv nr ns ramExt swpExt c' (r.getD []) ∧ GrabKeeps ramExt swpExt c c' ∧
      ∀ fs, r = some fs → fs.length = hand.length + n := by
  induction n generalizing c hand with
  | zero => exact ⟨some hand, c, rfl, h, GrabKeeps.refl c, by rintro _ ⟨⟩; rfl⟩
  | succ n ih =>
    rcases c.grabFrame_cases with ⟨c1, hg, hst⟩ | ⟨f, c1, hg, hgr⟩
    · obtain ⟨h1, hk⟩ := h.stuck hst
      refine ⟨none, _, by simp only [Pcb.allocPagesLoop, hg]; rfl, ?_, ?_, by simp⟩
      · rw [foldl_putFreefp]
        exact h1.putBack
      · rw [foldl_putFreefp]
        exact hk.trans ⟨Keeps.of_eq rfl rfl fun _ => rfl, ⟨rfl, rfl, fun _ => Iff.rfl⟩,
          fun _ _ => rfl⟩
    · obtain ⟨h1, hk⟩ := h.grabbed hgr
      obtain ⟨r, c2, he, h2, hk2, hl⟩ := ih h1
      refine ⟨r, c2, by simp only [Pcb.allocPagesLoop, hg]; exact he, h2, hk.trans hk2, ?_⟩
      intro fs hfs
      rw [hl fs hfs, List.length_cons]
      omega

theorem FrameInv.allocPagesRange (n : ℤ) (h : FrameInv nr ns ramExt swpExt c []) :
    ∃ r c', c.allocPagesRange n = (r, c') ∧
      FrameInv nr ns ramExt swpExt c' (r.getD []) ∧ GrabKeeps ramExt swpExt c c' ∧
      ∀ fs, r = some fs → fs.length = n.toNat := by
  obtain ⟨r, c', he, h1, hk, hl⟩ := h.allocPagesLoop n.toNat
  exact ⟨r, c', he, h1, hk, fun fs hfs => by simpa using hl fs hfs⟩

theorem FrameInv.mapPage {k : ℕ} (h : FrameInv nr ns ramExt swpExt c (f :: hand))
    (hk : ¬ pagingPagePresent (c.mm.pgd k)) (hkt : k < pagingMaxPgn) :
    FrameInv nr ns ramExt swpExt { c with mm := c.mm.mapPage k f } hand := by
  have hfr := (h.ram_single f (by rw [List.count_cons_self]; omega)).1
  have hfp : f < 2 ^ 13 := hfr.trans_le h.ramLe
  refine ⟨h.ramDim, h.swpDim, h.ramLe, h.swpLe, ?_, ?_, ?_, ?_, ?_, ?_⟩
  · intro x
    have ha := h.ramAcct x
    have hu := ramOwn_update c.mm.pgd hkt (pteSetFpn (c.mm.pgd k) f) x
    rw [ramHold_of_not_resident (fun hc => hk hc.1), ramHold_of_resident (resident_pteSetFpn _ _),
      pagingFpn_pteSetFpn hfp, List.count_singleton] at hu
    rw [List.count_cons] at ha
    simp only [Mm.ramOwn] at ha
    simp only [Mm.mapPage, Mm.setPte, Mm.enlistPgnNode, Mm.ramOwn]
    omega
  · intro x
    have ha := h.swpAcct x
    have hu := swpOwn_update c.mm.pgd hkt (pteSetFpn (c.mm.pgd k) f) x
    rw [swpHold_of_not_swapped (fun hc => hk hc.1),
      swpHold_of_not_swapped (not_swapped_pteSetFpn _ _)] at hu
    simp only [Mm.swpOwn] at ha
    simp only [Mm.mapPage, Mm.setPte, Mm.enlistPgnNode, Mm.swpOwn]
    omega
  · refine List.nodup_cons.mpr ⟨?_, h.fifoNodup⟩
    exact fun hm => hk ((h.fifoMem k).mp hm).1
  · intro j
    simp only [Mm.mapPage, Mm.setPte, Mm.enlistPgnNode, List.mem_cons]
    by_cases hj : j = k
    · subst hj; simp
    · rw [Function.update_of_ne hj, ← h.fifoMem j]
      simp [hj]
  · intro j hj
    simp only [Mm.mapPage, Mm.setPte, Mm.enlistPgnNode] at hj ⊢
    by_cases hjk : j = k
    · subst hjk
      simp at hj
    · rw [Function.update_of_ne hjk] at hj ⊢
      exact h.swpTyp j hj
  · intro j hj
    simp only [Mm.mapPage, Mm.setPte, Mm.enlistPgnNode] at hj
    by_cases hjk : j = k
    · exact hjk ▸ hkt
    · rw [Function.update_of_ne hjk] at hj
      exact h.inTable j hj

theorem keeps_mapPage {k : ℕ} (hk : ¬ pagingPagePresent (c.mm.pgd k)) (f : ℕ) :
    Keeps ramExt swpExt c { c with mm := c.mm.mapPage k f } := by
  have hne : ∀ j, pagingPagePresent (c.mm.pgd j) →
      (c.mm.mapPage k f).pgd j = c.mm.pgd j := by
    intro j hj
    have hjk : j ≠ k := by
      intro he
      subst he
      exact hk hj
    exact Function.update_of_ne hjk _ _
  refine ⟨?_, ?_, fun _ _ _ _ => rfl, fun _ _ _ _ => rfl⟩
  · intro j hj
    rw [show (_ : Mm).pgd j = c.mm.pgd j from hne j hj]
    exact hj
  · intro j hj i _
    simp only [Pcb.pageByte, hne j hj]

theorem FrameInv.vmapLoop {pgn pgit : ℕ} {pgnum : ℤ} {fs : List ℕ}
    (h : FrameInv nr ns ramExt swpExt c fs) (hle : ((pgit + fs.length : ℕ) : ℤ) ≤ pgnum)
    (ht : pgn + pgit + fs.length ≤ pagingMaxPgn)
    (hnew : ∀ k, pgn + pgit ≤ k → ¬ pagingPagePresent (c.mm.pgd k)) :
    FrameInv nr ns ramExt swpExt { c with mm := vmapLoop pgn pgnum pgit fs c.mm } [] ∧
      Keeps ramExt swpExt c { c with mm := vmapLoop pgn pgnum pgit fs c.mm } := by
  induction fs generalizing pgit c with
  | nil => exact ⟨h, Keeps.refl c⟩
  | cons f fs ih =>
    rw [List.length_cons] at hle ht
    rw [vmapLoop_cons (by omega)]
    have hk := hnew (pgn + pgit) le_rfl
    have h1 := h.mapPage hk (by omega)
    have hnew' : ∀ k, pgn + (pgit + 1) ≤ k →
        ¬ pagingPagePresent ((c.mm.mapPage (pgn + pgit) f).pgd k) := by
      intro k hle'
      rw [mapPage_present]
      intro hor
      rcases hor with hp | hp
      · exact hnew k (by omega) hp
      · omega
    obtain ⟨h2, hk2⟩ := ih h1 (by omega) (by omega) hnew'
    exact ⟨h2, (keeps_mapPage hk f).trans hk2⟩

section SwapIn
variable {k : ℕ} (h : FrameInv nr ns ramExt swpExt c (f :: hand)) (hk : Swapped (c.mm.pgd k))
include h

theorem FrameInv.hand_frame :
    f < nr ∧ c.mm.ramOwn f = 0 ∧ ramExt f = 0 := by
  have hs := h.ram_single f (by rw [List.count_cons_self]; omega)
  rw [List.count_cons_self] at hs
  omega

include hk

theorem FrameInv.swappedIn :
    FrameInv nr ns ramExt swpExt (c.swappedIn (c.mm.pgd k) k f) hand := by
  have hkt := h.inTable k hk.1
  have hfp : f < 2 ^ 13 := h.hand_frame.1.trans_le h.ramLe
  have ht := h.swpTyp k hk
  refine ⟨?_, ?_, h.ramLe, h.swpLe, ?_, ?_, ?_, ?_, ?_, ?_⟩
  · rw [← h.ramDim]
    simp only [Memphy.numfp, Pcb.swappedIn, swapCpPage_snd_maxsz]
  · rw [← h.swpDim]
    simp only [Memphy.numfp, Pcb.swappedIn, ht, Function.update_self, Memphy.putFreefp,
      swapCpPage_fst_maxsz]
  · intro x
    have ha := h.ramAcct x
    have hu := ramOwn_update c.mm.pgd hkt (pteSetFpn (c.mm.pgd k) f) x
    rw [ramHold_of_not_resident (fun hc => hc.2 hk.2), ramHold_of_resident (resident_pteSetFpn _ _),
      pagingFpn_pteSetFpn hfp, List.count_singleton] at hu
    rw [List.count_cons] at ha
    simp only [Mm.ramOwn] at ha
    simp only [Pcb.swappedIn, swapCpPage_snd_freeFpList, Mm.mapPage, Mm.setPte, Mm.enlistPgnNode,
      Mm.ramOwn]
    omega
  · intro x
    have ha := h.swpAcct x
    have hu := swpOwn_update c.mm.pgd hkt (pteSetFpn (c.mm.pgd k) f) x
    rw [swpHold_of_swapped hk, swpHold_of_not_swapped (not_swapped_pteSetFpn _ _),
      List.count_singleton] at hu
    simp only [Mm.swpOwn] at ha
    simp only [Pcb.swappedIn, ht, Function.update_self, Memphy.putFreefp, List.count_cons,
      swapCpPage_fst_freeFpList, Mm.mapPage, Mm.setPte, Mm.enlistPgnNode, Mm.swpOwn]
    omega
  · refine List.nodup_cons.mpr ⟨?_, h.fifoNodup⟩
    exact fun hm => ((h.fifoMem k).mp hm).2 hk.2
  · intro j
    simp only [Pcb.swappedIn, Mm.mapPage, Mm.setPte, Mm.enlistPgnNode, List.mem_cons]
    by_cases hj : j = k
    · subst hj; simp
    · rw [Function.update_of_ne hj, ← h.fifoMem j]
      simp [hj]
  · intro j hj
    simp only [Pcb.swappedIn, Mm.mapPage, Mm.setPte, Mm.enlistPgnNode] at hj ⊢
    by_cases hjk : j = k
    · subst hjk
      simp at hj
    · rw [Function.update_of_ne hjk] at hj ⊢
      exact h.swpTyp j hj
  · intro j hj
    rcases (mapPage_present c.mm k f j).mp hj with hp | rfl
    · exact h.inTable j hp
    · exact hkt

theorem FrameInv.keeps_swappedIn : Keeps ramExt swpExt c (c.swappedIn (c.mm.pgd k) k f) := by
  obtain ⟨hfr, hown, hext⟩ := h.hand_frame
  have hfp : f < 2 ^ 13 := hfr.trans_le h.ramLe
  have ht := h.swpTyp k hk
  have hwn := h.swapped_lt hk
  have hst : ∀ t, ((c.swappedIn (c.mm.pgd k) k f).mswp t).storage = (c.mswp t).storage := by
    intro t
    simp only [Pcb.swappedIn]
    by_cases htt : t = pagingPteSwptyp (c.mm.pgd k)
    · rw [htt, Function.update_self, Memphy.putFreefp, swapCpPage_fst_storage]
    · rw [Function.update_of_ne htt]
  refine ⟨?_, ?_, ?_, ?_⟩
  · intro j hj
    exact (mapPage_present c.mm k f j).mpr (Or.inl hj)
  · intro j hj i hi
    by_cases hjk : j = k
    · -- the faulting page: its bytes in RAM are those of its swap frame
      subst hjk
      rw [h.pageByte_swapped hk, Pcb.pageByte_resident (by
        simp only [Pcb.swappedIn, Mm.mapPage, Mm.setPte, Mm.enlistPgnNode, Function.update_self]
        exact resident_pteSetFpn _ _)]
      simp only [Pcb.swappedIn, Mm.mapPage, Mm.setPte, Mm.enlistPgnNode, Function.update_self,
        pagingFpn_pteSetFpn hfp, ht]
      exact swapCpPage_inside _ _ _ _ (by rw [h.swpDim]; exact hwn) (by rw [h.ramDim]; exact hfr) hi
    · have hpj : (c.swappedIn (c.mm.pgd k) k f).mm.pgd j = c.mm.pgd j :=
        Function.update_of_ne hjk _ _
      by_cases hsw : pagingPageSwapped (c.mm.pgd j)
      · simp only [Pcb.pageByte, hpj, if_pos hsw, hst]
      · have hfj : pagingFpn (c.mm.pgd j) ≠ f := by
          intro he
          have hp := h.ramOwn_pos ⟨hj, hsw⟩
          rw [he] at hp
          omega
        simp only [Pcb.pageByte, hpj, if_neg hsw]
        simp only [Pcb.swappedIn]
        exact swapCpPage_outside _ _ _ _ hfj hi
  · intro x hx i hi
    have hne : x ≠ f := by
      intro he
      subst he
      omega
    simp only [Pcb.swappedIn]
    exact swapCpPage_outside _ _ _ _ hne hi
  · intro w _ i _
    rw [hst]

end SwapIn

theorem GrabKeeps.shuffles_swappedIn {k : ℕ} (hg : GrabKeeps ramExt swpExt c c')
    (hk : Swapped (c.mm.pgd k)) : Pcb.Shuffles c (c'.swappedIn (c.mm.pgd k) k f) := by
  refine ⟨hg.shuffles.mmap, hg.shuffles.symrgtbl, ?_⟩
  intro j
  have hm : pagingPagePresent ((c'.swappedIn (c.mm.pgd k) k f).mm.pgd j) ↔
      pagingPagePresent (c'.mm.pgd j) ∨ j = k := mapPage_present c'.mm k f j
  rw [hm, hg.shuffles.present j]
  constructor
  · intro hor
    rcases hor with hj | rfl
    · exact hj
    · exact hk.1
  · exact Or.inl

theorem FrameInv.fault {k : ℕ} {r : Option ℕ} (h : FrameInv nr ns ramExt swpExt c hand)
    (hf : Pcb.Fault c k r c') :
    FrameInv nr ns ramExt swpExt c' hand ∧ Keeps ramExt swpExt c c' ∧ Pcb.Shuffles c c' ∧
      ∀ x, r = some x → Resident (c'.mm.pgd k) ∧ x = pagingFpn (c'.mm.pgd k) := by
  cases hf with
  | unmapped => exact ⟨h, Keeps.refl c, Pcb.Shuffles.refl c, by simp⟩
  | resident hk hr => exact ⟨h, Keeps.refl c, Pcb.Shuffles.refl c, by rintro x ⟨⟩; exact ⟨hr, rfl⟩⟩
  | stuck hk hsw hst =>
    obtain ⟨h1, hg⟩ := h.stuck hst
    exact ⟨h1, hg.keeps, hg.shuffles, by simp⟩
  | @loaded c1 f hk hsw hgr =>
    obtain ⟨h1, hg⟩ := h.grabbed hgr
    have he := hg.swapped k hsw
    have hsw1 : Swapped (c1.mm.pgd k) := he ▸ hsw
    have h2 := h1.swappedIn hsw1
    have hk2 := h1.keeps_swappedIn hsw1
    rw [he] at h2 hk2
    refine ⟨h2, hg.keeps.trans hk2, hg.shuffles_swappedIn hsw, ?_⟩
    intro x hcase
    cases hcase
    have hp : (c1.swappedIn (c.mm.pgd k) k f).mm.pgd k = pteSetFpn (c1.mm.pgd k) f :=
      Function.update_self _ _ _
    rw [hp]
    exact ⟨resident_pteSetFpn _ _, rfl⟩

theorem FrameInv.of_mram (h : FrameInv nr ns ramExt swpExt c hand) {mp : Memphy}
    (hm : mp.maxsz = c.mram.maxsz) (hfl : mp.freeFpList = c.mram.freeFpList) :
    FrameInv nr ns ramExt swpExt { c with mram := mp } hand where
  ramDim := by rw [← h.ramDim]; simp only [Memphy.numfp, hm]
  swpDim := h.swpDim
  ramLe := h.ramLe
  swpLe := h.swpLe
  ramAcct x := by rw [← h.ramAcct x]; simp only [hfl]
  swpAcct := h.swpAcct
  fifoNodup := h.fifoNodup
  fifoMem := h.fifoMem
  swpTyp := h.swpTyp
  inTable := h.inTable

theorem setWidth_signExtend_byte (b : Byte) : (b.signExtend 32).setWidth 8 = b := by
  apply BitVec.eq_of_getLsbD_eq
  intro i hi
  rw [BitVec.getLsbD_setWidth, BitVec.getLsbD_signExtend]
  have h32 : i < 32 := by omega
  simp [hi, h32]

theorem pagingOffst_lt (addr : ℤ) : pagingOffst addr < 256 := BitField.extract_lt (by decide) _

theorem FrameInv.pgGetval (h : FrameInv nr ns ramExt swpExt c hand) (addr : ℤ) :
    FrameInv nr ns ramExt swpExt (c.pgGetval addr).2 hand ∧
      Keeps ramExt swpExt c (c.pgGetval addr).2 ∧ Pcb.Shuffles c (c.pgGetval addr).2 ∧
      ∀ b, (c.pgGetval addr).1 = some b → b = c.pageByte (pagingPgn addr) (pagingOffst addr) := by
  have hf := c.pgGetpage_cases (pagingPgn addr)
  obtain ⟨h1, hk1, hs1, hres⟩ := h.fault hf
  rcases hr : c.pgGetpage (pagingPgn addr) with ⟨_ | x, c1⟩
  · simp only [hr] at h1 hk1 hs1
    simp only [Pcb.pgGetval, hr]
    exact ⟨h1, hk1, hs1, by simp⟩
  · simp only [hr] at h1 hk1 hs1 hres
    simp only [Pcb.pgGetval, hr]
    obtain ⟨hrk, hx⟩ := hres x rfl
    have hoff := pagingOffst_lt addr
    have hlt : ((x * 256 + pagingOffst addr : ℕ) : ℤ) < c1.mram.maxsz := by
      have hb := c1.mram.mul_pagesz_le_maxsz (f := x)
        (by rw [h1.ramDim, hx]; exact h1.resident_lt hrk)
      omega
    have hk2 : Keeps ramExt swpExt c1
        { c1 with mram := (c1.mram.read ((x * 256 + pagingOffst addr : ℕ) : ℤ)).2 } :=
      Keeps.of_eq rfl (Memphy.read_storage _ _) fun _ => rfl
    refine ⟨h1.of_mram (Memphy.read_maxsz _ _) (Memphy.read_freeFpList _ _), hk1.trans hk2,
      ⟨hs1.mmap, hs1.symrgtbl, hs1.present⟩, ?_⟩
    intro b hcase
    cases hcase
    rw [setWidth_signExtend_byte, Memphy.read_value _ hlt, Option.getD_some,
      ← hk1.bytes _ ((hs1.present _).mp hrk.1) _ hoff, Pcb.pageByte_resident hrk, hx]

structure Writes (ramExt swpExt : ℕ → ℕ) (k off : ℕ) (value : Byte) (c c' : Pcb) : Prop where
  present : ∀ j, pagingPagePresent (c.mm.pgd j) → pagingPagePresent (c'.mm.pgd j)
  bytes : ∀ j, pagingPagePresent (c.mm.pgd j) → ∀ i < 256,
    c'.pageByte j i = if j = k ∧ i = off then value else c.pageByte j i
  ramOut : ∀ f, 0 < ramExt f → ∀ i < 256,
    c'.mram.storage (f * 256 + i) = c.mram.storage (f * 256 + i)
  swpOut : ∀ w, 0 < swpExt w → ∀ i < 256,
    (c'.mswp activeMswpId).storage (w * 256 + i) = (c.mswp activeMswpId).storage (w * 256 + i)

theorem FrameInv.writes {k off : ℕ} (h : FrameInv nr ns ramExt swpExt c hand)
    (hk : Resident (c.mm.pgd k)) (hoff : off < 256) (value : Byte) :
    Writes ramExt swpExt k off value c
      { c with mram := c.mram.write ((pagingFpn (c.mm.pgd k) * 256 + off : ℕ) : ℤ) value } := by
  have hown := h.ramOwn_pos hk
  have hsing := h.ram_single (pagingFpn (c.mm.pgd k)) (by omega)
  have hlt : ((pagingFpn (c.mm.pgd k) * 256 + off : ℕ) : ℤ) < c.mram.maxsz := by
    have hb := c.mram.mul_pagesz_le_maxsz (by rw [h.ramDim]; exact hsing.1)
    omega
  refine ⟨fun _ hj => hj, ?_, ?_, fun _ _ _ _ => rfl⟩
  · intro j hj i hi
    by_cases hsw : pagingPageSwapped (c.mm.pgd j)
    · have hjk : ¬ (j = k ∧ i = off) := by
        intro hconj
        obtain ⟨rfl, _⟩ := hconj
        exact hk.2 hsw
      simp only [Pcb.pageByte, if_pos hsw, if_neg hjk]
    · simp only [Pcb.pageByte, if_neg hsw]
      by_cases hjk : j = k
      · subst hjk
        rw [Memphy.write_storage _ hlt]
        by_cases hio : i = off
        · subst hio; simp
        · rw [Function.update_of_ne (by omega), if_neg fun hc => hio hc.2]
      · -- distinct resident pages of one table hold distinct frames
        have hne : pagingFpn (c.mm.pgd j) ≠ pagingFpn (c.mm.pgd k) := by
          intro he
          apply hjk
          have hle : c.mm.ramOwn (pagingFpn (c.mm.pgd k)) ≤ 1 := by omega
          refine Accounting.eq_of_sum_le_one hle (Finset.mem_range.mpr (h.inTable j hj))
            (Finset.mem_range.mpr (h.inTable k hk.1)) ?_ ?_
          · rw [ramHold_of_resident ⟨hj, hsw⟩, he, List.count_singleton_self]
            exact Nat.one_pos
          · rw [ramHold_of_resident hk, List.count_singleton_self]
            exact Nat.one_pos
        rw [Memphy.write_storage_of_ne _ (by omega), if_neg fun hc => hjk hc.1]
  · intro f hf i hi
    have hne : f ≠ pagingFpn (c.mm.pgd k) := by
      intro he
      subst he
      omega
    exact Memphy.write_storage_of_ne _ (by omega) _

theorem FrameInv.pgSetval (h : FrameInv nr ns ramExt swpExt c hand) (addr : ℤ) (value : Byte) :
    FrameInv nr ns ramExt swpExt (c.pgSetval addr value).2 hand ∧
      Pcb.Shuffles c (c.pgSetval addr value).2 ∧
      ((c.pgSetval addr value).1 = false → Keeps ramExt swpExt c (c.pgSetval addr value).2) ∧
      ((c.pgSetval addr value).1 = true →
        Writes ramExt swpExt (pagingPgn addr) (pagingOffst addr) value c
          (c.pgSetval addr value).2) := by
  have hf := c.pgGetpage_cases (pagingPgn addr)
  obtain ⟨h1, hk1, hs1, hres⟩ := h.fault hf
  rcases hr : c.pgGetpage (pagingPgn addr) with ⟨_ | x, c1⟩
  · simp only [hr] at h1 hk1 hs1
    simp only [Pcb.pgSetval, hr]
    exact ⟨h1, hs1, fun _ => hk1, by simp⟩
  · simp only [hr] at h1 hk1 hs1 hres
    simp only [Pcb.pgSetval, hr, setWidth_signExtend_byte]
    obtain ⟨hrk, rfl⟩ := hres x rfl
    have hw := h1.writes hrk (pagingOffst_lt addr) value
    refine ⟨h1.of_mram (Memphy.write_maxsz _ _ _) (Memphy.write_freeFpList _ _ _),
      ⟨hs1.mmap, hs1.symrgtbl, hs1.present⟩, by simp,
      fun _ => ⟨fun j hj => hw.present j (hk1.present j hj), ?_, ?_, ?_⟩⟩
    · intro j hj i hi
      rw [hw.bytes j (hk1.present j hj) i hi, hk1.bytes j hj i hi]
    · intro f hf i hi
      exact (hw.ramOut f hf i hi).trans (hk1.ramOut f hf i hi)
    · intro w hw' i hi
      exact (hw.swpOut w hw' i hi).trans (hk1.swpOut w hw' i hi)

end
end OSsim
