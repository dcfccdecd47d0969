import OSsim.Libmem

/-!
# What acquiring a frame can do

`grabFrame` takes a free frame of RAM, evicts the oldest page of the caller, or
fails. The three outcomes are stated once, and everything later in the development
about page faults and growth goes through them. None of them touches the areas or
the symbols of the caller, and as long as the replacement list names present pages
only, none of them changes which pages are present.
-/

namespace OSsim

def Resident (pte : Pte) : Prop := pagingPagePresent pte ∧ ¬ pagingPageSwapped pte

def Swapped (pte : Pte) : Prop := pagingPagePresent pte ∧ pagingPageSwapped pte

instance (pte : Pte) : Decidable (Resident pte) := inferInstanceAs (Decidable (_ ∧ _))
instance (pte : Pte) : Decidable (Swapped pte) := inferInstanceAs (Decidable (_ ∧ _))

@[simp] theorem resident_pteSetFpn (pte : Pte) (f : ℕ) : Resident (pteSetFpn pte f) :=
  ⟨pteSetFpn_present pte f, pteSetFpn_not_swapped pte f⟩

@[simp] theorem not_swapped_pteSetFpn (pte : Pte) (f : ℕ) : ¬ Swapped (pteSetFpn pte f) :=
  fun h => pteSetFpn_not_swapped pte f h.2

@[simp] theorem swapped_pteSetSwap (pte : Pte) (t o : ℕ) : Swapped (pteSetSwap pte t o) :=
  ⟨pteSetSwap_present pte t o, pteSetSwap_swapped pte t o⟩

@[simp] theorem not_resident_pteSetSwap (pte : Pte) (t o : ℕ) : ¬ Resident (pteSetSwap pte t o) :=
  fun h => h.2 (pteSetSwap_swapped pte t o)

@[simp] theorem not_present_zero : ¬ pagingPagePresent 0 := by decide

theorem findVictimPage_concat {mm : Mm} {l : List ℕ} {v : ℕ} (hf : mm.fifoPgn = l ++ [v]) :
    mm.findVictimPage = some (v, { mm with fifoPgn := l }) := by
  simp only [Mm.findVictimPage, hf, List.getLast?_append, List.getLast?_singleton,
    Option.some_or, List.dropLast_concat]

namespace Pcb
variable (c : Pcb)

def taken (rest : List ℕ) : Pcb := { c with mram := { c.mram with freeFpList := rest } }

def evicted (fifo : List ℕ) (v w : ℕ) (rest : List ℕ) : Pcb :=
  let m := swapCpPage c.mram (pagingFpn (c.mm.pgd v))
    { c.mswp activeMswpId with freeFpList := rest } w
  { mm := { c.mm with
      fifoPgn := fifo
      pgd := Function.update c.mm.pgd v (pteSetSwap (c.mm.pgd v) activeMswpId w) }
    mram := m.1
    mswp := Function.update c.mswp activeMswpId m.2 }

def requeued (fifo : List ℕ) : Pcb := { c with mm := { c.mm with fifoPgn := fifo } }

theorem swapOutPage_nil (hf : c.mm.fifoPgn = []) : c.swapOutPage = (none, c) := by
  simp only [swapOutPage, Mm.findVictimPage, hf, List.getLast?_nil]

theorem swapOutPage_full {l : List ℕ} {v : ℕ} (hf : c.mm.fifoPgn = l ++ [v])
    (hs : (c.mswp activeMswpId).freeFpList = []) :
    c.swapOutPage = (none, c.requeued (v :: l)) := by
  simp only [swapOutPage, findVictimPage_concat hf, Memphy.getFreefp, hs, requeued,
    Mm.enlistPgnNode]

theorem swapOutPage_evicts {l rest : List ℕ} {v w : ℕ} (hf : c.mm.fifoPgn = l ++ [v])
    (hs : (c.mswp activeMswpId).freeFpList = w :: rest) :
    c.swapOutPage = (some (pagingFpn (c.mm.pgd v)), c.evicted l v w rest) := by
  simp only [swapOutPage, findVictimPage_concat hf, Memphy.getFreefp, hs, evicted, mmSwapPage,
    Mm.setPte, Function.update_self, Function.update_idem]

inductive SwapOut (c : Pcb) : Option ℕ → Pcb → Prop
  | noVictim : c.mm.fifoPgn = [] → SwapOut c none c
  | full {l : List ℕ} {v : ℕ} : c.mm.fifoPgn = l ++ [v] →
      (c.mswp activeMswpId).freeFpList = [] → SwapOut c none (c.requeued (v :: l))
  | evicts {l rest : List ℕ} {v w : ℕ} : c.mm.fifoPgn = l ++ [v] →
      (c.mswp activeMswpId).freeFpList = w :: rest →
      SwapOut c (some (pagingFpn (c.mm.pgd v))) (c.evicted l v w rest)

theorem swapOutPage_cases : SwapOut c c.swapOutPage.1 c.swapOutPage.2 := by
  rcases List.eq_nil_or_concat c.mm.fifoPgn with hf | ⟨l, v, hf⟩
  · rw [c.swapOutPage_nil hf]
    exact .noVictim hf
  · rw [List.concat_eq_append] at hf
    cases hs : (c.mswp activeMswpId).freeFpList with
    | nil =>
      rw [c.swapOutPage_full hf hs]
      exact .full hf hs
    | cons w rest =>
      rw [c.swapOutPage_evicts hf hs]
      exact .evicts hf hs

inductive Stuck (c : Pcb) : Pcb → Prop
  | noVictim : c.mram.freeFpList = [] → c.mm.fifoPgn = [] → Stuck c c
  | swapFull {l : List ℕ} {v : ℕ} : c.mram.freeFpList = [] → c.mm.fifoPgn = l ++ [v] →
      (c.mswp activeMswpId).freeFpList = [] → Stuck c (c.requeued (v :: l))

inductive Grabbed (c : Pcb) : ℕ → Pcb → Prop
  | free {f : ℕ} {rest : List ℕ} : c.mram.freeFpList = f :: rest → Grabbed c f (c.taken rest)
  | evict {l rest : List ℕ} {v w : ℕ} : c.mram.freeFpList = [] → c.mm.fifoPgn = l ++ [v] →
      (c.mswp activeMswpId).freeFpList = w :: rest →
      Grabbed c (pagingFpn (c.mm.pgd v)) (c.evicted l v w rest)

theorem grabFrame_cases :
    (∃ c', c.grabFrame = (none, c') ∧ Stuck c c') ∨
      ∃ f c', c.grabFrame = (some f, c') ∧ Grabbed c f c' := by
  cases hm : c.mram.freeFpList with
  | cons f rest =>
    right
    refine ⟨f, c.taken rest, ?_, .free hm⟩
    simp only [grabFrame, Memphy.getFreefp, hm, taken]
  | nil =>
    have hg : c.grabFrame = c.swapOutPage := by
      simp only [grabFrame, Memphy.getFreefp, hm]
    rw [hg]
    have hout := c.swapOutPage_cases
    generalize c.swapOutPage = r at hout ⊢
    obtain ⟨o, c'⟩ := r
    cases hout with
    | noVictim hf => exact Or.inl ⟨_, rfl, .noVictim hm hf⟩
    | full hf hs => exact Or.inl ⟨_, rfl, .swapFull hm hf hs⟩
    | evicts hf hs => exact Or.inr ⟨_, _, rfl, .evict hm hf hs⟩

/-- Pages move between RAM and swap; the address space itself stays as it was. -/
structure Shuffles (c c' : Pcb) : Prop where
  mmap : c'.mm.mmap = c.mm.mmap
  symrgtbl : c'.mm.symrgtbl = c.mm.symrgtbl
  present : ∀ k, pagingPagePresent (c'.mm.pgd k) ↔ pagingPagePresent (c.mm.pgd k)

theorem Shuffles.refl : Shuffles c c := ⟨rfl, rfl, fun _ => Iff.rfl⟩

theorem Shuffles.trans {c c' c'' : Pcb} (h : Shuffles c c') (h' : Shuffles c' c'') :
    Shuffles c c'' :=
  ⟨h'.mmap.trans h.mmap, h'.symrgtbl.trans h.symrgtbl, fun k => (h'.present k).trans (h.present k)⟩

def FifoPresent (c : Pcb) : Prop := ∀ k ∈ c.mm.fifoPgn, pagingPagePresent (c.mm.pgd k)

def tokens (c : Pcb) : ℕ :=
  c.mram.freeFpList.length + (c.mswp activeMswpId).freeFpList.length

variable {c} {c' : Pcb} {f : ℕ}

theorem Stuck.shuffles (h : Stuck c c') : Shuffles c c' := by
  cases h with
  | noVictim => exact Shuffles.refl c
  | swapFull => exact ⟨rfl, rfl, fun _ => Iff.rfl⟩

theorem Stuck.fifoPresent (h : Stuck c c') (hp : FifoPresent c) : FifoPresent c' := by
  cases h with
  | noVictim => exact hp
  | swapFull _ hf _ =>
    intro k hk
    apply hp
    rw [hf]
    simpa [requeued, or_comm] using hk

theorem Stuck.tokens (h : Stuck c c') : c'.tokens = c.tokens := by
  cases h with
  | noVictim => rfl
  | swapFull => rfl

theorem present_update_swap {pgd : ℕ → Pte} {v : ℕ} (hv : pagingPagePresent (pgd v)) (t w k : ℕ) :
    pagingPagePresent (Function.update pgd v (pteSetSwap (pgd v) t w) k) ↔
      pagingPagePresent (pgd k) := by
  by_cases hk : k = v
  · subst hk; simp [hv]
  · rw [Function.update_of_ne hk]

theorem Grabbed.shuffles (h : Grabbed c f c') (hp : FifoPresent c) : Shuffles c c' := by
  cases h with
  | free => exact ⟨rfl, rfl, fun _ => Iff.rfl⟩
  | evict _ hf _ =>
    exact ⟨rfl, rfl, present_update_swap (hp _ (by rw [hf]; simp)) _ _⟩

theorem Grabbed.fifoPresent (h : Grabbed c f c') (hp : FifoPresent c) : FifoPresent c' := by
  cases h with
  | free => exact hp
  | @evict l rest v w _ hf _ =>
    intro k hk
    have hmem : ∀ x ∈ l ++ [v], pagingPagePresent (c.mm.pgd x) := fun x hx => hp x (hf ▸ hx)
    exact (present_update_swap (hmem v (by simp)) _ _ k).mpr
      (hmem k (List.mem_append_left _ hk))

theorem Grabbed.tokens (h : Grabbed c f c') : c'.tokens + 1 = c.tokens := by
  cases h with
  | free hm =>
    simp only [Pcb.tokens, taken, hm, List.length_cons]
    omega
  | evict hm hf hs =>
    simp only [Pcb.tokens, evicted, Function.update_self, swapCpPage_fst_freeFpList,
      swapCpPage_snd_freeFpList, hm, hs, List.length_cons]
    omega

/-- Frames the caller can still acquire: the free ones, and one for each of its
resident pages as long as swap has room. -/
def supply (c : Pcb) : ℕ :=
  c.mram.freeFpList.length + min c.mm.fifoPgn.length (c.mswp activeMswpId).freeFpList.length

theorem Stuck.supply (h : Stuck c c') : c.supply = 0 := by
  cases h with
  | noVictim hm hf => simp [Pcb.supply, hm, hf]
  | swapFull hm _ hs => simp [Pcb.supply, hm, hs]

theorem Grabbed.supply (h : Grabbed c f c') : c'.supply + 1 = c.supply := by
  cases h with
  | free hm =>
    simp only [Pcb.supply, taken, hm, List.length_cons]
    omega
  | evict hm hf hs =>
    simp only [Pcb.supply, evicted, Function.update_self, swapCpPage_fst_freeFpList,
      swapCpPage_snd_freeFpList, hm, hf, hs, List.length_append, List.length_cons, List.length_nil]
    omega

theorem allocPagesLoop_isSome (n : ℕ) (l : List ℕ) (c : Pcb) :
    (allocPagesLoop n l c).1.isSome ↔ n ≤ c.supply := by
  induction n generalizing l c with
  | zero => simp [allocPagesLoop]
  | succ n ih =>
    rcases c.grabFrame_cases with ⟨c1, hg, hst⟩ | ⟨f, c1, hg, hgr⟩
    · simp [allocPagesLoop, hg, hst.supply]
    · have hs := hgr.supply
      simp only [allocPagesLoop, hg]
      rw [ih]
      omega

end Pcb

def Mm.mapPage (mm : Mm) (k f : ℕ) : Mm :=
  (mm.setPte k (pteSetFpn (mm.pgd k) f)).enlistPgnNode k

theorem vmapLoop_cons {pgn pgit : ℕ} {pgnum : ℤ} (hlt : (pgit : ℤ) < pgnum) (f : ℕ) (fs : List ℕ)
    (mm : Mm) :
    vmapLoop pgn pgnum pgit (f :: fs) mm =
      vmapLoop pgn pgnum (pgit + 1) fs (mm.mapPage (pgn + pgit) f) := by
  rw [vmapLoop, if_pos hlt]
  rfl

theorem mapPage_present (mm : Mm) (k f j : ℕ) :
    pagingPagePresent ((mm.mapPage k f).pgd j) ↔ pagingPagePresent (mm.pgd j) ∨ j = k := by
  simp only [Mm.mapPage, Mm.setPte, Mm.enlistPgnNode]
  by_cases hj : j = k
  · subst hj; simp
  · rw [Function.update_of_ne hj]
    simp [hj]

section Vmap
variable {pgn : ℕ} {pgnum : ℤ}

theorem vmapLoop_frame (pgn : ℕ) (pgnum : ℤ) (pgit : ℕ) (fs : List ℕ) (mm : Mm) :
    (vmapLoop pgn pgnum pgit fs mm).mmap = mm.mmap ∧
      (vmapLoop pgn pgnum pgit fs mm).symrgtbl = mm.symrgtbl := by
  induction fs generalizing pgit mm with
  | nil => exact ⟨rfl, rfl⟩
  | cons f fs ih =>
    rw [vmapLoop]
    split_ifs
    · exact ih _ _
    · exact ⟨rfl, rfl⟩

theorem vmapLoop_present (pgn : ℕ) {pgit : ℕ} {fs : List ℕ}
    (hle : ((pgit + fs.length : ℕ) : ℤ) ≤ pgnum) (mm : Mm) (k : ℕ) :
    pagingPagePresent ((vmapLoop pgn pgnum pgit fs mm).pgd k) ↔
      pagingPagePresent (mm.pgd k) ∨ (pgn + pgit ≤ k ∧ k < pgn + pgit + fs.length) := by
  induction fs generalizing pgit mm with
  | nil =>
    simp only [vmapLoop, List.length_nil]
    constructor
    · exact Or.inl
    · intro hor
      rcases hor with hk | hk
      · exact hk
      · omega
  | cons f fs ih =>
    rw [List.length_cons] at hle
    rw [vmapLoop_cons (by omega), ih (by omega), mapPage_present, List.length_cons, or_assoc]
    apply or_congr_right
    omega

end Vmap

def Pcb.swappedIn (c : Pcb) (pte : Pte) (k f : ℕ) : Pcb :=
  let m := swapCpPage (c.mswp (pagingPteSwptyp pte)) (pagingPteSwp pte) c.mram f
  { mm := c.mm.mapPage k f
    mram := m.2
    mswp := Function.update c.mswp (pagingPteSwptyp pte) (m.1.putFreefp (pagingPteSwp pte)) }

namespace Pcb
variable {c c' : Pcb} {k f : ℕ}

inductive Fault (c : Pcb) (k : ℕ) : Option ℕ → Pcb → Prop
  | unmapped : pagingMaxPgn ≤ k ∨ ¬ pagingPagePresent (c.mm.pgd k) → Fault c k none c
  | resident : k < pagingMaxPgn → Resident (c.mm.pgd k) →
      Fault c k (some (pagingFpn (c.mm.pgd k))) c
  | stuck {c' : Pcb} : k < pagingMaxPgn → Swapped (c.mm.pgd k) → Stuck c c' → Fault c k none c'
  | loaded {c' : Pcb} {f : ℕ} : k < pagingMaxPgn → Swapped (c.mm.pgd k) → Grabbed c f c' →
      Fault c k (some (pagingFpn (pteSetFpn (c'.mm.pgd k) f))) (c'.swappedIn (c.mm.pgd k) k f)

theorem pgGetpage_loads (hk : k < pagingMaxPgn) (hsw : Swapped (c.mm.pgd k))
    (hg : c.grabFrame = (some f, c')) :
    c.pgGetpage k =
      (some (pagingFpn (pteSetFpn (c'.mm.pgd k) f)), c'.swappedIn (c.mm.pgd k) k f) := by
  simp only [pgGetpage, if_neg (not_le.mpr hk), not_not.mpr hsw.1, if_false, if_pos hsw.2, hg,
    Mm.setPte, Function.update_self]
  rfl

theorem pgGetpage_stuck (hk : k < pagingMaxPgn) (hsw : Swapped (c.mm.pgd k))
    (hg : c.grabFrame = (none, c')) : c.pgGetpage k = (none, c') := by
  simp only [pgGetpage, if_neg (not_le.mpr hk), not_not.mpr hsw.1, if_false, if_pos hsw.2, hg]

theorem pgGetpage_cases (c : Pcb) (k : ℕ) :
    Fault c k (c.pgGetpage k).1 (c.pgGetpage k).2 := by
  by_cases hk : pagingMaxPgn ≤ k
  · simp only [pgGetpage, if_pos hk]
    exact .unmapped (Or.inl hk)
  by_cases hp : pagingPagePresent (c.mm.pgd k)
  swap
  · simp only [pgGetpage, if_neg hk, if_pos hp]
    exact .unmapped (Or.inr hp)
  by_cases hsw : pagingPageSwapped (c.mm.pgd k)
  swap
  · simp only [pgGetpage, if_neg hk, if_neg hsw, not_not.mpr hp, if_false]
    exact .resident (by omega) ⟨hp, hsw⟩
  rcases c.grabFrame_cases with ⟨c1, hg, hst⟩ | ⟨f, c1, hg, hgr⟩
  · rw [pgGetpage_stuck (not_le.mp hk) ⟨hp, hsw⟩ hg]
    exact .stuck (by omega) ⟨hp, hsw⟩ hst
  · rw [pgGetpage_loads (not_le.mp hk) ⟨hp, hsw⟩ hg]
    exact .loaded (by omega) ⟨hp, hsw⟩ hgr

end Pcb
end OSsim
