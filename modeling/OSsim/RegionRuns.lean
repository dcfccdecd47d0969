import OSsim.Regions
import OSsim.Runs

/-!
# Regions in every run

Disjointness of all regions of a process, and the exact condition under which no
virtual memory is lost.
-/

open scoped BigOperators
namespace OSsim
open Interval

def Mm.regions (mm : Mm) (v : VmArea) : List VmRg := List.ofFn mm.symrgtbl ++ v.vmFreergList

theorem regionCover_regions (mm : Mm) (v : VmArea) (a : ℕ) :
    regionCover (mm.regions v) a = mm.addressCount v a := by
  have happ : ∀ l : List VmRg, regionCover (l ++ v.vmFreergList) a =
      (l.map fun r => r.ind a).sum + regionCover v.vmFreergList a := by
    intro l
    induction l with
    | nil => simp
    | cons r l ih =>
      rw [List.cons_append, regionCover_cons, ih, List.map_cons, List.sum_cons]
      omega
  rw [Mm.regions, happ, List.map_ofFn, List.sum_ofFn, Mm.addressCount, Nat.add_comm]
  rfl

/-- No address is counted twice, and none at or beyond the end of the area. -/
structure Packed (mm : Mm) (v : VmArea) : Prop where
  space : Space mm v
  count_le : ∀ a, mm.addressCount v a ≤ ind 0 v.vmEnd a

theorem packed_initMm : Packed initMm ⟨0, 0, 0, 0, [⟨0, 0⟩]⟩ := by
  refine ⟨space_initMm, fun a => ?_⟩
  have hz : (⟨0, 0⟩ : VmRg).ind a = 0 := ind_empty le_rfl a
  simp [Mm.addressCount, initMm, hz]

section
variable {c : Pcb} {v : VmArea}

theorem Packed.exec (h : Packed c.mm v) (i : Instr) : ∃ v', Packed (c.exec i).2.mm v' := by
  obtain ⟨v', hs, hle, hacct⟩ := (h.space.exec_cases i).accounts h.space
  refine ⟨v', hs, fun a => ?_⟩
  have hc := h.count_le a
  have hsplit := ind_split (Nat.zero_le v.vmEnd) hle a
  have ha := hacct a
  omega

theorem Packed.pairwise {mm : Mm} (h : Packed mm v) : (mm.regions v).Pairwise RegionsDisjoint := by
  apply regions_pairwise
  intro a
  rw [regionCover_regions]
  exact (h.count_le a).trans (ind_le_one _ _ a)

theorem Packed.inside {mm : Mm} (h : Packed mm v) {r : VmRg} (hr : r ∈ mm.regions v)
    (hne : r.rgStart < r.rgEnd) : v.vmStart ≤ r.rgStart ∧ r.rgEnd ≤ v.vmEnd := by
  refine ⟨by rw [h.space.vmStart]; exact Nat.zero_le _, ?_⟩
  -- the last address of the region is counted, so it lies in the area
  have hpos : 0 < regionCover (mm.regions v) (r.rgEnd - 1) :=
    regionCover_pos.mpr ⟨r, hr, by omega, by omega⟩
  rw [regionCover_regions] at hpos
  have hin := ind_pos.mp (hpos.trans_le (h.count_le _))
  omega

end

namespace Kernel
variable {ι : Type*} [DecidableEq ι] {memramsz : ℤ} {memswpsz : ℕ → ℤ}
  {ops : List (Op ι)} {s : Kernel ι} {p : ι} {mm : Mm}

theorem all_packed_step (s : Kernel ι) (op : Op ι) (s' : Kernel ι)
    (hs : s.All fun mm => ∃ v, Packed mm v) (hn : Next s op s') :
    s'.All fun mm => ∃ v, Packed mm v := by
  refine all_step ⟨_, packed_initMm⟩ ?_ s op s' hs hn
  intro c i hconj
  obtain ⟨v, h⟩ := hconj
  exact h.exec i

theorem run_regions_disjoint (hrun : Run Next (boot memramsz memswpsz) ops s)
    (hp : s.mm p = some mm) :
    ∃ v, mm.mmap = [v] ∧ v.vmId = 0 ∧ (mm.regions v).Pairwise RegionsDisjoint ∧
      (∀ r ∈ mm.regions v, r.rgStart < r.rgEnd → v.vmStart ≤ r.rgStart ∧ r.rgEnd ≤ v.vmEnd) ∧
      v.vmEnd = v.sbrk ∧ 256 ∣ v.vmEnd ∧
      ∀ size regIndex, (s.step (.exec p (.alloc size regIndex))).1 = .done →
        ∃ mm' i rg, (s.step (.exec p (.alloc size regIndex))).2.mm p = some mm' ∧
          symIndex regIndex.toInt = some i ∧ mm'.symrgtbl = Function.update mm.symrgtbl i rg ∧
          (rg.rgEnd : ℤ) = rg.rgStart + size.toInt ∧
          ∀ a, rg.rgStart ≤ a → a < rg.rgEnd →
            (∃ r ∈ v.vmFreergList, r.rgStart ≤ a ∧ a < r.rgEnd) ∨ v.vmEnd ≤ a := by
  obtain ⟨v, h⟩ := hrun.invariant _ (all_boot _ _ _) all_packed_step p mm hp
  refine ⟨v, h.space.mmap, h.space.vmId, h.pairwise, fun r hr hne => h.inside hr hne,
    h.space.sbrk.symm, h.space.aligned, ?_⟩
  intro size regIndex hdone
  rw [step_exec hp] at hdone ⊢
  have hs : Space (s.caller mm).mm v := h.space
  have he := hs.exec_cases (.alloc size regIndex)
  rw [show (_ : Outcome × Pcb).1 = .done from hdone] at he
  obtain ⟨i, rg, hi, _, hsym, hlen, hfree⟩ := he.alloc_done hs
  exact ⟨_, i, rg, commit_mm_self _ _ _, hi, hsym, hlen, hfree⟩

theorem run_regions_disjoint_alloc :
    ∃ (s : Kernel Unit) (mm : Mm) (v : VmArea),
      Run Next (boot 512 fun _ => 256) [.exec () (.alloc 300 0), .create ()] s ∧
      s.mm () = some mm ∧ mm.mmap = [v] ∧ v.vmEnd = 512 ∧
      (mm.regions v).Pairwise RegionsDisjoint := by
  have hrun := run_foldr (boot 512 fun _ => 256) [Op.exec () (.alloc 300 0), .create ()]
  generalize hs : List.foldr (fun op (s : Kernel Unit) => (s.step op).2) (boot 512 fun _ => 256)
    [Op.exec () (.alloc 300 0), .create ()] = s at hrun
  have hends : (s.mm ()).map (fun mm => mm.mmap.map VmArea.vmEnd) = some [512] := by
    rw [← hs]
    decide +kernel
  obtain ⟨mm, hp, hm⟩ := Option.map_eq_some_iff.mp hends
  obtain ⟨v, hv, _, hd, _⟩ := run_regions_disjoint hrun hp
  rw [hv] at hm
  exact ⟨s, mm, v, hrun, hp, hv, by simpa using hm, hd⟩

end Kernel

def Mm.NoLeak (mm : Mm) : Prop :=
  ∀ v ∈ mm.mmap, ∀ a, v.vmStart ≤ a → a < v.vmEnd →
    ∃ r ∈ mm.regions v, r.rgStart ≤ a ∧ a < r.rgEnd

section
variable {c c' : Pcb} {v : VmArea}

theorem Packed.noLeak_iff {mm : Mm} (h : Packed mm v) :
    mm.NoLeak ↔ ∀ a, mm.addressCount v a = ind 0 v.vmEnd a := by
  have hz := h.space.vmStart
  simp only [Mm.NoLeak, h.space.mmap, List.mem_singleton, forall_eq, ← regionCover_pos,
    regionCover_regions, hz]
  constructor
  · intro hall a
    have hle := h.count_le a
    by_cases ha : a < v.vmEnd
    · have hpos := hall a (Nat.zero_le a) ha
      have h1 := ind_le_one 0 v.vmEnd a
      omega
    · have h0 : ind 0 v.vmEnd a = 0 := ind_eq_zero.mpr fun hx => ha hx.2
      omega
  · intro hall a _ ha
    rw [hall a]
    exact ind_pos.mpr ⟨Nat.zero_le a, ha⟩

theorem Mm.dropped_eq_zero_iff (mm : Mm) (i : Instr) (o : Outcome) :
    (∀ a, mm.dropped a i o = 0) ↔
      ∀ size regIndex j, i = .alloc size regIndex → o = .done → symIndex regIndex.toInt = some j →
        (mm.symrgtbl j).rgEnd ≤ (mm.symrgtbl j).rgStart := by
  constructor
  · intro hall size regIndex j heq heq2 hj
    subst heq
    subst heq2
    by_contra hne
    have hd := hall (mm.symrgtbl j).rgStart
    simp only [Mm.dropped, hj, Option.elim_some] at hd
    exact ind_eq_zero.mp hd ⟨le_rfl, not_le.mp hne⟩
  · intro hall a
    unfold Mm.dropped
    split
    · next size regIndex =>
      rcases hj : symIndex regIndex.toInt with _ | j
      · rfl
      · exact ind_empty (hall size regIndex j rfl rfl hj) a
    · rfl

theorem Packed.noLeak_exec (h : Packed c.mm v) (hfull : c.mm.NoLeak) (i : Instr) :
    (c.exec i).2.mm.NoLeak ↔ ∀ a, c.mm.dropped a i (c.exec i).1 = 0 := by
  obtain ⟨v', hs, hle, hacct⟩ := (h.space.exec_cases i).accounts h.space
  rw [h.noLeak_iff] at hfull
  have hsplit := ind_split (Nat.zero_le v.vmEnd) hle
  have h' : Packed (c.exec i).2.mm v' := by
    refine ⟨hs, fun a => ?_⟩
    have ha := hacct a
    have hc := h.count_le a
    have hsp := hsplit a
    omega
  rw [h'.noLeak_iff]
  apply forall_congr'
  intro a
  have ha := hacct a
  have hc := hfull a
  have hsp := hsplit a
  omega

end

namespace Kernel
variable {ι : Type*} [DecidableEq ι] {memramsz : ℤ} {memswpsz : ℕ → ℤ}
  {ops : List (Op ι)} {s : Kernel ι} {p : ι} {mm : Mm}

/-- The next operation is an ALLOC that will be served for a symbol that still
holds a region. -/
def Reuses (s : Kernel ι) (op : Op ι) : Prop :=
  ∃ p mm v size regIndex j, op = .exec p (.alloc size regIndex) ∧ s.mm p = some mm ∧
    mm.mmap = [v] ∧ symIndex regIndex.toInt = some j ∧
    (mm.symrgtbl j).rgStart < (mm.symrgtbl j).rgEnd ∧
    0 < size.toInt ∧ (s.caller mm).Serves v size.toInt

omit [DecidableEq ι] in
theorem dropped_iff_reuses {v : VmArea} (hp : s.mm p = some mm) (h : Packed mm v) (i : Instr) :
    (∀ a, mm.dropped a i ((s.caller mm).exec i).1 = 0) ↔ ¬ s.Reuses (.exec p i) := by
  have hs : Space (s.caller mm).mm v := h.space
  rw [Mm.dropped_eq_zero_iff]
  constructor
  · intro hall hconj
    obtain ⟨q, mm', v', size, regIndex, j, hop, hq, hv', hj, hne, hpos, hserve⟩ := hconj
    obtain ⟨rfl, rfl⟩ := Op.exec.inj hop
    rw [hp, Option.some.injEq] at hq
    subst hq
    rw [h.space.mmap, List.singleton_inj] at hv'
    subst hv'
    have hdone := (hs.alloc_done_iff size regIndex).mpr ⟨by rw [hj]; rfl, hpos, hserve⟩
    exact absurd (hall size regIndex j rfl hdone hj) (not_le.mpr hne)
  · intro hno size regIndex j hi hdone hj
    subst hi
    by_contra hne
    obtain ⟨_, hpos, hserve⟩ := (hs.alloc_done_iff size regIndex).mp hdone
    exact hno ⟨p, mm, v, size, regIndex, j, rfl, hp, h.space.mmap, hj, not_le.mp hne, hpos, hserve⟩

theorem initMm_noLeak : initMm.NoLeak := by
  intro v hv a _ ha
  simp only [initMm, List.mem_singleton] at hv
  subst hv
  exact absurd ha (Nat.not_lt_zero a)

theorem all_noLeak_step (h : s.All fun mm => ∃ v, Packed mm v) (hfull : s.All Mm.NoLeak)
    (op : Op ι) : (s.step op).2.All Mm.NoLeak ↔ ¬ s.Reuses op := by
  constructor
  · intro hall hre
    obtain ⟨p, mm, v, size, regIndex, j, rfl, hp, hrest⟩ := id hre
    obtain ⟨v, hv⟩ := h p mm hp
    rw [step_exec hp] at hall
    have hnl := hall p _ (commit_mm_self _ _ _)
    have hz := (Packed.noLeak_exec (c := s.caller mm) hv (hfull p mm hp) _).mp hnl
    exact (dropped_iff_reuses hp hv _).mp hz hre
  · intro hno q mm' hq
    rcases live_after (s.step_cases op) hq with hq' | ⟨_, rfl⟩ | ⟨mm, i, rfl, hq', rfl⟩
    · exact hfull q mm' hq'
    · exact initMm_noLeak
    · obtain ⟨v, hv⟩ := h q mm hq'
      exact (Packed.noLeak_exec (c := s.caller mm) hv (hfull q mm hq') i).mpr
        ((dropped_iff_reuses hq' hv i).mpr hno)

def freeAll (s : Kernel ι) (p : ι) : Kernel ι :=
  (List.range pagingMaxSymtblSz).foldl
    (fun s r => (s.step (.exec p (.free (BitVec.ofNat 32 r)))).2) s

def FreesWhole (s : Kernel ι) (p : ι) (mm : Mm) : Prop :=
  ∃ mm', (s.freeAll p).mm p = some mm' ∧ ∀ v ∈ mm.mmap, ∀ a, v.vmStart ≤ a → a < v.vmEnd →
    ∃ v' ∈ mm'.mmap, ∃ r ∈ v'.vmFreergList, r.rgStart ≤ a ∧ a < r.rgEnd

theorem symIndex_ofNat {r : ℕ} (hr : r < pagingMaxSymtblSz) :
    symIndex (BitVec.ofNat 32 r).toInt = some ⟨r, hr⟩ := by
  have hr' : r < 30 := hr
  have he : (BitVec.ofNat 32 r).toInt = (r : ℤ) := toInt_ofNat_word (by omega)
  have hb : (r : ℤ) < (pagingMaxSymtblSz : ℤ) := by exact_mod_cast hr
  simp only [symIndex, he]
  rw [dif_pos ⟨by omega, hb⟩]
  simp

theorem exec_free {c : Pcb} {v : VmArea} (h : Space c.mm v) (regIndex : BitVec 32) :
    (∃ v', (c.exec (.free regIndex)).2.mm.mmap = [v'] ∧ v'.vmEnd = v.vmEnd) ∧
    ∀ j, symIndex regIndex.toInt = some j ∨ (c.mm.symrgtbl j).rgEnd ≤ (c.mm.symrgtbl j).rgStart →
      ((c.exec (.free regIndex)).2.mm.symrgtbl j).rgEnd ≤
        ((c.exec (.free regIndex)).2.mm.symrgtbl j).rgStart := by
  have he := h.exec_cases (.free regIndex)
  generalize (c.exec (.free regIndex)).1 = o, (c.exec (.free regIndex)).2 = c' at he ⊢
  generalize hinst : Instr.free regIndex = inst at he
  cases he with
  | placed => cases hinst
  | allocGrown => cases hinst
  | grown => cases hinst
  | reads => cases hinst
  | writes => cases hinst
  | outOfFrames hw =>
    subst hinst
    exact hw.elim
  | refused hr =>
    subst hinst
    refine ⟨⟨v, h.mmap, rfl⟩, fun j hj => ?_⟩
    rcases hj with hj | hj
    · exact hr j hj
    · exact hj
  | @freed _ i hi hne =>
    cases hinst
    refine ⟨⟨_, rfl, rfl⟩, fun j hj => ?_⟩
    simp only [Pcb.freed]
    by_cases hji : j = i
    · subst hji
      rw [Function.update_self]
    · rw [Function.update_of_ne hji]
      rcases hj with hj | hj
      · rw [hi, Option.some.injEq] at hj
        exact absurd hj.symm hji
      · exact hj

theorem freeAll_spec {v : VmArea} (hp : s.mm p = some mm) (h : Packed mm v) (hfull : mm.NoLeak)
    (l : List ℕ) (hl : ∀ r ∈ l, r < pagingMaxSymtblSz) :
    ∃ mm' v', (l.foldl (fun s r => (s.step (.exec p (.free (BitVec.ofNat 32 r)))).2) s).mm p =
        some mm' ∧ Packed mm' v' ∧ mm'.NoLeak ∧ v'.vmEnd = v.vmEnd ∧
      ∀ j : Fin pagingMaxSymtblSz,
        (j : ℕ) ∈ l ∨ (mm.symrgtbl j).rgEnd ≤ (mm.symrgtbl j).rgStart →
          (mm'.symrgtbl j).rgEnd ≤ (mm'.symrgtbl j).rgStart := by
  induction l generalizing s mm v with
  | nil =>
    refine ⟨mm, v, hp, h, hfull, rfl, fun j hj => ?_⟩
    exact hj.resolve_left List.not_mem_nil
  | cons r l ih =>
    have hidx := symIndex_ofNat (hl r List.mem_cons_self)
    obtain ⟨⟨v', hm', hend⟩, hempty⟩ :=
      exec_free (c := s.caller mm) h.space (BitVec.ofNat 32 r)
    obtain ⟨w, hw⟩ := Packed.exec (c := s.caller mm) h (.free (BitVec.ofNat 32 r))
    have hwv : w = v' := List.singleton_inj.mp (hw.space.mmap.symm.trans hm')
    subst hwv
    have hfull' := (Packed.noLeak_exec (c := s.caller mm) h hfull
      (.free (BitVec.ofNat 32 r))).mpr fun a => rfl
    rw [List.foldl_cons, step_exec hp]
    obtain ⟨mm', v'', hp', h', hf', hend', he'⟩ := ih (commit_mm_self _ _ _) hw hfull'
      fun x hx => hl x (List.mem_cons_of_mem r hx)
    refine ⟨mm', v'', hp', h', hf', hend'.trans hend, fun j hj => he' j ?_⟩
    rcases hj with hj | hj
    · rcases List.mem_cons.mp hj with hjr | hj
      · right
        apply hempty j
        left
        rw [hidx]
        exact congrArg some (Fin.ext hjr.symm)
      · exact Or.inl hj
    · exact Or.inr (hempty j (Or.inr hj))

theorem freesWhole {v : VmArea} (hp : s.mm p = some mm) (h : Packed mm v) (hfull : mm.NoLeak) :
    s.FreesWhole p mm := by
  obtain ⟨mm', v', hp', h', hf', hend, hempty⟩ := freeAll_spec hp h hfull
    (List.range pagingMaxSymtblSz) fun r hr => List.mem_range.mp hr
  have hv' : v' ∈ mm'.mmap := by
    rw [h'.space.mmap]
    exact List.mem_singleton_self _
  refine ⟨mm', hp', fun w hw a ha1 ha2 => ⟨v', hv', ?_⟩⟩
  rw [h.space.mmap, List.mem_singleton] at hw
  subst hw
  obtain ⟨r, hr, hra⟩ := hf' v' (by rw [h'.space.mmap]; exact List.mem_singleton_self _) a
    (by rw [h'.space.vmStart]; exact Nat.zero_le a) (by omega)
  rcases List.mem_append.mp hr with hr | hr
  · -- a symbol is empty by now and contains nothing
    obtain ⟨j, rfl⟩ := (List.mem_ofFn' _ _).mp hr
    have he := hempty j (Or.inl (List.mem_range.mpr j.isLt))
    omega
  · exact ⟨r, hr, hra⟩

/-- Every process accounts for all of its area and could free all of it. -/
def LosesNothing (s : Kernel ι) : Prop :=
  ∀ p mm, s.mm p = some mm → mm.NoLeak ∧ s.FreesWhole p mm

theorem losesNothing_iff (h : s.All fun mm => ∃ v, Packed mm v) :
    s.LosesNothing ↔ s.All Mm.NoLeak := by
  constructor
  · intro hl p mm hp
    exact (hl p mm hp).1
  · intro hl p mm hp
    obtain ⟨v, hv⟩ := h p mm hp
    exact ⟨hl p mm hp, freesWhole hp hv (hl p mm hp)⟩

/-- No memory is lost along a run exactly when no ALLOC of the run is served for a
symbol that still holds a region. -/
theorem run_losesNothing_iff (hrun : Run Next (boot memramsz memswpsz) ops s) :
    (∀ pre t, pre <:+ ops → Run Next (boot memramsz memswpsz) pre t → t.LosesNothing) ↔
      ∀ op pre t, op :: pre <:+ ops → Run Next (boot memramsz memswpsz) pre t →
        ¬ t.Reuses op := by
  refine hrun.along_iff next_unique (All fun mm => ∃ v, Packed mm v) LosesNothing Reuses
    (all_boot _ _ _) (fun q mm hq => by cases hq) all_packed_step ?_
  intro s op s' h hl hn
  rw [losesNothing_iff (all_packed_step s op s' h hn)]
  rw [losesNothing_iff h] at hl
  rw [Next] at hn
  subst hn
  exact all_noLeak_step h hl op

theorem run_losesNothing_free :
    ∃ s : Kernel Unit, Run Next (boot 512 fun _ => 256)
      [.exec () (.free 0), .exec () (.alloc 256 0), .create ()] s ∧ s.LosesNothing := by
  have hrun := run_foldr (boot 512 fun _ => 256)
    [Op.exec () (.free 0), .exec () (.alloc 256 0), .create ()]
  refine ⟨_, hrun, (run_losesNothing_iff hrun).mpr ?_ _ _ List.suffix_rfl hrun⟩
  intro op pre t hsuf ht hconj
  obtain ⟨p, mm, v, size, regIndex, j, hop, hp, _, _, hne, _⟩ := hconj
  rcases List.suffix_cons_iff.mp hsuf with he | hsuf
  · obtain ⟨rfl, -⟩ := List.cons.inj he
    cases hop
  rcases List.suffix_cons_iff.mp hsuf with he | hsuf
  · -- the ALLOC finds all symbols empty
    obtain ⟨-, rfl⟩ := List.cons.inj he
    rw [← (run_foldr (boot 512 fun _ => 256) [Op.create ()]).unique next_unique ht] at hp
    obtain rfl : initMm = mm := Option.some.inj hp
    exact absurd hne (Nat.lt_irrefl 0)
  rcases List.suffix_cons_iff.mp hsuf with he | hsuf
  · obtain ⟨rfl, -⟩ := List.cons.inj he
    cases hop
  · simp at hsuf

theorem realloc_leaks :
    ∃ (s : Kernel Unit) (mm : Mm), Run Next (boot 512 fun _ => 256)
      [.exec () (.alloc 256 0), .exec () (.alloc 256 0), .create ()] s ∧
        s.mm () = some mm ∧ ¬ mm.NoLeak := by
  have hrun := run_foldr (boot 512 fun _ => 256)
    [Op.exec () (.alloc 256 0), .exec () (.alloc 256 0), .create ()]
  generalize hs : List.foldr (fun op (s : Kernel Unit) => (s.step op).2) (boot 512 fun _ => 256)
    [Op.exec () (.alloc 256 0), .exec () (.alloc 256 0), .create ()] = s at hrun
  have hregions : (s.mm ()).map (fun mm => mm.mmap.map fun v =>
      (v.vmStart, v.vmEnd, (mm.regions v).any fun r => decide (r.rgStart ≤ 0 ∧ 0 < r.rgEnd))) =
        some [(0, 512, false)] := by
    rw [← hs]
    decide +kernel
  obtain ⟨mm, hp, hm⟩ := Option.map_eq_some_iff.mp hregions
  refine ⟨s, mm, hrun, hp, fun hno => ?_⟩
  obtain ⟨v, hv, hv'⟩ := List.map_eq_singleton_iff.mp hm
  simp only [Prod.mk.injEq] at hv'
  obtain ⟨hstart, hend, hany⟩ := hv'
  obtain ⟨r, hr, hra⟩ := hno v (by rw [hv]; exact List.mem_singleton_self v) 0 (by omega) (by omega)
  have := List.any_eq_false.mp hany r hr
  simp only [decide_eq_true_eq] at this
  exact this hra

end Kernel
end OSsim
