import OSsim.FrameRuns
import OSsim.Runs

/-!
# No function looks at the bytes it moves

Two states are alike up to a relation on bytes when they have the same tables, free
lists and cursors, and bytes so related at every place of their devices. No branch of
the source depends on a stored byte, so from alike states every call takes the same way,
reports the same status and leaves alike states. A READ returns related bytes.
-/

namespace OSsim

/-- Byte by byte related contents, everything else equal. -/
structure Memphy.Alike (R : Byte → Byte → Prop) (m m' : Memphy) : Prop where
  storage : ∀ a, R (m.storage a) (m'.storage a)
  maxsz : m'.maxsz = m.maxsz
  rdmflg : m'.rdmflg = m.rdmflg
  cursor : m'.cursor = m.cursor
  freeFpList : m'.freeFpList = m.freeFpList

structure Pcb.Alike (R : Byte → Byte → Prop) (c c' : Pcb) : Prop where
  mm : c'.mm = c.mm
  mram : Memphy.Alike R c.mram c'.mram
  mswp : ∀ i, Memphy.Alike R (c.mswp i) (c'.mswp i)

/-- The same answer and alike states. -/
structure Answers {α : Type*} (R : Byte → Byte → Prop) (r r' : α × Pcb) : Prop where
  answer : r'.1 = r.1
  state : Pcb.Alike R r.2 r'.2

variable {R : Byte → Byte → Prop}

theorem Answers.cases {α : Type*} {r r' : Option α × Pcb} (h : Answers R r r') :
    (∃ c c', r = (none, c) ∧ r' = (none, c') ∧ Pcb.Alike R c c') ∨
      ∃ a c c', r = (some a, c) ∧ r' = (some a, c') ∧ Pcb.Alike R c c' := by
  obtain ⟨_ | a, c⟩ := r
  · exact Or.inl ⟨c, r'.2, rfl, Prod.ext h.answer rfl, h.state⟩
  · exact Or.inr ⟨a, c, r'.2, rfl, Prod.ext h.answer rfl, h.state⟩

namespace Memphy.Alike
variable {m m' : Memphy}

theorem refl (hR : ∀ b, R b b) (m : Memphy) : Alike R m m := ⟨fun _ => hR _, rfl, rfl, rfl, rfl⟩

theorem mvCsr (h : Alike R m m') (addr : ℤ) : Alike R (m.mvCsr addr) (m'.mvCsr addr) := by
  refine ⟨h.storage, h.maxsz, h.rdmflg, ?_, h.freeFpList⟩
  simp only [Memphy.mvCsr, h.maxsz]

theorem read (h : Alike R m m') (addr : ℤ) :
    Option.Rel R (m.read addr).1 (m'.read addr).1 ∧ Alike R (m.read addr).2 (m'.read addr).2 := by
  simp only [Memphy.read, Memphy.seqRead, h.maxsz, h.rdmflg]
  split_ifs
  · exact ⟨.none, h⟩
  · exact ⟨.some (h.storage _), h⟩
  · exact ⟨.some (h.storage _), h.mvCsr addr⟩

theorem update (h : Alike R m m') {b b' : Byte} (hb : R b b') (n : ℕ) :
    Alike R { m with storage := Function.update m.storage n b }
      { m' with storage := Function.update m'.storage n b' } := by
  refine ⟨fun a => ?_, h.maxsz, h.rdmflg, h.cursor, h.freeFpList⟩
  by_cases ha : a = n
  · subst ha
    simpa using hb
  · simpa only [Function.update_of_ne ha] using h.storage a

theorem write (h : Alike R m m') (addr : ℤ) {b b' : Byte} (hb : R b b') :
    Alike R (m.write addr b) (m'.write addr b') := by
  simp only [Memphy.write, Memphy.seqWrite, h.maxsz, h.rdmflg]
  split_ifs
  · exact h
  · simpa only [h.maxsz, h.rdmflg] using h.update hb addr.toNat
  · simpa only [Memphy.mvCsr, h.maxsz, h.rdmflg] using (h.mvCsr addr).update hb addr.toNat

theorem relist (h : Alike R m m') (l : List ℕ) :
    Alike R { m with freeFpList := l } { m' with freeFpList := l } :=
  ⟨h.storage, h.maxsz, h.rdmflg, h.cursor, rfl⟩

theorem putFreefp (h : Alike R m m') (fpn : ℕ) :
    Alike R (m.putFreefp fpn) (m'.putFreefp fpn) :=
  ⟨h.storage, h.maxsz, h.rdmflg, h.cursor, congrArg (List.cons fpn) h.freeFpList⟩

theorem putFreefps (h : Alike R m m') (l : List ℕ) :
    Alike R (l.foldl Memphy.putFreefp m) (l.foldl Memphy.putFreefp m') := by
  induction l generalizing m m' with
  | nil => exact h
  | cons f l ih => exact ih (h.putFreefp f)

end Memphy.Alike

theorem rel_getD (hR : ∀ b, R b b) {o o' : Option Byte} (h : Option.Rel R o o') :
    R (o.getD 0) (o'.getD 0) := by
  cases h with
  | some hb => exact hb
  | none => exact hR 0

section Copy
variable {src src' dst dst' : Memphy} (hR : ∀ b, R b b) (hs : Memphy.Alike R src src')
  (hd : Memphy.Alike R dst dst')
include hR hs hd

theorem swapCpPage_alike (f g : ℕ) :
    Memphy.Alike R (swapCpPage src f dst g).1 (swapCpPage src' f dst' g).1 ∧
      Memphy.Alike R (swapCpPage src f dst g).2 (swapCpPage src' f dst' g).2 := by
  simp only [swapCpPage]
  induction List.range pagingPagesz generalizing src src' dst dst' with
  | nil => exact ⟨hs, hd⟩
  | cons i l ih =>
    have hr := hs.read ((f * pagingPagesz + i : ℕ) : ℤ)
    exact ih hr.2 (hd.write _ (rel_getD hR hr.1))

end Copy

theorem alike_update {d d' : ℕ → Memphy} (h : ∀ i, Memphy.Alike R (d i) (d' i)) {m m' : Memphy}
    (hm : Memphy.Alike R m m') (k i : ℕ) :
    Memphy.Alike R (Function.update d k m i) (Function.update d' k m' i) := by
  by_cases hi : i = k
  · subst hi
    simpa using hm
  · simpa only [Function.update_of_ne hi] using h i

namespace Pcb.Alike
variable {c c' : Pcb} (hR : ∀ b, R b b) (h : Alike R c c')
include h

theorem withMm (mm : Mm) : Alike R { c with mm := mm } { c' with mm := mm } :=
  ⟨rfl, h.mram, h.mswp⟩

include hR in
theorem evicted (l : List ℕ) (v w : ℕ) (rest : List ℕ) :
    Alike R (c.evicted l v w rest) (c'.evicted l v w rest) := by
  have hm := swapCpPage_alike hR h.mram ((h.mswp activeMswpId).relist rest)
    (pagingFpn (c.mm.pgd v)) w
  constructor
  · simp only [Pcb.evicted, h.mm]
  · simpa only [Pcb.evicted, h.mm] using hm.1
  · simpa only [Pcb.evicted, h.mm] using alike_update h.mswp hm.2 activeMswpId

include hR in
theorem grabFrame : Answers R c.grabFrame c'.grabFrame := by
  rcases hm : c.mram.freeFpList with _ | ⟨f, rest⟩
  swap
  · have hm' : c'.mram.freeFpList = f :: rest := by rw [h.mram.freeFpList, hm]
    simp only [Pcb.grabFrame, Memphy.getFreefp, hm, hm']
    exact ⟨rfl, h.mm, h.mram.relist rest, h.mswp⟩
  have hm' : c'.mram.freeFpList = [] := by rw [h.mram.freeFpList, hm]
  simp only [Pcb.grabFrame, Memphy.getFreefp, hm, hm']
  rcases List.eq_nil_or_concat c.mm.fifoPgn with hf | ⟨l, v, hf⟩
  · have hf' : c'.mm.fifoPgn = [] := by rw [h.mm, hf]
    rw [c.swapOutPage_nil hf, c'.swapOutPage_nil hf']
    exact ⟨rfl, h⟩
  rw [List.concat_eq_append] at hf
  have hf' : c'.mm.fifoPgn = l ++ [v] := by rw [h.mm, hf]
  rcases hs : (c.mswp activeMswpId).freeFpList with _ | ⟨w, rest⟩
  · have hs' : (c'.mswp activeMswpId).freeFpList = [] := by
      rw [(h.mswp activeMswpId).freeFpList, hs]
    rw [c.swapOutPage_full hf hs, c'.swapOutPage_full hf' hs']
    refine ⟨rfl, ?_, h.mram, h.mswp⟩
    simp only [requeued, h.mm]
  · have hs' : (c'.mswp activeMswpId).freeFpList = w :: rest := by
      rw [(h.mswp activeMswpId).freeFpList, hs]
    rw [c.swapOutPage_evicts hf hs, c'.swapOutPage_evicts hf' hs']
    exact ⟨by rw [h.mm], h.evicted hR l v w rest⟩

include hR in
theorem swappedIn (pte : Pte) (k f : ℕ) : Alike R (c.swappedIn pte k f) (c'.swappedIn pte k f) := by
  have hm := swapCpPage_alike hR (h.mswp (pagingPteSwptyp pte)) h.mram (pagingPteSwp pte) f
  constructor
  · simp only [Pcb.swappedIn, h.mm]
  · simpa only [Pcb.swappedIn] using hm.2
  · simpa only [Pcb.swappedIn] using alike_update h.mswp (hm.1.putFreefp _) _

include hR in
theorem pgGetpage (k : ℕ) : Answers R (c.pgGetpage k) (c'.pgGetpage k) := by
  by_cases hk : pagingMaxPgn ≤ k
  · simp only [Pcb.pgGetpage, if_pos hk]
    exact ⟨rfl, h⟩
  by_cases hp : pagingPagePresent (c.mm.pgd k)
  swap
  · simp only [Pcb.pgGetpage, if_neg hk, h.mm, if_pos hp]
    exact ⟨rfl, h⟩
  by_cases hsw : pagingPageSwapped (c.mm.pgd k)
  swap
  · simp only [Pcb.pgGetpage, if_neg hk, h.mm, not_not.mpr hp, if_false, if_neg hsw]
    exact ⟨rfl, h⟩
  have hsw' : Swapped (c'.mm.pgd k) := by rw [h.mm]; exact ⟨hp, hsw⟩
  rcases (h.grabFrame hR).cases with ⟨c₁, c₁', he, he', hc⟩ | ⟨f, c₁, c₁', he, he', hc⟩
  · rw [pgGetpage_stuck (not_le.mp hk) ⟨hp, hsw⟩ he, pgGetpage_stuck (not_le.mp hk) hsw' he']
    exact ⟨rfl, hc⟩
  · rw [pgGetpage_loads (not_le.mp hk) ⟨hp, hsw⟩ he, pgGetpage_loads (not_le.mp hk) hsw' he']
    rw [h.mm, hc.mm]
    exact ⟨rfl, hc.swappedIn hR _ k f⟩

include hR in
theorem pgGetval (addr : ℤ) :
    Option.Rel R (c.pgGetval addr).1 (c'.pgGetval addr).1 ∧
      Alike R (c.pgGetval addr).2 (c'.pgGetval addr).2 := by
  rcases (h.pgGetpage hR (pagingPgn addr)).cases with
    ⟨c₁, c₁', he, he', hc⟩ | ⟨f, c₁, c₁', he, he', hc⟩
  · simp only [Pcb.pgGetval, he, he']
    exact ⟨.none, hc⟩
  · have hr := hc.mram.read ((f * 256 + pagingOffst addr : ℕ) : ℤ)
    simp only [Pcb.pgGetval, he, he', setWidth_signExtend_byte]
    exact ⟨.some (rel_getD hR hr.1), hc.mm, hr.2, hc.mswp⟩

include hR in
theorem pgSetval (addr : ℤ) {b b' : Byte} (hb : R b b') :
    Answers R (c.pgSetval addr b) (c'.pgSetval addr b') := by
  rcases (h.pgGetpage hR (pagingPgn addr)).cases with
    ⟨c₁, c₁', he, he', hc⟩ | ⟨f, c₁, c₁', he, he', hc⟩
  · simp only [Pcb.pgSetval, he, he']
    exact ⟨rfl, hc⟩
  · simp only [Pcb.pgSetval, he, he', setWidth_signExtend_byte]
    exact ⟨rfl, hc.mm, hc.mram.write _ hb, hc.mswp⟩

include hR in
theorem read (vmaid rgid offset : ℤ) :
    Option.Rel R (c.read vmaid rgid offset).1 (c'.read vmaid rgid offset).1 ∧
      Alike R (c.read vmaid rgid offset).2 (c'.read vmaid rgid offset).2 := by
  simp only [Pcb.read, h.mm]
  split
  · split_ifs
    · exact ⟨.none, h⟩
    · exact h.pgGetval hR _
  · exact ⟨.none, h⟩

include hR in
theorem write (vmaid rgid offset : ℤ) {b b' : Byte} (hb : R b b') :
    Answers R (c.write vmaid rgid offset b) (c'.write vmaid rgid offset b') := by
  simp only [Pcb.write, h.mm]
  split
  · split_ifs
    · exact ⟨rfl, h⟩
    · exact h.pgSetval hR _ hb
  · exact ⟨rfl, h⟩

include hR in
theorem allocPagesLoop (n : ℕ) (l : List ℕ) :
    Answers R (Pcb.allocPagesLoop n l c) (Pcb.allocPagesLoop n l c') := by
  induction n generalizing l c c' with
  | zero => exact ⟨rfl, h⟩
  | succ n ih =>
    rcases (h.grabFrame hR).cases with ⟨c₁, c₁', he, he', hc⟩ | ⟨f, c₁, c₁', he, he', hc⟩
    · simp only [Pcb.allocPagesLoop, he, he']
      exact ⟨rfl, hc.mm, hc.mram.putFreefps l, hc.mswp⟩
    · simp only [Pcb.allocPagesLoop, he, he']
      exact ih hc (f :: l)

include hR in
theorem vmMapRam (astart aend mapstart incpgnum : ℤ) :
    Answers R (c.vmMapRam astart aend mapstart incpgnum)
      (c'.vmMapRam astart aend mapstart incpgnum) := by
  rcases (h.allocPagesLoop hR incpgnum.toNat []).cases with
    ⟨c₁, c₁', he, he', hc⟩ | ⟨fs, c₁, c₁', he, he', hc⟩
  · simp only [Pcb.vmMapRam, Pcb.allocPagesRange, he, he']
    exact ⟨rfl, hc⟩
  · simp only [Pcb.vmMapRam, Pcb.allocPagesRange, he, he', Pcb.vmapPageRange, hc.mm]
    exact ⟨rfl, hc.withMm _⟩

include hR in
theorem incVmaLimit (vmaid incSz : ℤ) :
    Answers R (c.incVmaLimit vmaid incSz) (c'.incVmaLimit vmaid incSz) := by
  simp only [Pcb.incVmaLimit, h.mm]
  split
  · rename_i curVma area _ _
    split_ifs
    · exact ⟨rfl, h⟩
    · rcases (h.vmMapRam hR (toInt area.rgStart) (toInt area.rgEnd) (toInt curVma.vmEnd)
        ((pagingPageAlignsz incSz).tdiv pagingPagesz)).cases with
        ⟨c₁, c₁', he, he', hc⟩ | ⟨rg, c₁, c₁', he, he', hc⟩
      · simp only [he, he']
        exact ⟨rfl, hc⟩
      · simp only [he, he', hc.mm]
        exact ⟨rfl, hc.withMm _⟩
    · exact ⟨rfl, h⟩
  · exact ⟨rfl, h⟩

include hR in
theorem alloc (vmaid rgid size : ℤ) :
    Answers R (c.alloc vmaid rgid size) (c'.alloc vmaid rgid size) := by
  have hg := (h.incVmaLimit hR vmaid size).state
  simp only [Pcb.alloc, h.mm, hg.mm]
  split
  · exact ⟨rfl, h⟩
  · split_ifs
    · exact ⟨rfl, h⟩
    · split
      · exact ⟨rfl, h.withMm _⟩
      · split
        · exact ⟨rfl, h⟩
        · split
          · exact ⟨rfl, hg.withMm _⟩
          · exact ⟨rfl, hg⟩

theorem free (vmaid rgid : ℤ) : Answers R (c.free vmaid rgid) (c'.free vmaid rgid) := by
  simp only [Pcb.free, h.mm]
  split
  · split_ifs
    · exact ⟨rfl, h⟩
    · exact ⟨rfl, h.withMm _⟩
  · exact ⟨rfl, h⟩

theorem freePage (k : ℕ) : Alike R (c.freePage k) (c'.freePage k) := by
  simp only [Pcb.freePage, h.mm]
  split_ifs
  · exact ⟨rfl, h.mram, alike_update h.mswp ((h.mswp _).putFreefp _) _⟩
  · exact ⟨rfl, h.mram.putFreefp _, h.mswp⟩
  · exact h

theorem freePcbMemph : Alike R c.freePcbMemph c'.freePcbMemph := by
  unfold Pcb.freePcbMemph
  induction List.range pagingMaxPgn generalizing c c' with
  | nil => exact h
  | cons k l ih => exact ih (h.freePage k)

end Pcb.Alike

inductive Outcome.Alike (R : Byte → Byte → Prop) : Outcome → Outcome → Prop
  | failed : Alike R .failed .failed
  | done : Alike R .done .done
  | byte {b b' : Byte} : R b b' → Alike R (.byte b) (.byte b')

theorem Outcome.Alike.mono {R R' : Byte → Byte → Prop} {o o' : Outcome}
    (h : Outcome.Alike R o o') (hle : ∀ b b', R b b' → R' b b') : Outcome.Alike R' o o' := by
  cases h with
  | failed => exact .failed
  | done => exact .done
  | byte hb => exact .byte (hle _ _ hb)

/-- The same instruction up to the byte that a WRITE stores. -/
inductive Instr.Alike (R : Byte → Byte → Prop) : Instr → Instr → Prop
  | same (i : Instr) : Alike R i i
  | write {data data' : Byte} (destination offset : BitVec 32) : R data data' →
      Alike R (.write data destination offset) (.write data' destination offset)

inductive Op.Alike {ι : Type*} (R : Byte → Byte → Prop) : Op ι → Op ι → Prop
  | same (op : Op ι) : Alike R op op
  | exec (p : ι) {i i' : Instr} : Instr.Alike R i i' → Alike R (.exec p i) (.exec p i')

structure Kernel.Alike {ι : Type*} (R : Byte → Byte → Prop) (s s' : Kernel ι) : Prop where
  mm : s'.mm = s.mm
  mram : Memphy.Alike R s.mram s'.mram
  mswp : ∀ i, Memphy.Alike R (s.mswp i) (s'.mswp i)

theorem outcomeOf_alike (b : Bool) : Outcome.Alike R (outcomeOf b) (outcomeOf b) := by
  cases b with
  | false => exact .failed
  | true => exact .done

theorem elim_alike {o o' : Option Byte} (h : Option.Rel R o o') :
    Outcome.Alike R (o.elim .failed .byte) (o'.elim .failed .byte) := by
  cases h with
  | some hb => exact .byte hb
  | none => exact .failed

theorem Pcb.Alike.exec {c c' : Pcb} {i i' : Instr} (hR : ∀ b, R b b) (h : Pcb.Alike R c c')
    (hi : Instr.Alike R i i') :
    Outcome.Alike R (c.exec i).1 (c'.exec i').1 ∧ Pcb.Alike R (c.exec i).2 (c'.exec i').2 := by
  have hwrite : ∀ data data' destination offset, R data data' →
      Outcome.Alike R (c.exec (.write data destination offset)).1
          (c'.exec (.write data' destination offset)).1 ∧
        Pcb.Alike R (c.exec (.write data destination offset)).2
          (c'.exec (.write data' destination offset)).2 := by
    intro data data' destination offset hb
    have hw := h.write hR 0 destination.toInt offset.toInt hb
    simp only [Pcb.exec, hw.answer]
    exact ⟨outcomeOf_alike _, hw.state⟩
  cases hi with
  | write destination offset hb => exact hwrite _ _ destination offset hb
  | same =>
    cases i with
    | write data destination offset => exact hwrite data data destination offset (hR data)
    | alloc size regIndex =>
      have ha := h.alloc hR 0 regIndex.toInt size.toInt
      simp only [Pcb.exec, ha.answer]
      exact ⟨outcomeOf_alike _, ha.state⟩
    | free regIndex =>
      have hf := h.free 0 regIndex.toInt
      simp only [Pcb.exec, hf.answer]
      exact ⟨outcomeOf_alike _, hf.state⟩
    | read source offset =>
      have hr := h.read hR 0 source.toInt offset.toInt
      exact ⟨elim_alike hr.1, hr.2⟩
    | grow vmaid incSz =>
      have hg := h.incVmaLimit hR vmaid.toInt incSz.toInt
      simp only [Pcb.exec, hg.answer]
      exact ⟨outcomeOf_alike _, hg.state⟩

namespace Kernel
variable {ι : Type*} {s s' : Kernel ι}

theorem alike_boot (hR : ∀ b, R b b) (memramsz : ℤ) (memswpsz : ℕ → ℤ) :
    Alike R (boot memramsz memswpsz : Kernel ι) (boot memramsz memswpsz) :=
  ⟨rfl, .refl hR _, fun _ => .refl hR _⟩

theorem Alike.caller (h : Alike R s s') (mm : Mm) : Pcb.Alike R (s.caller mm) (s'.caller mm) :=
  ⟨rfl, h.mram, h.mswp⟩

variable [DecidableEq ι]

theorem Alike.returned {c c' : Pcb} (h : Alike R s s') (hc : Pcb.Alike R c c') (p : ι) :
    Outcome.Alike R .done .done ∧
      Alike R ⟨c.mram, c.mswp, Function.update s.mm p none⟩
        ⟨c'.mram, c'.mswp, Function.update s'.mm p none⟩ :=
  ⟨.done, by rw [h.mm], hc.mram, hc.mswp⟩

theorem Alike.step (hR : ∀ b, R b b) (h : Alike R s s') {op op' : Op ι} (ho : Op.Alike R op op') :
    Outcome.Alike R (s.step op).1 (s'.step op').1 ∧ Alike R (s.step op).2 (s'.step op').2 := by
  have hexec : ∀ p i i', Instr.Alike R i i' →
      Outcome.Alike R (s.step (.exec p i)).1 (s'.step (.exec p i')).1 ∧
        Alike R (s.step (.exec p i)).2 (s'.step (.exec p i')).2 := by
    intro p i i' hi
    simp only [Kernel.step, h.mm]
    rcases s.mm p with _ | mm
    · exact ⟨.failed, h⟩
    · have he := (h.caller mm).exec hR hi
      refine ⟨he.1, ?_, he.2.mram, he.2.mswp⟩
      simp only [commit, he.2.mm, h.mm]
  cases ho with
  | exec p hi => exact hexec p _ _ hi
  | same =>
    cases op with
    | exec p i => exact hexec p i i (.same i)
    | create p =>
      simp only [Kernel.step, h.mm]
      rcases s.mm p with _ | mm
      · exact ⟨.done, rfl, h.mram, h.mswp⟩
      · exact ⟨.failed, h⟩
    | release p =>
      rcases hp : s.mm p with _ | mm
      · simp only [Kernel.step, h.mm, hp]
        exact ⟨.failed, h⟩
      · have hf := (h.caller mm).freePcbMemph
        have hp' : s'.mm p = some mm := by rw [h.mm, hp]
        rw [step_release hp, step_release hp']
        exact h.returned hf p

end Kernel
end OSsim
