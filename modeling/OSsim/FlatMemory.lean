import OSsim.Conservation

/-!
# Paged memory refines flat memory

The purpose of the paging code is that each process sees a private array of bytes.
`Flat` is that array: creation and release of a process clear it, a successful WRITE
stores one byte, nothing else changes it. A state represents a flat memory when
every byte the memory knows is on a present page of its process, wherever that page
lives.
-/

namespace OSsim

inductive Event (ι : Type*)
  | cleared (p : ι)
  | wrote (p : ι) (va : ℕ) (data : Byte)
  | other

/-- The bytes each process has stored, by virtual address. -/
abbrev Flat (ι : Type*) : Type _ := ι → ℕ → Option Byte

namespace Flat
variable {ι : Type*} [DecidableEq ι]

def blank : Flat ι := fun _ _ => none

def apply : Event ι → Flat ι → Flat ι
  | .cleared p, m => Function.update m p fun _ => none
  | .wrote p va data, m => Function.update m p (Function.update (m p) va (some data))
  | .other, m => m

end Flat

namespace Kernel
variable {ι : Type*} [DecidableEq ι]

def address (s : Kernel ι) (p : ι) (rgid offset : BitVec 32) : Option ℕ :=
  (s.mm p).bind fun mm => (symIndex rgid.toInt).map fun i =>
    (mm.symrgtbl i).rgStart + offset.toInt.toNat

def eventAt (s : Kernel ι) : Op ι → Outcome → Event ι
  | .create p, .done => .cleared p
  | .release p, .done => .cleared p
  | .exec p (.write data destination offset), .done =>
    (s.address p destination offset).elim .other fun va => .wrote p va data
  | _, _ => .other

def eventOf (s : Kernel ι) (op : Op ι) : Event ι := s.eventAt op (s.step op).1

def NextEvent (s : Kernel ι) (e : Event ι) (s' : Kernel ι) : Prop :=
  ∃ op, e = s.eventOf op ∧ NextBounded s op s'

def Holds (s : Kernel ι) (p : ι) (va : ℕ) (b : Byte) : Prop :=
  ∃ mm, s.mm p = some mm ∧ pagingPagePresent (mm.pgd (va / 256)) ∧
    (s.caller mm).pageByte (va / 256) (va % 256) = b

structure Represents [Fintype ι] (nr ns : ℕ) (s : Kernel ι) (m : Flat ι) : Prop where
  inv : Inv nr ns s
  holds : ∀ p va b, m p va = some b → s.Holds p va b

variable {nr ns : ℕ} {s s' : Kernel ι} {p q : ι} {mm : Mm} {va : ℕ} {b : Byte}

omit [DecidableEq ι] in
theorem address_of_accesses (hp : s.mm p = some mm) {rgid offset : BitVec 32}
    (ha : (s.caller mm).Accesses rgid.toInt offset.toInt va) :
    s.address p rgid offset = some va := by
  obtain ⟨i, hi, _, hva, _⟩ := ha
  simp only [address, hp, Option.bind_some, hi, Option.map_some, hva, caller]

section Frame
variable [Fintype ι]

theorem ramExt_pos (h : Inv nr ns s) (hq : s.mm q = some mm) (hqp : q ≠ p) {k : ℕ}
    (hk : Resident (mm.pgd k)) : 0 < s.ramExt p (pagingFpn (mm.pgd k)) := by
  have hpos : 0 < mm.ramOwn (pagingFpn (mm.pgd k)) := (h.frameInv hq).ramOwn_pos hk
  rw [← ramOwn_some hq] at hpos
  exact hpos.trans_le (Finset.single_le_sum (f := fun x => s.ramOwn x (pagingFpn (mm.pgd k)))
    (fun _ _ => Nat.zero_le _) (Finset.mem_erase.mpr ⟨hqp, Finset.mem_univ q⟩))

theorem swpExt_pos (h : Inv nr ns s) (hq : s.mm q = some mm) (hqp : q ≠ p) {k : ℕ}
    (hk : Swapped (mm.pgd k)) : 0 < s.swpExt p (pagingPteSwp (mm.pgd k)) := by
  have hpos : 0 < mm.swpOwn (pagingPteSwp (mm.pgd k)) := (h.frameInv hq).swpOwn_pos hk
  rw [← swpOwn_some hq] at hpos
  exact hpos.trans_le (Finset.single_le_sum (f := fun x => s.swpOwn x (pagingPteSwp (mm.pgd k)))
    (fun _ _ => Nat.zero_le _) (Finset.mem_erase.mpr ⟨hqp, Finset.mem_univ q⟩))

theorem pageByte_congr (h : Inv nr ns s) (hq : s.mm q = some mm) {k i : ℕ}
    (hpres : pagingPagePresent (mm.pgd k))
    (hram : Resident (mm.pgd k) → s'.mram.storage (pagingFpn (mm.pgd k) * 256 + i) =
      s.mram.storage (pagingFpn (mm.pgd k) * 256 + i))
    (hswp : Swapped (mm.pgd k) →
      (s'.mswp activeMswpId).storage (pagingPteSwp (mm.pgd k) * 256 + i) =
        (s.mswp activeMswpId).storage (pagingPteSwp (mm.pgd k) * 256 + i)) :
    (s'.caller mm).pageByte k i = (s.caller mm).pageByte k i := by
  by_cases hsw : pagingPageSwapped (mm.pgd k)
  · have hty : pagingPteSwptyp (mm.pgd k) = activeMswpId :=
      (h.frameInv hq).swpTyp k ⟨hpres, hsw⟩
    simp only [Pcb.pageByte, caller, if_pos hsw, hty]
    exact hswp ⟨hpres, hsw⟩
  · have hres : Resident (mm.pgd k) := ⟨hpres, hsw⟩
    rw [Pcb.pageByte_resident (c := s.caller mm) hres,
      Pcb.pageByte_resident (c := s'.caller mm) hres]
    exact hram hres

theorem pageByte_other {c : Pcb} (h : Inv nr ns s) (hqp : q ≠ p) (hq : s.mm q = some mm) {k i : ℕ}
    (hpres : pagingPagePresent (mm.pgd k)) (hi : i < 256)
    (hram : ∀ f, 0 < s.ramExt p f → ∀ i < 256,
      c.mram.storage (f * 256 + i) = s.mram.storage (f * 256 + i))
    (hswp : ∀ w, 0 < s.swpExt p w → ∀ i < 256, (c.mswp activeMswpId).storage (w * 256 + i) =
      (s.mswp activeMswpId).storage (w * 256 + i)) :
    ((s.commit p c).caller mm).pageByte k i = (s.caller mm).pageByte k i :=
  pageByte_congr h hq hpres (fun hres => hram _ (ramExt_pos h hq hqp hres) i hi)
    fun hsw => hswp _ (swpExt_pos h hq hqp hsw) i hi

theorem Holds.other {c : Pcb} (h : Inv nr ns s) (hqp : q ≠ p) (hh : s.Holds q va b)
    (hram : ∀ f, 0 < s.ramExt p f → ∀ i < 256,
      c.mram.storage (f * 256 + i) = s.mram.storage (f * 256 + i))
    (hswp : ∀ w, 0 < s.swpExt p w → ∀ i < 256, (c.mswp activeMswpId).storage (w * 256 + i) =
      (s.mswp activeMswpId).storage (w * 256 + i)) :
    (s.commit p c).Holds q va b := by
  obtain ⟨mm, hq, hpres, hb⟩ := hh
  refine ⟨mm, by rw [commit_mm_of_ne _ _ hqp]; exact hq, hpres, ?_⟩
  rw [← hb]
  exact pageByte_other h hqp hq hpres (Nat.mod_lt _ (by decide)) hram hswp

theorem Holds.self {c : Pcb} (hp : s.mm p = some mm) (hh : s.Holds p va b)
    (hk : Keeps (s.ramExt p) (s.swpExt p) (s.caller mm) c) : (s.commit p c).Holds p va b := by
  obtain ⟨mm', hp', hpres, hb⟩ := hh
  rw [hp, Option.some.injEq] at hp'
  subst hp'
  exact ⟨c.mm, commit_mm_self _ _ _, hk.present _ hpres,
    (hk.bytes _ hpres _ (Nat.mod_lt _ (by decide))).trans hb⟩

theorem Holds.keeps {c : Pcb} (h : Inv nr ns s) (hp : s.mm p = some mm)
    (hk : Keeps (s.ramExt p) (s.swpExt p) (s.caller mm) c) (hh : s.Holds q va b) :
    (s.commit p c).Holds q va b := by
  by_cases hqp : q = p
  · subst hqp
    exact hh.self hp hk
  · exact hh.other h hqp hk.ramOut hk.swpOut

theorem Holds.writes {c : Pcb} {m : Flat ι} {a : ℕ} {data : Byte} (h : Inv nr ns s)
    (hp : s.mm p = some mm) (hpres : pagingPagePresent (mm.pgd (a / 256)))
    (hw : Writes (s.ramExt p) (s.swpExt p) (a / 256) (a % 256) data (s.caller mm) c)
    (hall : ∀ q va b, m q va = some b → s.Holds q va b) (q : ι) (va : ℕ) (b : Byte)
    (hm : Flat.apply (.wrote p a data) m q va = some b) : (s.commit p c).Holds q va b := by
  by_cases hqp : q = p
  swap
  · simp only [Flat.apply, Function.update_of_ne hqp] at hm
    exact (hall q va b hm).other h hqp hw.ramOut hw.swpOut
  subst hqp
  simp only [Flat.apply, Function.update_self] at hm
  have hlt : ∀ x : ℕ, x % 256 < 256 := fun x => Nat.mod_lt _ (by decide)
  by_cases hva : va = a
  · subst hva
    rw [Function.update_self, Option.some.injEq] at hm
    refine ⟨c.mm, commit_mm_self _ _ _, hw.present _ hpres, ?_⟩
    refine Eq.trans (hw.bytes _ hpres _ (hlt va)) ?_
    rw [if_pos ⟨rfl, rfl⟩, hm]
  · rw [Function.update_of_ne hva] at hm
    obtain ⟨mm', hp', hpr, hb⟩ := hall q va b hm
    rw [hp, Option.some.injEq] at hp'
    subst hp'
    refine ⟨c.mm, commit_mm_self _ _ _, hw.present _ hpr, ?_⟩
    refine Eq.trans (hw.bytes _ hpr _ (hlt va)) ?_
    rw [if_neg (by omega), hb]

end Frame

omit [DecidableEq ι] in
theorem eventAt_other {op : Op ι} {o : Outcome} (hcreate : o = .done → ∀ p, op ≠ .create p)
    (hrelease : o = .done → ∀ p, op ≠ .release p)
    (hwrite : o = .done → ∀ p data destination offset,
      op ≠ .exec p (.write data destination offset)) : s.eventAt op o = .other := by
  unfold eventAt
  split
  · exact absurd rfl (hcreate rfl _)
  · exact absurd rfl (hrelease rfl _)
  · exact absurd rfl (hwrite rfl _ _ _ _)
  · rfl

omit [DecidableEq ι] in
theorem eventAt_of_not_done {o : Outcome} (ho : o ≠ .done) (op : Op ι) :
    s.eventAt op o = .other :=
  eventAt_other (fun hd => absurd hd ho) (fun hd => absurd hd ho) fun hd => absurd hd ho

theorem eventOf_failed {op : Op ι} (ho : (s.step op).1 = .failed) : s.eventOf op = .other := by
  simp only [eventOf, ho]
  exact eventAt_of_not_done (by decide) op

theorem eventOf_exec (hp : s.mm p = some mm) {i : Instr} {o : Outcome}
    (ho : ((s.caller mm).exec i).1 = o)
    (hi : o = .done → ∀ data destination offset, i ≠ .write data destination offset) :
    s.eventOf (.exec p i) = .other := by
  simp only [eventOf, step_exec hp, ho]
  refine eventAt_other nofun nofun fun hd q data destination offset he => ?_
  exact hi hd data destination offset (Op.exec.inj he).2

theorem eventOf_write (hp : s.mm p = some mm) {data : Byte} {destination offset : BitVec 32}
    (ho : ((s.caller mm).exec (.write data destination offset)).1 = .done)
    (ha : (s.caller mm).Accesses destination.toInt offset.toInt va) :
    s.eventOf (.exec p (.write data destination offset)) = .wrote p va data := by
  simp only [eventOf, step_exec hp, ho, eventAt, address_of_accesses hp ha, Option.elim_some]

variable [Fintype ι]

theorem Represents.exec {m : Flat ι} (h : Represents nr ns s m) (hp : s.mm p = some mm) (i : Instr)
    (hb : (s.commit p ((s.caller mm).exec i).2).VmBounded) :
    Represents nr ns (s.commit p ((s.caller mm).exec i).2)
      (Flat.apply (s.eventOf (.exec p i)) m) := by
  obtain ⟨hinv, hm⟩ := h.inv.exec hp i hb
  refine ⟨hinv, ?_⟩
  generalize ho : ((s.caller mm).exec i).1 = o at hm
  generalize ((s.caller mm).exec i).2 = c at hm hinv ⊢
  cases hm with
  | kept hk =>
    rw [eventOf_exec hp ho nofun]
    exact fun q va b hq => (h.holds q va b hq).keeps h.inv hp hk
  | served hno hk =>
    rw [eventOf_exec hp ho fun _ => hno]
    exact fun q va b hq => (h.holds q va b hq).keeps h.inv hp hk
  | read _ hk =>
    rw [eventOf_exec hp ho nofun]
    exact fun q va b hq => (h.holds q va b hq).keeps h.inv hp hk
  | @written data destination offset va _ ha hw =>
    rw [eventOf_write hp ho ha]
    obtain ⟨v, hv⟩ := h.inv.housed p mm hp
    obtain ⟨_, _, hpres⟩ := Housed.access_page (c := s.caller mm) hv ha
    exact Holds.writes h.inv hp hpres hw h.holds

theorem holds_cleared {m : Flat ι} (h : Represents nr ns s m)
    (hmm : ∀ q, q ≠ p → s'.mm q = s.mm q) (hram : s'.mram.storage = s.mram.storage)
    (hswp : (s'.mswp activeMswpId).storage = (s.mswp activeMswpId).storage) (q : ι) (va : ℕ)
    (b : Byte) (hq : Flat.apply (.cleared p) m q va = some b) : s'.Holds q va b := by
  by_cases hqp : q = p
  · subst hqp
    simp [Flat.apply] at hq
  · simp only [Flat.apply, Function.update_of_ne hqp] at hq
    obtain ⟨mm, hmq, hpres, hb⟩ := h.holds q va b hq
    refine ⟨mm, (hmm q hqp).trans hmq, hpres, ?_⟩
    rw [← hb]
    exact pageByte_congr h.inv hmq hpres (fun _ => by rw [hram]) fun _ => by rw [hswp]

theorem Represents.returned {m : Flat ι} {c : Pcb} (h : Represents nr ns s m)
    (hr : Returns (s.caller mm) c)
    (hinv : Inv nr ns ⟨c.mram, c.mswp, Function.update s.mm p none⟩) :
    Represents nr ns ⟨c.mram, c.mswp, Function.update s.mm p none⟩ (Flat.apply (.cleared p) m) :=
  ⟨hinv, holds_cleared h (fun _ hq => Function.update_of_ne hq _ _) hr.ramStorage hr.swpStorage⟩

theorem Represents.step (s : Kernel ι) (e : Event ι) (s' : Kernel ι) (m : Flat ι)
    (h : Represents nr ns s m) (hn : NextEvent s e s') :
    Represents nr ns s' (Flat.apply e m) := by
  obtain ⟨op, rfl, hn⟩ := hn
  have hinv := Inv.step s op s' h.inv hn
  obtain ⟨hn, hb⟩ := hn
  have hs := s.step_cases op
  rw [Next] at hn
  rw [← hn] at hs
  cases hs with
  | idle ho =>
    rw [eventOf_failed ho]
    exact h
  | @created p hp =>
    have he : s.eventOf (.create p) = .cleared p := by
      simp only [eventOf, step_create hp, eventAt]
    rw [he]
    exact ⟨hinv, holds_cleared h (fun q hq => Function.update_of_ne hq _ _) rfl rfl⟩
  | executed i hp => exact h.exec hp i hb
  | @released p mm hp =>
    have he : s.eventOf (.release p) = .cleared p := by
      simp only [eventOf, step_release hp, eventAt]
    rw [he]
    have hr := (freePcbMemph_returns (c := s.caller mm) (h.inv.frameInv hp).swpTyp).1
    exact h.returned hr hinv

omit [DecidableEq ι] in
theorem represents_boot {memramsz : ℤ} {memswpsz : ℕ → ℤ} (hram : framesOf memramsz ≤ 8192)
    (hswp : framesOf (memswpsz 0) ≤ 2 ^ 21) :
    Represents (framesOf memramsz) (framesOf (memswpsz 0)) (boot memramsz memswpsz : Kernel ι)
      Flat.blank :=
  ⟨inv_boot hram hswp, fun p va b hb => by cases hb⟩

theorem Inv.read_byte (h : Inv nr ns s) (hq : s.mm q = some mm) {rgid offset : BitVec 32} {b : Byte}
    (hr : (s.step (.exec q (.read rgid offset))).1 = .byte b) :
    ∃ va, (s.caller mm).Accesses rgid.toInt offset.toInt va ∧
      b = (s.caller mm).pageByte (va / 256) (va % 256) := by
  obtain ⟨v, hv⟩ := h.housed q mm hq
  have hv' : Housed (s.caller mm).mm v := hv
  have he := hv'.packed.space.exec_cases (.read rgid offset)
  rw [step_exec hq] at hr
  rw [hr] at he
  generalize ((s.caller mm).exec (.read rgid offset)).2 = c at he
  generalize hi : Instr.read rgid offset = i at he
  generalize ho : Outcome.byte b = o at he
  cases he with
  | refused => cases ho
  | outOfFrames => cases ho
  | placed => cases ho
  | allocGrown => cases ho
  | grown => cases ho
  | freed => cases ho
  | @reads source off va hacc =>
    cases hi
    obtain ⟨hpg, hoff, _⟩ := hv'.access_page hacc
    obtain ⟨_, _, _, hval⟩ := (h.frameInv hq).pgGetval va
    rcases hget : ((s.caller mm).pgGetval va).1 with _ | b'
    · rw [hget] at ho
      cases ho
    · rw [hget, Option.elim_some, Outcome.byte.injEq] at ho
      refine ⟨va, hacc, ?_⟩
      rw [ho, hval b' hget, hpg, hoff]
  | writes => cases hi

theorem Represents.read {m : Flat ι} (h : Represents nr ns s m) {source offset : BitVec 32}
    (hr : (s.step (.exec p (.read source offset))).1 = .byte b) :
    ∃ va, s.address p source offset = some va ∧ ∀ b', m p va = some b' → b = b' := by
  rcases hp : s.mm p with _ | mm
  · simp [Kernel.step, hp] at hr
  obtain ⟨va, ha, rfl⟩ := h.inv.read_byte hp hr
  refine ⟨va, address_of_accesses hp ha, fun b' hb' => ?_⟩
  obtain ⟨mm', hp', _, hbyte⟩ := h.holds p va b' hb'
  rw [hp, Option.some.injEq] at hp'
  subst hp'
  exact hbyte

omit [Fintype ι] in
theorem access_refused {v : VmArea} (hp : s.mm p = some mm) (hs : Space mm v) {i : Instr}
    (hr : (s.caller mm).Refused v i)
    (hi : (∃ source offset, i = .read source offset) ∨
      ∃ data destination offset, i = .write data destination offset) :
    s.step (.exec p i) = (.failed, s) := by
  have he := Space.exec_cases (c := s.caller mm) hs i
  have hsame : ((s.caller mm).exec i) = (.failed, s.caller mm) := by
    generalize (s.caller mm).exec i = r at he
    obtain ⟨o, c⟩ := r
    cases he with
    | refused => rfl
    | outOfFrames hw => rcases hi with ⟨_, _, rfl⟩ | ⟨_, _, _, rfl⟩ <;> exact hw.elim
    | placed => rcases hi with ⟨_, _, hi⟩ | ⟨_, _, _, hi⟩ <;> cases hi
    | allocGrown => rcases hi with ⟨_, _, hi⟩ | ⟨_, _, _, hi⟩ <;> cases hi
    | grown => rcases hi with ⟨_, _, hi⟩ | ⟨_, _, _, hi⟩ <;> cases hi
    | freed => rcases hi with ⟨_, _, hi⟩ | ⟨_, _, _, hi⟩ <;> cases hi
    | reads hacc => exact absurd hacc (hr _)
    | writes hacc => exact absurd hacc (hr _)
  rw [step_exec hp, hsame]
  have hup : Function.update s.mm p (some mm) = s.mm := by
    rw [← hp, Function.update_eq_self]
  simp only [commit, caller, hup]

/-- Paged memory is flat memory: whatever faults, evictions, failed allocations and
other processes do, a successful READ returns the byte last stored at its address,
and accesses outside a region fail without any effect. -/
theorem run_refines_flat {memramsz : ℤ} {memswpsz : ℕ → ℤ} {es : List (Event ι)}
    (hram : framesOf memramsz ≤ 8192) (hswp : framesOf (memswpsz 0) ≤ 2 ^ 21)
    (hrun : Run NextEvent (boot memramsz memswpsz) es s) (p : ι) (rgid offset : BitVec 32) :
    (∀ b, (s.step (.exec p (.read rgid offset))).1 = .byte b →
      ∃ va, s.address p rgid offset = some va ∧
        ∀ b', es.foldr Flat.apply Flat.blank p va = some b' → b = b') ∧
    ((∀ mm i, s.mm p = some mm → symIndex rgid.toInt = some i → offset.toInt < 0 ∨
        (mm.symrgtbl i).rgEnd ≤ (mm.symrgtbl i).rgStart + offset.toInt.toNat) →
      s.step (.exec p (.read rgid offset)) = (.failed, s) ∧
        ∀ data, s.step (.exec p (.write data rgid offset)) = (.failed, s)) := by
  have h := hrun.simulates _ (represents_boot hram hswp) Represents.step
  refine ⟨fun b hr => h.read hr, fun hout => ?_⟩
  rcases hp : s.mm p with _ | mm
  · exact ⟨by simp only [step, hp], fun data => by simp only [step, hp]⟩
  obtain ⟨v, hv⟩ := h.inv.housed p mm hp
  have hno : ∀ va, ¬ (s.caller mm).Accesses rgid.toInt offset.toInt va := by
    intro va hconj
    obtain ⟨i, hi, hnn, hva, hlt⟩ := hconj
    have := hout mm i hp hi
    simp only [caller] at hva hlt
    omega
  exact ⟨access_refused hp hv.packed.space hno (Or.inl ⟨_, _, rfl⟩),
    fun data => access_refused hp hv.packed.space hno (Or.inr ⟨_, _, _, rfl⟩)⟩

theorem run_refines_flat_swapped :
    ∃ (s : Kernel Unit) (es : List (Event Unit)),
      Run NextEvent (boot 256 fun _ => 512) es s ∧ s.address () 0 0 = some 0 ∧
        es.foldr Flat.apply Flat.blank () 0 = some 7 ∧
        (s.step (.exec () (.read 0 0))).1 ≠ .failed ∧
        ∀ b, (s.step (.exec () (.read 0 0))).1 = .byte b → b = 7 := by
  have hrun : Run NextEvent (boot 256 fun _ => 512 : Kernel Unit) _ _ :=
    .snoc (.snoc (.snoc (.snoc .nil ⟨.create (), rfl, rfl, by decide +kernel⟩)
      ⟨.exec () (.alloc 256 0), rfl, rfl, by decide +kernel⟩)
      ⟨.exec () (.write 7 0 0), rfl, rfl, by decide +kernel⟩)
      ⟨.exec () (.alloc 256 1), rfl, rfl, by decide +kernel⟩
  refine ⟨_, _, hrun, by decide +kernel, by decide +kernel, by decide +kernel, fun b hb => ?_⟩
  obtain ⟨va, hva, hbyte⟩ := (run_refines_flat (by decide) (by decide) hrun () 0 0).1 b hb
  have hzero : va = 0 := Option.some.inj (hva.symm.trans (by decide +kernel))
  subst hzero
  exact hbyte 7 (by decide +kernel)

end Kernel
end OSsim
