import OSsim.Lockstep
import OSsim.FlatMemory

/-!
# What a READ can reveal

Two runs of the same operations that store different bytes for other processes stay
alike. So a READ has the same status in both. Inside the limits of the page table, where
no copy leaves its device, bytes that differ were left by one and the same WRITE of
another process: frames are handed on without being cleared. A process finds what it has
stored itself, and then the byte is the same.
-/

namespace OSsim

/-- The same operation, except that a WRITE of a process other than `p` may store
another byte. -/
inductive Op.SameBut {ι : Type*} (p : ι) : Op ι → Op ι → Prop
  | same (op : Op ι) : SameBut p op op
  | data {q : ι} (data data' : Byte) (destination offset : BitVec 32) : q ≠ p →
      SameBut p (.exec q (.write data destination offset))
        (.exec q (.write data' destination offset))

namespace Kernel
variable {ι : Type*} {s s' s₀ : Kernel ι} {p : ι} {ops ops' : List (Op ι)}
  {R : Byte → Byte → Prop}

/-- `b` and `b'` are what the same WRITE of a process other than `p` stores in two runs. -/
def StoredByOther (p : ι) (ops ops' : List (Op ι)) (b b' : Byte) : Prop :=
  ∃ q destination offset, q ≠ p ∧
    (Op.exec q (.write b destination offset), Op.exec q (.write b' destination offset)) ∈
      ops.zip ops'

theorem alike_of_sameBut (h : List.Forall₂ (Op.SameBut p) ops ops') :
    List.Forall₂ (Op.Alike fun b b' => b = b' ∨ StoredByOther p ops ops' b b') ops ops' := by
  rw [List.forall₂_iff_zip] at h ⊢
  refine ⟨h.1, fun hmem => ?_⟩
  cases h.2 hmem with
  | same => exact .same _
  | data data data' destination offset hq =>
    exact .exec _ (.write destination offset (Or.inr ⟨_, destination, offset, hq, hmem⟩))

variable [DecidableEq ι]

theorem run_alike {memramsz : ℤ} {memswpsz : ℕ → ℤ} (hR : ∀ b, R b b)
    (hops : List.Forall₂ (Op.Alike R) ops ops') (hrun : Run Next (boot memramsz memswpsz) ops s)
    (hrun' : Run Next (boot memramsz memswpsz) ops' s') : Alike R s s' := by
  induction hops generalizing s s' with
  | nil =>
    cases hrun
    cases hrun'
    exact alike_boot hR memramsz memswpsz
  | cons ho _ ih =>
    cases hrun with
    | snoc hr hn =>
      cases hrun' with
      | snoc hr' hn' =>
        rw [hn, hn']
        exact ((ih hr hr').step hR ho).2

/-- The flat memory after the operations `ops`. -/
def flatAfter (s₀ : Kernel ι) : List (Op ι) → Flat ι
  | [] => Flat.blank
  | op :: ops =>
    Flat.apply ((ops.foldr (fun op s => (s.step op).2) s₀).eventOf op) (flatAfter s₀ ops)

theorem flatAfter_cons (hrun : Run Next s₀ ops s) (op : Op ι) :
    flatAfter s₀ (op :: ops) = Flat.apply (s.eventOf op) (flatAfter s₀ ops) := by
  rw [hrun.unique next_unique (run_foldr s₀ ops)]
  rfl

omit [DecidableEq ι] in
theorem Alike.eventAt (h : Alike R s s') (op : Op ι) {o o' : Outcome} (ho : Outcome.Alike R o o') :
    s'.eventAt op o' = s.eventAt op o := by
  cases ho with
  | failed => rw [eventAt_of_not_done (by decide), eventAt_of_not_done (by decide)]
  | @byte b b' _ =>
    have hne : ∀ b, Outcome.byte b ≠ .done := fun b he => by cases he
    rw [eventAt_of_not_done (hne b), eventAt_of_not_done (hne b')]
  | done => simp only [Kernel.eventAt, address, h.mm]

theorem apply_wrote_other (s : Kernel ι) (m : Flat ι) {q : ι} (hq : q ≠ p) (data : Byte)
    (destination offset : BitVec 32) :
    Flat.apply (s.eventOf (.exec q (.write data destination offset))) m p = m p := by
  rw [eventOf]
  generalize (s.step (.exec q (.write data destination offset))).1 = o
  by_cases ho : o = .done
  · subst ho
    simp only [Kernel.eventAt]
    cases s.address q destination offset with
    | none => rfl
    | some va => exact Function.update_of_ne hq.symm _ _
  · rw [eventAt_of_not_done ho]
    rfl

theorem apply_congr {m m' : Flat ι} (hm : m' p = m p) (e : Event ι) :
    Flat.apply e m' p = Flat.apply e m p := by
  cases e with
  | cleared q =>
    by_cases hq : p = q
    · subst hq
      simp only [Flat.apply, Function.update_self]
    · simpa only [Flat.apply, Function.update_of_ne hq] using hm
  | wrote q va data =>
    by_cases hq : p = q
    · subst hq
      simp only [Flat.apply, Function.update_self, hm]
    · simpa only [Flat.apply, Function.update_of_ne hq] using hm
  | other => exact hm

omit [DecidableEq ι] in
theorem sameBut_alike {op op' : Op ι} (h : Op.SameBut p op op') :
    Op.Alike (fun _ _ => True) op op' := by
  cases h with
  | same => exact .same _
  | data _ _ destination offset _ => exact .exec _ (.write destination offset trivial)

section Two
variable {memramsz : ℤ} {memswpsz : ℕ → ℤ} (hops : List.Forall₂ (Op.SameBut p) ops ops')
include hops

theorem flatAfter_sameBut (hrun : Run Next (boot memramsz memswpsz) ops s)
    (hrun' : Run Next (boot memramsz memswpsz) ops' s') :
    flatAfter (boot memramsz memswpsz) ops' p = flatAfter (boot memramsz memswpsz) ops p := by
  induction hops generalizing s s' with
  | nil => rfl
  | @cons op op' ops ops' ho hs ih =>
    cases hrun with
    | snoc hr hn =>
      cases hrun' with
      | snoc hr' hn' =>
        rw [flatAfter_cons hr, flatAfter_cons hr']
        cases ho with
        | data data data' destination offset hq =>
          rw [apply_wrote_other _ _ hq, apply_wrote_other _ _ hq]
          exact ih hr hr'
        | same =>
          have ha := run_alike (fun _ => trivial) (hs.imp fun _ _ => sameBut_alike) hr hr'
          have he := ha.eventAt op (ha.step (fun _ => trivial) (.same op)).1
          rw [eventOf, he]
          exact apply_congr (ih hr hr') _

theorem bounded_sameBut (hrun : Run NextBounded (boot memramsz memswpsz) ops s)
    (hrun' : Run Next (boot memramsz memswpsz) ops' s') :
    Run NextBounded (boot memramsz memswpsz) ops' s' := by
  induction hops generalizing s s' with
  | nil =>
    cases hrun'
    exact .nil
  | cons ho hs ih =>
    cases hrun with
    | snoc hr hn =>
      cases hrun' with
      | snoc hr' hn' =>
        have ha := run_alike (fun _ => trivial) (hs.imp fun _ _ => sameBut_alike)
          (hr.mono fun _ _ _ h => h.1) hr'
        have hmm := (ha.step (fun _ => trivial) (sameBut_alike ho)).2.mm
        refine .snoc (ih hr hr') ⟨hn', ?_⟩
        rw [VmBounded, All, hn', hmm, ← hn.1]
        exact hn.2

end Two

variable [Fintype ι] {memramsz : ℤ} {memswpsz : ℕ → ℤ}

theorem run_represents (hram : framesOf memramsz ≤ 8192) (hswp : framesOf (memswpsz 0) ≤ 2 ^ 21)
    (hrun : Run NextBounded (boot memramsz memswpsz) ops s) :
    Represents (framesOf memramsz) (framesOf (memswpsz 0)) s
      (flatAfter (boot memramsz memswpsz) ops) := by
  induction hrun with
  | nil => exact represents_boot hram hswp
  | @snoc ops s s' op hr hn ih =>
    rw [flatAfter_cons (hr.mono fun _ _ _ h => h.1)]
    exact ih.step _ _ _ _ ⟨op, rfl, hn⟩

/-- Whatever other processes store, a READ has the same status. Inside the limits bytes that
differ were left behind by the same WRITE of another process, and a byte that the process
has stored itself never differs. -/
theorem run_reads_residue (hrun : Run Next (boot memramsz memswpsz) ops s)
    (hrun' : Run Next (boot memramsz memswpsz) ops' s')
    (hops : List.Forall₂ (Op.SameBut p) ops ops') (rgid offset : BitVec 32) :
    Outcome.Alike (fun _ _ => True) (s.step (.exec p (.read rgid offset))).1
        (s'.step (.exec p (.read rgid offset))).1 ∧
      (framesOf memramsz ≤ 8192 → framesOf (memswpsz 0) ≤ 2 ^ 21 →
        Run NextBounded (boot memramsz memswpsz) ops s →
        Outcome.Alike (fun b b' => b = b' ∨ StoredByOther p ops ops' b b')
          (s.step (.exec p (.read rgid offset))).1 (s'.step (.exec p (.read rgid offset))).1 ∧
        ∀ va b, s.address p rgid offset = some va →
          flatAfter (boot memramsz memswpsz) ops p va = some b →
          (s'.step (.exec p (.read rgid offset))).1 =
            (s.step (.exec p (.read rgid offset))).1) := by
  have hrefl : ∀ b, b = b ∨ StoredByOther p ops ops' b b := fun b => Or.inl rfl
  have ha := run_alike hrefl (alike_of_sameBut hops) hrun hrun'
  have ho := (ha.step hrefl (.same (.exec p (.read rgid offset)))).1
  refine ⟨ho.mono fun _ _ _ => trivial, fun hram hswp hb => ⟨ho, fun va b hva hflat => ?_⟩⟩
  have hb' := bounded_sameBut hops hb hrun'
  have hflat' : flatAfter (boot memramsz memswpsz) ops' p va = some b := by
    rw [flatAfter_sameBut hops hrun hrun', hflat]
  have hva' : s'.address p rgid offset = some va := by
    simpa only [address, ha.mm] using hva
  generalize hr : (s.step (.exec p (.read rgid offset))).1 = o at ho ⊢
  generalize hr' : (s'.step (.exec p (.read rgid offset))).1 = o' at ho ⊢
  cases ho with
  | failed => rfl
  | done => rfl
  | byte =>
    obtain ⟨a, hea, hread⟩ := (run_represents hram hswp hb).read hr
    obtain ⟨a', hea', hread'⟩ := (run_represents hram hswp hb').read hr'
    rw [hva, Option.some.injEq] at hea
    rw [hva', Option.some.injEq] at hea'
    subst hea hea'
    rw [hread b hflat, hread' b hflat']

def handsOn (b : Byte) : List (Op Bool) :=
  [.exec false (.alloc 256 0), .exec true (.alloc 512 1), .exec true (.write b 0 0),
    .exec true (.alloc 256 0), .create false, .create true]

theorem handsOn_sameBut (b b' : Byte) :
    List.Forall₂ (Op.SameBut false) (handsOn b) (handsOn b') :=
  .cons (.same _) (.cons (.same _) (.cons (.data b b' 0 0 (by decide)) (.cons (.same _)
    (.cons (.same _) (.cons (.same _) .nil)))))

theorem run_reads_residue_own :
    ∃ s s' : Kernel Bool,
      Run Next (boot 256 fun _ => 256) (.exec false (.write 9 0 1) :: handsOn 42) s ∧
      Run Next (boot 256 fun _ => 256) (.exec false (.write 9 0 1) :: handsOn 7) s' ∧
      (s.step (.exec false (.read 0 1))).1 = .byte 9 ∧
      (s'.step (.exec false (.read 0 1))).1 = .byte 9 ∧
      ∀ rgid offset, Outcome.Alike
        (fun b b' => b = b' ∨ StoredByOther false (.exec false (.write 9 0 1) :: handsOn 42)
          (.exec false (.write 9 0 1) :: handsOn 7) b b')
        (s.step (.exec false (.read rgid offset))).1
        (s'.step (.exec false (.read rgid offset))).1 := by
  have hb : Run NextBounded (boot 256 fun _ => 256)
      (.exec false (.write 9 0 1) :: handsOn 42) _ :=
    .snoc (.snoc (.snoc (.snoc (.snoc (.snoc (.snoc .nil ⟨rfl, by decide +kernel⟩)
      ⟨rfl, by decide +kernel⟩) ⟨rfl, by decide +kernel⟩) ⟨rfl, by decide +kernel⟩)
      ⟨rfl, by decide +kernel⟩) ⟨rfl, by decide +kernel⟩) ⟨rfl, by decide +kernel⟩
  have hrun := hb.mono fun _ _ _ h => h.1
  have hrun' := run_foldr (boot 256 fun _ => 256) (.exec false (.write 9 0 1) :: handsOn 7)
  have hops := List.Forall₂.cons (.same (.exec false (.write 9 0 1))) (handsOn_sameBut 42 7)
  have hsame := ((run_reads_residue hrun hrun' hops 0 1).2 (by decide) (by decide) hb).2 1 9
    (by decide +kernel) (by decide +kernel)
  refine ⟨_, _, hrun, hrun', by decide +kernel, hsame.trans (by decide +kernel), ?_⟩
  exact fun rgid offset =>
    ((run_reads_residue hrun hrun' hops rgid offset).2 (by decide) (by decide) hb).1

/-- A process reads in its new region what another process has stored. -/
theorem read_reveals_residue :
    ∃ s s' : Kernel Bool, Run Next (boot 256 fun _ => 256) (handsOn 42) s ∧
      Run Next (boot 256 fun _ => 256) (handsOn 7) s' ∧
      List.Forall₂ (Op.SameBut false) (handsOn 42) (handsOn 7) ∧
      (s.step (.exec false (.read 0 0))).1 = .byte 42 ∧
      (s'.step (.exec false (.read 0 0))).1 = .byte 7 :=
  ⟨_, _, run_foldr _ _, run_foldr _ _, handsOn_sameBut 42 7, by decide +kernel,
    by decide +kernel⟩

end Kernel
end OSsim
