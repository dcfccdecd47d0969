import OSsim.FrameRuns
import OSsim.RegionRuns
import OSsim.Tokens

/-!
# Frames and bytes through every instruction

The accounting of frames and the contents of pages across one instruction of a
process whose address space is in order. An instruction keeps every byte, except
that a successful WRITE stores its own; a successful READ delivers the stored byte.
-/

namespace OSsim

structure Housed (mm : Mm) (v : VmArea) : Prop where
  packed : Packed mm v
  paged : Paged mm v
  fifoNodup : mm.fifoPgn.Nodup
  fifoMem : ∀ k, k ∈ mm.fifoPgn ↔ Resident (mm.pgd k)

theorem housed_initMm : Housed initMm ⟨0, 0, 0, 0, [⟨0, 0⟩]⟩ := by
  have hno : ∀ k, ¬ pagingPagePresent (initMm.pgd k) := fun _ => not_present_zero
  refine ⟨packed_initMm, ⟨⟨?_, ?_⟩, ?_, Nat.zero_le _⟩, List.nodup_nil, ?_⟩
  · intro k hk
    exact absurd hk List.not_mem_nil
  · intro k hk
    exact absurd hk.1 (hno k)
  · intro k
    simp [hno k]
  · intro k
    constructor
    · intro hk
      exact absurd hk List.not_mem_nil
    · intro hk
      exact absurd hk.1 (hno k)

section
variable {nr ns : ℕ} {ramExt swpExt : ℕ → ℕ} {c c' : Pcb} {v v' : VmArea}

theorem Housed.access_lt (h : Housed c.mm v) {rgid offset : ℤ} {va : ℕ}
    (ha : c.Accesses rgid offset va) : va < v.vmEnd ∧ va < 2 ^ 22 := by
  obtain ⟨i, _, _, hva, hlt⟩ := ha
  have hmem : c.mm.symrgtbl i ∈ c.mm.regions v :=
    List.mem_append_left _ ((List.mem_ofFn' _ _).mpr ⟨i, rfl⟩)
  have hin := h.packed.inside hmem (by omega)
  have hlim := h.paged.limit
  simp only [pagingMaxPgn, pagingPagesz] at hlim
  omega

theorem Housed.access_page (h : Housed c.mm v) {rgid offset : ℤ} {va : ℕ}
    (ha : c.Accesses rgid offset va) :
    pagingPgn va = va / 256 ∧ pagingOffst va = va % 256 ∧
      pagingPagePresent (c.mm.pgd (va / 256)) := by
  obtain ⟨h1, h2⟩ := h.access_lt ha
  obtain ⟨d, hd⟩ := h.packed.space.aligned
  refine ⟨pagingPgn_of_lt h2, pagingOffst_natCast (by omega), ?_⟩
  rw [h.paged.present]
  omega

theorem FrameInv.of_mm {hand : List ℕ} {mm : Mm} (h : FrameInv nr ns ramExt swpExt c hand)
    (hp : mm.pgd = c.mm.pgd) (hf : mm.fifoPgn = c.mm.fifoPgn) :
    FrameInv nr ns ramExt swpExt { c with mm := mm } hand where
  ramDim := h.ramDim
  swpDim := h.swpDim
  ramLe := h.ramLe
  swpLe := h.swpLe
  ramAcct x := by
    rw [← h.ramAcct x]
    simp only [Mm.ramOwn, hp]
  swpAcct x := by
    rw [← h.swpAcct x]
    simp only [Mm.swpOwn, hp]
  fifoNodup := by
    rw [hf]
    exact h.fifoNodup
  fifoMem k := by
    simp only [hp, hf]
    exact h.fifoMem k
  swpTyp := by
    simp only [hp]
    exact h.swpTyp
  inTable := by
    simp only [hp]
    exact h.inTable

theorem FrameInv.extended {n : ℕ} {fs : List ℕ} (h : FrameInv nr ns ramExt swpExt c [])
    (hp : Paged c.mm v) (hd : 256 ∣ v.vmEnd) (hn : 0 < n)
    (hlim : v.vmEnd + n * 256 ≤ pagingMaxPgn * pagingPagesz)
    (ha : c.allocPagesRange n = (some fs, c')) :
    FrameInv nr ns ramExt swpExt (c'.extended v n fs) [] ∧
      Keeps ramExt swpExt c (c'.extended v n fs) := by
  obtain ⟨r, c1, he, h1, hk, hlen⟩ := h.allocPagesRange n
  rw [ha, Prod.mk.injEq] at he
  obtain ⟨rfl, rfl⟩ := he
  have hlen := hlen fs rfl
  rw [Int.toNat_natCast] at hlen
  simp only [pagingMaxPgn, pagingPagesz] at hlim
  have hpgn : pagingPgn v.vmEnd = v.vmEnd / 256 := pagingPgn_of_lt (by omega)
  have hnew : ∀ k, pagingPgn v.vmEnd + 0 ≤ k → ¬ pagingPagePresent (c'.mm.pgd k) := by
    intro k hle
    rw [hk.shuffles.present, hp.present, hpgn] at *
    omega
  have hrounds : ((0 + fs.length : ℕ) : ℤ) ≤ n := by omega
  have htable : pagingPgn v.vmEnd + 0 + fs.length ≤ pagingMaxPgn := by
    rw [hpgn, pagingMaxPgn]
    omega
  have h1 : FrameInv nr ns ramExt swpExt c' fs := h1
  obtain ⟨h2, hk2⟩ := h1.vmapLoop hrounds htable hnew
  exact ⟨h2.of_mm rfl rfl, hk.keeps.trans (hk2.trans (Keeps.of_eq rfl rfl fun _ => rfl))⟩

inductive Moved (ramExt swpExt : ℕ → ℕ) (c : Pcb) : Instr → Outcome → Pcb → Prop
  | kept {i : Instr} {c' : Pcb} : Keeps ramExt swpExt c c' → Moved ramExt swpExt c i .failed c'
  | served {i : Instr} {c' : Pcb} :
      (∀ data destination offset, i ≠ .write data destination offset) →
      Keeps ramExt swpExt c c' → Moved ramExt swpExt c i .done c'
  | read {source offset : BitVec 32} {va : ℕ} {c' : Pcb} :
      c.Accesses source.toInt offset.toInt va → Keeps ramExt swpExt c c' →
      Moved ramExt swpExt c (.read source offset) (.byte (c.pageByte (va / 256) (va % 256))) c'
  | written {data : Byte} {destination offset : BitVec 32} {va : ℕ} {c' : Pcb} :
      c.Accesses destination.toInt offset.toInt va →
      Writes ramExt swpExt (va / 256) (va % 256) data c c' →
      Moved ramExt swpExt c (.write data destination offset) .done c'

theorem Pcb.Effect.moved {i : Instr} {o : Outcome} (h : Housed c.mm v)
    (hf : FrameInv nr ns ramExt swpExt c []) (he : Pcb.Effect c v i o c') (hs : Space c'.mm v')
    (hlim : v'.vmEnd ≤ pagingMaxPgn * pagingPagesz) :
    FrameInv nr ns ramExt swpExt c' [] ∧ Moved ramExt swpExt c i o c' := by
  have hd := h.packed.space.aligned
  cases he with
  | refused => exact ⟨hf, .kept (Keeps.refl c)⟩
  | outOfFrames _ _ ha =>
    obtain ⟨r, c1, he, h1, hk, _⟩ := hf.allocPagesRange (growPages i.growth)
    rw [ha, Prod.mk.injEq] at he
    obtain ⟨rfl, rfl⟩ := he
    exact ⟨h1, .kept hk.keeps⟩
  | placed =>
    refine ⟨hf.of_mm rfl rfl, .served ?_ (Keeps.of_eq rfl rfl fun _ => rfl)⟩
    rintro _ _ _ ⟨⟩
  | @allocGrown size _ j fs c1 rg l hi hpos _ hr ha hrg =>
    obtain rfl : { v.grown (growPages size.toInt) with vmFreergList := l } = v' :=
      List.singleton_inj.mp hs.mmap
    obtain ⟨h1, hk⟩ := hf.extended h.paged hd (growPages_mul hr.1).1 hlim ha
    refine ⟨h1.of_mm rfl rfl, .served ?_ (hk.trans (Keeps.of_eq rfl rfl fun _ => rfl))⟩
    rintro _ _ _ ⟨⟩
  | @grown _ incSz fs c1 _ hr ha =>
    obtain rfl : v.grown (growPages incSz.toInt) = v' := List.singleton_inj.mp hs.mmap
    obtain ⟨h1, hk⟩ := hf.extended h.paged hd (growPages_mul hr.1).1 hlim ha
    refine ⟨h1, .served ?_ hk⟩
    rintro _ _ _ ⟨⟩
  | freed =>
    refine ⟨hf.of_mm rfl rfl, .served ?_ (Keeps.of_eq rfl rfl fun _ => rfl)⟩
    rintro _ _ _ ⟨⟩
  | @reads _ _ va hacc =>
    obtain ⟨h1, hk, _, hval⟩ := hf.pgGetval va
    obtain ⟨hpg, hoff, _⟩ := h.access_page hacc
    refine ⟨h1, ?_⟩
    rcases hr : (c.pgGetval va).1 with _ | b
    · exact .kept hk
    · rw [hval b hr, hpg, hoff]
      exact .read hacc hk
  | @writes data _ _ va hacc =>
    obtain ⟨h1, _, hno, hyes⟩ := hf.pgSetval va data
    obtain ⟨hpg, hoff, _⟩ := h.access_page hacc
    refine ⟨h1, ?_⟩
    cases hr : (c.pgSetval va data).1 with
    | false => exact .kept (hno hr)
    | true =>
      have hw := hyes hr
      rw [hpg, hoff] at hw
      exact .written hacc hw

theorem Pcb.Effect.housed {i : Instr} {o : Outcome} (h : Housed c.mm v)
    (hf : FrameInv nr ns ramExt swpExt c []) (he : Pcb.Effect c v i o c') (hp : Packed c'.mm v')
    (hlim : v'.vmEnd ≤ pagingMaxPgn * pagingPagesz) : Housed c'.mm v' := by
  have hf' := (he.moved h hf hp.space hlim).1
  exact ⟨hp, (he.paged h.packed.space h.paged hp.space hlim).1, hf'.fifoNodup, hf'.fifoMem⟩

end
end OSsim
