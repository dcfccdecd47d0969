import OSsim.Alone

/-!
# Processes do not notice each other

When no program uses SYSCALL 17 and no instruction starves, a process does on the machine
what it does by itself: how many CPUs there are, in which order they run, which pages are
in swap and what the other processes do changes neither its regions, nor the bytes it has
stored, nor the registers it has read from them. No instruction starves if RAM has room
for the largest allocation of a process next to all the pages of the others, and RAM and
swap have room for all pages with one frame of swap to exchange pages with.
-/

open scoped BigOperators
namespace OSsim

namespace Regs
variable (regs : Regs) {ins : Instruction}

theorem after_failed : regs.after ins .failed = regs := by
  cases hop : ins.opcode <;> simp [after, hop]

theorem after_of_ne (h : ins.opcode ≠ .READ) (o : Outcome) : regs.after ins o = regs := by
  cases hop : ins.opcode <;> simp [after, hop] at h ⊢

theorem after_byte (h : ins.opcode = .READ) (data : Byte) (r : Fin 10) :
    regs.after ins (.byte data) r =
      if (ins.args 2).toNat = r then data.signExtend 32 else regs r := by
  have hr := r.isLt
  by_cases hlt : (ins.args 2).toNat < 10
  · have hset : regs.after ins (.byte data) =
        Function.update regs ⟨(ins.args 2).toNat, hlt⟩ (data.signExtend 32) := by
      simp only [after, h, dif_pos hlt]
    rw [hset, Function.update_apply]
    simp only [Fin.ext_iff, eq_comm]
  · have hset : regs.after ins (.byte data) = regs := by simp only [after, h, dif_neg hlt]
    rw [hset, if_neg (by omega)]

end Regs

theorem Alone.run_regs {a : Alone} {ins : Instruction} (h : ins.opcode ≠ .READ) :
    (a.run ins).regs = a.regs := by
  rcases hop : ins.opcode with _ | _ | _ | _ | _ | _
  all_goals simp only [Alone.run, hop]
  · exact (alloc_same _ _).2
  · exact (free_same _).2
  · exact absurd hop h
  · exact (write_same _ _ _).2.2

namespace Kernel
variable {ι : Type*} [Fintype ι] [DecidableEq ι] {s s' : Kernel ι} {p : ι} {mm : Mm} {nr ns : ℕ}
  {ins : Instruction}

omit [Fintype ι] [DecidableEq ι] in
theorem vmBounded_of_agrees {alone : ι → Alone}
    (hfits : ∀ q, (alone q).area.vmEnd ≤ pagingMaxPgn * pagingPagesz)
    (hagrees : ∀ q mm, s.mm q = some mm → (alone q).Agrees mm) : s.VmBounded := by
  intro q mm hq v hv
  rw [(hagrees q mm hq).mmap, List.mem_singleton] at hv
  exact hv ▸ hfits q

/-- Every process has the regions and the bytes of one by itself, in RAM or in swap. -/
structure Mirrors (nr ns : ℕ) (s : Kernel ι) (alone : ι → Alone) : Prop where
  flat : ∃ f, Represents nr ns s f ∧ ∀ p mm, s.mm p = some mm → f p = (alone p).bytes
  agrees : ∀ p mm, s.mm p = some mm → (alone p).Agrees mm

namespace Mirrors
variable {alone : ι → Alone} (h : Mirrors nr ns s alone)
include h

omit [DecidableEq ι] in
theorem inv : Inv nr ns s := by
  obtain ⟨f, hf, _⟩ := h.flat
  exact hf.inv

omit [DecidableEq ι] in
theorem housed (hp : s.mm p = some mm) : Housed mm (alone p).area := by
  obtain ⟨v, hv⟩ := h.inv.housed p mm hp
  have heq : v = (alone p).area :=
    List.singleton_inj.mp (hv.packed.space.mmap.symm.trans (h.agrees p mm hp).mmap)
  exact heq ▸ hv

omit [DecidableEq ι] in
theorem pagesOf_le {need : ι → ℕ} (hneed : ∀ q, (alone q).area.vmEnd / 256 ≤ need q) (q : ι) :
    s.pagesOf q ≤ need q := by
  rcases hq : s.mm q with _ | mm
  · rw [pagesOf, hq]
    exact Nat.zero_le _
  · rw [pagesOf_some hq, (h.housed hq).paged.pages_eq]
    exact hneed q

theorem fed {need : ι → ℕ} {big : ℕ} {i : Instr} (hp : s.mm p = some mm)
    (hneed : ∀ q, (alone q).area.vmEnd / 256 ≤ need q) (hram : ∑ q, need q + big ≤ nr + need p)
    (hswap : ∑ q, need q ≤ nr + (ns - 1)) (hbig : 0 < (alone p).area.vmEnd / 256 → 0 < big)
    (hgrows : (alone p).area.WantsGrowth i → (alone p).area.GrowthInRange i.growth →
      growPages i.growth ≤ big ∧
        (alone p).area.vmEnd / 256 + growPages i.growth ≤ need p) :
    ¬ (s.caller mm).Starves i := by
  have hself : s.pagesOf p = (alone p).area.vmEnd / 256 := by
    rw [pagesOf_some hp, (h.housed hp).paged.pages_eq]
  have hothers : ∑ q ∈ Finset.univ.erase p, s.pagesOf q ≤ ∑ q ∈ Finset.univ.erase p, need q :=
    Finset.sum_le_sum fun q _ => h.pagesOf_le hneed q
  have hneeds := Finset.add_sum_erase Finset.univ need (Finset.mem_univ p)
  have hpages := s.sum_pagesOf p
  have hle := hneed p
  refine h.inv.not_starves hp (fun v hv hw hr => ?_) fun hpos hns => ?_
  · rw [(h.agrees p mm hp).mmap, List.mem_singleton] at hv
    subst hv
    obtain ⟨hle_big, hle_need⟩ := hgrows hw hr
    omega
  · have hone := hbig (by omega)
    omega

theorem create (hfits : ∀ q, (alone q).area.vmEnd ≤ pagingMaxPgn * pagingPagesz)
    (hp : s.mm p = none) (hinit : alone p = .init) :
    Mirrors nr ns (s.step (.create p)).2 alone := by
  rw [step_create hp]
  have hagrees : ∀ q mm', Function.update s.mm p (some initMm) q = some mm' →
      (alone q).Agrees mm' := by
    intro q mm' hq
    by_cases hqp : q = p
    · subst hqp
      rw [Function.update_self, Option.some.injEq] at hq
      rw [hinit, ← hq]
      exact ⟨rfl, rfl⟩
    · rw [Function.update_of_ne hqp] at hq
      exact h.agrees q mm' hq
  obtain ⟨f, hf, hbytes⟩ := h.flat
  have hevent : s.eventOf (.create p) = .cleared p := by
    simp only [eventOf, step_create hp, eventAt]
  have hf' := Represents.step s _ { s with mm := Function.update s.mm p (some initMm) } f hf
    ⟨.create p, rfl, (congrArg Prod.snd (step_create hp)).symm, vmBounded_of_agrees hfits hagrees⟩
  refine ⟨⟨_, hf', fun q mm' hq => ?_⟩, hagrees⟩
  rw [hevent, Flat.apply]
  by_cases hqp : q = p
  · subst hqp
    rw [Function.update_self, hinit]
    rfl
  · simp only [Function.update_of_ne hqp] at hq ⊢
    exact hbytes q mm' hq

theorem release (hfits : ∀ q, (alone q).area.vmEnd ≤ pagingMaxPgn * pagingPagesz) (p : ι) :
    Mirrors nr ns (s.step (.release p)).2 alone := by
  have hold : ∀ q mm', (s.step (.release p)).2.mm q = some mm' → q ≠ p ∧ s.mm q = some mm' := by
    intro q mm' hq
    rw [release_mm] at hq
    split_ifs at hq with hqp
    exact ⟨hqp, hq⟩
  have hagrees : ∀ q mm', (s.step (.release p)).2.mm q = some mm' → (alone q).Agrees mm' :=
    fun q mm' hq => h.agrees q mm' (hold q mm' hq).2
  obtain ⟨f, hf, hbytes⟩ := h.flat
  have hf' := Represents.step s _ (s.step (.release p)).2 f hf
    ⟨.release p, rfl, rfl, vmBounded_of_agrees hfits hagrees⟩
  refine ⟨⟨_, hf', fun q mm' hq => ?_⟩, hagrees⟩
  obtain ⟨hqp, hq⟩ := hold q mm' hq
  rw [← hbytes q mm' hq]
  rcases hp : s.mm p with _ | mm
  · rw [eventOf_failed (by simp only [step, hp])]
    rfl
  · have hevent : s.eventOf (.release p) = .cleared p := by
      simp only [eventOf, step_release hp, eventAt]
    rw [hevent, Flat.apply, Function.update_of_ne hqp]

theorem exec {i : Instr} {a : Alone} (hp : s.mm p = some mm)
    (hfits : ∀ q, (Function.update alone p a q).area.vmEnd ≤ pagingMaxPgn * pagingPagesz)
    (hagrees : a.Agrees ((s.caller mm).exec i).2.mm)
    (hbytes : ∀ f : Flat ι, f p = (alone p).bytes →
      Flat.apply (s.eventOf (.exec p i)) f = Function.update f p a.bytes) :
    Mirrors nr ns (s.step (.exec p i)).2 (Function.update alone p a) := by
  rw [step_exec hp]
  have hagrees' : ∀ q mm', (s.commit p ((s.caller mm).exec i).2).mm q = some mm' →
      (Function.update alone p a q).Agrees mm' := by
    intro q mm' hq
    by_cases hqp : q = p
    · subst hqp
      rw [commit_mm_self, Option.some.injEq] at hq
      rw [Function.update_self, ← hq]
      exact hagrees
    · rw [commit_mm_of_ne _ _ hqp] at hq
      rw [Function.update_of_ne hqp]
      exact h.agrees q mm' hq
  have hb : (s.commit p ((s.caller mm).exec i).2).VmBounded := vmBounded_of_agrees hfits hagrees'
  obtain ⟨f, hf, hbytes_eq⟩ := h.flat
  refine ⟨⟨_, hf.exec hp i hb, fun q mm' hq => ?_⟩, hagrees'⟩
  rw [hbytes f (hbytes_eq p mm hp)]
  by_cases hqp : q = p
  · subst hqp
    rw [Function.update_self, Function.update_self]
  · rw [commit_mm_of_ne _ _ hqp] at hq
    rw [Function.update_of_ne hqp, Function.update_of_ne hqp, hbytes_eq q mm' hq]

theorem exec_quiet {i : Instr} {a : Alone} (hp : s.mm p = some mm)
    (hfits : ∀ q, (Function.update alone p a q).area.vmEnd ≤ pagingMaxPgn * pagingPagesz)
    (hagrees : a.Agrees ((s.caller mm).exec i).2.mm)
    (hwrite : ∀ data destination offset, i ≠ .write data destination offset)
    (hbytes : a.bytes = (alone p).bytes) :
    Mirrors nr ns (s.step (.exec p i)).2 (Function.update alone p a) := by
  refine h.exec hp hfits hagrees fun f hf => ?_
  rw [eventOf_exec hp rfl fun _ => hwrite, Flat.apply, hbytes, ← hf, Function.update_eq_self]

theorem read {a : Alone} (hp : s.mm p = some mm)
    (hfits : ∀ q, (Function.update alone p a q).area.vmEnd ≤ pagingMaxPgn * pagingPagesz)
    (hsame : a.area = (alone p).area ∧ a.symrgtbl = (alone p).symrgtbl ∧
      a.bytes = (alone p).bytes) (source offset : BitVec 32) :
    Mirrors nr ns (s.step (.exec p (.read source offset))).2 (Function.update alone p a) := by
  have hhoused : Housed (s.caller mm).mm (alone p).area := h.housed hp
  obtain ⟨hm, hs⟩ := hhoused.exec_access_space (i := .read source offset) rfl
  have hag : (alone p).Agrees (s.caller mm).mm := h.agrees p mm hp
  exact h.exec_quiet hp hfits (hag.of_same hm hs hsame.1 hsame.2.1) (by simp) hsame.2.2

theorem write (hp : s.mm p = some mm) {data : Byte} {destination offset : BitVec 32}
    (hfits : ∀ q, (Function.update alone p ((alone p).write data destination offset) q).area.vmEnd
      ≤ pagingMaxPgn * pagingPagesz)
    (hfed : ¬ (s.caller mm).Starves (.write data destination offset)) :
    Mirrors nr ns (s.step (.exec p (.write data destination offset))).2
      (Function.update alone p ((alone p).write data destination offset)) := by
  have hhoused : Housed (s.caller mm).mm (alone p).area := h.housed hp
  have hag : (alone p).Agrees (s.caller mm).mm := h.agrees p mm hp
  have hdone := hhoused.write_done_iff hfed
  obtain ⟨hm, hs⟩ := hhoused.exec_access_space (i := .write data destination offset) rfl
  obtain ⟨harea, hsym, _⟩ := (alone p).write_same data destination offset
  refine h.exec hp hfits (hag.of_same hm hs harea hsym) fun f hf => ?_
  rcases haddr : (alone p).address destination offset with _ | va
  · have hfail : ((s.caller mm).exec (.write data destination offset)).1 ≠ .done := by
      intro hd
      obtain ⟨va, hva⟩ := hdone.mp hd
      rw [← hag.address_iff, haddr] at hva
      cases hva
    rw [eventOf_exec hp rfl fun hd => absurd hd hfail, Flat.apply, Alone.write, haddr, ← hf,
      Function.update_eq_self]
  · have hacc := hag.address_iff.mp haddr
    rw [eventOf_write hp (hdone.mpr ⟨va, hacc⟩) hacc, Flat.apply, Alone.write, haddr, hf]

theorem run {i : Instr} (hp : s.mm p = some mm) (hcall : ins.call = some i)
    (hfits : ∀ q, (Function.update alone p ((alone p).run ins) q).area.vmEnd ≤
      pagingMaxPgn * pagingPagesz)
    (hfed : ¬ (s.caller mm).Starves i) :
    Mirrors nr ns (s.step (.exec p i)).2 (Function.update alone p ((alone p).run ins)) := by
  have hag : (alone p).Agrees (s.caller mm).mm := h.agrees p mm hp
  have hhoused : Housed (s.caller mm).mm (alone p).area := h.housed hp
  rcases hop : ins.opcode with _ | _ | _ | _ | _ | _
  all_goals simp only [Instruction.call, hop, Option.some.injEq, reduceCtorEq] at hcall
  all_goals
    subst hcall
    simp only [Alone.run, hop] at hfits ⊢
  · exact h.exec_quiet hp hfits (hag.alloc hhoused hfed) (by simp) (Alone.alloc_same _ _).1
  · exact h.exec_quiet hp hfits (hag.free hhoused (ins.args 0)) (by simp) (Alone.free_same _).1
  · exact h.read hp hfits (Alone.read_same _ _ _) _ _
  · exact h.write hp hfits hfed

theorem read_outcome (hp : s.mm p = some mm) (source offset : BitVec 32) :
    match (alone p).address source offset with
    | none => (s.step (.exec p (.read source offset))).1 = .failed
    | some va => (s.caller mm).Starves (.read source offset) ∨
        ∃ b, (s.step (.exec p (.read source offset))).1 = .byte b ∧
          ∀ b', (alone p).bytes va = some b' → b = b' := by
  have hhoused : Housed (s.caller mm).mm (alone p).area := h.housed hp
  have hfail := hhoused.failed_iff (.read source offset)
  have hag : (alone p).Agrees (s.caller mm).mm := h.agrees p mm hp
  have hstep : (s.step (.exec p (.read source offset))).1 =
      ((s.caller mm).exec (.read source offset)).1 := by rw [step_exec hp]
  split
  · next haddr =>
    rw [hstep, hfail]
    refine Or.inl fun va hacc => ?_
    rw [← hag.address_iff, haddr] at hacc
    cases hacc
  · next va haddr =>
    refine or_iff_not_imp_left.mpr fun hfed => ?_
    have hacc := hag.address_iff.mp haddr
    obtain ⟨f, hf, hbytes⟩ := h.flat
    rcases ho : (s.step (.exec p (.read source offset))).1 with _ | _ | b
    · exact absurd hacc ((hfail.mp (hstep.symm.trans ho)).resolve_right hfed va)
    · rw [hstep, Pcb.exec] at ho
      cases hb : ((s.caller mm).read 0 source.toInt offset.toInt).1 <;> simp [hb] at ho
    · obtain ⟨va', haddr', hread⟩ := hf.read ho
      rw [address_of_accesses hp hacc, Option.some.injEq] at haddr'
      subst haddr'
      refine ⟨b, rfl, fun b' hb' => hread b' ?_⟩
      rw [hbytes p mm hp]
      exact hb'

theorem regs_after {i : Instr} (hp : s.mm p = some mm) (hcall : ins.call = some i) {regs : Regs}
    (hregs : ∀ r x, (alone p).regs r = some x → regs r = x) (hfed : ¬ (s.caller mm).Starves i)
    (r : Fin 10) (x : BitVec 32) (hx : ((alone p).run ins).regs r = some x) :
    regs.after ins (s.step (.exec p i)).1 r = x := by
  by_cases hop : ins.opcode = .READ
  · simp only [Instruction.call, hop, Option.some.injEq] at hcall
    subst hcall
    have hread := h.read_outcome hp (ins.args 0) (ins.args 1)
    simp only [Alone.run, hop, Alone.read] at hx
    split at hread
    · next haddr =>
      simp only [haddr] at hx
      rw [hread, Regs.after_failed]
      exact hregs r x hx
    · next va haddr =>
      obtain ⟨b, ho, hb⟩ := hread.resolve_left hfed
      simp only [haddr] at hx
      rw [ho, Regs.after_byte regs hop]
      by_cases hr : (ins.args 2).toNat = r
      · have hlt : (ins.args 2).toNat < 10 := hr ▸ r.isLt
        obtain rfl : r = ⟨(ins.args 2).toNat, hlt⟩ := Fin.ext hr.symm
        simp only [dif_pos hlt, Function.update_self, Option.map_eq_some_iff] at hx
        obtain ⟨b', hb', rfl⟩ := hx
        rw [if_pos hr, hb b' hb']
      · rw [if_neg hr]
        split_ifs at hx with hlt
        · have hne : r ≠ ⟨(ins.args 2).toNat, hlt⟩ := fun heq => hr (congrArg Fin.val heq).symm
          simp only [Function.update_of_ne hne] at hx
          exact hregs r x hx
        · exact hregs r x hx
  · rw [Regs.after_of_ne regs hop]
    rw [Alone.run_regs hop] at hx
    exact hregs r x hx

end Mirrors
end Kernel

/-- The devices have room for the programs: RAM for the largest allocation of each next to
all pages of the others, RAM and swap for all pages, and a frame of swap stays free to
exchange pages with. -/
structure RoomFor (codes : List (List Instruction)) (nr ns : ℕ) : Prop where
  table : ∀ code ∈ codes, Alone.pages code ≤ pagingMaxPgn
  ram : ∀ code ∈ codes, (codes.map Alone.pages).sum + Alone.largest code ≤ nr + Alone.pages code
  swap : (codes.map Alone.pages).sum ≤ nr + (ns - 1)

instance (codes : List (List Instruction)) (nr ns : ℕ) : Decidable (RoomFor codes nr ns) :=
  decidable_of_iff ((∀ code ∈ codes, Alone.pages code ≤ pagingMaxPgn) ∧
    (∀ code ∈ codes, (codes.map Alone.pages).sum + Alone.largest code ≤ nr + Alone.pages code) ∧
    (codes.map Alone.pages).sum ≤ nr + (ns - 1))
    ⟨fun h => ⟨h.1, h.2.1, h.2.2⟩, fun h => ⟨h.table, h.ram, h.swap⟩⟩

theorem RoomFor.of_ram {codes : List (List Instruction)} {nr : ℕ} (ns : ℕ)
    (h : (codes.map Alone.pages).sum ≤ nr) (hnr : nr ≤ 8192) : RoomFor codes nr ns where
  table code hcode := by
    have hmem : Alone.pages code ∈ codes.map Alone.pages := List.mem_map_of_mem hcode
    have hle := List.single_le_sum (fun _ _ => Nat.zero_le _) _ hmem
    simp only [pagingMaxPgn]
    omega
  ram code _ := by
    have hle := Alone.largest_le_pages code
    omega
  swap := by omega

namespace Setup
variable {n : ℕ}

def codes (S : Setup n) : List (List Instruction) := List.ofFn S.code

theorem mem_codes (S : Setup n) (p : Fin n) : S.code p ∈ S.codes :=
  (List.mem_ofFn' _ _).mpr ⟨p, rfl⟩

theorem sum_codes (S : Setup n) :
    (S.codes.map Alone.pages).sum = ∑ p, Alone.pages (S.code p) := by
  rw [codes, List.map_ofFn, List.sum_ofFn]
  rfl

end Setup

namespace Machine
variable {n m : ℕ} {S : Setup n} {s s' : Machine n m} {c : Fin m} {p : Fin n} {nr ns : ℕ}
  {memramsz : ℤ} {memswpsz : ℕ → ℤ} {as : List (MachineAction n m)}

def alone (S : Setup n) (s : Machine n m) (p : Fin n) : Alone := .after (s.ran S p)

/-- The CPU is about to execute an instruction that starves. -/
def Starves (S : Setup n) (s : Machine n m) (c : Fin m) : Prop :=
  ∃ p k x ins i mm, (s.sys.cpu c).point = .execute p k x ∧ (S.code p)[k]? = some ins ∧
    ins.call = some i ∧ s.mem.mm p = some mm ∧ (s.mem.caller mm).Starves i

def NextFed (S : Setup n) (s : Machine n m) (a : MachineAction n m) (s' : Machine n m) : Prop :=
  (∀ c, a = .cpu c → ¬ s.Starves S c) ∧ Next S s a s'

structure Isolated (S : Setup n) (nr ns : ℕ) (s : Machine n m) : Prop extends Orderly S s where
  mirrors : s.mem.Mirrors nr ns (s.alone S)
  regs : ∀ p r x, (s.alone S p).regs r = some x → s.regs p r = x

theorem isolated_start (hram : framesOf memramsz ≤ 8192) (hswp : framesOf (memswpsz 0) ≤ 2 ^ 21) :
    (start memramsz memswpsz : Machine n m).Isolated S (framesOf memramsz)
      (framesOf (memswpsz 0)) where
  toOrderly := orderly_start
  mirrors := by
    exact ⟨⟨_, Kernel.represents_boot hram hswp, fun _ _ hp => by cases hp⟩,
      fun _ _ hp => by cases hp⟩
  regs p r x hx := by
    simp only [alone, ran, start, System.start, List.length_nil, List.take_zero, Alone.after,
      List.foldl_nil, Alone.init, Option.some.injEq] at hx
    exact hx

theorem alone_pages_le (s : Machine n m) (p : Fin n) :
    (s.alone S p).area.vmEnd / 256 ≤ Alone.pages (S.code p) := Alone.pages_take_le _ _

theorem alone_fits (htable : ∀ p, Alone.pages (S.code p) ≤ pagingMaxPgn) (s : Machine n m)
    (p : Fin n) : (s.alone S p).area.vmEnd ≤ pagingMaxPgn * pagingPagesz := by
  have hle := (s.alone_pages_le (S := S) p).trans (htable p)
  obtain ⟨d, hd⟩ := Alone.after_aligned (s.ran S p)
  rw [alone] at hle ⊢
  simp only [pagingPagesz]
  omega

theorem alone_congr (h : s'.sys.executed = s.sys.executed) : s'.alone S = s.alone S := by
  funext p
  rw [alone, alone, ran_congr h]

theorem alone_executes {k : ℕ} {x : Inst} {ins : Instruction} (ho : s.sys.InOrder S.config)
    (before : (s.sys.cpu c).point = .execute p k x) (inst : (S.code p)[k]? = some ins)
    (hex : s'.sys.executed = Function.update s.sys.executed p (s.sys.executed p ++ [k])) :
    s'.alone S = Function.update (s.alone S) p ((s.alone S p).run ins) := by
  funext q
  rw [alone, ran_executes ho before inst hex]
  by_cases hq : q = p
  · subst hq
    rw [Function.update_self, Function.update_self, Alone.after_concat]
    rfl
  · rw [Function.update_of_ne hq, Function.update_of_ne hq]
    rfl

theorem alone_of_idle {ins : Instruction} (hrun : (s.alone S p).run ins = s.alone S p)
    (halone : s'.alone S = Function.update (s.alone S) p ((s.alone S p).run ins)) :
    s'.alone S = s.alone S := by
  rw [halone, hrun, Function.update_eq_self]

theorem run_of_call {ins : Instruction} (h : ins.call = none) (a : Alone) : a.run ins = a := by
  rcases hop : ins.opcode with _ | _ | _ | _ | _ | _
  all_goals simp only [Instruction.call, hop, reduceCtorEq] at h
  all_goals simp only [Alone.run, hop]

theorem run_killall {ins : Instruction} (h : ins.inst.isKillall = true) (a : Alone) :
    a.run ins = a := by
  have hop : ins.opcode = .SYSCALL := of_decide_eq_true (Bool.and_eq_true_iff.mp h).1
  simp only [Alone.run, hop]

namespace Isolated
variable (h : s.Isolated S nr ns)
include h

theorem mm_of_owner (hp : (s.sys.cpu c).point.owner = some p) : ∃ mm, s.mem.mm p = some mm :=
  Option.isSome_iff_exists.mp ((h.living p).mpr
    ⟨h.custody.arrived_of_owner hp, h.custody.not_released_of_owner hp⟩)

theorem not_arrived {i : Fin n} (hi : s.sys.loader.point = .add i) :
    s.mem.mm i = none ∧ s.alone S i = .init := by
  have harr : s.sys.arrived i = 0 := System.arrived_next (by rw [hi]; rfl)
  constructor
  · have hno := mt (h.living i).mp
    rw [harr] at hno
    simpa using hno (by simp)
  · rw [alone, ran, h.inOrder.fresh i harr]
    rfl

theorem afterRead (hfits : ∀ q, (s.alone S q).area.vmEnd ≤ pagingMaxPgn * pagingPagesz)
    (hp : (s.sys.cpu c).point.owner = some p) (memrg : BitVec 32) {i : ℕ}
    (hi : i < procNameRounds) :
    (s.mem.afterRead p memrg i).Mirrors nr ns (s.alone S) := by
  obtain ⟨mm, hmm⟩ := h.mm_of_owner hp
  have hmir := h.mirrors.read (a := s.alone S p) hmm
    (by rw [Function.update_eq_self]; exact hfits) ⟨rfl, rfl, rfl⟩ memrg (BitVec.ofNat 32 i)
  rw [Function.update_eq_self] at hmir
  rw [Kernel.afterRead_eq_step _ _ _ (hi.trans (by decide))]
  exact hmir

theorem step (hpriv : S.Private) (htable : ∀ p, Alone.pages (S.code p) ≤ pagingMaxPgn)
    {a : MachineAction n m} (hfed : ∀ c, a = .cpu c → ¬ s.Starves S c)
    (hn : Stepped S s a s') : s'.Isolated S nr ns := by
  have hord := h.toOrderly.step hn
  have hfits := alone_fits htable s
  have hfits' := alone_fits htable s'
  suffices hmem : s'.mem.Mirrors nr ns (s'.alone S) ∧
      ∀ p r x, (s'.alone S p).regs r = some x → s'.regs p r = x from ⟨hord, hmem.1, hmem.2⟩
  cases hn with
  | moves next quiet =>
    rw [alone_congr quiet.executed]
    exact ⟨h.mirrors, h.regs⟩
  | creates before next harr hrel hex =>
    rw [alone_congr hex]
    obtain ⟨hnone, hinit⟩ := h.not_arrived before
    exact ⟨h.mirrors.create hfits hnone hinit, h.regs⟩
  | releases before next harr hrel hex =>
    rw [alone_congr hex]
    exact ⟨h.mirrors.release hfits _, h.regs⟩
  | @runs c p k x ins sys before inst plain own next harr hrel hex =>
    have halone : ({ s.run p ins with sys := sys } : Machine n m).alone S =
        Function.update (s.alone S) p ((s.alone S p).run ins) :=
      alone_executes h.inOrder before inst hex
    rcases hcall : ins.call with _ | i
    · have hstay : ({ s.run p ins with sys := sys } : Machine n m).alone S = s.alone S :=
        alone_of_idle (run_of_call hcall _) halone
      rw [hstay]
      simp only [Machine.run, hcall]
      exact ⟨h.mirrors, h.regs⟩
    · rw [halone] at hfits' ⊢
      obtain ⟨mm, hmm⟩ := h.mm_of_owner (by rw [before]; rfl)
      have hno : ¬ (s.mem.caller mm).Starves i :=
        fun hs => hfed c rfl ⟨p, k, x, ins, i, mm, before, inst, hcall, hmm, hs⟩
      simp only [Machine.run, hcall]
      refine ⟨h.mirrors.run hmm hcall hfits' hno, fun q r y hy => ?_⟩
      by_cases hq : q = p
      · subst hq
        rw [Function.update_self] at hy ⊢
        exact h.mirrors.regs_after hmm hcall (h.regs q) hno r y hy
      · rw [Function.update_of_ne hq] at hy ⊢
        exact h.regs q r y hy
  | maps before inst memmap => exact absurd memmap (hpriv _ _ (List.mem_of_getElem? inst))
  | returns before inst memmap => exact absurd memmap (hpriv _ _ (List.mem_of_getElem? inst))
  | reads before inst killall more =>
    exact ⟨h.afterRead hfits (by rw [before]; rfl) _ more, h.regs⟩
  | @calls c p k x ins sys mem before inst killall rounds next harr hrel hex =>
    have halone : ({ s with
        sys := sys, mem := mem, procName := Function.update s.procName c [] } :
          Machine n m).alone S = s.alone S :=
      alone_of_idle (run_killall killall _) (alone_executes h.inOrder before inst hex)
    rw [halone]
    refine ⟨?_, h.regs⟩
    rcases rounds with rfl | ⟨more, rfl⟩
    · exact h.mirrors
    · exact h.afterRead hfits (by rw [before]; rfl) _ more

theorem fed (hfit : RoomFor S.codes nr ns) {mm : Mm} (hp : s.mem.mm p = some mm) {i : Instr}
    (hnext : ∀ size regIndex, i = .alloc size regIndex →
      ∃ k, s.ran S p = (S.code p).take k ∧
        (s.alone S p).alloc size regIndex = .after ((S.code p).take (k + 1)))
    (hgrow : ∀ vmaid incSz, i ≠ .grow vmaid incSz) : ¬ (s.mem.caller mm).Starves i := by
  have hram := hfit.ram _ (S.mem_codes p)
  have hswap := hfit.swap
  rw [S.sum_codes] at hram hswap
  refine h.mirrors.fed hp s.alone_pages_le hram hswap (fun hpos => Alone.largest_pos hpos)
    fun hw hr => ?_
  cases i with
  | free => exact hw.elim
  | read => exact hw.elim
  | write => exact hw.elim
  | grow vmaid incSz => exact absurd rfl (hgrow vmaid incSz)
  | alloc size regIndex =>
    obtain ⟨k, hran, halloc⟩ := hnext size regIndex rfl
    have hend := Alone.Agrees.alloc_vmEnd (c := s.mem.caller mm) (h.mirrors.housed hp) hw hr
    have hnow : (s.alone S p).area.vmEnd / 256 = Alone.pages ((S.code p).take k) := by
      rw [alone, hran]
      rfl
    have hsucc : ((s.alone S p).alloc size regIndex).area.vmEnd / 256 =
        Alone.pages ((S.code p).take (k + 1)) := by
      rw [halloc]
      rfl
    have hlargest := Alone.pages_take_succ_le (S.code p) k
    have hall := Alone.pages_take_le (S.code p) (k + 1)
    simp only [Instr.growth]
    omega

theorem fed_access (hfit : RoomFor S.codes nr ns) {mm : Mm} (hp : s.mem.mm p = some mm)
    {i : Instr} (hi : i.access.isSome) : ¬ (s.mem.caller mm).Starves i := by
  refine h.fed hfit hp ?_ ?_
  · rintro size regIndex rfl
    cases hi
  · rintro vmaid incSz rfl
    cases hi

theorem not_starves (hfit : RoomFor S.codes nr ns) (c : Fin m) : ¬ s.Starves S c := by
  rintro ⟨p, k, x, ins, i, mm, before, inst, hcall, hp, hs⟩
  have hlen : (s.sys.executed p).length = k := by
    rw [(h.inOrder.execute c p k x before).2, List.length_range]
  refine h.fed hfit hp (fun size regIndex hi => ⟨k, by rw [ran, hlen], ?_⟩) ?_ hs
  · have hrun : (s.alone S p).alloc size regIndex = (s.alone S p).run ins := by
      rcases hop : ins.opcode with _ | _ | _ | _ | _ | _
      all_goals simp only [Instruction.call, hop, hi, Option.some.injEq, reduceCtorEq] at hcall
      obtain ⟨rfl, rfl⟩ := Instr.alloc.inj hcall
      simp only [Alone.run, hop]
    rw [hrun, List.take_add_one, inst, alone, ran, hlen]
    exact (Alone.after_concat _ ins).symm
  · rintro vmaid incSz rfl
    rcases hop : ins.opcode with _ | _ | _ | _ | _ | _
    all_goals simp [Instruction.call, hop] at hcall

theorem results (hq : s.sys.Quiescent S.config) (p : Fin n) : (s.sys.proc p).killed = true ∨
    ∀ r x, (Alone.after (S.code p)).regs r = some x → s.regs p r = x := by
  refine (hq.fate p).imp_right fun hall => ?_
  have hcode : s.alone S p = Alone.after (S.code p) := by
    rw [alone, ran, hall, List.length_range, Setup.config, List.length_map, List.take_length]
  rw [← hcode]
  exact h.regs p

end Isolated

theorem Isolated.run_fed (hpriv : S.Private)
    (htable : ∀ p, Alone.pages (S.code p) ≤ pagingMaxPgn) (hram : framesOf memramsz ≤ 8192)
    (hswp : framesOf (memswpsz 0) ≤ 2 ^ 21)
    (h : Run (NextFed S) (start memramsz memswpsz) as s) :
    s.Isolated S (framesOf memramsz) (framesOf (memswpsz 0)) :=
  h.invariant _ (isolated_start hram hswp)
    fun _ _ _ hs hn => hs.step hpriv htable hn.1 (step_cases hn.2)

theorem Isolated.run (hpriv : S.Private) (hram : framesOf memramsz ≤ 8192)
    (hswp : framesOf (memswpsz 0) ≤ 2 ^ 21)
    (hfit : RoomFor S.codes (framesOf memramsz) (framesOf (memswpsz 0)))
    (h : Run (Next S) (start memramsz memswpsz) as s) :
    s.Isolated S (framesOf memramsz) (framesOf (memswpsz 0)) :=
  h.invariant _ (isolated_start hram hswp) fun _ _ _ hs hn =>
    hs.step hpriv (fun p => hfit.table _ (S.mem_codes p)) (fun c _ => hs.not_starves hfit c)
      (step_cases hn)

theorem run_fed_of_room (hpriv : S.Private) (hram : framesOf memramsz ≤ 8192)
    (hswp : framesOf (memswpsz 0) ≤ 2 ^ 21)
    (hfit : RoomFor S.codes (framesOf memramsz) (framesOf (memswpsz 0)))
    (h : Run (Next S) (start memramsz memswpsz) as s) :
    Run (NextFed S) (start memramsz memswpsz) as s := by
  induction h with
  | nil => exact .nil
  | snoc hrun hn ih =>
    have hiso := Isolated.run hpriv hram hswp hfit hrun
    exact .snoc ih ⟨fun c _ => hiso.not_starves hfit c, hn⟩

/-- Swapping is invisible. Whatever the other processes do, however the threads are
interleaved and wherever the pages are, a process has the regions, the bytes and the
registers that the instructions it has executed give it by itself, as long as no
instruction starves. -/
theorem run_isolated (S : Setup n) (hpriv : S.Private)
    (htable : ∀ p, Alone.pages (S.code p) ≤ pagingMaxPgn) (hram : framesOf memramsz ≤ 8192)
    (hswp : framesOf (memswpsz 0) ≤ 2 ^ 21)
    (h : Run (NextFed S) (start memramsz memswpsz) as s) (p : Fin n) :
    let a := Alone.after ((S.code p).take (s.sys.executed p).length)
    (∀ r x, a.regs r = some x → s.regs p r = x) ∧
    ∀ mm, s.mem.mm p = some mm →
      mm.mmap = [a.area] ∧ mm.symrgtbl = a.symrgtbl ∧
      ∀ source offset,
        match a.address source offset with
        | none => (s.mem.step (.exec p (.read source offset))).1 = .failed
        | some va => (s.mem.caller mm).Starves (.read source offset) ∨
            ∃ b, (s.mem.step (.exec p (.read source offset))).1 = .byte b ∧
              ∀ b', a.bytes va = some b' → b = b' := by
  have hiso := Isolated.run_fed hpriv htable hram hswp h
  refine ⟨hiso.regs p, fun mm hp => ?_⟩
  have hagrees := hiso.mirrors.agrees p mm hp
  exact ⟨hagrees.mmap, hagrees.symrgtbl, hiso.mirrors.read_outcome hp⟩

/-- If the devices have room for the programs, no instruction of any run starves: an ALLOC
gets its frames and an access gets its page, from the free list or by moving pages of the
process itself to swap, whatever the other processes hold. -/
theorem run_never_starves (S : Setup n) (hpriv : S.Private) (hram : framesOf memramsz ≤ 8192)
    (hswp : framesOf (memswpsz 0) ≤ 2 ^ 21)
    (hfit : RoomFor S.codes (framesOf memramsz) (framesOf (memswpsz 0)))
    (h : Run (Next S) (start memramsz memswpsz) as s) :
    (∀ c, ¬ s.Starves S c) ∧
    ∀ p mm, s.mem.mm p = some mm → ∀ i, i.access.isSome →
      ((s.mem.step (.exec p i)).1 = .failed ↔
        ∀ rgid offset, i.access = some (rgid, offset) →
          ∀ va, ¬ (s.mem.caller mm).Accesses rgid.toInt offset.toInt va) := by
  have hiso := Isolated.run hpriv hram hswp hfit h
  refine ⟨hiso.not_starves hfit, fun p mm hp i hi => ?_⟩
  have hfed := hiso.fed_access hfit hp hi
  have hhoused : Housed (s.mem.caller mm).mm (s.alone S p).area := hiso.mirrors.housed hp
  rw [Kernel.step_exec hp, hhoused.failed_iff, or_iff_left hfed]
  cases i with
  | read source offset => simp [Pcb.Refused, Instr.access]
  | write data destination offset => simp [Pcb.Refused, Instr.access]
  | _ => cases hi

def oneSwapper : Setup 1 where
  timeSlot := 5
  timeSlot_pos := by decide
  startTime _ := 0
  prio _ := 0
  path _ := ['p']
  code _ :=
    [⟨.ALLOC, fun i => if i.val = 0 then 256 else 0⟩,
      ⟨.WRITE, fun i => if i.val = 0 then 7 else 0⟩,
      ⟨.ALLOC, fun i => if i.val = 0 then 256 else 1⟩,
      ⟨.ALLOC, fun i => if i.val = 0 then 256 else 2⟩,
      ⟨.READ, fun i => if i.val = 2 then 3 else 0⟩]

def oneFrame : Machine 1 1 := start 256 fun _ => 768

def oneSwapperRun (k : ℕ) : List (MachineAction 1 1) × Machine 1 1 :=
  Run.greedy (step oneSwapper) [.loader, .cpu ⟨0, Nat.one_pos⟩] k ([], oneFrame)

theorem oneSwapperRun_run (k : ℕ) :
    Run (Next oneSwapper) oneFrame (oneSwapperRun k).1 (oneSwapperRun k).2 := Run.of_greedy k .nil

theorem oneSwapper_private : oneSwapper.Private := by
  intro p ins hins hcall
  have hop : ins.opcode ≠ .SYSCALL := by
    simp only [oneSwapper, List.mem_cons, List.not_mem_nil, or_false] at hins
    rcases hins with rfl | rfl | rfl | rfl | rfl <;> simp
  exact hop hcall.1

theorem oneSwapper_room : RoomFor oneSwapper.codes (framesOf 256) (framesOf 768) := by
  decide +kernel

/-- The byte has been in swap between the write and the read. -/
theorem run_isolated_oneSwapper :
    ∃ as s, Run (NextFed oneSwapper) oneFrame as s ∧ s.regs ⟨0, Nat.one_pos⟩ 3 = 7 := by
  have hlen : ((oneSwapperRun 43).2.sys.executed ⟨0, Nat.one_pos⟩).length = 5 := by decide +kernel
  have hrun := run_fed_of_room oneSwapper_private (by decide) (by decide) oneSwapper_room
    (oneSwapperRun_run 43)
  have hiso := run_isolated oneSwapper oneSwapper_private (by decide +kernel) (by decide)
    (by decide) hrun ⟨0, Nat.one_pos⟩
  refine ⟨_, _, hrun, hiso.1 3 7 ?_⟩
  rw [hlen]
  decide +kernel

/-- Before the read the page is in swap and no frame is free. -/
theorem run_never_starves_oneSwapper :
    ∃ as s mm, Run (Next oneSwapper) oneFrame as s ∧ s.mem.mm ⟨0, Nat.one_pos⟩ = some mm ∧
      Swapped (mm.pgd 0) ∧ s.mem.mram.freeFpList = [] ∧ ¬ s.Starves oneSwapper ⟨0, Nat.one_pos⟩ ∧
      (s.mem.step (.exec ⟨0, Nat.one_pos⟩ (.read 0 0))).1 ≠ .failed := by
  have hmm : ((oneSwapperRun 42).2.mem.mm ⟨0, Nat.one_pos⟩).map (fun mm =>
      (mm.symrgtbl 0, decide (Swapped (mm.pgd 0)))) = some (⟨0, 256⟩, true) := by decide +kernel
  have hfree : (oneSwapperRun 42).2.mem.mram.freeFpList = [] := by decide +kernel
  obtain ⟨mm, hp, hval⟩ := Option.map_eq_some_iff.mp hmm
  obtain ⟨hsym, hsw⟩ := Prod.mk.inj hval
  obtain ⟨hfed, hfail⟩ := run_never_starves oneSwapper oneSwapper_private (by decide) (by decide)
    oneSwapper_room (oneSwapperRun_run 42)
  refine ⟨_, _, mm, oneSwapperRun_run 42, hp, of_decide_eq_true hsw, hfree, hfed _, fun hf => ?_⟩
  refine (hfail _ mm hp (.read 0 0) rfl).mp hf 0 0 rfl 0 ⟨0, by decide, by decide, ?_, ?_⟩
  · simp only [Kernel.caller, hsym]
    decide
  · simp only [Kernel.caller, hsym]
    decide

/-- The result of a machine: once the deadline of the threads is over, every process that
was not killed has in its registers what its program computes by itself. -/
theorem run_results (S : Setup n) (hn : n ≤ maxQueueSize) (hm : 0 < m) (hpriv : S.Private)
    (hram : framesOf memramsz ≤ 8192) (hswp : framesOf (memswpsz 0) ≤ 2 ^ 21)
    (hfit : RoomFor S.codes (framesOf memramsz) (framesOf (memswpsz 0)))
    (h : Run (NextInStep S) (start memramsz memswpsz) as s)
    (hlate : System.deadline S.config < s.sys.time) (p : Fin n) :
    (s.sys.proc p).killed = true ∨
      ∀ r x, (Alone.after (S.code p)).regs r = some x → s.regs p r = x := by
  have hiso := Isolated.run hpriv hram hswp hfit (h.mono fun _ _ _ hn => hn.2)
  obtain ⟨bs, hrun⟩ := run_sys_inStep h
  have ht := System.Timely.run hn hm hrun
  exact hiso.results (ht.quiescent (ht.deadline hlate)) p

def twoWriters : Setup 2 where
  timeSlot := 3
  timeSlot_pos := by decide
  startTime _ := 0
  prio _ := 0
  path _ := ['p']
  code p :=
    [⟨.ALLOC, fun i => if i.val = 0 then 300 else 0⟩,
      ⟨.WRITE, fun i => if i.val = 0 then 7 + BitVec.ofNat 32 p else if i.val = 2 then 299 else 0⟩,
      ⟨.READ, fun i => if i.val = 1 then 299 else if i.val = 2 then 3 else 0⟩]

/-- Both run on one CPU, the second between the first and its end; the clock goes on. -/
def twoWritersLate : List (MachineAction 2 1) :=
  let cpu (k : ℕ) : List (MachineAction 2 1) := List.replicate k (.cpu ⟨0, Nat.one_pos⟩)
  let loader (k : ℕ) : List (MachineAction 2 1) := List.replicate k .loader
  List.flatten [List.replicate 8 .tick, cpu 7, [.tick], cpu 8, [.tick], cpu 8, [.tick], cpu 11,
    [.tick], cpu 8, loader 3, [.tick], cpu 8, loader 4, [.tick], cpu 6, loader 3]

def fourFrames : Machine 2 1 := start 1024 fun _ => 256

theorem twoWriters_private : twoWriters.Private := by
  intro p ins hins hcall
  have hop : ins.opcode ≠ .SYSCALL := by
    simp only [twoWriters, List.mem_cons, List.not_mem_nil, or_false] at hins
    rcases hins with rfl | rfl | rfl <;> simp
  exact hop hcall.1

theorem run_results_twoWriters :
    ∃ s, Run (NextInStep twoWriters) fourFrames twoWritersLate s ∧
      ∀ p, (s.sys.proc p).killed = true ∨ s.regs p 3 = 7 + BitVec.ofNat 32 p := by
  have hplay : (fourFrames.playInStep twoWriters twoWritersLate).map (·.sys.time) = some 14 := by
    decide +kernel
  obtain ⟨s, hs, htime⟩ := Option.map_eq_some_iff.mp hplay
  have hrun := run_of_playInStep hs
  refine ⟨s, hrun, fun p => ?_⟩
  have halone : ∀ q, (Alone.after (twoWriters.code q)).regs 3 = some (7 + BitVec.ofNat 32 q) := by
    decide +kernel
  have hres := run_results twoWriters (by decide) (by decide) twoWriters_private (by decide)
    (by decide) (.of_ram _ (by decide +kernel) (by decide)) hrun (by rw [htime]; decide) p
  exact hres.imp_right fun hall => hall 3 _ (halone p)

end Machine
end OSsim
