import OSsim.Access
import OSsim.Tampering
import OSsim.KillByName

/-!
# The name that a killall acts on

`__sys_killall` fetches the name byte by byte with `__read`. Each of these calls takes
`mmvm_lock` for itself, so other processes may run between two of them, and each may move
pages of the caller. The loop stops where a call fails: at the end of the region, as its
comment says, but also where the page of the next byte cannot be brought into RAM. The
name it acts on is then the part of the stored name before that byte.
-/

namespace OSsim

def textOf (name : List Byte) : List Char := name.map fun b => Char.ofNat b.toNat

def inName (b : Byte) : Bool := ¬ (b = 0 ∨ b = -1)

/-- Byte `i` of region `memrg` is in this page of the process. -/
def Mm.regionPage (mm : Mm) (memrg : ℤ) (i : ℕ) : ℕ :=
  match symIndex memrg with
  | none => 0
  | some r => ((mm.symrgtbl r).rgStart + i) / 256

namespace Pcb
variable (c : Pcb)

def regionBytes (memrg : ℤ) : List Byte :=
  match symIndex memrg with
  | none => []
  | some r =>
    let rg := c.mm.symrgtbl r
    (List.range (rg.rgEnd - rg.rgStart)).map fun i =>
      c.pageByte ((rg.rgStart + i) / 256) ((rg.rgStart + i) % 256)

def storedName (memrg : ℤ) : List Byte :=
  ((c.regionBytes memrg).take procNameRounds).takeWhile inName

end Pcb

namespace Kernel
variable {ι : Type*} [DecidableEq ι]

/-- What `__read` of byte `i` stores in `data`. -/
def byteRead (s : Kernel ι) (p : ι) (memrg : BitVec 32) (i : ℕ) : Option Byte :=
  (s.mm p).bind fun mm => ((s.caller mm).read 0 memrg.toInt i).1

def afterRead (s : Kernel ι) (p : ι) (memrg : BitVec 32) (i : ℕ) : Kernel ι :=
  match s.mm p with
  | none => s
  | some mm => s.commit p ((s.caller mm).read 0 memrg.toInt i).2

/-- The loop of `__sys_killall` when it finds the system in state `turn i` in round `i`. -/
def nameRead (turn : ℕ → Kernel ι) (p : ι) (memrg : BitVec 32) : ℕ → ℕ → List Byte
  | 0, _ => []
  | n + 1, i =>
    match (turn i).byteRead p memrg i with
    | none => []
    | some data => if data = 0 ∨ data = -1 then [] else data :: nameRead turn p memrg n (i + 1)

/-- The states that the rounds of a call from `s` find: between two of them other processes
take steps, which leave the memory of the caller alone. -/
structure Turns (s : Kernel ι) (p : ι) (memrg : BitVec 32) (turn : ℕ → Kernel ι) : Prop where
  first : turn 0 = s
  next : ∀ i, ∃ ops, Run NextSys ((turn i).afterRead p memrg i) ops (turn (i + 1)) ∧
    Spares ((turn i).afterRead p memrg i) (turn (i + 1)) p

def turnsAlone (s : Kernel ι) (p : ι) (memrg : BitVec 32) : ℕ → Kernel ι
  | 0 => s
  | i + 1 => (turnsAlone s p memrg i).afterRead p memrg i

def Reaches (s : Kernel ι) (p : ι) (memrg : BitVec 32) (i : ℕ) : Prop :=
  ∃ mm, s.mm p = some mm ∧ s.Loadable mm (mm.regionPage memrg.toInt i)

/-- Byte `j` of a name of length `n` is the first one that its round does not reach. -/
def CutAt (turn : ℕ → Kernel ι) (p : ι) (memrg : BitVec 32) (n j : ℕ) : Prop :=
  j < n ∧ ¬ (turn j).Reaches p memrg j ∧ ∀ i < j, (turn i).Reaches p memrg i

/-- `__sys_killall`: what `kill_proc_by_name` does, and the memory when its victims have
been released. -/
def sysKillall (s : Kernel ι) (sched : Sched ι) (path : ι → List Char) (prio : ι → ℕ) (p : ι)
    (mm : Mm) (memrg : BitVec 32) : Sched.Killed ι × Kernel ι :=
  let r := (s.caller mm).procName memrg.toInt procNameRounds 0
  let k := sched.killProcByName path prio (textOf r.1) p
  (k, k.victims.foldl (fun s v => (s.step (.release v)).2) (s.commit p r.2))

theorem sysKillall_eq_syscall {s : Kernel ι} {p : ι} {mm : Mm} (hp : s.mm p = some mm)
    (sched : Sched ι) (path : ι → List Char) (prio : ι → ℕ) (junk : ℕ → Byte)
    (memrg a2 a3 : BitVec 32) :
    (s.sysKillall sched path prio p mm memrg).2 =
      s.syscall (fun name => (sched.killProcByName path prio (textOf name) p).victims) junk p 101
        memrg a2 a3 := by
  have hentry : SyscallEntry.ofNr 101 = .killall := rfl
  simp only [syscall, hp, hentry, sysKillall]

end Kernel

namespace Pcb
variable {c c' : Pcb} {k f x : ℕ}

theorem swappedIn_supply {pte : Pte} (ht : pagingPteSwptyp pte = activeMswpId) :
    (c.swappedIn pte k f).supply = c.supply + 1 := by
  simp only [supply, swappedIn, ht, Function.update_self, Memphy.putFreefp,
    swapCpPage_fst_freeFpList, swapCpPage_snd_freeFpList, Mm.mapPage, Mm.setPte, Mm.enlistPgnNode,
    List.length_cons]
  omega

theorem Fault.supply (hf : Fault c k (some x) c')
    (ht : ∀ j, Swapped (c.mm.pgd j) → pagingPteSwptyp (c.mm.pgd j) = activeMswpId) :
    c'.supply = c.supply ∧ (c.supply = 0 → c'.mm = c.mm) := by
  generalize hr : some x = r at hf
  cases hf with
  | unmapped => cases hr
  | stuck => cases hr
  | resident => exact ⟨rfl, fun _ => rfl⟩
  | loaded _ hsw hgr =>
    have hs := hgr.supply
    rw [swappedIn_supply (ht k hsw)]
    exact ⟨hs, fun hz => by omega⟩

theorem pgGetval_supply {addr : ℤ} (hb : (c.pgGetval addr).1.isSome)
    (ht : ∀ j, Swapped (c.mm.pgd j) → pagingPteSwptyp (c.mm.pgd j) = activeMswpId) :
    (c.pgGetval addr).2.supply = c.supply ∧
      (c.supply = 0 → (c.pgGetval addr).2.mm = c.mm) := by
  have hf := c.pgGetpage_cases (pagingPgn addr)
  rcases hr : c.pgGetpage (pagingPgn addr) with ⟨_ | x, c1⟩
  · rw [pgGetval_isSome, hr] at hb
    cases hb
  · rw [hr] at hf
    obtain ⟨hs, hm⟩ := hf.supply ht
    simp only [pgGetval, hr]
    refine ⟨?_, hm⟩
    rw [← hs]
    simp only [supply, Memphy.read_freeFpList]

theorem regionBytes_length (c : Pcb) {memrg : ℤ} {r : Fin pagingMaxSymtblSz}
    (hr : symIndex memrg = some r) :
    (c.regionBytes memrg).length = (c.mm.symrgtbl r).rgEnd - (c.mm.symrgtbl r).rgStart := by
  simp only [regionBytes, hr, List.length_map, List.length_range]

end Pcb

theorem Space.read_eq {c : Pcb} {v : VmArea} (h : Space c.mm v) {memrg : ℤ}
    {r : Fin pagingMaxSymtblSz} (hr : symIndex memrg = some r) {i : ℕ} (hi : i < 2 ^ 31) :
    c.read 0 memrg i =
      if (c.mm.symrgtbl r).rgStart + i < (c.mm.symrgtbl r).rgEnd then
        c.pgGetval (((c.mm.symrgtbl r).rgStart + i : ℕ) : ℤ)
      else (none, c) := by
  have hz : toULong 0 = 0 := rfl
  obtain ⟨ha, hb⟩ := h.access_address hr (Int.natCast_nonneg i) (by omega)
  rw [Int.toNat_natCast] at ha hb
  simp only [Pcb.read, hr, h.getVmaByNum, if_pos hz, ha]
  by_cases hlt : (c.mm.symrgtbl r).rgStart + i < (c.mm.symrgtbl r).rgEnd
  · rw [if_pos hlt, if_neg (by omega), (hb hlt).1]
  · rw [if_neg hlt, if_pos (by omega)]

namespace Kernel
variable {ι : Type*} [DecidableEq ι]

/-- The symbols of `p` are the same, and so are its allocated bytes; its pages may be
elsewhere. -/
def Retains (s s' : Kernel ι) (p : ι) : Prop :=
  ∀ mm, s.mm p = some mm → ∃ mm', s'.mm p = some mm' ∧ mm'.symrgtbl = mm.symrgtbl ∧
    ∀ va, mm.Allocated va →
      (s'.caller mm').pageByte (va / 256) (va % 256) = (s.caller mm).pageByte (va / 256) (va % 256)

omit [DecidableEq ι] in
theorem Retains.trans {s s' s'' : Kernel ι} {p : ι} (h : Retains s s' p) (h' : Retains s' s'' p) :
    Retains s s'' p := by
  intro mm hp
  obtain ⟨mm', hp', hsym, hbytes⟩ := h mm hp
  obtain ⟨mm'', hp'', hsym', hbytes'⟩ := h' mm' hp'
  refine ⟨mm'', hp'', hsym'.trans hsym, fun va hva => ?_⟩
  have hva' : mm'.Allocated va := by
    rw [Mm.Allocated, hsym]
    exact hva
  exact (hbytes' va hva').trans (hbytes va hva)

omit [DecidableEq ι] in
theorem Spares.retains {s s' : Kernel ι} {p : ι} (h : Spares s s' p) : Retains s s' p :=
  fun mm hp => ⟨mm, h.mm.trans hp, rfl, h.bytes mm hp⟩

omit [DecidableEq ι] in
theorem Retains.regionBytes {s s' : Kernel ι} {p : ι} {mm mm' : Mm} (h : Retains s s' p)
    (hp : s.mm p = some mm) (hp' : s'.mm p = some mm') (memrg : ℤ) :
    (s'.caller mm').regionBytes memrg = (s.caller mm).regionBytes memrg ∧
      ∀ i, mm'.regionPage memrg i = mm.regionPage memrg i := by
  obtain ⟨mm₁, hp₁, hsym, hbytes⟩ := h mm hp
  rw [hp', Option.some.injEq] at hp₁
  subst hp₁
  refine ⟨?_, fun i => by simp only [Mm.regionPage, hsym]⟩
  simp only [Pcb.regionBytes, caller, hsym]
  rcases hr : symIndex memrg with _ | r
  · rfl
  · apply List.map_congr_left
    intro i hi
    rw [List.mem_range] at hi
    exact hbytes _ ⟨r, by omega, by omega⟩

section
variable [Fintype ι] {nr ns : ℕ} {s : Kernel ι} {p : ι} {mm : Mm} {memrg : BitVec 32} {i : ℕ}

omit [DecidableEq ι] in
theorem Inv.byteRead_outside (h : Inv nr ns s) (hp : s.mm p = some mm) (hi : i < 2 ^ 31)
    (hout : ((s.caller mm).regionBytes memrg.toInt)[i]? = none) :
    s.byteRead p memrg i = none := by
  obtain ⟨v, hv⟩ := h.housed p mm hp
  have hs : Space (s.caller mm).mm v := hv.packed.space
  simp only [byteRead, hp, Option.bind_some]
  rcases hr : symIndex memrg.toInt with _ | r
  · simp only [Pcb.read, hr]
  · rw [List.getElem?_eq_none_iff, Pcb.regionBytes_length _ hr] at hout
    rw [hs.read_eq hr hi, if_neg (by omega)]

theorem Inv.byteRead_inside (h : Inv nr ns s) (hp : s.mm p = some mm) (hi : i < 2 ^ 31) {b : Byte}
    (hin : ((s.caller mm).regionBytes memrg.toInt)[i]? = some b) :
    (s.Reaches p memrg i → s.byteRead p memrg i = some b) ∧
      (¬ s.Reaches p memrg i → s.byteRead p memrg i = none) := by
  obtain ⟨v, hv⟩ := h.housed p mm hp
  have hv' : Housed (s.caller mm).mm v := hv
  rcases hr : symIndex memrg.toInt with _ | r
  · simp [Pcb.regionBytes, hr] at hin
  obtain ⟨hlt, hb⟩ := List.getElem?_eq_some_iff.mp hin
  rw [Pcb.regionBytes_length _ hr] at hlt
  have ha : (s.caller mm).Accesses memrg.toInt i ((mm.symrgtbl r).rgStart + i) :=
    ⟨r, hr, by omega, rfl, by simp only [caller] at hlt ⊢; omega⟩
  have hreach : s.Reaches p memrg i ↔ s.Loadable mm (((mm.symrgtbl r).rgStart + i) / 256) := by
    simp only [Reaches, Mm.regionPage, hr, hp, Option.some.injEq]
    exact ⟨fun hex => by obtain ⟨_, rfl, hl⟩ := hex; exact hl, fun hl => ⟨mm, rfl, hl⟩⟩
  have hbyte : b = (s.caller mm).pageByte (((mm.symrgtbl r).rgStart + i) / 256)
      (((mm.symrgtbl r).rgStart + i) % 256) := by
    rw [← hb]
    simp only [Pcb.regionBytes, hr, List.getElem_map, List.getElem_range, caller]
  have hread : (s.caller mm).read 0 memrg.toInt i =
      (s.caller mm).pgGetval (((mm.symrgtbl r).rgStart + i : ℕ) : ℤ) := by
    rw [hv'.packed.space.read_eq hr hi, if_pos (by simp only [caller] at hlt ⊢; omega)]
    rfl
  have hsome := (Pcb.pgGetval_isSome (c := s.caller mm) _).trans (h.fault_isSome_iff hp ha)
  obtain ⟨hpg, hoff, _⟩ := hv'.access_page ha
  obtain ⟨_, _, _, hval⟩ := (h.frameInv hp).pgGetval (((mm.symrgtbl r).rgStart + i : ℕ) : ℤ)
  simp only [byteRead, hp, Option.bind_some, hread, hreach, ← hsome]
  constructor
  · intro hs
    obtain ⟨b', hb'⟩ := Option.isSome_iff_exists.mp hs
    rw [hb', hval b' hb', hpg, hoff, hbyte]
  · intro hs
    exact Option.not_isSome_iff_eq_none.mp hs

theorem Inv.afterRead (h : Inv nr ns s) (p : ι) (memrg : BitVec 32) (hi : i < 2 ^ 31) :
    Inv nr ns (s.afterRead p memrg i) ∧ Retains s (s.afterRead p memrg i) p := by
  rcases hp : s.mm p with _ | mm
  · have hidle : s.afterRead p memrg i = s := by simp only [Kernel.afterRead, hp]
    rw [hidle]
    exact ⟨h, fun mm hsome => by rw [hp] at hsome; cases hsome⟩
  have hoff : (BitVec.ofNat 32 i).toInt = i := toInt_ofNat_word hi
  have hinv := (h.read (q := p) hp memrg (BitVec.ofNat 32 i)).1
  simp only [Pcb.exec, hoff] at hinv
  obtain ⟨v, hv⟩ := h.housed p mm hp
  have hs : Space (s.caller mm).mm v := hv.packed.space
  have hcommit : s.afterRead p memrg i =
      s.commit p ((s.caller mm).read 0 memrg.toInt i).2 := by simp only [Kernel.afterRead, hp]
  rw [hcommit]
  refine ⟨hinv, fun mm₁ hp₁ => ⟨_, commit_mm_self _ _ _, ?_⟩⟩
  rw [hp, Option.some.injEq] at hp₁
  subst hp₁
  have hkept : ∀ addr : ℤ, ((s.caller mm).pgGetval addr).2.mm.symrgtbl = mm.symrgtbl ∧
      ∀ va, mm.Allocated va → ((s.caller mm).pgGetval addr).2.pageByte (va / 256) (va % 256) =
        (s.caller mm).pageByte (va / 256) (va % 256) := by
    intro addr
    obtain ⟨_, hk, hsh, _⟩ := (h.frameInv hp).pgGetval addr
    exact ⟨hsh.symrgtbl, fun va hva => hk.bytes _ (h.allocated hp hva) _ (Nat.mod_lt _ (by decide))⟩
  rcases hr : symIndex memrg.toInt with _ | r
  · have hsame : (s.caller mm).read 0 memrg.toInt i = (none, s.caller mm) := by
      simp only [Pcb.read, hr]
    rw [hsame]
    exact ⟨rfl, fun _ _ => rfl⟩
  · rw [hs.read_eq hr hi]
    split_ifs
    · exact hkept _
    · exact ⟨rfl, fun _ _ => rfl⟩

theorem Turns.retains {turn : ℕ → Kernel ι} (ht : Turns s p memrg turn) (h : Inv nr ns s)
    (i : ℕ) (hi : i < 2 ^ 31) :
    Inv nr ns (turn i) ∧ Retains s (turn i) p := by
  induction i with
  | zero =>
    rw [ht.first]
    exact ⟨h, fun mm hp => ⟨mm, hp, rfl, fun _ _ => rfl⟩⟩
  | succ i ih =>
    obtain ⟨hinv, hkeep⟩ := ih (by omega)
    obtain ⟨ops, hrun, hspare⟩ := ht.next i
    obtain ⟨hinv', hkeep'⟩ := hinv.afterRead p memrg (show i < 2 ^ 31 by omega)
    exact ⟨hrun.invariant _ hinv' Inv.sysStep, hkeep.trans (hkeep'.trans hspare.retains)⟩

theorem Turns.nameRead_eq {turn : ℕ → Kernel ι} (ht : Turns s p memrg turn) (h : Inv nr ns s)
    (hp : s.mm p = some mm) (n i m : ℕ) (hi : i + n < 2 ^ 31)
    (hreach : ∀ k < m, (turn (i + k)).Reaches p memrg (i + k))
    (hstop : m < ((((s.caller mm).regionBytes memrg.toInt).drop i).take n |>.takeWhile
      inName).length → ¬ (turn (i + m)).Reaches p memrg (i + m)) :
    nameRead turn p memrg n i =
      ((((s.caller mm).regionBytes memrg.toInt).drop i).take n |>.takeWhile inName).take m := by
  induction n generalizing i m with
  | zero => simp [nameRead]
  | succ n ih =>
    obtain ⟨hinv, hkeep⟩ := ht.retains h i (by omega)
    obtain ⟨mm', hp', _⟩ := hkeep mm hp
    have hbytes := (hkeep.regionBytes hp hp' memrg.toInt).1
    rw [nameRead]
    rcases hb : ((s.caller mm).regionBytes memrg.toInt)[i]? with _ | b
    · rw [← hbytes] at hb
      rw [hinv.byteRead_outside hp' (by omega) hb, ← hbytes,
        List.drop_eq_nil_of_le (List.getElem?_eq_none_iff.mp hb)]
      simp
    · obtain ⟨hlt, hget⟩ := List.getElem?_eq_some_iff.mp hb
      obtain ⟨hread, hlost⟩ := hinv.byteRead_inside hp' (by omega) (hbytes ▸ hb)
      rw [List.drop_eq_getElem_cons hlt, hget, List.take_succ_cons] at hstop ⊢
      by_cases hend : b = 0 ∨ b = -1
      · rw [List.takeWhile_cons_of_neg (by simp only [inName, hend]; decide)]
        by_cases hr : (turn i).Reaches p memrg i
        · rw [hread hr, List.take_nil]
          exact if_pos hend
        · rw [hlost hr, List.take_nil]
      · rw [List.takeWhile_cons_of_pos (by simp only [inName, hend]; decide)] at hstop ⊢
        cases m with
        | zero =>
          rw [hlost (hstop (by simp))]
          simp
        | succ m =>
          have hnext := ih (i + 1) m (by omega) ?_ ?_
          · rw [hread (hreach 0 (by omega))]
            simp only [hend, if_false, hnext, List.take_succ_cons]
          · intro k hk
            have := hreach (k + 1) (by omega)
            rwa [show i + 1 + k = i + (k + 1) by omega]
          · intro hm
            rw [show i + 1 + m = i + (m + 1) by omega]
            exact hstop (by simpa using hm)

theorem Turns.nameRead_take {turn : ℕ → Kernel ι} (ht : Turns s p memrg turn) (h : Inv nr ns s)
    (hp : s.mm p = some mm) {m : ℕ} (hreach : ∀ k < m, (turn k).Reaches p memrg k)
    (hstop : m < ((s.caller mm).storedName memrg.toInt).length → ¬ (turn m).Reaches p memrg m) :
    nameRead turn p memrg procNameRounds 0 = ((s.caller mm).storedName memrg.toInt).take m := by
  refine ht.nameRead_eq h hp procNameRounds 0 m (by decide) ?_ ?_
  · intro k hk
    rw [Nat.zero_add]
    exact hreach k hk
  · intro hm
    rw [Nat.zero_add]
    exact hstop hm

omit [Fintype ι] in
theorem turnsAlone_turns (s : Kernel ι) (p : ι) (memrg : BitVec 32) :
    Turns s p memrg (turnsAlone s p memrg) :=
  ⟨rfl, fun _ => ⟨[], .nil, Spares.refl _ _⟩⟩

omit [Fintype ι] in
theorem turnsAlone_succ {mm' : Mm} (hp : (turnsAlone s p memrg i).mm p = some mm') :
    turnsAlone s p memrg (i + 1) = (turnsAlone s p memrg i).commit p
      (((turnsAlone s p memrg i).caller mm').read 0 memrg.toInt i).2 := by
  simp only [turnsAlone, afterRead, hp]

omit [Fintype ι] in
theorem procName_eq_nameRead {mm' : Mm} (n i : ℕ)
    (hp : (turnsAlone s p memrg i).mm p = some mm') :
    (((turnsAlone s p memrg i).caller mm').procName memrg.toInt n i).1 =
      nameRead (turnsAlone s p memrg) p memrg n i := by
  induction n generalizing i mm' with
  | zero => rfl
  | succ n ih =>
    have hnext := turnsAlone_succ hp
    have hrec := ih (i + 1) (by rw [hnext]; exact commit_mm_self _ _ _)
    rw [hnext] at hrec
    simp only [Pcb.procName, nameRead, byteRead, hp, Option.bind_some]
    rcases hr : ((turnsAlone s p memrg i).caller mm').read 0 memrg.toInt i with ⟨_ | data, c⟩
    · rfl
    · rw [hr] at hrec
      dsimp only
      split_ifs
      · rfl
      · rw [← hrec]
        rfl

theorem Inv.supply_alone (h : Inv nr ns s) (hp : s.mm p = some mm) (i : ℕ) (hi : i < 2 ^ 31)
    (hlen : i ≤ ((s.caller mm).regionBytes memrg.toInt).length)
    (hreach : ∀ k < i, (turnsAlone s p memrg k).Reaches p memrg k) :
    ∃ mm', (turnsAlone s p memrg i).mm p = some mm' ∧
      ((turnsAlone s p memrg i).caller mm').supply = (s.caller mm).supply ∧
      ((s.caller mm).supply = 0 → mm' = mm) := by
  induction i with
  | zero => exact ⟨mm, hp, rfl, fun _ => rfl⟩
  | succ i ih =>
    obtain ⟨mm', hp', hsup, hsame⟩ := ih (by omega) (by omega) fun k hk => hreach k (by omega)
    obtain ⟨hinv, hkeep⟩ := (turnsAlone_turns s p memrg).retains h i (by omega)
    have hbytes := (hkeep.regionBytes hp hp' memrg.toInt).1
    obtain ⟨v, hv⟩ := hinv.housed p mm' hp'
    have hs : Space ((turnsAlone s p memrg i).caller mm').mm v := hv.packed.space
    have hnext := turnsAlone_succ hp'
    rcases hr : symIndex memrg.toInt with _ | r
    · simp [Pcb.regionBytes, hr] at hlen
    have hlt : i < (((turnsAlone s p memrg i).caller mm').regionBytes memrg.toInt).length := by
      rw [hbytes]
      omega
    have hread := (hinv.byteRead_inside hp' (by omega) (List.getElem?_eq_getElem hlt)).1
      (hreach i (by omega))
    rw [Pcb.regionBytes_length _ hr] at hlt
    simp only [byteRead, hp', Option.bind_some] at hread
    rw [hs.read_eq hr (by omega), if_pos (by omega)] at hread hnext
    obtain ⟨hsup', hsame'⟩ := Pcb.pgGetval_supply (Option.isSome_iff_exists.mpr ⟨_, hread⟩)
      (hinv.frameInv hp').swpTyp
    rw [hnext]
    refine ⟨_, commit_mm_self _ _ _, hsup'.trans hsup, fun hz => ?_⟩
    rw [hsame' (hsup.trans hz), ← hsame hz]
    rfl

theorem Inv.reaches_alone (h : Inv nr ns s) (hp : s.mm p = some mm) {i : ℕ} (hi : i < 2 ^ 31)
    (hlen : i ≤ ((s.caller mm).regionBytes memrg.toInt).length)
    (hreach : ∀ k < i, (turnsAlone s p memrg k).Reaches p memrg k) :
    (turnsAlone s p memrg i).Reaches p memrg i ↔ s.Reaches p memrg i := by
  obtain ⟨mm', hp', hsup, hsame⟩ := h.supply_alone hp i hi hlen hreach
  obtain ⟨hinv, hkeep⟩ := (turnsAlone_turns s p memrg).retains h i hi
  have hpage := (hkeep.regionBytes hp hp' memrg.toInt).2 i
  simp only [Reaches, hp, hp', Option.some.injEq, exists_eq_left', hinv.loadable_iff hp',
    h.loadable_iff hp, hpage, hsup]
  rcases Nat.eq_zero_or_pos (s.caller mm).supply with hz | hpos
  · rw [hsame hz]
  · simp only [hpos, or_true]

theorem Inv.cutAt_alone (h : Inv nr ns s) (hp : s.mm p = some mm) {n j : ℕ} (hn : n < 2 ^ 31)
    (hlen : n ≤ ((s.caller mm).regionBytes memrg.toInt).length) :
    CutAt (turnsAlone s p memrg) p memrg n j ↔ CutAt (fun _ => s) p memrg n j := by
  have hall : ∀ m ≤ n, (∀ i < m, (turnsAlone s p memrg i).Reaches p memrg i) ↔
      ∀ i < m, s.Reaches p memrg i := by
    intro m hm
    induction m with
    | zero => simp
    | succ m ih =>
      simp only [Nat.lt_succ_iff_lt_or_eq, or_imp, forall_and, forall_eq]
      rw [← ih (by omega)]
      exact and_congr_right fun hreach => h.reaches_alone hp (by omega) (by omega) hreach
  simp only [CutAt]
  refine and_congr_right fun hj => ?_
  rw [← hall j (by omega)]
  constructor
  · intro hc
    exact ⟨fun hr => hc.1 ((h.reaches_alone hp (by omega) (by omega) hc.2).mpr hr), hc.2⟩
  · intro hc
    exact ⟨fun hr => hc.1 ((h.reaches_alone hp (by omega) (by omega) hc.2).mp hr), hc.2⟩

end

def KillsNamed (sched : Sched ι) (path : ι → List Char) (k : Sched.Killed ι) (p : ι)
    (name : List Byte) : Prop :=
  ∀ q, q ∈ k.killed ↔ q ∈ sched.runningList.proc ∧ Sched.Matches path (textOf name) p q

def NobodyNamed (sched : Sched ι) (path : ι → List Char) (p : ι) (name : List Byte) : Prop :=
  ∀ q ∈ sched.runningList.proc, ¬ Sched.Matches path (textOf name) p q

theorem killsNamed_self (sched : Sched ι) (path : ι → List Char) (prio : ι → ℕ) (p : ι)
    (name : List Byte) :
    KillsNamed sched path (sched.killProcByName path prio (textOf name) p) p name := by
  intro q
  rw [Sched.killProcByName_killed, List.mem_filter, decide_eq_true_iff]

theorem killsNamed_take_iff (sched : Sched ι) (path : ι → List Char) (prio : ι → ℕ) (p : ι)
    {name : List Byte} {j : ℕ} (hj : j < name.length) :
    KillsNamed sched path (sched.killProcByName path prio (textOf (name.take j)) p) p name ↔
      NobodyNamed sched path p name ∧ NobodyNamed sched path p (name.take j) := by
  have hself := killsNamed_self sched path prio p (name.take j)
  have hne : textOf name ≠ textOf (name.take j) := by
    intro he
    have hlen := congrArg List.length he
    simp only [textOf, List.length_map, List.length_take] at hlen
    omega
  have hboth : ∀ q, Sched.Matches path (textOf name) p q →
      ¬ Sched.Matches path (textOf (name.take j)) p q :=
    fun q h h' => hne (h.2.symm.trans h'.2)
  constructor
  · intro hk
    have hiff : ∀ q ∈ sched.runningList.proc, (Sched.Matches path (textOf name) p q ↔
        Sched.Matches path (textOf (name.take j)) p q) := by
      intro q hq
      have := (hk q).symm.trans (hself q)
      simpa only [hq, true_and] using this
    exact ⟨fun q hq hm => hboth q hm ((hiff q hq).mp hm),
      fun q hq hm => hboth q ((hiff q hq).mpr hm) hm⟩
  · intro hn q
    rw [hself q]
    exact iff_of_false (fun hq => hn.2 q hq.1 hq.2) fun hq => hn.1 q hq.1 hq.2

section
variable [Fintype ι] {nr ns : ℕ} {s : Kernel ι} {p : ι} {mm : Mm} {memrg : BitVec 32}
  {memramsz : ℤ} {memswpsz : ℕ → ℤ}

theorem Turns.killsNamed_iff {turn : ℕ → Kernel ι} (ht : Turns s p memrg turn) (h : Inv nr ns s)
    (hp : s.mm p = some mm) (sched : Sched ι) (path : ι → List Char) (prio : ι → ℕ) :
    KillsNamed sched path (sched.killProcByName path prio
        (textOf (nameRead turn p memrg procNameRounds 0)) p) p
        ((s.caller mm).storedName memrg.toInt) ↔
      ∀ j, CutAt turn p memrg ((s.caller mm).storedName memrg.toInt).length j →
        NobodyNamed sched path p ((s.caller mm).storedName memrg.toInt) ∧
        NobodyNamed sched path p (((s.caller mm).storedName memrg.toInt).take j) := by
  by_cases hcut : ∃ j, CutAt turn p memrg ((s.caller mm).storedName memrg.toInt).length j
  · obtain ⟨j, hj⟩ := hcut
    rw [ht.nameRead_take h hp hj.2.2 fun _ => hj.2.1, killsNamed_take_iff sched path prio p hj.1]
    constructor
    · intro hn j' hj'
      have hle : ¬ j < j' := fun hlt => hj.2.1 (hj'.2.2 j hlt)
      have hge : ¬ j' < j := fun hlt => hj'.2.1 (hj.2.2 j' hlt)
      rwa [show j' = j by omega]
    · intro hn
      exact hn j hj
  · have hall : ∀ k < ((s.caller mm).storedName memrg.toInt).length,
        (turn k).Reaches p memrg k := by
      intro k
      induction k using Nat.strong_induction_on with
      | _ k ih =>
        intro hk
        by_contra hno
        exact hcut ⟨k, hk, hno, fun i hi => ih i hi (by omega)⟩
    rw [ht.nameRead_take h hp hall fun hlt => absurd hlt (lt_irrefl _), List.take_length]
    exact iff_of_true (killsNamed_self sched path prio p _) fun j hj => absurd ⟨j, hj⟩ hcut

/-- The stored name is the longest prefix of the region that has at most 99 bytes and none
that ends a name. -/
theorem storedName_longest (c : Pcb) (memrg : ℤ) (l : List Byte) :
    l <+: c.storedName memrg ↔
      l <+: c.regionBytes memrg ∧ l.length ≤ procNameRounds ∧ ∀ b ∈ l, b ≠ 0 ∧ b ≠ -1 := by
  have hbyte : ∀ b : Byte, inName b = true ↔ b ≠ 0 ∧ b ≠ -1 := by
    intro b
    simp only [inName, decide_eq_true_eq, not_or]
  constructor
  · intro hl
    have htake := hl.trans (List.takeWhile_prefix inName)
    refine ⟨htake.trans (List.take_prefix _ _), ?_, fun b hb => ?_⟩
    · have hle := htake.length_le
      rw [List.length_take] at hle
      omega
    · exact (hbyte b).mp (List.all_eq_true.mp List.all_takeWhile b (hl.subset hb))
  · intro hl
    obtain ⟨⟨rest, hrest⟩, hlen, hall⟩ := hl
    have htake : (c.regionBytes memrg).take procNameRounds =
        l ++ rest.take (procNameRounds - l.length) := by
      rw [← hrest, List.take_append, List.take_of_length_le hlen]
    rw [Pcb.storedName, htake, List.takeWhile_append_of_pos fun b hb => (hbyte b).mpr (hall b hb)]
    exact List.prefix_append _ _

theorem run_regionBytes_written {es : List (Event ι)} (hram : framesOf memramsz ≤ 8192)
    (hswp : framesOf (memswpsz 0) ≤ 2 ^ 21) (hrun : Run NextEvent (boot memramsz memswpsz) es s)
    (hp : s.mm p = some mm) {memrg : ℤ} {r : Fin pagingMaxSymtblSz} (hr : symIndex memrg = some r)
    {i : ℕ} (hi : (mm.symrgtbl r).rgStart + i < (mm.symrgtbl r).rgEnd) {b : Byte}
    (hb : es.foldr Flat.apply Flat.blank p ((mm.symrgtbl r).rgStart + i) = some b) :
    ((s.caller mm).regionBytes memrg)[i]? = some b := by
  have h := hrun.simulates _ (represents_boot hram hswp) Represents.step
  obtain ⟨mm', hp', _, hbyte⟩ := h.holds p _ b hb
  rw [hp, Option.some.injEq] at hp'
  subst hp'
  have hlt : i < (mm.symrgtbl r).rgEnd - (mm.symrgtbl r).rgStart := by omega
  simp only [Pcb.regionBytes, hr, caller, List.getElem?_map, List.getElem?_range hlt]
  exact congrArg some hbyte

theorem storedName_length_le (c : Pcb) (memrg : ℤ) :
    (c.storedName memrg).length ≤ (c.regionBytes memrg).length ∧
      (c.storedName memrg).length ≤ procNameRounds := by
  have hle := (List.takeWhile_prefix (p := inName)
    (l := (c.regionBytes memrg).take procNameRounds)).length_le
  rw [List.length_take] at hle
  simp only [Pcb.storedName]
  omega

/-- A killall acts on the stored name exactly if every page that holds a byte of it can be
brought into RAM when its turn comes, or nobody is there whom either name would hit. A call
that is not interrupted finds a page within reach if the state before the call does. -/
theorem run_killall_exact_iff {ops : List (SysOp ι)} (hram : framesOf memramsz ≤ 8192)
    (hswp : framesOf (memswpsz 0) ≤ 2 ^ 21) (hrun : Run NextSys (boot memramsz memswpsz) ops s)
    (hp : s.mm p = some mm) (sched : Sched ι) (path : ι → List Char) (prio : ι → ℕ)
    (memrg : BitVec 32) :
    let name := (s.caller mm).storedName memrg.toInt
    (KillsNamed sched path (s.sysKillall sched path prio p mm memrg).1 p name ↔
      ∀ j, CutAt (fun _ => s) p memrg name.length j →
        NobodyNamed sched path p name ∧ NobodyNamed sched path p (name.take j)) ∧
    ∀ turn, Turns s p memrg turn →
      (KillsNamed sched path (sched.killProcByName path prio
          (textOf (nameRead turn p memrg procNameRounds 0)) p) p name ↔
        ∀ j, CutAt turn p memrg name.length j →
          NobodyNamed sched path p name ∧ NobodyNamed sched path p (name.take j)) := by
  intro name
  have h := hrun.invariant _ (inv_boot hram hswp) Inv.sysStep
  refine ⟨?_, fun turn ht => ht.killsNamed_iff h hp sched path prio⟩
  obtain ⟨hbytes, hrounds⟩ := storedName_length_le (s.caller mm) memrg.toInt
  have halone := (turnsAlone_turns s p memrg).killsNamed_iff h hp sched path prio
  rw [← procName_eq_nameRead procNameRounds 0 hp] at halone
  have hcut : ∀ j, CutAt (turnsAlone s p memrg) p memrg name.length j ↔
      CutAt (fun _ => s) p memrg name.length j := by
    intro j
    exact h.cutAt_alone hp (hrounds.trans_lt (by decide)) hbytes
  simp only [← hcut]
  exact halone

end

/-- Process `false` has stored the name of `true`, in a page that is in RAM. -/
theorem run_killall_exact_iff_resident :
    ∃ (s : Kernel Bool) (mm : Mm), Run NextSys (boot 256 fun _ => 256)
        [.op (.exec false (.write 97 0 0)), .op (.exec false (.alloc 2 0)), .op (.create false)] s ∧
      s.mm false = some mm ∧ (s.caller mm).storedName 0 = [97] ∧
      KillsNamed (Sched.initScheduler.addProc 0 true) (fun _ => ['a'])
        (s.sysKillall (Sched.initScheduler.addProc 0 true) (fun _ => ['a']) (fun _ => 0) false mm
          0).1 false [97] := by
  have hrun : Run NextSys (boot 256 fun _ => 256 : Kernel Bool)
      [.op (.exec false (.write 97 0 0)), .op (.exec false (.alloc 2 0)), .op (.create false)] _ :=
    .snoc (.snoc (.snoc .nil ⟨rfl, by decide +kernel⟩) ⟨rfl, by decide +kernel⟩)
      ⟨rfl, by decide +kernel⟩
  generalize hs : Kernel.sysStep _ (.op (.exec false (.write 97 0 0))) = s at hrun
  have hmm : (s.mm false).map (fun mm => ((s.caller mm).storedName 0,
      decide (Resident (mm.pgd (mm.regionPage 0 0))))) = some ([97], true) := by
    rw [← hs]
    decide +kernel
  obtain ⟨mm, hp, hm⟩ := Option.map_eq_some_iff.mp hmm
  obtain ⟨hname, hres⟩ := Prod.mk.inj hm
  have hiff := (run_killall_exact_iff (by decide) (by decide) hrun hp
    (Sched.initScheduler.addProc 0 true) (fun _ => ['a']) (fun _ => 0) 0).1
  change (KillsNamed _ _ _ _ ((s.caller mm).storedName 0) ↔
    ∀ j, CutAt _ _ _ ((s.caller mm).storedName 0).length j → _) at hiff
  rw [hname] at hiff
  refine ⟨s, mm, hrun, hp, hname, hiff.mpr fun j hj => ?_⟩
  obtain ⟨hlt, hno, _⟩ := hj
  obtain rfl : j = 0 := by simpa using hlt
  exact absurd ⟨mm, hp, Or.inl (of_decide_eq_true hres)⟩ hno

/-- The name of the caller `false` is ab, its first byte in RAM and its second one in swap.
RAM and swap are full, so the loop stops after the first byte and the process named a is
killed. -/
theorem killall_hits_other_name :
    ∃ (s : Kernel Bool) (mm : Mm), Run NextSys (boot 768 fun _ => 256)
        [.op (.exec false (.alloc 512 2)), .op (.exec false (.write 97 1 0)),
          .op (.exec false (.alloc 768 2)), .op (.exec false (.write 98 1 1)),
          .op (.exec false (.alloc 2 1)), .op (.exec false (.alloc 255 0)),
          .op (.create false)] s ∧
      s.mm false = some mm ∧ s.mram.freeFpList = [] ∧ (s.mswp activeMswpId).freeFpList = [] ∧
      (s.caller mm).storedName 1 = [97, 98] ∧
      true ∈ (s.sysKillall (Sched.initScheduler.addProc 0 true) (fun _ => ['a']) (fun _ => 0)
        false mm 1).1.killed ∧
      ¬ KillsNamed (Sched.initScheduler.addProc 0 true) (fun _ => ['a'])
        (s.sysKillall (Sched.initScheduler.addProc 0 true) (fun _ => ['a']) (fun _ => 0) false mm
          1).1 false ((s.caller mm).storedName 1) := by
  have hrun : Run NextSys (boot 768 fun _ => 256 : Kernel Bool)
      [.op (.exec false (.alloc 512 2)), .op (.exec false (.write 97 1 0)),
        .op (.exec false (.alloc 768 2)), .op (.exec false (.write 98 1 1)),
        .op (.exec false (.alloc 2 1)), .op (.exec false (.alloc 255 0)),
        .op (.create false)] _ :=
    .snoc (.snoc (.snoc (.snoc (.snoc (.snoc (.snoc .nil ⟨rfl, by decide +kernel⟩)
      ⟨rfl, by decide +kernel⟩) ⟨rfl, by decide +kernel⟩) ⟨rfl, by decide +kernel⟩)
      ⟨rfl, by decide +kernel⟩) ⟨rfl, by decide +kernel⟩) ⟨rfl, by decide +kernel⟩
  generalize hs : Kernel.sysStep _ (.op (.exec false (.alloc 512 2))) = s at hrun
  have hfull : s.mram.freeFpList = [] ∧ (s.mswp activeMswpId).freeFpList = [] := by
    rw [← hs]
    decide +kernel
  have hmm : (s.mm false).map (fun mm => ((s.caller mm).storedName 1,
      (s.sysKillall (Sched.initScheduler.addProc 0 true) (fun _ => ['a']) (fun _ => 0) false mm
        1).1.killed)) = some ([97, 98], [true]) := by
    rw [← hs]
    decide +kernel
  obtain ⟨mm, hp, hm⟩ := Option.map_eq_some_iff.mp hmm
  obtain ⟨hname, hkilled⟩ := Prod.mk.inj hm
  have hmem : true ∈ (s.sysKillall (Sched.initScheduler.addProc 0 true) (fun _ => ['a'])
      (fun _ => 0) false mm 1).1.killed := by
    rw [hkilled]
    exact List.mem_singleton_self _
  refine ⟨s, mm, hrun, hp, hfull.1, hfull.2, hname, hmem, fun hk => ?_⟩
  have hmatch := ((hk true).mp hmem).2
  rw [hname] at hmatch
  exact absurd hmatch (by decide)

end Kernel
end OSsim
