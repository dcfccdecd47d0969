import OSsim.Isolation

/-!
# Killing by name among the threads

What a killall does in the whole machine, from the bytes in the caller's memory to the
processes that are gone. The name is collected while other threads run; what counts is
what the caller has stored itself. The kill then hits every live process of that name and
nobody else: those that wait are taken out and released by the caller's CPU, those that
other CPUs hold are marked.
-/

open scoped BigOperators
namespace OSsim

namespace System
variable {n m : ℕ} {cfg : Config n} {s s' : System n m} {c : Fin m} {p q : Fin n}
  {as : List (Action m)} {name target : List Char}

def Hit (cfg : Config n) (s : System n m) (target : List Char) (p q : Fin n) : Prop :=
  s.arrived q = 1 ∧ s.ended q = 0 ∧ Sched.Matches cfg.path target p q

theorem Kept.run (hn : n ≤ maxQueueSize) (h : Run (Next cfg) (start n m) as s) :
    s.Custody ∧ s.Placed ∧ s.Kept := by
  refine h.invariant (fun s => s.Custody ∧ s.Placed ∧ s.Kept)
    ⟨custody_start, placed_start, kept_start⟩ ?_
  rintro s a s' ⟨hs, hp, hk⟩ hnext
  exact ⟨hs.step hnext, hp.step hs hnext, (hk.step_iff hs hp hnext).mpr (not_overflows hn s a)⟩

theorem Kept.listed_iff (hk : s.Kept) (hs : s.Custody) (q : Fin n) :
    q ∈ s.sched.runningList.proc ↔ s.arrived q = 1 ∧ s.ended q = 0 := by
  have hle := hs.listed_le q
  have hone := s.arrived_le_one q
  constructor
  · intro hq
    have hpos : 0 < s.sched.listed q := List.count_pos_iff.mpr hq
    omega
  · rintro ⟨harr, hended⟩
    have hlisted : 0 < s.sched.listed q := by
      rw [(hk q harr hended).1]
      exact Nat.one_pos
    exact List.count_pos_iff.mp hlisted

theorem Kept.waits_iff (hk : s.Kept) (harr : s.arrived q = 1) (hended : s.ended q = 0) :
    0 < s.sched.ready q ↔ ∀ d, (s.cpu d).point.owner ≠ some q := by
  have hone := (hk q harr hended).2
  have howners : s.owners q = 0 ↔ ∀ d, (s.cpu d).point.owner ≠ some q := by
    rw [owners, Finset.sum_eq_zero_iff]
    exact ⟨fun h d => Point.owns_eq_zero.mp (h d (Finset.mem_univ d)),
      fun h d _ => Point.owns_eq_zero.mpr (h d)⟩
  rw [← howners]
  omega

theorem Kept.wellQueued (hk : s.Kept) (hs : s.Custody) (hp : s.Placed) :
    s.sched.WellQueued fun q => (s.proc q).prio := by
  constructor
  · rw [List.nodup_iff_count_le_one]
    intro q
    have hle := hs.listed_le q
    have hone := s.arrived_le_one q
    rw [Sched.listed] at hle
    omega
  · intro q hq
    have hplaces := hs.places_le q
    have hone := s.arrived_le_one q
    have hended := hs.ended_eq q
    have howner : s.toReap q ≤ s.owners q := s.toReap_le_owners q
    rw [places] at hplaces
    have hlive : s.arrived q = 1 ∧ s.ended q = 0 := by omega
    refine ⟨by omega, (hk.listed_iff hs q).mpr hlive, hp.prio_lt q hlive.1, ?_⟩
    rw [hp.ready_eq] at hq
    obtain ⟨i, _, hi⟩ := Finset.sum_pos_iff.mp hq
    have hmem := List.count_pos_iff.mp hi
    have hprio := hp.level i q hmem
    convert hmem using 3
    exact Fin.ext hprio

theorem Kept.kills (hk : s.Kept) (hs : s.Custody) (hp : s.Placed)
    (before : (s.cpu c).point = .kill p target) (h : s.cpuStep cfg c name = some s') :
    (∀ q, (s'.proc q).killed = true ↔ (s.proc q).killed = true ∨ s.Hit cfg target p q) ∧
    ∃ victims, (s'.cpu c).point = .freeVictims p victims ∧ victims.Nodup ∧
      (∀ q, q ∈ victims ↔ s.Hit cfg target p q ∧ ∀ d, (s.cpu d).point.owner ≠ some q) ∧
      ∀ q, s'.ended q = s.ended q + victims.count q := by
  obtain ⟨_, hkilled, hnodup, _, hvictims, _⟩ :=
    Sched.killProcByName_exact (hk.wellQueued hs hp) cfg.path target p
  simp only [System.cpuStep, before, Option.some.injEq] at h
  subst h
  have hhit : ∀ q, q ∈ (s.killProcByName cfg target p).killed ↔ s.Hit cfg target p q := by
    intro q
    refine (hkilled q).trans ?_
    rw [hk.listed_iff hs q, Hit, and_assoc]
  refine ⟨fun q => ?_, _, goto_point_self _ _ _, hnodup, fun q => ?_, fun q => rfl⟩
  · simp only [goto_proc, Bool.or_eq_true, decide_eq_true_eq, hhit q]
  · refine (hvictims q).trans ?_
    rw [hk.listed_iff hs q]
    constructor
    · rintro ⟨hlive, hmatch, hready⟩
      exact ⟨⟨hlive.1, hlive.2, hmatch⟩, (hk.waits_iff hlive.1 hlive.2).mp hready⟩
    · rintro ⟨⟨harr, hended, hmatch⟩, hfree⟩
      exact ⟨⟨harr, hended⟩, hmatch, (hk.waits_iff harr hended).mpr hfree⟩

end System
namespace Alone
variable {a : Alone} {memrg : BitVec 32} {l w : List Byte} {b : Byte}

/-- What a program knows of byte `i` of a region: nothing at all beyond its end, and the
value if it has stored one. -/
def byteAt (a : Alone) (memrg : BitVec 32) (i : ℕ) : Option (Option Byte) :=
  (a.address memrg (BitVec.ofNat 32 i)).map a.bytes

structure Names (a : Alone) (memrg : BitVec 32) (w : List Byte) : Prop where
  length_le : w.length ≤ procNameRounds
  stored : ∀ i (h : i < w.length), a.byteAt memrg i = some (some w[i]) ∧ inName w[i]
  ends : w.length = procNameRounds ∨ a.byteAt memrg w.length = none ∨
    ∃ b, a.byteAt memrg w.length = some (some b) ∧ ¬ inName b

/-- Byte `b` is what may be found at place `i` of the region. -/
def Finds (a : Alone) (memrg : BitVec 32) (i : ℕ) (b : Byte) : Prop :=
  ∃ known, a.byteAt memrg i = some known ∧ ∀ b', known = some b' → b = b'

def Reads (a : Alone) (memrg : BitVec 32) (l : List Byte) : Prop :=
  ∀ i (h : i < l.length), inName l[i] ∧ a.Finds memrg i l[i]

def Ends (a : Alone) (memrg : BitVec 32) (l : List Byte) : Prop :=
  l.length = procNameRounds ∨ a.byteAt memrg l.length = none ∨
    ∃ b, a.Finds memrg l.length b ∧ ¬ inName b

theorem Reads.nil : a.Reads memrg [] := fun i h => absurd h (Nat.not_lt_zero i)

theorem Reads.concat (h : a.Reads memrg l) (hin : inName b) (hb : a.Finds memrg l.length b) :
    a.Reads memrg (l ++ [b]) := by
  intro i hi
  rw [List.length_append, List.length_singleton] at hi
  rcases Nat.lt_or_eq_of_le (Nat.le_of_lt_succ hi) with hlt | rfl
  · rw [List.getElem_append_left hlt]
    exact h i hlt
  · rw [List.getElem_concat_length rfl]
    exact ⟨hin, hb⟩

theorem Finds.eq_of_known {i : ℕ} {b' : Byte} (h : a.Finds memrg i b)
    (hknown : a.byteAt memrg i = some (some b')) : b = b' := by
  obtain ⟨known, hat, hval⟩ := h
  rw [hat, Option.some.injEq] at hknown
  exact hval b' hknown

theorem Names.eq (hw : a.Names memrg w) (hl : a.Reads memrg l) (hle : l.length ≤ procNameRounds)
    (he : a.Ends memrg l) : l = w := by
  have hlen : l.length = w.length := by
    rcases Nat.lt_trichotomy l.length w.length with hlt | heq | hgt
    · -- the loop does not end on a byte of the name
      obtain ⟨hstored, hin⟩ := hw.stored l.length hlt
      rcases he with hfull | hnone | ⟨b, hb, hout⟩
      · exact absurd hw.length_le (by omega)
      · rw [hnone] at hstored
        cases hstored
      · rw [hb.eq_of_known hstored] at hout
        exact absurd hin hout
    · exact heq
    · -- nor does it go on behind the name
      obtain ⟨hin, hfinds⟩ := hl w.length hgt
      rcases hw.ends with hfull | hnone | ⟨b, hb, hout⟩
      · exact absurd hle (by omega)
      · obtain ⟨known, hat, _⟩ := hfinds
        rw [hnone] at hat
        cases hat
      · rw [hfinds.eq_of_known hb] at hin
        exact absurd hin hout
  exact List.ext_getElem hlen fun i h₁ h₂ => (hl i h₁).2.eq_of_known (hw.stored i h₂).1

end Alone

namespace Kernel
variable {ι : Type*} [DecidableEq ι] {s : Kernel ι} {p : ι} {mm : Mm} {nr ns : ℕ}
  {alone : ι → Alone} {i : ℕ}

theorem read_eq_byteRead (hp : s.mm p = some mm) (memrg : BitVec 32) (hi : i < procNameRounds) :
    (s.step (.exec p (.read memrg (BitVec.ofNat 32 i)))).1 =
      (s.byteRead p memrg i).elim .failed .byte := by
  rw [step_exec hp]
  simp only [byteRead, hp, Option.bind_some, Pcb.exec, toInt_ofNat_word (hi.trans (by decide))]

theorem Mirrors.byteRead_cases [Fintype ι] (h : Mirrors nr ns s alone) (hp : s.mm p = some mm)
    (memrg : BitVec 32) (hi : i < procNameRounds)
    (hfed : ¬ (s.caller mm).Starves (.read memrg (BitVec.ofNat 32 i))) :
    (s.byteRead p memrg i = none → (alone p).byteAt memrg i = none) ∧
      ∀ b, s.byteRead p memrg i = some b → (alone p).Finds memrg i b := by
  have hread := h.read_outcome hp memrg (BitVec.ofNat 32 i)
  rw [read_eq_byteRead hp memrg hi] at hread
  split at hread
  · next haddr =>
    have hat : (alone p).byteAt memrg i = none := by rw [Alone.byteAt, haddr, Option.map_none]
    refine ⟨fun _ => hat, fun b hb => ?_⟩
    rw [hb] at hread
    cases hread
  · next va haddr =>
    obtain ⟨b, ho, hb⟩ := hread.resolve_left hfed
    refine ⟨fun hnone => ?_, fun b' hb' => ⟨(alone p).bytes va, ?_, ?_⟩⟩
    · rw [hnone] at ho
      cases ho
    · rw [Alone.byteAt, haddr, Option.map_some]
    · rw [hb'] at ho
      obtain rfl := Outcome.byte.inj ho
      exact hb

end Kernel

namespace System
variable {n m : ℕ} {cfg : Config n} {s s' : System n m} {c : Fin m} {p : Fin n} {name : List Char}

theorem cpu_eq {a : Action m} (h : Next cfg s a s') (hc : ∀ name, a ≠ .cpu c name) :
    s'.cpu c = s.cpu c := by
  cases a with
  | tick =>
    obtain rfl := Option.some.inj h
    rfl
  | loader =>
    change s.ldStep cfg = some s' at h
    cases ldStep_loaded h <;> rfl
  | cpu d name =>
    refine (cpuStep_moved h).cpu_of_ne fun hcd => ?_
    subst hcd
    exact hc name rfl

theorem execute_after (ho : s.InOrder cfg) (h : s.cpuStep cfg c name = some s') {k : ℕ} {x : Inst}
    (hpt : (s'.cpu c).point = .execute p k x) : (cfg.text p)[k]? = some x := by
  cases cpuStep_cases h with
  | advances q j ins before =>
    rw [goto_point_self] at hpt
    cases hpt
    exact (ho.fetched c p k x before).2
  | _ => simp at hpt

theorem kill_after (h : s.cpuStep cfg c name = some s') {target : List Char}
    (hpt : (s'.cpu c).point = .kill p target) :
    target = name ∧ ∃ k x, (s.cpu c).point = .execute p k x ∧ x.isKillall = true := by
  cases cpuStep_cases h with
  | entersKill q k ins before killall =>
    rw [goto_point_self] at hpt
    cases hpt
    exact ⟨rfl, k, ins, before, killall⟩
  | _ => simp at hpt

end System
namespace Machine
variable {n m : ℕ} {S : Setup n} {s s' : Machine n m} {c d : Fin m} {p : Fin n} {nr ns : ℕ}
  {memramsz : ℤ} {memswpsz : ℕ → ℤ} {as : List (MachineAction n m)}

/-- Process `p` has executed a killall whose loop found the name. -/
def Called (S : Setup n) (s : Machine n m) (p : Fin n) (name : List Char) : Prop :=
  ∃ k ins l, (S.code p)[k]? = some ins ∧ ins.inst.isKillall = true ∧
    s.sys.executed p = List.range (k + 1) ∧ name = textOf l ∧ l.length ≤ procNameRounds ∧
    (s.alone S p).Reads (ins.args 1) l ∧ (s.alone S p).Ends (ins.args 1) l

/-- What holds of the buffer of CPU `c`: it is in use in the loop of a killall only, and
holds bytes of the name. -/
structure Named (S : Setup n) (s : Machine n m) (c : Fin m) : Prop where
  told : ∀ p k x, (s.sys.cpu c).point = .execute p k x → (S.config.text p)[k]? = some x
  short : (s.procName c).length ≤ procNameRounds
  reading : s.procName c ≠ [] → ∃ p k x ins, (s.sys.cpu c).point = .execute p k x ∧
    (S.code p)[k]? = some ins ∧ ins.inst.isKillall = true ∧
    (s.alone S p).Reads (ins.args 1) (s.procName c)
  called : ∀ p name, (s.sys.cpu c).point = .kill p name → s.Called S p name

theorem run_procName (s : Machine n m) (p : Fin n) (ins : Instruction) :
    (s.run p ins).procName = s.procName := by
  rw [Machine.run]
  split <;> rfl

theorem alone_eq (h : s'.sys.executed p = s.sys.executed p) : s'.alone S p = s.alone S p := by
  rw [alone, alone, ran, ran, h]

namespace Named

theorem start : (start memramsz memswpsz : Machine n m).Named S c where
  told _ _ _ h := by cases h
  short := Nat.zero_le _
  reading h := absurd rfl h
  called _ _ h := by cases h

theorem same (h : s.Named S c) (hpt : (s'.sys.cpu c).point = (s.sys.cpu c).point)
    (hname : s'.procName c = s.procName c)
    (hex : ∀ p, (s.sys.cpu c).point.owner = some p → s'.sys.executed p = s.sys.executed p) :
    s'.Named S c where
  told p k x hp := h.told p k x (hpt ▸ hp)
  short := hname ▸ h.short
  reading hne := by
    rw [hname] at hne ⊢
    obtain ⟨p, k, x, ins, hp, hins, hkill, hreads⟩ := h.reading hne
    refine ⟨p, k, x, ins, hpt.trans hp, hins, hkill, ?_⟩
    rw [alone_eq (hex p (by rw [hp]; rfl))]
    exact hreads
  called p name hp := by
    rw [hpt] at hp
    have hexp := hex p (by rw [hp]; rfl)
    obtain ⟨k, ins, l, hins, hkill, hrange, hrest⟩ := h.called p name hp
    refine ⟨k, ins, l, hins, hkill, hexp.trans hrange, ?_⟩
    rw [alone_eq hexp]
    exact hrest

theorem cleared {name : List Char} (ho : s.sys.InOrder S.config)
    (hn : s.sys.cpuStep S.config c name = some s'.sys) (hname : s'.procName c = [])
    (hcalled : ∀ p k x, (s.sys.cpu c).point = .execute p k x → x.isKillall = true →
      s'.Called S p name) : s'.Named S c where
  told _ _ _ hp := System.execute_after ho hn hp
  short := by simp [hname]
  reading hne := absurd hname hne
  called p target hp := by
    obtain ⟨rfl, k, x, hx, hkill⟩ := System.kill_after hn hp
    exact hcalled p k x hx hkill

theorem empty_of_not_execute (h : s.Named S c)
    (hpt : ∀ p k x, (s.sys.cpu c).point ≠ .execute p k x) : s.procName c = [] := by
  by_contra hne
  obtain ⟨p, k, x, _, hx, _⟩ := h.reading hne
  exact hpt p k x hx

theorem reads (h : s.Named S c) {k : ℕ} {x : Inst} {ins : Instruction}
    (hpt : (s.sys.cpu c).point = .execute p k x) (hins : (S.code p)[k]? = some ins) :
    (s.alone S p).Reads (ins.args 1) (s.procName c) := by
  by_cases hne : s.procName c = []
  · rw [hne]
    exact .nil
  · obtain ⟨q, j, y, ins', hpt', hins', _, hreads⟩ := h.reading hne
    obtain ⟨rfl, rfl, rfl⟩ := Point.execute.inj (hpt.symm.trans hpt')
    obtain rfl := Option.some.inj (hins.symm.trans hins')
    exact hreads

theorem inst_eq (h : s.Named S c) {k : ℕ} {x : Inst} {ins : Instruction}
    (hpt : (s.sys.cpu c).point = .execute p k x) (hins : (S.code p)[k]? = some ins) :
    x = ins.inst := by
  have htold := h.told p k x hpt
  rw [Setup.config, List.getElem?_map, hins, Option.map_some, Option.some.injEq] at htold
  exact htold.symm

theorem empty_of_plain (h : s.Named S c) {k : ℕ} {x : Inst} {ins : Instruction}
    (hpt : (s.sys.cpu c).point = .execute p k x) (hins : (S.code p)[k]? = some ins)
    (hplain : ins.inst.isKillall = false) : s.procName c = [] := by
  by_contra hne
  obtain ⟨q, j, y, ins', hpt', hins', hkill, _⟩ := h.reading hne
  obtain ⟨rfl, rfl, rfl⟩ := Point.execute.inj (hpt.symm.trans hpt')
  obtain rfl := Option.some.inj (hins.symm.trans hins')
  rw [hplain] at hkill
  cases hkill

theorem ends (h : s.Named S c) (hi : s.Isolated S nr ns) (hfit : RoomFor S.codes nr ns) {mm : Mm}
    (hp : s.mem.mm p = some mm) {memrg : BitVec 32}
    (ended : (s.procName c).length < procNameRounds →
      ∀ data, s.mem.byteRead p memrg (s.procName c).length = some data → inName data = false) :
    (s.alone S p).Ends memrg (s.procName c) := by
  rcases Nat.lt_or_ge (s.procName c).length procNameRounds with hlt | hge
  · right
    obtain ⟨hnone, hsome⟩ := hi.mirrors.byteRead_cases hp memrg hlt (hi.fed_access hfit hp rfl)
    rcases hb : s.mem.byteRead p memrg (s.procName c).length with _ | b
    · exact Or.inl (hnone hb)
    · exact Or.inr ⟨b, hsome b hb, by simp [ended hlt b hb]⟩
  · exact Or.inl (Nat.le_antisymm h.short hge)

theorem step (h : ∀ c, s.Named S c) (hi : s.Isolated S nr ns) (hpriv : S.Private)
    (hfit : RoomFor S.codes nr ns) {a : MachineAction n m} (hn : Stepped S s a s') (c : Fin m) :
    s'.Named S c := by
  cases hn with
  | @moves _ sys next quiet =>
    by_cases hc : a.named [] = .cpu c []
    · rw [hc] at next
      have hpt : ∀ p k x, (s.sys.cpu c).point ≠ .execute p k x := by
        intro p k x hpt
        have hex := congrFun ((executed_cpuStep next hpt).2.2.symm.trans quiet.executed) p
        simp at hex
      exact cleared hi.inOrder next ((h c).empty_of_not_execute hpt)
        fun p k x hx => absurd hx (hpt p k x)
    · have hcpu := System.cpu_eq next (c := c) fun name hname => hc (by
        cases a with
        | cpu d | memmap d mem last =>
          cases hname
          rfl
        | loader | tick => cases hname)
      exact (h c).same (congrArg Cpu.point hcpu) rfl fun p _ => congrFun quiet.executed p
  | @creates i sys before next arrived released executed =>
    have hcpu := System.cpu_eq next (c := c) fun name hname => by cases hname
    exact (h c).same (congrArg Cpu.point hcpu) rfl fun p _ => congrFun executed p
  | @releases d v sys before next arrived released executed =>
    by_cases hc : c = d
    · subst hc
      have hpt : ∀ p k x, (s.sys.cpu c).point ≠ .execute p k x := by
        intro p k x hpt
        simp [hpt, Point.reaped, Point.victims] at before
      exact cleared hi.inOrder next ((h c).empty_of_not_execute hpt)
        fun p k x hx => absurd hx (hpt p k x)
    · have hcpu := System.cpu_eq next (c := c) fun name hname => by
        cases hname
        exact hc rfl
      exact (h c).same (congrArg Cpu.point hcpu) rfl fun p _ => congrFun executed p
  | @runs d p k x ins sys before inst plain own next arrived released executed =>
    by_cases hc : c = d
    · subst hc
      have hname : (s.run p ins).procName c = [] := by
        rw [run_procName]
        exact (h c).empty_of_plain before inst plain
      refine cleared hi.inOrder next hname fun q j y hy hkill => ?_
      rw [(h c).inst_eq before inst] at before
      obtain ⟨rfl, rfl, rfl⟩ := Point.execute.inj (before.symm.trans hy)
      rw [plain] at hkill
      cases hkill
    · have hcpu := System.cpu_eq next (c := c) fun name hname => by
        cases hname
        exact hc rfl
      refine (h c).same (congrArg Cpu.point hcpu) (congrFun (run_procName s p ins) c) fun q hq => ?_
      have hqp : q ≠ p := fun heq =>
        hc (hi.custody.owner_unique hq (by rw [before, heq]; rfl))
      exact (congrFun executed q).trans (Function.update_of_ne hqp _ _)
  | maps before inst memmap => exact absurd memmap (hpriv _ _ (List.mem_of_getElem? inst))
  | returns before inst memmap => exact absurd memmap (hpriv _ _ (List.mem_of_getElem? inst))
  | @reads d p k x ins data before inst killall more found inside =>
    by_cases hc : c = d
    · subst hc
      obtain ⟨mm, hp⟩ := hi.mm_of_owner (p := p) (c := c) (by rw [before]; rfl)
      have hfinds : (s.alone S p).Finds (ins.args 1) (s.procName c).length data :=
        (hi.mirrors.byteRead_cases hp (ins.args 1) more (hi.fed_access hfit hp rfl)).2 data found
      have hreads := ((h c).reads before inst).concat inside hfinds
      refine ⟨(h c).told, ?_, fun _ => ⟨p, k, x, ins, before, inst, killall, ?_⟩, ?_⟩
      · simp only [Function.update_self, List.length_append, List.length_singleton]
        omega
      · simp only [Function.update_self]
        exact hreads
      · intro q name hq
        simp [before] at hq
    · exact (h c).same rfl (Function.update_of_ne hc _ _) fun _ _ => rfl
  | @calls d p k x ins sys mem before inst killall rounds next arrived released executed
      ended =>
    by_cases hc : c = d
    · subst hc
      obtain ⟨mm, hp⟩ := hi.mm_of_owner (p := p) (c := c) (by rw [before]; rfl)
      have halone : ({ s with
          sys := sys, mem := mem, procName := Function.update s.procName c [] } :
            Machine n m).alone S = s.alone S :=
        alone_of_idle (run_killall killall _) (alone_executes hi.inOrder before inst executed)
      refine cleared hi.inOrder next (Function.update_self _ _ _) fun q j y hy _ => ?_
      obtain ⟨rfl, rfl, rfl⟩ := Point.execute.inj (before.symm.trans hy)
      refine ⟨k, ins, s.procName c, inst, killall, ?_, rfl, (h c).short, ?_, ?_⟩
      · simp only [executed, Function.update_self, (hi.inOrder.execute c p k x before).2,
          List.range_succ]
      · rw [halone]
        exact (h c).reads before inst
      · rw [halone]
        exact (h c).ends hi hfit hp ended
    · have hcpu := System.cpu_eq next (c := c) fun name hname => by
        cases hname
        exact hc rfl
      refine (h c).same (congrArg Cpu.point hcpu) (Function.update_of_ne hc _ _) fun q hq => ?_
      have hqp : q ≠ p := fun heq =>
        hc (hi.custody.owner_unique hq (by rw [before, heq]; rfl))
      exact (congrFun executed q).trans (Function.update_of_ne hqp _ _)

end Named

theorem Named.run (hpriv : S.Private) (hram : framesOf memramsz ≤ 8192)
    (hswp : framesOf (memswpsz 0) ≤ 2 ^ 21)
    (hfit : RoomFor S.codes (framesOf memramsz) (framesOf (memswpsz 0)))
    (h : Run (Next S) (Machine.start memramsz memswpsz) as s) : ∀ c, s.Named S c := by
  refine (h.invariant (fun s : Machine n m =>
    s.Isolated S (framesOf memramsz) (framesOf (memswpsz 0)) ∧ ∀ c, s.Named S c)
      ⟨isolated_start hram hswp, fun c => .start⟩ ?_).2
  rintro s a s' ⟨hi, hnamed⟩ hn
  have hs := step_cases hn
  exact ⟨hi.step hpriv (fun p => hfit.table _ (S.mem_codes p))
    (fun c _ => hi.not_starves hfit c) hs, Named.step hnamed hi hpriv hfit hs⟩

/-- A killall among threads. If the caller has stored a name in the region, this is the name
that is looked for, whatever ran between the reads of its bytes. Marked are the live
processes of this name other than the caller; those that no CPU holds have ended with the
call and go to the caller's CPU to be freed, each once. -/
theorem run_kills_stored_name (S : Setup n) (hn : n ≤ maxQueueSize) (hpriv : S.Private)
    (hram : framesOf memramsz ≤ 8192) (hswp : framesOf (memswpsz 0) ≤ 2 ^ 21)
    (hfit : RoomFor S.codes (framesOf memramsz) (framesOf (memswpsz 0)))
    (h : Run (Next S) (Machine.start memramsz memswpsz) as s) {name : List Char}
    (before : (s.sys.cpu c).point = .kill p name) (hstep : Next S s (.cpu c) s') :
    (∃ k ins, (S.code p)[k]? = some ins ∧ ins.inst.isKillall = true ∧
      s.sys.executed p = List.range (k + 1) ∧
      ∀ w, (Alone.after ((S.code p).take (k + 1))).Names (ins.args 1) w → name = textOf w) ∧
    (∀ q, (s'.sys.proc q).killed = true ↔
      (s.sys.proc q).killed = true ∨ s.sys.Hit S.config name p q) ∧
    ∃ victims, (s'.sys.cpu c).point = .freeVictims p victims ∧ victims.Nodup ∧
      (∀ q, q ∈ victims ↔ s.sys.Hit S.config name p q ∧ ∀ d, (s.sys.cpu d).point.owner ≠ some q) ∧
      ∀ q, s'.sys.ended q = s.sys.ended q + victims.count q := by
  obtain ⟨bs, hsys⟩ := run_sys h
  obtain ⟨hs, hp, hk⟩ := System.Kept.run hn hsys
  have hcpu : s.sys.cpuStep S.config c [] = some s'.sys := by
    simp only [Next, Machine.step, cpuStep, before] at hstep
    obtain ⟨sys, hsys, rfl⟩ := advance_some hstep
    exact hsys
  refine ⟨?_, hk.kills hs hp before hcpu⟩
  obtain ⟨k, ins, l, hins, hkill, hrange, hname, hle, hreads, hends⟩ :=
    (Named.run hpriv hram hswp hfit h c).called p name before
  refine ⟨k, ins, hins, hkill, hrange, fun w hw => ?_⟩
  rw [alone, ran, hrange, List.length_range] at hreads hends
  rw [hname, hw.eq hreads hle hends]

def killer : Setup 2 where
  timeSlot := 9
  timeSlot_pos := by decide
  startTime _ := 0
  prio _ := 0
  path p := if p.val = 0 then ['a'] else ['b']
  code p :=
    if p.val = 0 then
      [⟨.ALLOC, fun i => if i.val = 0 then 300 else 0⟩,
        ⟨.WRITE, fun i => if i.val = 0 then 98 else 0⟩,
        ⟨.WRITE, fun i => if i.val = 2 then 1 else 0⟩,
        ⟨.SYSCALL, fun i => if i.val = 0 then 101 else 0⟩]
    else [⟨.CALC, fun _ => 0⟩]

def killerCpu : MachineAction 2 1 := .cpu ⟨0, Nat.one_pos⟩

/-- The loader adds both, then the CPU runs process 0 up to the kill. -/
def killerRun : List (MachineAction 2 1) × Machine 2 1 :=
  Run.greedy (step killer) [.loader, killerCpu] 40 ([], start 512 fun _ => 256)

theorem killer_private : killer.Private := by
  intro p ins hins hcall
  obtain ⟨hop, hentry⟩ := hcall
  have hall : ∀ q, ∀ i ∈ killer.code q, i.opcode = .SYSCALL →
      SyscallEntry.ofNr (i.args 0) = .killall := by
    intro q i hi hi'
    simp only [killer] at hi
    split_ifs at hi
    · simp only [List.mem_cons, List.not_mem_nil, or_false] at hi
      rcases hi with rfl | rfl | rfl | rfl <;> simp at hi' ⊢
      rfl
    · simp only [List.mem_cons, List.not_mem_nil, or_false] at hi
      subst hi
      simp at hi'
  rw [hall p ins hins hop] at hentry
  cases hentry

theorem killer_names :
    (Alone.after (killer.code ⟨0, Nat.zero_lt_two⟩)).Names 0 [98] where
  length_le := by decide
  stored i h := by
    obtain rfl : i = 0 := by simpa using h
    rw [List.getElem_singleton]
    decide +kernel
  ends := Or.inr (Or.inr ⟨0, by decide +kernel⟩)

theorem run_kills_stored_name_killer :
    ∃ s', Next killer killerRun.2 killerCpu s' ∧ ['b'] = textOf [98] ∧
      (s'.sys.proc ⟨1, Nat.one_lt_two⟩).killed = true ∧
      (s'.sys.ended ⟨1, Nat.one_lt_two⟩) = 1 := by
  have hrun : Run (Next killer) (Machine.start 512 fun _ => 256) killerRun.1
      killerRun.2 := Run.of_greedy 40 .nil
  have hpt : (killerRun.2.sys.cpu ⟨0, Nat.one_pos⟩).point = .kill ⟨0, Nat.zero_lt_two⟩ ['b'] := by
    decide +kernel
  have hgo : (killerRun.2.step killer killerCpu).isSome = true := by decide +kernel
  obtain ⟨s', hs'⟩ := Option.isSome_iff_exists.mp hgo
  obtain ⟨⟨k, ins, hins, hkill, hrange, hname⟩, hkilled, victims, _, hnodup, hvictims, hended⟩ :=
    run_kills_stored_name killer (by decide) killer_private (by decide) (by decide)
      (by decide +kernel) hrun hpt hs'
  have hk : k = 3 := by
    have hlen : (killerRun.2.sys.executed ⟨0, Nat.zero_lt_two⟩).length = 4 := by decide +kernel
    rw [hrange, List.length_range] at hlen
    omega
  subst hk
  obtain rfl : _ = ins := Option.some.inj hins
  have hlive : killerRun.2.sys.arrived ⟨1, Nat.one_lt_two⟩ = 1 ∧
      killerRun.2.sys.ended ⟨1, Nat.one_lt_two⟩ = 0 ∧
      (killerRun.2.sys.cpu ⟨0, Nat.one_pos⟩).point.owner ≠ some ⟨1, Nat.one_lt_two⟩ := by
    decide +kernel
  have hhit : killerRun.2.sys.Hit killer.config ['b'] ⟨0, Nat.zero_lt_two⟩ ⟨1, Nat.one_lt_two⟩ :=
    ⟨hlive.1, hlive.2.1, by decide, rfl⟩
  have hvictim := (hvictims ⟨1, Nat.one_lt_two⟩).mpr ⟨hhit, fun d => by
    rw [Subsingleton.elim d ⟨0, Nat.one_pos⟩]
    exact hlive.2.2⟩
  refine ⟨s', hs', hname [98] killer_names, (hkilled _).mpr (Or.inr hhit), ?_⟩
  rw [hended, hlive.2.1, List.count_eq_one_of_mem hnodup hvictim]

end Machine
end OSsim
