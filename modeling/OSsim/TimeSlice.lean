import OSsim.WorkDone
import OSsim.Ownership

/-!
# Time slices

From `get_proc` to the point where it gives the process up, a CPU calls `run` on it once
in every slot. `time_left` counts the calls that are still due; it is 0 again when the
next process is loaded, however the previous one has left.
-/

open scoped BigOperators
namespace OSsim

/-- The slice of the process that a CPU owns: how often `run` has been called on it, and
the program counter and the slots of the CPU when `get_proc` returned it. -/
structure Slice where
  runs : ℕ
  pc : ℕ
  slots : ℕ

namespace System
variable {n m : ℕ} {cfg : Config n} {s s' : System n m} {c : Fin m} {p : Fin n} {g : Slice}

def nextSlice (s : System n m) (c : Fin m) (g : Slice) : Slice :=
  match (s.cpu c).point with
  | .run _ => { g with runs := g.runs + 1 }
  | .top none | .afterFree | .afterPut =>
    match s.sched.getProc.1 with
    | some p => ⟨0, (s.proc p).pc, (s.cpu c).slots⟩
    | none => g
  | _ => g

def nextSlices (s : System n m) (g : Fin m → Slice) : Action m → Fin m → Slice
  | .cpu c _ => Function.update g c (s.nextSlice c (g c))
  | _ => g

def NextSliced (cfg : Config n) (x : System n m × (Fin m → Slice)) (a : Action m)
    (y : System n m × (Fin m → Slice)) : Prop :=
  Next cfg x.1 a y.1 ∧ y.2 = x.1.nextSlices x.2 a

theorem exists_sliced {as : List (Action m)} (h : Run (Next cfg) s as s') (g : Fin m → Slice) :
    ∃ g', Run (NextSliced cfg) (s, g) as (s', g') := by
  induction h with
  | nil => exact ⟨g, .nil⟩
  | snoc _ hn ih =>
    obtain ⟨g', hg⟩ := ih
    exact ⟨_, .snoc hg ⟨hn, rfl⟩⟩

/-- There is an instruction left, or the program is empty. -/
def Unfinished (cfg : Config n) (p : Fin n) (pc : ℕ) : Prop :=
  pc < (cfg.text p).length ∨ cfg.text p = []

structure Due (cfg : Config n) (g : Slice) (p : Fin n) (pc slots : ℕ) : Prop where
  pc_eq : pc = g.pc + g.runs
  more : pc < (cfg.text p).length ∨ cfg.text p = [] ∧ g.runs = 0
  slots_eq : slots = g.slots + g.runs

structure Served (cfg : Config n) (g : Slice) (p : Fin n) (pc slots : ℕ) : Prop where
  pc_eq : cfg.text p ≠ [] ∧ pc = g.pc + g.runs ∨ cfg.text p = [] ∧ g.runs = 1
  pos : 0 < g.runs
  slots_eq : slots = g.slots + g.runs

def InSlice (cfg : Config n) (pc : Fin n → ℕ) (x : Cpu n) (g : Slice) : Prop :=
  match x.point with
  | .recheck (some p) => Due cfg g p (pc p) x.slots ∧
    (g.runs = 0 ∧ x.timeLeft = 0 ∨
      0 < g.runs ∧ 0 < x.timeLeft ∧ g.runs + x.timeLeft = cfg.timeSlot)
  | .run p => Due cfg g p (pc p) x.slots ∧ 0 < x.timeLeft ∧ g.runs + x.timeLeft = cfg.timeSlot
  | .fetched p _ _ => Served cfg g p (pc p + 1) (x.slots + 1) ∧ 0 < x.timeLeft ∧
    g.runs + x.timeLeft = cfg.timeSlot + 1
  | .execute p _ _ | .kill p _ | .freeVictims p _ | .ran p =>
    Served cfg g p (pc p) (x.slots + 1) ∧ 0 < x.timeLeft ∧
      g.runs + x.timeLeft = cfg.timeSlot + 1
  | .inSlot (some p) => Served cfg g p (pc p) (x.slots + 1) ∧ 0 ≤ x.timeLeft ∧
    g.runs + x.timeLeft = cfg.timeSlot
  | .top (some p) | .testEnd p => Served cfg g p (pc p) x.slots ∧ 0 ≤ x.timeLeft ∧
    g.runs + x.timeLeft = cfg.timeSlot
  | .put p => Unfinished cfg p (pc p) ∧ x.timeLeft = 0 ∧ g.runs = cfg.timeSlot
  | .finish _ | .free _ | .afterFree => True
  | .top none | .recheck none | .inSlot none | .afterPut | .stopped => x.timeLeft = 0

theorem InSlice.congr {pc pc' : Fin n → ℕ} {x : Cpu n} (h : InSlice cfg pc x g)
    (hpc : ∀ p, x.point.owner = some p → pc' p = pc p) : InSlice cfg pc' x g := by
  rcases x with ⟨y, timeLeft, slots⟩
  unfold InSlice at h ⊢
  cases y with
  | top proc => cases proc <;> simp_all [Point.owner]
  | recheck proc => cases proc <;> simp_all [Point.owner]
  | inSlot proc => cases proc <;> simp_all [Point.owner]
  | _ => simp_all [Point.owner]

@[simp] theorem setCpu_proc (s : System n m) (c : Fin m) (x : Cpu n) :
    (s.setCpu c x).proc = s.proc := rfl

def Waiting (cfg : Config n) (s : System n m) : Prop :=
  ∀ p, 0 < s.sched.ready p → Unfinished cfg p (s.proc p).pc

def pcs (s : System n m) (p : Fin n) : ℕ := (s.proc p).pc

theorem Waiting.dispatched (hw : s.Waiting cfg) (hg : s.sched.getProc.1 = some p) :
    Due cfg ⟨0, (s.proc p).pc, (s.cpu c).slots⟩ p (s.pcs p) (s.cpu c).slots := by
  have hget := s.sched.ready_getProc p
  rw [hg, Option.toList_some, List.count_singleton_self] at hget
  exact ⟨rfl, (hw p (by omega)).imp_right fun h => ⟨h, rfl⟩, rfl⟩

theorem InSlice.cpuStep {name : List Char} (hin : InSlice cfg s.pcs (s.cpu c) g)
    (hpc : ∀ p, (s.proc p).pc ≤ (cfg.text p).length) (hw : s.Waiting cfg)
    (h : s.cpuStep cfg c name = some s') :
    InSlice cfg s'.pcs (s'.cpu c) (s.nextSlice c g) := by
  cases cpuStep_cases h with
  | findsNone before queue =>
    simp only [InSlice, before] at hin
    simpa [InSlice, goto] using hin
  | findsFirst q before queue =>
    simp only [InSlice, before] at hin
    simpa [InSlice, pcs, nextSlice, before, queue, goto, hin] using hw.dispatched queue
  | reaps q before killed => simp [InSlice, goto]
  | spares q before alive =>
    simp only [InSlice, before] at hin
    simpa [InSlice, pcs, nextSlice, before, goto] using hin
  | ends q before done => simp [InSlice, goto]
  | expires q before more left =>
    simp only [InSlice, before] at hin
    obtain ⟨hserved, _, hsum⟩ := hin
    have hruns : (g.runs : ℤ) = cfg.timeSlot := by omega
    have hleft : Unfinished cfg q (s.proc q).pc := Or.inl (lt_of_le_of_ne (hpc q) more)
    simpa [InSlice, pcs, nextSlice, before, goto, left, hruns] using hleft
  | continues q before more left =>
    simp only [InSlice, before] at hin
    obtain ⟨hserved, hleft, hsum⟩ := hin
    -- the program is not empty, so every call has executed an instruction
    have hmore : (s.proc q).pc < (cfg.text q).length := lt_of_le_of_ne (hpc q) more
    have heq : s.pcs q = g.pc + g.runs := by
      rcases hserved.pc_eq with ⟨_, heq⟩ | ⟨hnil, _⟩
      · exact heq
      · rw [hnil] at hmore
        exact absurd hmore (Nat.not_lt_zero _)
    have hpos : 0 < (s.cpu c).timeLeft := by omega
    have hdue : Due cfg g q (s.pcs q) (s.cpu c).slots := ⟨heq, Or.inl hmore, hserved.slots_eq⟩
    simpa [InSlice, pcs, nextSlice, before, goto, hpos, hsum, hserved.pos] using hdue
  | finishes q before => simp [InSlice, goto]
  | frees q before => simp [InSlice, goto]
  | puts q before =>
    simp only [InSlice, before] at hin
    simpa [InSlice, goto] using hin.2.1
  | getsAfterFree before =>
    rcases hg : s.sched.getProc.1 with _ | q
    · simp [InSlice]
    · simpa [InSlice, pcs, nextSlice, before, hg] using hw.dispatched hg
  | getsAfterPut before =>
    simp only [InSlice, before] at hin
    rcases hg : s.sched.getProc.1 with _ | q
    · simpa [InSlice, goto] using hin
    · simpa [InSlice, pcs, nextSlice, before, hg, goto, hin] using hw.dispatched hg
  | stops before done =>
    simp only [InSlice, before] at hin
    simpa [InSlice, goto] using hin
  | idles before done =>
    simp only [InSlice, before] at hin
    simpa [InSlice, goto] using hin
  | starts q before =>
    simp only [InSlice, before] at hin
    obtain ⟨hdue, ⟨hruns, hzero⟩ | ⟨_, hpos, hsum⟩⟩ := hin
    · have htotal : (g.runs : ℤ) + cfg.timeSlot = cfg.timeSlot := by omega
      simpa [InSlice, pcs, nextSlice, before, hzero, cfg.timeSlot_pos, htotal] using hdue
    · have hne : (s.cpu c).timeLeft ≠ 0 := by omega
      simpa [InSlice, pcs, nextSlice, before, hne, hpos, hsum] using hdue
  | runsOut q before inst =>
    simp only [InSlice, before] at hin
    obtain ⟨hdue, hpos, hsum⟩ := hin
    have hserved : Served cfg { g with runs := g.runs + 1 } q (s.pcs q) ((s.cpu c).slots + 1) := by
      refine ⟨Or.inr ?_, Nat.succ_pos _, by rw [hdue.slots_eq, Nat.add_assoc]⟩
      rcases hdue.more with hlt | ⟨hnil, hzero⟩
      · rw [List.getElem?_eq_none_iff] at inst
        exact absurd hlt (Nat.not_lt.mpr inst)
      · exact ⟨hnil, by rw [hzero]⟩
    have hsum' : (g.runs : ℤ) + 1 + (s.cpu c).timeLeft = cfg.timeSlot + 1 := by omega
    simpa [InSlice, pcs, nextSlice, before, goto, hpos, hsum'] using hserved
  | fetches q ins before inst =>
    simp only [InSlice, before] at hin
    obtain ⟨hdue, hpos, hsum⟩ := hin
    have hsome : cfg.text q ≠ [] := by
      intro hnil
      rw [hnil] at inst
      cases inst
    have hserved :
        Served cfg { g with runs := g.runs + 1 } q (s.pcs q + 1) ((s.cpu c).slots + 1) :=
      ⟨Or.inl ⟨hsome, by rw [hdue.pc_eq, Nat.add_assoc]⟩, Nat.succ_pos _,
        by rw [hdue.slots_eq, Nat.add_assoc]⟩
    have hsum' : (g.runs : ℤ) + 1 + (s.cpu c).timeLeft = cfg.timeSlot + 1 := by omega
    simpa [InSlice, pcs, nextSlice, before, goto, hpos, hsum'] using hserved
  | counts q before =>
    simp only [InSlice, before] at hin
    obtain ⟨hserved, hpos, hsum⟩ := hin
    have hleft : 0 ≤ (s.cpu c).timeLeft - 1 := by omega
    have hsum' : (g.runs : ℤ) + ((s.cpu c).timeLeft - 1) = cfg.timeSlot := by omega
    simp only [InSlice, pcs, nextSlice, before, setCpu_cpu_self, setCpu_proc]
    exact ⟨hserved, hleft, hsum'⟩
  | slot proc before =>
    simp only [InSlice, before] at hin
    cases proc <;> simpa [InSlice, pcs, nextSlice, before] using hin
  | _ =>
    -- what a call of `run` does leaves the slice alone
    simp only [InSlice, ‹(s.cpu c).point = _›] at hin
    simpa [InSlice, pcs, nextSlice, ‹(s.cpu c).point = _›, goto, setProc] using hin

theorem cpuStep_pc {name : List Char} (h : s.cpuStep cfg c name = some s') {p : Fin n}
    (hp : (s.cpu c).point.owner ≠ some p) : s'.pcs p = s.pcs p := by
  cases cpuStep_ran h with
  | outside x cpu pc executed before after => exact pc p
  | fetches q ins before inst => rfl
  | advances q k ins before =>
    have hpq : p ≠ q := by
      intro heq
      subst heq
      exact hp (by rw [before]; rfl)
    simp [pcs, setProc, Function.update_of_ne hpq]
  | executes q k ins x before after => rfl

theorem cpuStep_ready {name : List Char} (h : s.cpuStep cfg c name = some s') (p : Fin n)
    (hp : (s.cpu c).point ≠ .put p) : s'.sched.ready p ≤ s.sched.ready p := by
  cases cpuStep_moved h with
  | gets x idle owner victims reaped =>
    have := s.sched.ready_getProc p
    dsimp only
    omega
  | finishes q x before after =>
    dsimp only
    rw [Sched.ready_finishProc]
  | puts q x before after =>
    have hput := s.sched.ready_putProc_le (s.proc q).prio q p
    have hqp : q ≠ p := by
      intro heq
      subst heq
      exact hp before
    rw [List.count_eq_zero.mpr (by simpa using hqp.symm)] at hput
    dsimp only
    omega
  | kills q name' x proc before after prio =>
    have hkill := (s.sched.killProcByName_counts cfg.path (fun r => (s.proc r).prio) name' q p).1
    dsimp only [System.killProcByName]
    omega
  | keeps x proc executed owner victims reaped prio => exact le_rfl
  | frees q x before after => exact le_rfl
  | freesVictim q v vs x before after => exact le_rfl

theorem Custody.owner_ne_of_ready (hs : s.Custody) (hp : 0 < s.sched.ready p) (c : Fin m) :
    (s.cpu c).point.owner ≠ some p := by
  intro hc
  have hplaces := hs.places_le_one p
  have howns := s.owns_le_owners c p
  rw [Point.owns_of_owner hc] at howns
  rw [places] at hplaces
  omega

theorem InOrder.pc_of_not_arrived (ho : s.InOrder cfg) (hs : s.Custody) (hp : s.arrived p = 0) :
    (s.proc p).pc = 0 := by
  have hexec := ho.settled p fun c k ins hc => by
    have := hs.arrived_of_owner (c := c) (p := p) (by rw [hc]; rfl)
    omega
  rw [ho.fresh p hp] at hexec
  simpa using congrArg List.length hexec.symm

structure Sliced (cfg : Config n) (s : System n m) (g : Fin m → Slice) : Prop where
  custody : s.Custody
  inOrder : s.InOrder cfg
  waiting : s.Waiting cfg
  inSlice : ∀ c, InSlice cfg s.pcs (s.cpu c) (g c)

namespace Sliced
variable {g : Fin m → Slice}

theorem cpuStep {name : List Char} (h : s.Sliced cfg g) (hn : s.cpuStep cfg c name = some s') :
    s'.Sliced cfg (Function.update g c (s.nextSlice c (g c))) where
  custody := h.custody.cpuStep hn
  inOrder := h.inOrder.cpuStep h.custody hn
  waiting p hp := by
    by_cases hput : (s.cpu c).point = .put p
    · -- `put_proc` is reached only behind the test for the end of the program
      have hin := h.inSlice c
      simp only [InSlice, hput] at hin
      have hpc : s'.proc = s.proc := by
        simp only [System.cpuStep, hput, Option.some.injEq] at hn
        rw [← hn, goto_proc]
      rw [hpc]
      exact hin.1
    · have hready : 0 < s.sched.ready p := hp.trans_le (cpuStep_ready hn p hput)
      have hpc := cpuStep_pc hn (h.custody.owner_ne_of_ready hready c)
      rw [pcs] at hpc
      rw [hpc]
      exact h.waiting p hready
  inSlice d := by
    by_cases hd : d = c
    · subst hd
      rw [Function.update_self]
      exact (h.inSlice d).cpuStep h.inOrder.pc_le h.waiting hn
    · rw [Function.update_of_ne hd, (cpuStep_moved hn).cpu_of_ne hd]
      refine (h.inSlice d).congr fun p hp => cpuStep_pc hn fun hc => ?_
      exact hd (h.custody.owner_unique hp hc)

theorem ldStep (h : s.Sliced cfg g) (hn : s.ldStep cfg = some s') : s'.Sliced cfg g := by
  have hcust : s'.Custody := h.custody.ldStep hn
  have horder : s'.InOrder cfg := h.inOrder.ldStep h.custody hn
  cases ldStep_loaded hn with
  | loads i prio loader next same =>
    have hne : ∀ p, s.arrived p = 1 → p ≠ i := by
      intro p hp heq
      subst heq
      have := arrived_next next
      omega
    refine ⟨hcust, horder, fun p hp => ?_, fun c => (h.inSlice c).congr fun p hp => ?_⟩
    · have hpi : p ≠ i := by
        apply hne
        have h₁ := h.custody.places_le p
        have h₂ := s.arrived_le_one p
        change 0 < s.sched.ready p at hp
        rw [places] at h₁
        omega
      simp only [Function.update_of_ne hpi]
      exact h.waiting p hp
    · simp only [pcs, Function.update_of_ne (hne p (h.custody.arrived_of_owner hp))]
  | waits loader done last same => exact ⟨hcust, horder, h.waiting, h.inSlice⟩
  | adds i slots before =>
    have hpc : ∀ p, (Function.update s.proc i
        { s.proc i with prio := Sched.clampPrio (s.proc i).prio } p).pc = (s.proc p).pc := by
      intro p
      by_cases hpi : p = i
      · subst hpi
        rw [Function.update_self]
      · rw [Function.update_of_ne hpi]
    refine ⟨hcust, horder, fun p hp => ?_, fun c => (h.inSlice c).congr fun p _ => hpc p⟩
    rw [hpc]
    by_cases hpi : p = i
    · subst hpi
      rw [h.inOrder.pc_of_not_arrived h.custody (arrived_next (by rw [before]; rfl))]
      rcases hnil : cfg.text p with _ | ⟨ins, rest⟩
      · exact Or.inr hnil
      · exact Or.inl (by rw [hnil]; exact Nat.succ_pos _)
    · apply h.waiting
      have hadd := s.sched.ready_addProc_le (s.proc i).prio i p
      rw [List.count_eq_zero.mpr (by simpa using hpi)] at hadd
      dsimp only at hp
      omega

theorem step {a : Action m} {g' : Fin m → Slice} (h : s.Sliced cfg g)
    (hn : NextSliced cfg (s, g) a (s', g')) : s'.Sliced cfg g' := by
  obtain ⟨hnext, hg⟩ := hn
  dsimp only at hnext hg
  rw [hg]
  cases a with
  | cpu c name => exact h.cpuStep hnext
  | loader => exact h.ldStep hnext
  | tick =>
    have hcust := h.custody.step hnext
    have horder := h.inOrder.step h.custody hnext
    obtain rfl := Option.some.inj hnext
    exact ⟨hcust, horder, h.waiting, h.inSlice⟩

theorem start (cfg : Config n) (g : Fin m → Slice) : (start n m).Sliced cfg g where
  custody := custody_start
  inOrder := inOrder_start
  waiting p hp := by
    have : (System.start n m).sched.ready p = 0 := by
      simp [System.start, Sched.ready, Sched.initScheduler]
    omega
  inSlice _ := rfl

theorem run {as : List (Action m)} {g₀ : Fin m → Slice}
    (h : Run (NextSliced cfg) (System.start n m, g₀) as (s, g)) : s.Sliced cfg g :=
  h.invariant (fun x => x.1.Sliced cfg x.2) (Sliced.start cfg g₀) fun _ _ _ hs hn => hs.step hn

end Sliced

/-- What the record of CPU `c` says when it puts its process back, finds it at its end,
finds it killed, calls `run`, has just loaded it, and has none. Between `free_pcb` and the
`get_proc` behind it `proc` is a dead pointer; `time_left` is reset there. -/
theorem run_time_slices (cfg : Config n) {as : List (Action m)} {g₀ g : Fin m → Slice}
    (h : Run (NextSliced cfg) (start n m, g₀) as (s, g)) (c : Fin m) :
    (∀ p, (s.cpu c).point = .put p → ((g c).runs : ℤ) = cfg.timeSlot) ∧
    (∀ p, (s.cpu c).point = .testEnd p → (s.proc p).pc = (cfg.text p).length →
      (g c).runs = (if cfg.text p = [] then 1 else (cfg.text p).length - (g c).pc) ∧
        ((g c).runs : ℤ) ≤ cfg.timeSlot) ∧
    (∀ p, (s.cpu c).point = .top (some p) → (s.proc p).killed = true →
      ((g c).runs : ℤ) ≤ cfg.timeSlot) ∧
    (∀ p, (s.cpu c).point = .run p → (s.cpu c).slots = (g c).slots + (g c).runs) ∧
    (∀ p, (s.cpu c).point = .recheck (some p) → (g c).runs = 0 → (s.cpu c).timeLeft = 0) ∧
    ((s.cpu c).point.owner = none → (s.cpu c).point ≠ .afterFree → (s.cpu c).timeLeft = 0) ∧
    ((s.cpu c).point = .afterFree →
      ∀ name s', Next cfg s (.cpu c name) s' → (s'.cpu c).timeLeft = 0) := by
  have hin := (Sliced.run h).inSlice c
  refine ⟨?_, ?_, ?_, ?_, ?_, ?_, ?_⟩
  · intro p hpt
    simp only [InSlice, hpt] at hin
    exact hin.2.2
  · intro p hpt hend
    simp only [InSlice, hpt] at hin
    obtain ⟨hserved, hleft, hsum⟩ := hin
    refine ⟨?_, by omega⟩
    have hpc := hserved.pc_eq
    rw [pcs, hend] at hpc
    rcases hpc with ⟨hsome, hpc⟩ | ⟨hnil, hone⟩
    · rw [if_neg hsome]
      omega
    · rw [if_pos hnil]
      exact hone
  · intro p hpt _
    simp only [InSlice, hpt] at hin
    omega
  · intro p hpt
    simp only [InSlice, hpt] at hin
    exact hin.1.slots_eq
  · intro p hpt hzero
    simp only [InSlice, hpt] at hin
    rcases hin.2 with ⟨_, ht⟩ | ⟨hpos, _⟩
    · exact ht
    · omega
  · intro hnone hfree
    cases hpt : (s.cpu c).point <;> simp_all [InSlice, Point.owner]
  · intro hpt name s' hn
    change s.cpuStep cfg c name = some s' at hn
    simp only [cpuStep, hpt, Option.some.injEq] at hn
    rw [← hn, setCpu_cpu_self]

/-- The second process has had its slot when the second CPU puts it back. -/
theorem run_time_slices_put :
    ∃ as s g, Run (NextSliced killer) (start 2 2, fun _ => ⟨0, 0, 0⟩) as (s, g) ∧
      (s.cpu 1).point = .put 1 ∧ ((g 1).runs : ℤ) = killer.timeSlot := by
  have hplay : ((start 2 2).play killer (List.replicate 9 (.cpu 1 []) ++ [.cpu 0 []] ++
      List.replicate 7 .loader)).map (fun s => (s.cpu 1).point) = some (.put 1) := by
    decide +kernel
  obtain ⟨s, hs, hput⟩ := Option.map_eq_some_iff.mp hplay
  obtain ⟨g, hg⟩ := exists_sliced (run_of_play hs) fun _ => ⟨0, 0, 0⟩
  exact ⟨_, s, g, hg, hput, (run_time_slices killer hg 1).1 1 hput⟩

end System
end OSsim
