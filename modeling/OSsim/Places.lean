import OSsim.SchedSpec
import OSsim.System
import OSsim.Lib.Run

/-!
# Who holds a process

A process that has arrived is waiting in a ready queue, owned by a CPU, among the
victims that a killing CPU still has to free, or released. Every step of a CPU is one
of a few moves between these places.
-/

open scoped BigOperators
namespace OSsim

namespace Point
variable {n : ℕ}

/-- The process a CPU owns at a program point. After `free_pcb` and after `put_proc`
the local `proc` is a dead pointer until `get_proc` overwrites it. -/
def owner : Point n → Option (Fin n)
  | top proc => proc
  | testEnd p => some p
  | finish p => some p
  | free p => some p
  | put p => some p
  | afterFree => none
  | afterPut => none
  | recheck proc => proc
  | run p => some p
  | fetched p _ _ => some p
  | execute p _ _ => some p
  | kill p _ => some p
  | freeVictims p _ => some p
  | ran p => some p
  | inSlot proc => proc
  | stopped => none

def victims : Point n → List (Fin n)
  | freeVictims _ vs => vs
  | _ => []

def reaped : Point n → Option (Fin n)
  | free p => some p
  | _ => none

def midway : Point n → Bool
  | fetched _ _ _ => true
  | execute _ _ _ => true
  | _ => false

def owns (p : Fin n) (x : Point n) : ℕ := x.owner.toList.count p
def frees (p : Fin n) (x : Point n) : ℕ := x.victims.count p
def reaps (p : Fin n) (x : Point n) : ℕ := x.reaped.toList.count p

theorem reaps_le_owns (p : Fin n) (x : Point n) : x.reaps p ≤ x.owns p := by
  cases x <;> simp [reaps, owns, reaped, owner]

theorem owns_eq_zero {p : Fin n} {x : Point n} : x.owns p = 0 ↔ x.owner ≠ some p := by
  rcases h : x.owner with _ | q
  · simp [owns, h]
  · simp [owns, h, List.count_eq_zero, eq_comm]

theorem owns_of_owner {p : Fin n} {x : Point n} (h : x.owner = some p) : x.owns p = 1 := by
  simp [owns, h]

end Point

/-- How many processes the loader has handed to `add_proc`. -/
def LdPoint.added {n : ℕ} : LdPoint n → ℕ
  | load i => i
  | wait i => i
  | waitSlot i => i
  | add i => i
  | addSlot i => i + 1
  | finish => n
  | stopped => n

namespace System
variable {n m : ℕ}

def owners (s : System n m) (p : Fin n) : ℕ := ∑ c, (s.cpu c).point.owns p
def toFree (s : System n m) (p : Fin n) : ℕ := ∑ c, (s.cpu c).point.frees p
def toReap (s : System n m) (p : Fin n) : ℕ := ∑ c, (s.cpu c).point.reaps p
def arrived (s : System n m) (p : Fin n) : ℕ := if (p : ℕ) < s.loader.point.added then 1 else 0

def places (s : System n m) (p : Fin n) : ℕ :=
  s.sched.ready p + s.owners p + s.toFree p + s.released p

inductive Stepped (cfg : Config n) (s : System n m) (c : Fin m) (name : List Char) :
    System n m → Prop
  | findsNone (before : (s.cpu c).point = .top none) (queue : s.sched.getProc.1 = none) :
      Stepped cfg s c name ({ s with sched := s.sched.getProc.2 }.goto c (.inSlot none))
  | findsFirst (p : Fin n) (before : (s.cpu c).point = .top none)
      (queue : s.sched.getProc.1 = some p) :
      Stepped cfg s c name ({ s with sched := s.sched.getProc.2 }.goto c (.recheck (some p)))
  | reaps (p : Fin n) (before : (s.cpu c).point = .top (some p))
      (killed : (s.proc p).killed = true) : Stepped cfg s c name (s.goto c (.finish p))
  | spares (p : Fin n) (before : (s.cpu c).point = .top (some p))
      (alive : (s.proc p).killed = false) : Stepped cfg s c name (s.goto c (.testEnd p))
  | ends (p : Fin n) (before : (s.cpu c).point = .testEnd p)
      (done : (s.proc p).pc = (cfg.text p).length) : Stepped cfg s c name (s.goto c (.finish p))
  | expires (p : Fin n) (before : (s.cpu c).point = .testEnd p)
      (more : (s.proc p).pc ≠ (cfg.text p).length) (left : (s.cpu c).timeLeft = 0) :
      Stepped cfg s c name (s.goto c (.put p))
  | continues (p : Fin n) (before : (s.cpu c).point = .testEnd p)
      (more : (s.proc p).pc ≠ (cfg.text p).length) (left : (s.cpu c).timeLeft ≠ 0) :
      Stepped cfg s c name (s.goto c (.recheck (some p)))
  | finishes (p : Fin n) (before : (s.cpu c).point = .finish p) :
      Stepped cfg s c name ({ s with
        sched := s.sched.finishProc p
        ended := Function.update s.ended p (s.ended p + 1) }.goto c (.free p))
  | frees (p : Fin n) (before : (s.cpu c).point = .free p) :
      Stepped cfg s c name ({ s with
        released := Function.update s.released p (s.released p + 1) }.goto c .afterFree)
  | puts (p : Fin n) (before : (s.cpu c).point = .put p) :
      Stepped cfg s c name ({ s with
        sched := s.sched.putProc (s.proc p).prio p }.goto c .afterPut)
  | getsAfterFree (before : (s.cpu c).point = .afterFree) :
      Stepped cfg s c name ({ s with sched := s.sched.getProc.2 }.setCpu c
        { s.cpu c with point := .recheck s.sched.getProc.1, timeLeft := 0 })
  | getsAfterPut (before : (s.cpu c).point = .afterPut) :
      Stepped cfg s c name
        ({ s with sched := s.sched.getProc.2 }.goto c (.recheck s.sched.getProc.1))
  | stops (before : (s.cpu c).point = .recheck none) (done : s.done = true) :
      Stepped cfg s c name (s.goto c .stopped)
  | idles (before : (s.cpu c).point = .recheck none) (done : s.done = false) :
      Stepped cfg s c name (s.goto c (.inSlot none))
  | starts (p : Fin n) (before : (s.cpu c).point = .recheck (some p)) :
      Stepped cfg s c name (s.setCpu c { s.cpu c with
        point := .run p
        timeLeft := if (s.cpu c).timeLeft = 0 then cfg.timeSlot else (s.cpu c).timeLeft })
  | runsOut (p : Fin n) (before : (s.cpu c).point = .run p)
      (inst : (cfg.text p)[(s.proc p).pc]? = none) : Stepped cfg s c name (s.goto c (.ran p))
  | fetches (p : Fin n) (ins : Inst) (before : (s.cpu c).point = .run p)
      (inst : (cfg.text p)[(s.proc p).pc]? = some ins) :
      Stepped cfg s c name (s.goto c (.fetched p (s.proc p).pc ins))
  | advances (p : Fin n) (k : ℕ) (ins : Inst) (before : (s.cpu c).point = .fetched p k ins) :
      Stepped cfg s c name
        ((s.setProc p { s.proc p with pc := (s.proc p).pc + 1 }).goto c (.execute p k ins))
  | executes (p : Fin n) (k : ℕ) (ins : Inst) (before : (s.cpu c).point = .execute p k ins)
      (plain : ins.isKillall = false) :
      Stepped cfg s c name ({ s with
        executed := Function.update s.executed p (s.executed p ++ [k]) }.goto c (.ran p))
  | entersKill (p : Fin n) (k : ℕ) (ins : Inst) (before : (s.cpu c).point = .execute p k ins)
      (killall : ins.isKillall = true) :
      Stepped cfg s c name ({ s with
        executed := Function.update s.executed p (s.executed p ++ [k]) }.goto c (.kill p name))
  | kills (p : Fin n) (target : List Char) (before : (s.cpu c).point = .kill p target) :
      Stepped cfg s c name ({ s with
        sched := (s.killProcByName cfg target p).sched
        proc := fun q => { s.proc q with
          killed := (s.proc q).killed || q ∈ (s.killProcByName cfg target p).killed }
        ended := fun q => s.ended q + (s.killProcByName cfg target p).victims.count q }.goto c
          (.freeVictims p (s.killProcByName cfg target p).victims))
  | leavesKill (p : Fin n) (before : (s.cpu c).point = .freeVictims p []) :
      Stepped cfg s c name (s.goto c (.ran p))
  | freesVictim (p v : Fin n) (vs : List (Fin n))
      (before : (s.cpu c).point = .freeVictims p (v :: vs)) :
      Stepped cfg s c name ({ s with
        released := Function.update s.released v (s.released v + 1) }.goto c (.freeVictims p vs))
  | counts (p : Fin n) (before : (s.cpu c).point = .ran p) :
      Stepped cfg s c name (s.setCpu c { s.cpu c with
        point := .inSlot (some p), timeLeft := (s.cpu c).timeLeft - 1 })
  | slot (proc : Option (Fin n)) (before : (s.cpu c).point = .inSlot proc) :
      Stepped cfg s c name (s.setCpu c { s.cpu c with
        point := .top proc, slots := (s.cpu c).slots + 1 })

inductive Moved (cfg : Config n) (s : System n m) (c : Fin m) : System n m → Prop
  | keeps (x : Cpu n) (proc : Fin n → Proc) (executed : Fin n → List ℕ)
      (owner : x.point.owner = (s.cpu c).point.owner)
      (victims : x.point.victims = (s.cpu c).point.victims)
      (reaped : x.point.reaped = (s.cpu c).point.reaped)
      (prio : ∀ q, (proc q).prio = (s.proc q).prio) :
      Moved cfg s c { s with
        proc := proc, executed := executed, cpu := Function.update s.cpu c x }
  | gets (x : Cpu n) (idle : (s.cpu c).point.owner = none)
      (owner : x.point.owner = s.sched.getProc.1)
      (victims : x.point.victims = [] ∧ (s.cpu c).point.victims = [])
      (reaped : x.point.reaped = none ∧ (s.cpu c).point.reaped = none) :
      Moved cfg s c { s with sched := s.sched.getProc.2, cpu := Function.update s.cpu c x }
  | finishes (p : Fin n) (x : Cpu n) (before : (s.cpu c).point = .finish p)
      (after : x.point = .free p) :
      Moved cfg s c { s with
        sched := s.sched.finishProc p
        ended := Function.update s.ended p (s.ended p + 1)
        cpu := Function.update s.cpu c x }
  | frees (p : Fin n) (x : Cpu n) (before : (s.cpu c).point = .free p)
      (after : x.point = .afterFree) :
      Moved cfg s c { s with
        released := Function.update s.released p (s.released p + 1)
        cpu := Function.update s.cpu c x }
  | puts (p : Fin n) (x : Cpu n) (before : (s.cpu c).point = .put p) (after : x.point = .afterPut) :
      Moved cfg s c { s with
        sched := s.sched.putProc (s.proc p).prio p
        cpu := Function.update s.cpu c x }
  | kills (p : Fin n) (name : List Char) (x : Cpu n) (proc : Fin n → Proc)
      (before : (s.cpu c).point = .kill p name)
      (after : x.point = .freeVictims p (s.killProcByName cfg name p).victims)
      (prio : ∀ q, (proc q).prio = (s.proc q).prio) :
      Moved cfg s c { s with
        sched := (s.killProcByName cfg name p).sched
        proc := proc
        ended := fun q => s.ended q + (s.killProcByName cfg name p).victims.count q
        cpu := Function.update s.cpu c x }
  | freesVictim (p v : Fin n) (vs : List (Fin n)) (x : Cpu n)
      (before : (s.cpu c).point = .freeVictims p (v :: vs))
      (after : x.point = .freeVictims p vs) :
      Moved cfg s c { s with
        released := Function.update s.released v (s.released v + 1)
        cpu := Function.update s.cpu c x }

variable {cfg : Config n} {s s' : System n m} {c d : Fin m}

def play (cfg : Config n) (s : System n m) : List (Action m) → Option (System n m)
  | [] => some s
  | a :: as => (play cfg s as).bind fun t => t.step cfg a

theorem run_of_play {as : List (Action m)} (h : s.play cfg as = some s') :
    Run (Next cfg) s as s' := by
  induction as generalizing s' with
  | nil =>
    obtain rfl := Option.some.inj h
    exact .nil
  | cons a as ih =>
    obtain ⟨t, ht, hstep⟩ := Option.bind_eq_some_iff.mp h
    exact .snoc (ih ht) hstep

@[simp] theorem setCpu_cpu_self (s : System n m) (c : Fin m) (x : Cpu n) :
    (s.setCpu c x).cpu c = x := Function.update_self _ _ _

@[simp] theorem goto_proc (s : System n m) (c : Fin m) (x : Point n) :
    (s.goto c x).proc = s.proc := rfl

@[simp] theorem goto_executed (s : System n m) (c : Fin m) (x : Point n) :
    (s.goto c x).executed = s.executed := rfl

@[simp] theorem goto_point_self (s : System n m) (c : Fin m) (x : Point n) :
    ((s.goto c x).cpu c).point = x := by
  rw [goto, setCpu_cpu_self]

theorem goto_cpu_of_ne (x : Point n) (h : d ≠ c) : (s.goto c x).cpu d = s.cpu d :=
  Function.update_of_ne h _ _

theorem cpu_ne_of_point {x y : Point n} (hd : (s.cpu d).point = x) (hc : (s.cpu c).point = y)
    (hne : x ≠ y) : d ≠ c := by
  intro heq
  subst heq
  exact hne (hd.symm.trans hc)

theorem point_of_goto {x y : Point n} (h : ((s.goto c x).cpu d).point = y) :
    (d = c ∧ x = y) ∨ (d ≠ c ∧ (s.cpu d).point = y) := by
  by_cases hd : d = c
  · subst hd
    rw [goto_point_self] at h
    exact Or.inl ⟨rfl, h⟩
  · rw [goto_cpu_of_ne x hd] at h
    exact Or.inr ⟨hd, h⟩

theorem Moved.loader_eq (h : Moved cfg s c s') : s'.loader = s.loader := by
  cases h <;> rfl

theorem Moved.done_eq (h : Moved cfg s c s') : s'.done = s.done := by
  cases h <;> rfl

theorem Moved.cpu_of_ne (h : Moved cfg s c s') (hd : d ≠ c) : s'.cpu d = s.cpu d := by
  cases h <;> exact Function.update_of_ne hd _ _

theorem cpuStep_cases {name : List Char} (h : s.cpuStep cfg c name = some s') :
    Stepped cfg s c name s' := by
  rcases hx : s.cpu c with ⟨x, timeLeft, slots⟩
  have hpt : (s.cpu c).point = x := by rw [hx]
  cases x with
  | top proc =>
    cases proc with
    | none =>
      rcases hg : s.sched.getProc.1 with _ | p <;> simp only [cpuStep, hpt, hg] at h <;>
        obtain rfl := Option.some.inj h
      · exact .findsNone hpt hg
      · exact .findsFirst p hpt hg
    | some p =>
      simp only [cpuStep, hpt] at h
      obtain rfl := Option.some.inj h
      split_ifs with hk
      · exact .reaps p hpt hk
      · exact .spares p hpt (Bool.eq_false_iff.mpr hk)
  | testEnd p =>
    simp only [cpuStep, hpt] at h
    obtain rfl := Option.some.inj h
    split_ifs with hend hleft
    · exact .ends p hpt hend
    · exact .expires p hpt hend hleft
    · exact .continues p hpt hend hleft
  | recheck proc =>
    cases proc with
    | none =>
      simp only [cpuStep, hpt] at h
      obtain rfl := Option.some.inj h
      split_ifs with hd
      · exact .stops hpt hd
      · exact .idles hpt (Bool.eq_false_iff.mpr hd)
    | some p =>
      simp only [cpuStep, hpt] at h
      obtain rfl := Option.some.inj h
      exact .starts p hpt
  | run p =>
    simp only [cpuStep, hpt] at h
    split at h
    · next hins =>
      obtain rfl := Option.some.inj h
      exact .runsOut p hpt hins
    · next ins hins =>
      obtain rfl := Option.some.inj h
      exact .fetches p ins hpt hins
  | execute p k ins =>
    simp only [cpuStep, hpt] at h
    obtain rfl := Option.some.inj h
    split_ifs with hk
    · exact .entersKill p k ins hpt hk
    · exact .executes p k ins hpt (Bool.eq_false_iff.mpr hk)
  | freeVictims p vs =>
    cases vs with
    | nil =>
      simp only [cpuStep, hpt] at h
      obtain rfl := Option.some.inj h
      exact .leavesKill p hpt
    | cons v vs =>
      simp only [cpuStep, hpt] at h
      obtain rfl := Option.some.inj h
      exact .freesVictim p v vs hpt
  | stopped =>
    simp only [cpuStep, hpt] at h
    cases h
  | _ =>
    -- the points from which there is one way on
    simp only [cpuStep, hpt] at h
    obtain rfl := Option.some.inj h
    constructor
    exact hpt

theorem Moved.goto {x y : Point n} (before : (s.cpu c).point = y) (ho : x.owner = y.owner)
    (hv : x.victims = y.victims) (hr : x.reaped = y.reaped) : Moved cfg s c (s.goto c x) := by
  subst before
  exact .keeps _ s.proc s.executed ho hv hr fun _ => rfl

theorem Moved.setCpu {x : Cpu n} {y : Point n} (before : (s.cpu c).point = y)
    (ho : x.point.owner = y.owner) (hv : x.point.victims = y.victims)
    (hr : x.point.reaped = y.reaped) : Moved cfg s c (s.setCpu c x) := by
  subst before
  exact .keeps _ s.proc s.executed ho hv hr fun _ => rfl

theorem cpuStep_moved {name : List Char} (h : s.cpuStep cfg c name = some s') :
    Moved cfg s c s' := by
  cases cpuStep_cases h with
  | findsNone before queue =>
    refine .gets _ ?_ queue.symm ⟨rfl, ?_⟩ ⟨rfl, ?_⟩ <;> rw [before] <;> rfl
  | findsFirst p before queue =>
    refine .gets _ ?_ queue.symm ⟨rfl, ?_⟩ ⟨rfl, ?_⟩ <;> rw [before] <;> rfl
  | reaps p before => exact .goto before rfl rfl rfl
  | spares p before => exact .goto before rfl rfl rfl
  | ends p before => exact .goto before rfl rfl rfl
  | expires p before => exact .goto before rfl rfl rfl
  | continues p before => exact .goto before rfl rfl rfl
  | finishes p before => exact .finishes p _ before rfl
  | frees p before => exact .frees p _ before rfl
  | puts p before => exact .puts p _ before rfl
  | getsAfterFree before =>
    refine .gets _ ?_ rfl ⟨rfl, ?_⟩ ⟨rfl, ?_⟩ <;> rw [before] <;> rfl
  | getsAfterPut before =>
    refine .gets _ ?_ rfl ⟨rfl, ?_⟩ ⟨rfl, ?_⟩ <;> rw [before] <;> rfl
  | stops before => exact .goto before rfl rfl rfl
  | idles before => exact .goto before rfl rfl rfl
  | starts p before => exact .setCpu before rfl rfl rfl
  | runsOut p before => exact .goto before rfl rfl rfl
  | fetches p ins before => exact .goto before rfl rfl rfl
  | advances p k ins before =>
    refine .keeps _ _ s.executed ?_ ?_ ?_ fun q => ?_
    · rw [before]; rfl
    · rw [before]; rfl
    · rw [before]; rfl
    · by_cases hq : q = p
      · subst hq
        simp [setProc]
      · simp [setProc, Function.update_of_ne hq]
  | executes p k ins before =>
    refine .keeps _ s.proc _ ?_ ?_ ?_ (fun _ => rfl) <;> rw [before] <;> rfl
  | entersKill p k ins before =>
    refine .keeps _ s.proc _ ?_ ?_ ?_ (fun _ => rfl) <;> rw [before] <;> rfl
  | kills p target before => exact .kills p target _ _ before rfl fun _ => rfl
  | leavesKill p before => exact .goto before rfl rfl rfl
  | freesVictim p v vs before => exact .freesVictim p v vs _ before rfl
  | counts p before => exact .setCpu before rfl rfl rfl
  | slot proc before => exact .setCpu before rfl rfl rfl

/-- One step of the loader: it fills in the next process, it hands a process to the
scheduler, or it only waits and counts. -/
inductive Loaded (s : System n m) : System n m → Prop
  | loads (i : Fin n) (prio : ℕ) (loader : Loader n)
      (next : (i : ℕ) = s.loader.point.added) (same : loader.point.added = s.loader.point.added) :
      Loaded s { s with
        proc := Function.update s.proc i ⟨0, prio, false⟩, loader := loader }
  | waits (loader : Loader n) (done : Bool)
      (last : done = true → s.done = true ∨ loader.point = .stopped)
      (same : ∀ p : Fin n, (p : ℕ) < loader.point.added ↔ (p : ℕ) < s.loader.point.added) :
      Loaded s { s with loader := loader, done := done }
  | adds (i : Fin n) (slots : ℕ) (before : s.loader.point = .add i) :
      Loaded s { s with
        proc := Function.update s.proc i
          { s.proc i with prio := Sched.clampPrio (s.proc i).prio }
        sched := s.sched.addProc (s.proc i).prio i
        loader := ⟨.addSlot i, slots⟩ }

theorem ldStep_loaded (h : s.ldStep cfg = some s') : Loaded s s' := by
  rcases hl : s.loader with ⟨x, slots⟩
  have hpt : s.loader.point = x := by rw [hl]
  cases x with
  | load i =>
    by_cases hi : i < n
    · simp only [ldStep, hpt, dif_pos hi, Option.some.injEq] at h
      subst h
      exact .loads ⟨i, hi⟩ _ _ (by rw [hpt]; rfl) (by rw [hpt]; rfl)
    · simp only [ldStep, hpt, dif_neg hi, Option.some.injEq] at h
      subst h
      refine .waits _ s.done Or.inl fun p => ?_
      have := p.isLt
      simp only [hpt, LdPoint.added]
      omega
  | wait i =>
    simp only [ldStep, hpt, Option.some.injEq] at h
    subst h
    refine .waits _ s.done Or.inl fun p => ?_
    rw [hpt]
    dsimp only
    split_ifs <;> rfl
  | waitSlot i =>
    simp only [ldStep, hpt, Option.some.injEq] at h
    subst h
    exact .waits _ s.done Or.inl fun p => by rw [hpt]; rfl
  | add i =>
    simp only [ldStep, hpt, Option.some.injEq] at h
    subst h
    exact .adds i _ hpt
  | addSlot i =>
    simp only [ldStep, hpt, Option.some.injEq] at h
    subst h
    exact .waits _ s.done Or.inl fun p => by rw [hpt]; rfl
  | finish =>
    simp only [ldStep, hpt, Option.some.injEq] at h
    subst h
    exact .waits _ true (fun _ => Or.inr rfl) fun p => by rw [hpt]; rfl
  | stopped =>
    simp only [ldStep, hpt] at h
    cases h

end System
end OSsim
