import OSsim.Places

/-!
# Time slots as a barrier

`next_slot` announces the end of a thread's slot and returns after the timer has
advanced the clock; the timer waits for every thread that has not detached. A run is
in step when its threads keep to this.
-/

namespace OSsim

def Action.isCpu {m : ℕ} (c : Fin m) : Action m → Bool
  | .cpu d _ => d = c
  | _ => false

theorem Action.eq_cpu {m : ℕ} {c : Fin m} {a : Action m} (h : a.isCpu c = true) :
    ∃ name, a = .cpu c name := by
  cases a with
  | cpu d name =>
    simp only [isCpu, decide_eq_true_eq] at h
    subst h
    exact ⟨name, rfl⟩
  | loader => cases h
  | tick => cases h

def Cpu.inNextSlot {n : ℕ} (x : Cpu n) : Bool :=
  match x.point with
  | .inSlot _ => true
  | _ => false

def Loader.inNextSlot {n : ℕ} (x : Loader n) : Bool :=
  match x.point with
  | .waitSlot _ => true
  | .addSlot _ => true
  | _ => false

namespace System
variable {n m : ℕ}

def InStep (s : System n m) : Action m → Prop
  | .cpu c _ => (s.cpu c).inNextSlot = true → (s.cpu c).slots < s.time
  | .loader => s.loader.inNextSlot = true → s.loader.slots < s.time
  | .tick =>
    (∀ c, (s.cpu c).point = .stopped ∨ ((s.cpu c).inNextSlot = true ∧ s.time ≤ (s.cpu c).slots)) ∧
      (s.loader.point = .stopped ∨ (s.loader.inNextSlot = true ∧ s.time ≤ s.loader.slots))

instance (s : System n m) : (a : Action m) → Decidable (s.InStep a)
  | .cpu c _ => inferInstanceAs (Decidable ((s.cpu c).inNextSlot = true → _ < _))
  | .loader => inferInstanceAs (Decidable (s.loader.inNextSlot = true → _ < _))
  | .tick => inferInstanceAs (Decidable (_ ∧ _))

def playInStep (cfg : Config n) (s : System n m) : List (Action m) → Option (System n m)
  | [] => some s
  | a :: as => (playInStep cfg s as).bind fun t => if t.InStep a then t.step cfg a else none

theorem run_of_playInStep {cfg : Config n} {s t : System n m} {as : List (Action m)}
    (h : s.playInStep cfg as = some t) :
    Run (fun s a s' => s.InStep a ∧ Next cfg s a s') s as t := by
  induction as generalizing t with
  | nil =>
    obtain rfl := Option.some.inj h
    exact .nil
  | cons a as ih =>
    obtain ⟨u, hu, hstep⟩ := Option.bind_eq_some_iff.mp h
    split_ifs at hstep with hin
    exact .snoc (ih hu) ⟨hin, hstep⟩

end System
end OSsim
