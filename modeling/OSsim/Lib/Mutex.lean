import Mathlib.Tactic

/-!
# Programs that take a mutex

A program of one thread, with the mutex as a ghost: a flag that says whether the thread
holds it, and a log of what has happened, newest first, each entry with the value of the
flag at that moment. `lock` and `unlock` are the calls on the mutex, `touch` is an
operation on what the mutex protects and `own` one on the rest of the state.

`Takes b m b'` is the rule for code between two points of the program: entered with the
flag `b` the program leaves it `b'`, and everything it logs is allowed. `Within m` says
more about code without calls on the mutex: it logs operations only, each with the flag
it was entered with. `Computes m f` forgets the ghost.
-/

namespace Mutex
variable {σ τ ε : Type*} {α β : Type}

inductive Event (ε : Type*)
  | lock
  | unlock
  | touch (e : ε)

def Event.Allowed : Event ε → Bool → Prop
  | .lock, held => held = false
  | .unlock, held => held = true
  | .touch _, held => held = true

structure Thread (σ ε : Type*) where
  state : σ
  held : Bool
  log : List (Event ε × Bool)

def start (s : σ) : Thread σ ε := ⟨s, false, []⟩

@[simp] theorem start_state (s : σ) : (start s : Thread σ ε).state = s := rfl

@[simp] theorem start_log (s : σ) : (start s : Thread σ ε).log = [] := rfl

structure Prog (σ ε : Type*) (α : Type) where
  run : Thread σ ε → α × Thread σ ε

instance : Monad (Prog σ ε) where
  pure a := ⟨fun t => (a, t)⟩
  bind m k := ⟨fun t => (k (m.run t).1).run (m.run t).2⟩

@[simp] theorem run_pure (a : α) (t : Thread σ ε) : (pure a : Prog σ ε α).run t = (a, t) := rfl

@[simp] theorem run_bind (m : Prog σ ε α) (k : α → Prog σ ε β) (t : Thread σ ε) :
    (m >>= k).run t = (k (m.run t).1).run (m.run t).2 := rfl

def lock : Prog σ ε Unit := ⟨fun t => ((), ⟨t.state, true, (.lock, t.held) :: t.log⟩)⟩

def unlock : Prog σ ε Unit := ⟨fun t => ((), ⟨t.state, false, (.unlock, t.held) :: t.log⟩)⟩

def touch (e : ε) (f : σ → α × σ) : Prog σ ε α :=
  ⟨fun t => ((f t.state).1, ⟨(f t.state).2, t.held, (.touch e, t.held) :: t.log⟩)⟩

def own (f : σ → α × σ) : Prog σ ε α :=
  ⟨fun t => ((f t.state).1, ⟨(f t.state).2, t.held, t.log⟩)⟩

def zoom (view : σ → τ) (put : σ → τ → σ) (m : Prog τ ε α) : Prog σ ε α :=
  ⟨fun t =>
    let r := m.run ⟨view t.state, t.held, t.log⟩
    (r.1, ⟨put t.state r.2.state, r.2.held, r.2.log⟩)⟩

/-- The whole call respects the mutex and gives it back. -/
def Guarded (m : Prog σ ε α) (s : σ) : Prop :=
  (∀ x ∈ (m.run (start s)).2.log, x.1.Allowed x.2) ∧ (m.run (start s)).2.held = false

/-- The whole call takes and gives back the mutex as it should, whatever it touches. -/
def Balanced (m : Prog σ ε α) (s : σ) : Prop :=
  (∀ x ∈ (m.run (start s)).2.log, (∀ e, x.1 ≠ .touch e) → x.1.Allowed x.2) ∧
    (m.run (start s)).2.held = false

theorem Guarded.balanced {m : Prog σ ε α} {s : σ} (h : Guarded m s) : Balanced m s :=
  ⟨fun x hx _ => h.1 x hx, h.2⟩

def Takes (b : Bool) (m : Prog σ ε α) (b' : Bool) : Prop :=
  ∀ t, t.held = b → (m.run t).2.held = b' ∧
    ∃ new, (m.run t).2.log = new ++ t.log ∧ ∀ x ∈ new, x.1.Allowed x.2

def Within (m : Prog σ ε α) : Prop :=
  ∀ t, (m.run t).2.held = t.held ∧
    ∃ es : List ε, (m.run t).2.log = es.map (fun e => (.touch e, t.held)) ++ t.log

variable {m : Prog σ ε α} {k : α → Prog σ ε β} {b b' b'' : Bool}

namespace Takes

theorem guarded (h : Takes false m false) (s : σ) : Guarded m s := by
  obtain ⟨hheld, new, hlog, hall⟩ := h (start s) rfl
  rw [start_log, List.append_nil] at hlog
  exact ⟨hlog ▸ hall, hheld⟩

theorem bind (h : Takes b m b') (hk : ∀ a, Takes b' (k a) b'') : Takes b (m >>= k) b'' := by
  intro t ht
  obtain ⟨hheld, new, hlog, hall⟩ := h t ht
  obtain ⟨hheld', new', hlog', hall'⟩ := hk (m.run t).1 (m.run t).2 hheld
  refine ⟨hheld', new' ++ new, ?_, fun x hx => ?_⟩
  · rw [run_bind, hlog', hlog, List.append_assoc]
  · exact (List.mem_append.mp hx).elim (hall' x) (hall x)

theorem pure (b : Bool) (a : α) : Takes b (pure a : Prog σ ε α) b :=
  fun _ ht => ⟨ht, [], rfl, by simp⟩

theorem own (b : Bool) (f : σ → α × σ) : Takes b (own f : Prog σ ε α) b :=
  fun _ ht => ⟨ht, [], rfl, by simp⟩

theorem lock : Takes false (lock : Prog σ ε Unit) true :=
  fun t ht => ⟨rfl, [(.lock, t.held)], rfl, by simpa [Event.Allowed] using ht⟩

theorem unlock : Takes true (unlock : Prog σ ε Unit) false :=
  fun t ht => ⟨rfl, [(.unlock, t.held)], rfl, by simpa [Event.Allowed] using ht⟩

theorem zoom {view : σ → τ} {put : σ → τ → σ} {m : Prog τ ε α} (h : Takes b m b') :
    Takes b (zoom view put m) b' :=
  fun t ht => h ⟨view t.state, t.held, t.log⟩ ht

end Takes

namespace Within

theorem takes (h : Within m) : Takes true m true := by
  intro t ht
  obtain ⟨hheld, es, hlog⟩ := h t
  refine ⟨hheld.trans ht, _, hlog, fun x hx => ?_⟩
  obtain ⟨e, _, rfl⟩ := List.mem_map.mp hx
  exact ht

theorem bind (h : Within m) (hk : ∀ a, Within (k a)) : Within (m >>= k) := by
  intro t
  obtain ⟨hheld, es, hlog⟩ := h t
  obtain ⟨hheld', es', hlog'⟩ := hk (m.run t).1 (m.run t).2
  refine ⟨hheld'.trans hheld, es' ++ es, ?_⟩
  rw [run_bind, hlog', hlog, hheld, List.map_append, List.append_assoc]

theorem pure (a : α) : Within (pure a : Prog σ ε α) := fun _ => ⟨rfl, [], rfl⟩

theorem own (f : σ → α × σ) : Within (own f : Prog σ ε α) := fun _ => ⟨rfl, [], rfl⟩

theorem touch (e : ε) (f : σ → α × σ) : Within (touch e f) := fun _ => ⟨rfl, [e], rfl⟩

theorem zoom {view : σ → τ} {put : σ → τ → σ} {m : Prog τ ε α} (h : Within m) :
    Within (zoom view put m) :=
  fun t => h ⟨view t.state, t.held, t.log⟩

theorem balanced (h : Within m) (s : σ) : Balanced m s := by
  obtain ⟨hheld, es, hlog⟩ := h (start s)
  rw [start_log, List.append_nil] at hlog
  refine ⟨fun x hx hno => ?_, hheld⟩
  rw [hlog] at hx
  obtain ⟨e, _, rfl⟩ := List.mem_map.mp hx
  exact absurd rfl (hno e)

/-- Code without calls on the mutex, entered without it, must touch nothing. -/
theorem guarded_iff (h : Within m) (s : σ) : Guarded m s ↔ (m.run (start s)).2.log = [] := by
  obtain ⟨hheld, es, hlog⟩ := h (start s)
  rw [start_log, List.append_nil] at hlog
  rw [Guarded, hlog]
  constructor
  · intro hg
    cases es with
    | nil => rfl
    | cons e es => exact absurd (hg.1 _ (List.mem_cons_self ..)) (by simp [Event.Allowed, start])
  · intro hnil
    rw [hnil]
    exact ⟨by simp, hheld⟩

theorem length_le (h : Within m) (t : Thread σ ε) : t.log.length ≤ (m.run t).2.log.length := by
  obtain ⟨_, es, hlog⟩ := h t
  rw [hlog, List.length_append]
  omega

end Within

def Touches (m : Prog σ ε α) : Prop := ∀ t, t.log.length < (m.run t).2.log.length

namespace Touches

theorem touch (e : ε) (f : σ → α × σ) : Touches (touch e f) := fun _ => Nat.lt_succ_self _

theorem bind (h : Touches m) (hk : ∀ a, Within (k a)) : Touches (m >>= k) :=
  fun t => (h t).trans_le ((hk _).length_le _)

theorem log_ne_nil (h : Touches m) (s : σ) : (m.run (start s)).2.log ≠ [] := by
  intro hnil
  have hlt := h (start s)
  rw [hnil] at hlt
  exact absurd hlt (Nat.not_lt_zero _)

end Touches

def Computes (m : Prog σ ε α) (f : σ → α × σ) : Prop :=
  ∀ t, (m.run t).1 = (f t.state).1 ∧ (m.run t).2.state = (f t.state).2

namespace Computes
variable {f : σ → α × σ} {g : α → σ → β × σ}

theorem of_unit {m : Prog σ ε Unit} {f : σ → σ} (h : ∀ t, (m.run t).2.state = f t.state) :
    Computes m fun s => ((), f s) :=
  fun t => ⟨rfl, h t⟩

theorem of_eq (h : Computes m f) {t : Thread σ ε} {a : α} {s : σ} (hf : f t.state = (a, s)) :
    (m.run t).1 = a ∧ (m.run t).2.state = s := by
  obtain ⟨hval, hstate⟩ := h t
  rw [hf] at hval hstate
  exact ⟨hval, hstate⟩

theorem bind (h : Computes m f) (hk : ∀ a, Computes (k a) (g a)) :
    Computes (m >>= k) fun s => g (f s).1 (f s).2 := by
  intro t
  obtain ⟨hval, hstate⟩ := h t
  have hk' := hk (m.run t).1 (m.run t).2
  rw [hval, hstate] at hk'
  rw [run_bind, hval]
  exact hk'

theorem pure (a : α) : Computes (pure a : Prog σ ε α) fun s => (a, s) := fun _ => ⟨rfl, rfl⟩

theorem own (f : σ → α × σ) : Computes (own f : Prog σ ε α) f := fun _ => ⟨rfl, rfl⟩

theorem touch (e : ε) (f : σ → α × σ) : Computes (touch e f) f := fun _ => ⟨rfl, rfl⟩

theorem lock : Computes (lock : Prog σ ε Unit) fun s => ((), s) := fun _ => ⟨rfl, rfl⟩

theorem unlock : Computes (unlock : Prog σ ε Unit) fun s => ((), s) := fun _ => ⟨rfl, rfl⟩

end Computes
end Mutex
