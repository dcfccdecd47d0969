import Mathlib.Data.List.Perm.Subperm
import Mathlib.Tactic

/-!
# Process queues

The FIFO queues of `queue.c`. A queue holds at most `MAX_QUEUE_SIZE` processes; an
`enqueue` on a full one drops the process.
-/

namespace OSsim

def maxQueueSize : ℕ := 100

structure Queue (α : Type*) where
  proc : List α
  size_le : proc.length ≤ maxQueueSize

namespace Queue
variable {α : Type*}

protected def nil : Queue α := ⟨[], Nat.zero_le _⟩

def empty (q : Queue α) : Bool := q.proc.isEmpty

def enqueue (q : Queue α) (proc : α) : Queue α :=
  if h : maxQueueSize ≤ q.proc.length then q
  else ⟨q.proc ++ [proc], by rw [List.length_append, List.length_singleton]; omega⟩

def dequeue (q : Queue α) : Option (α × Queue α) :=
  match q with
  | ⟨[], _⟩ => none
  | ⟨proc :: rest, h⟩ => some (proc, ⟨rest, (Nat.le_succ _).trans h⟩)

section Remove
variable [DecidableEq α]

/-- The search of `remove_from_queue` and the shift of what stands behind the match. -/
def removeFrom (proc : α) : List α → Bool × List α
  | [] => (false, [])
  | a :: l => if a = proc then (true, l) else ((removeFrom proc l).1, a :: (removeFrom proc l).2)

theorem removeFrom_eq (proc : α) (l : List α) :
    removeFrom proc l = (decide (proc ∈ l), l.erase proc) := by
  induction l with
  | nil => rfl
  | cons a l ih =>
    by_cases ha : a = proc
    · subst ha
      simp [removeFrom]
    · have ha' : ¬ proc = a := fun h => ha h.symm
      simp [removeFrom, ih, ha, ha']

def removeFromQueue (q : Queue α) (proc : α) : Bool × Queue α :=
  ((removeFrom proc q.proc).1, ⟨(removeFrom proc q.proc).2, by
    rw [removeFrom_eq]
    exact (List.length_erase_le).trans q.size_le⟩)

variable (q : Queue α) (p : α)

@[simp] theorem removeFromQueue_fst : (q.removeFromQueue p).1 = decide (p ∈ q.proc) := by
  simp only [removeFromQueue, removeFrom_eq]

@[simp] theorem removeFromQueue_proc : (q.removeFromQueue p).2.proc = q.proc.erase p := by
  simp only [removeFromQueue, removeFrom_eq]

end Remove

@[simp] theorem nil_proc : (Queue.nil : Queue α).proc = [] := rfl

variable {q : Queue α} {p : α}

theorem enqueue_proc_of_lt (h : q.proc.length < maxQueueSize) :
    (q.enqueue p).proc = q.proc ++ [p] := by
  rw [enqueue, dif_neg (by omega)]

theorem enqueue_of_full (h : maxQueueSize ≤ q.proc.length) : q.enqueue p = q := by
  rw [enqueue, dif_pos h]

theorem mem_enqueue {a : α} (h : a ∈ (q.enqueue p).proc) : a ∈ q.proc ∨ a = p := by
  rcases Nat.lt_or_ge q.proc.length maxQueueSize with hlt | hge
  · rw [enqueue_proc_of_lt hlt] at h
    simpa using h
  · rw [enqueue_of_full hge] at h
    exact Or.inl h

theorem dequeue_eq_some {q' : Queue α} (h : q.dequeue = some (p, q')) : q.proc = p :: q'.proc := by
  rcases q with ⟨_ | ⟨a, l⟩, hl⟩
  · simp [dequeue] at h
  · simp only [dequeue, Option.some.injEq, Prod.mk.injEq] at h
    obtain ⟨rfl, rfl⟩ := h
    rfl

theorem dequeue_eq_none (h : q.dequeue = none) : q.proc = [] := by
  rcases q with ⟨_ | ⟨a, l⟩, hl⟩
  · rfl
  · cases h

section Count
variable [DecidableEq α]

theorem count_enqueue_le (q : Queue α) (p a : α) :
    (q.enqueue p).proc.count a ≤ q.proc.count a + [p].count a := by
  rcases Nat.lt_or_ge q.proc.length maxQueueSize with hlt | hge
  · rw [enqueue_proc_of_lt hlt, List.count_append]
  · rw [enqueue_of_full hge]
    exact Nat.le_add_right _ _

theorem count_dequeue {q' : Queue α} (h : q.dequeue = some (p, q')) (a : α) :
    q'.proc.count a + [p].count a = q.proc.count a := by
  rw [dequeue_eq_some h, List.count_cons, List.count_cons, List.count_nil, Nat.zero_add]

theorem count_remove_add (hp : p ∈ q.proc) (a : α) :
    (q.removeFromQueue p).2.proc.count a + [p].count a = q.proc.count a := by
  rw [removeFromQueue_proc, (List.perm_cons_erase hp).count_eq a, List.count_cons, List.count_cons,
    List.count_nil, Nat.zero_add]

theorem remove_of_notMem (hp : p ∉ q.proc) : (q.removeFromQueue p).2 = q := by
  rcases q with ⟨l, h⟩
  simp only [removeFromQueue, removeFrom_eq, Queue.mk.injEq]
  exact List.erase_of_not_mem hp

end Count
end Queue
end OSsim
