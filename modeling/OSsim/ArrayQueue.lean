import OSsim.Lib.Cells
import OSsim.Queue

/-!
# The queues as arrays

`queue.c` on `struct queue_t`, a fixed array of pointers with a counter. Both removals
close the gap by a shift loop that reads one cell ahead; `remove_from_queue` enters it
with the index its search has stopped at. A pointer is `none` for NULL, and an access
outside of the array ends a call with the index.
-/

namespace OSsim
open Cells

structure QueueT (α : Type*) where
  proc : Fin maxQueueSize → Option α
  size : ℤ

namespace QueueT
variable {α : Type*}

def empty (q : QueueT α) : Bool := q.size = 0

def enqueue (q : QueueT α) (proc : Option α) : Except ℤ (QueueT α) :=
  if proc = none then pure q
  else if maxQueueSize ≤ q.size then pure q
  else do
    let procs ← write q.proc q.size proc
    pure ⟨procs, q.size + 1⟩

/-- `for (; i < size - 1; i++) proc[i] = proc[i + 1];` -/
def shift (size i : ℤ) (proc : Fin maxQueueSize → Option α) :
    Except ℤ (Fin maxQueueSize → Option α) :=
  if i < size - 1 then do
    let next ← read proc (i + 1)
    let proc ← write proc i next
    shift size (i + 1) proc
  else pure proc
termination_by (size - 1 - i).toNat

def dequeue (q : QueueT α) : Except ℤ (Option α × QueueT α) :=
  if q.size = 0 then pure (none, q)
  else do
    let proc ← read q.proc 0
    let procs ← shift q.size 0 q.proc
    pure (proc, ⟨procs, q.size - 1⟩)

section Remove
variable [DecidableEq α]

/-- The loop of `remove_from_queue` from its `i`-th round on. -/
def removeLoop (q : QueueT α) (proc : Option α) (i : ℤ) : Except ℤ (Bool × QueueT α) :=
  if i < q.size then do
    let here ← read q.proc i
    if here = proc then
      let procs ← shift q.size i q.proc
      pure (true, ⟨procs, q.size - 1⟩)
    else removeLoop q proc (i + 1)
  else pure (false, q)
termination_by (q.size - i).toNat

def removeFromQueue (q : QueueT α) (proc : Option α) : Except ℤ (Bool × QueueT α) :=
  if proc = none then pure (false, q) else removeLoop q proc 0

end Remove

structure Stores (q : QueueT α) (l : List α) : Prop where
  size_eq : q.size = l.length
  cells : Holds q.proc (l.map some)

theorem Stores.length_le {q : QueueT α} {l : List α} (h : q.Stores l) :
    l.length ≤ maxQueueSize := by
  have := h.cells.length_le
  rwa [List.length_map] at this

theorem shift_holds {a : Fin maxQueueSize → Option α} {l : List (Option α)} (h : Holds a l) {i : ℕ}
    (hi : i < l.length) : ∃ a', shift l.length i a = .ok a' ∧ Holds a' (l.eraseIdx i) := by
  obtain ⟨k, hk⟩ : ∃ k, l.length - 1 - i = k := ⟨_, rfl⟩
  induction k generalizing a l i with
  | zero =>
    have hlast : i = l.length - 1 := by omega
    refine ⟨a, ?_, h.take ?_⟩
    · rw [shift, if_neg (by omega)]
      rfl
    · rw [hlast, List.eraseIdx_length_sub_one]
      exact List.dropLast_prefix l
  | succ k ih =>
    have hnext : i + 1 < l.length := by omega
    obtain ⟨a₁, hwrite, h₁⟩ := h.write hi l[i + 1]
    obtain ⟨a₂, hshift, h₂⟩ := ih h₁ (i := i + 1) (by rwa [List.length_set])
      (by rw [List.length_set]; omega)
    rw [set_eraseIdx_succ hnext] at h₂
    refine ⟨a₂, ?_, h₂⟩
    have hread := h.read hnext
    push_cast at hread hshift
    rw [List.length_set] at hshift
    rw [shift, if_pos (by omega), hread]
    simp only [bind, Except.bind, hwrite, hshift]

namespace Stores
variable {q : QueueT α} {l : List α} (h : q.Stores l)
include h

theorem empty_eq : q.empty = l.isEmpty := by
  rw [empty, h.size_eq]
  cases l with
  | nil => rfl
  | cons p l =>
    simp only [List.length_cons, List.isEmpty_cons, decide_eq_false_iff_not]
    omega

theorem enqueue (p : α) : ∃ q', q.enqueue (some p) = .ok q' ∧
    q'.Stores (if l.length < maxQueueSize then l ++ [p] else l) := by
  rw [QueueT.enqueue, if_neg (Option.some_ne_none p), h.size_eq]
  by_cases hfull : l.length < maxQueueSize
  · obtain ⟨a, hwrite, ha⟩ := h.cells.append (by rwa [List.length_map]) (some p)
    rw [List.length_map] at hwrite
    rw [if_neg (by omega), hwrite, if_pos hfull]
    refine ⟨⟨a, l.length + 1⟩, rfl, ?_, ?_⟩
    · rw [List.length_append, List.length_singleton]
      push_cast
      rfl
    · rwa [List.map_append]
  · rw [if_pos (by omega), if_neg hfull]
    exact ⟨q, rfl, h⟩

theorem shift {i : ℕ} (hi : i < l.length) : ∃ procs, shift q.size i q.proc = .ok procs ∧
    Stores ⟨procs, q.size - 1⟩ (l.eraseIdx i) := by
  obtain ⟨a, hshift, ha⟩ := shift_holds h.cells (i := i) (by rwa [List.length_map])
  rw [List.length_map, ← h.size_eq] at hshift
  refine ⟨a, hshift, ?_, ?_⟩
  · rw [List.length_eraseIdx_of_lt hi]
    have := h.size_eq
    simp only
    omega
  · rwa [List.eraseIdx_map] at ha

theorem dequeue : ∃ q', q.dequeue = .ok (l.head?, q') ∧ q'.Stores l.tail := by
  cases l with
  | nil =>
    have hsize : q.size = 0 := h.size_eq
    exact ⟨q, by rw [QueueT.dequeue, if_pos hsize]; rfl, h⟩
  | cons p l =>
    have hsize := h.size_eq
    rw [List.length_cons] at hsize
    have hread := h.cells.read (i := 0) (by simp)
    obtain ⟨procs, hshift, hs⟩ := h.shift (i := 0) (by simp)
    push_cast at hread hshift
    refine ⟨⟨procs, q.size - 1⟩, ?_, hs⟩
    rw [QueueT.dequeue, if_neg (by omega), hread, hshift]
    rfl

variable [DecidableEq α]

omit h in
theorem erase_eq_eraseIdx {p : α} {i : ℕ} (hi : i < l.length) (hp : l[i] = p)
    (hno : p ∉ l.take i) : l.erase p = l.eraseIdx i := by
  have hsplit : l = l.take i ++ p :: l.drop (i + 1) := by
    rw [← hp, List.cons_getElem_drop_succ, List.take_append_drop]
  rw [List.eraseIdx_eq_take_drop_succ]
  conv_lhs => rw [hsplit]
  rw [List.erase_append_right _ hno, List.erase_cons_head]

theorem removeLoop {p : α} {i : ℕ} (hi : i ≤ l.length) (hno : p ∉ l.take i) :
    ∃ q', q.removeLoop (some p) i = .ok (decide (p ∈ l), q') ∧ q'.Stores (l.erase p) := by
  have hsize := h.size_eq
  obtain ⟨k, hk⟩ : ∃ k, l.length - i = k := ⟨_, rfl⟩
  induction k generalizing i with
  | zero =>
    have hall : p ∉ l := by rwa [List.take_of_length_le (by omega)] at hno
    refine ⟨q, ?_, by rwa [List.erase_of_not_mem hall]⟩
    rw [QueueT.removeLoop, if_neg (by omega), decide_eq_false hall]
    rfl
  | succ k ih =>
    have hlt : i < l.length := by omega
    have hread := h.cells.read (i := i) (by rwa [List.length_map])
    rw [List.getElem_map] at hread
    by_cases hp : l[i] = p
    · obtain ⟨procs, hshift, hs⟩ := h.shift hlt
      refine ⟨⟨procs, q.size - 1⟩, ?_, by rwa [erase_eq_eraseIdx hlt hp hno]⟩
      rw [QueueT.removeLoop, if_pos (by omega), hread,
        decide_eq_true (hp ▸ List.getElem_mem hlt)]
      simp only [bind, Except.bind, hp, if_true, hshift]
      rfl
    · have hno' : p ∉ l.take (i + 1) := by
        rw [List.take_succ_eq_append_getElem hlt, List.mem_append, List.mem_singleton]
        exact fun hor => hor.elim hno fun he => hp he.symm
      obtain ⟨q', hloop, hs⟩ := ih (i := i + 1) hlt hno' (by omega)
      refine ⟨q', ?_, hs⟩
      push_cast at hloop
      rw [QueueT.removeLoop, if_pos (by omega), hread]
      simp only [bind, Except.bind, Option.some.injEq, hp, if_false, hloop]

theorem removeFromQueue (p : α) : ∃ q',
    q.removeFromQueue (some p) = .ok (decide (p ∈ l), q') ∧ q'.Stores (l.erase p) := by
  obtain ⟨q', hloop, hs⟩ := h.removeLoop (p := p) (i := 0) (Nat.zero_le _) (by simp)
  exact ⟨q', by rw [QueueT.removeFromQueue, if_neg (Option.some_ne_none p)]; exact hloop, hs⟩

end Stores
end QueueT

inductive QueueCall (α : Type*)
  | empty
  | enqueue (proc : Option α)
  | dequeue
  | removeFromQueue (proc : Option α)

inductive QueueReturn (α : Type*)
  | void
  | flag (b : Bool)
  | proc (proc : Option α)

namespace QueueCall
variable {α : Type*} [DecidableEq α]

def onArray (q : QueueT α) : QueueCall α → Except ℤ (QueueReturn α × QueueT α)
  | empty => pure (.flag q.empty, q)
  | enqueue proc => do
    let q ← q.enqueue proc
    pure (.void, q)
  | dequeue => do
    let r ← q.dequeue
    pure (.proc r.1, r.2)
  | removeFromQueue proc => do
    let r ← q.removeFromQueue proc
    pure (.flag r.1, r.2)

/-- What the call is for: a list of at most `maxQueueSize` processes, oldest first. -/
def onList (l : List α) : QueueCall α → QueueReturn α × List α
  | empty => (.flag l.isEmpty, l)
  | enqueue none => (.void, l)
  | enqueue (some p) => (.void, if l.length < maxQueueSize then l ++ [p] else l)
  | dequeue => (.proc l.head?, l.tail)
  | removeFromQueue none => (.flag false, l)
  | removeFromQueue (some p) => (.flag (decide (p ∈ l)), l.erase p)

def runArray : List (QueueCall α) → QueueT α → Except ℤ (List (QueueReturn α) × QueueT α)
  | [], q => pure ([], q)
  | call :: calls, q => do
    let r ← call.onArray q
    let rest ← runArray calls r.2
    pure (r.1 :: rest.1, rest.2)

def runList : List (QueueCall α) → List α → List (QueueReturn α) × List α
  | [], l => ([], l)
  | call :: calls, l =>
    let r := call.onList l
    let rest := runList calls r.2
    (r.1 :: rest.1, rest.2)

variable {q : QueueT α} {l : List α}

theorem onArray_stores (h : q.Stores l) (call : QueueCall α) :
    ∃ q', call.onArray q = .ok ((call.onList l).1, q') ∧ q'.Stores (call.onList l).2 := by
  cases call with
  | empty => exact ⟨q, by rw [onArray, h.empty_eq]; rfl, h⟩
  | enqueue proc =>
    cases proc with
    | none => exact ⟨q, rfl, h⟩
    | some p =>
      obtain ⟨q', hcall, hs⟩ := h.enqueue p
      exact ⟨q', by rw [onArray, hcall]; rfl, hs⟩
  | dequeue =>
    obtain ⟨q', hcall, hs⟩ := h.dequeue
    exact ⟨q', by rw [onArray, hcall]; rfl, hs⟩
  | removeFromQueue proc =>
    cases proc with
    | none => exact ⟨q, rfl, h⟩
    | some p =>
      obtain ⟨q', hcall, hs⟩ := h.removeFromQueue p
      exact ⟨q', by rw [onArray, hcall]; rfl, hs⟩

theorem runArray_stores (h : q.Stores l) (calls : List (QueueCall α)) :
    ∃ q', runArray calls q = .ok ((runList calls l).1, q') ∧ q'.Stores (runList calls l).2 := by
  induction calls generalizing q l with
  | nil => exact ⟨q, rfl, h⟩
  | cons call calls ih =>
    obtain ⟨q₁, hcall, h₁⟩ := onArray_stores h call
    obtain ⟨q₂, hrun, h₂⟩ := ih h₁
    refine ⟨q₂, ?_, h₂⟩
    rw [runArray, hcall]
    simp only [bind, Except.bind, hrun]
    rfl

/-- Any calls on a new queue return what they return on a bounded list and leave that list
in the first cells; no access is outside of the array. -/
theorem runArray_eq_runList (proc : Fin maxQueueSize → Option α) (calls : List (QueueCall α)) :
    ∃ q, runArray calls ⟨proc, 0⟩ = .ok ((runList calls []).1, q) ∧
      q.size = (runList calls []).2.length ∧ 0 ≤ q.size ∧ q.size ≤ maxQueueSize ∧
      ∀ i : Fin maxQueueSize, i.val < q.size → q.proc i = (runList calls []).2[i.val]? := by
  have hnew : QueueT.Stores ⟨proc, 0⟩ ([] : List α) := ⟨rfl, .nil proc⟩
  obtain ⟨q, hrun, hs⟩ := runArray_stores hnew calls
  have hsize := hs.size_eq
  have hle := hs.length_le
  refine ⟨q, hrun, hsize, by omega, by omega, fun i hi => ?_⟩
  have hlt : i.val < (runList calls []).2.length := by omega
  rw [hs.cells.cell i (by rwa [List.length_map]), List.getElem_map, List.getElem?_eq_getElem hlt]

def onQueue (q : Queue α) : QueueCall α → QueueReturn α × Queue α
  | empty => (.flag q.empty, q)
  | enqueue none => (.void, q)
  | enqueue (some p) => (.void, q.enqueue p)
  | dequeue =>
    match q.dequeue with
    | none => (.proc none, q)
    | some (p, q) => (.proc (some p), q)
  | removeFromQueue none => (.flag false, q)
  | removeFromQueue (some p) =>
    let r := q.removeFromQueue p
    (.flag r.1, r.2)

theorem onQueue_eq_onList (q : Queue α) (call : QueueCall α) :
    ((call.onQueue q).1, (call.onQueue q).2.proc) = call.onList q.proc := by
  cases call with
  | empty => rfl
  | enqueue proc =>
    cases proc with
    | none => rfl
    | some p =>
      simp only [onQueue, onList]
      by_cases hfull : q.proc.length < maxQueueSize
      · rw [Queue.enqueue_proc_of_lt hfull, if_pos hfull]
      · rw [Queue.enqueue_of_full (not_lt.mp hfull), if_neg hfull]
  | dequeue =>
    rcases q with ⟨_ | ⟨p, l⟩, hl⟩
    · rfl
    · rfl
  | removeFromQueue proc =>
    cases proc with
    | none => rfl
    | some p => simp only [onQueue, onList, Queue.removeFromQueue_fst, Queue.removeFromQueue_proc]

theorem onArray_onQueue {q : Queue α} {a : QueueT α} (h : a.Stores q.proc) (call : QueueCall α) :
    ∃ a', call.onArray a = .ok ((call.onQueue q).1, a') ∧ a'.Stores (call.onQueue q).2.proc := by
  obtain ⟨a', hcall, hs⟩ := onArray_stores h call
  rw [← onQueue_eq_onList] at hcall hs
  exact ⟨a', hcall, hs⟩

end QueueCall
end OSsim
