import Mathlib.Control.Monad.Writer
import Mathlib.Tactic

/-!
# Computations that keep a log

A computation that notes values on its way. Its value is what it computes without the
log; a property of every note is checked step by step.
-/

def Logged (ε α : Type) : Type := Writer (List ε) α

namespace Logged
variable {ε α β : Type}

instance : Monad (Logged ε) := inferInstanceAs (Monad (Writer (List ε)))

def note (e : ε) (a : α) : Logged ε α := WriterT.mk (a, [e])

def value (x : Logged ε α) : α := (WriterT.run x).1

def log (x : Logged ε α) : List ε := (WriterT.run x).2

@[simp] theorem value_pure (a : α) : (pure a : Logged ε α).value = a := rfl

@[simp] theorem value_bind (x : Logged ε α) (f : α → Logged ε β) :
    (x >>= f).value = (f x.value).value := by
  -- not by `rfl` alone: as a definitional rule it makes the kernel compute the values
  unfold value
  rfl

@[simp] theorem value_note (e : ε) (a : α) : (note e a).value = a := by
  unfold value
  rfl

theorem log_bind (x : Logged ε α) (f : α → Logged ε β) :
    (x >>= f).log = x.log ++ (f x.value).log := rfl

def Every (P : ε → Prop) (x : Logged ε α) : Prop := ∀ e ∈ x.log, P e

variable {P : ε → Prop}

@[simp] theorem every_pure (a : α) : (pure a : Logged ε α).Every P := fun _ he => by cases he

@[simp] theorem every_note (e : ε) (a : α) : (note e a).Every P ↔ P e := List.forall_mem_singleton

@[simp] theorem every_bind (x : Logged ε α) (f : α → Logged ε β) :
    (x >>= f).Every P ↔ x.Every P ∧ (f x.value).Every P := by
  rw [Every, log_bind, List.forall_mem_append]
  rfl

end Logged
