import OSsim.LoadRoundTrip

/-!
# Malformed process files

`load` gives up at a wrong header, an unknown opcode and a missing instruction. It does
not look at what the conversions for the arguments return, nor at what stands behind the
numbers that they find. An instruction that is cut short or whose argument is no number is
accepted if an opcode follows wherever the conversion has stopped or no instruction is due;
the arguments that it lacks are whatever was in the memory.
-/

namespace OSsim
open Scan Program
variable {undef : ℤ → ℤ} {file l r : List Char}

/-- An instruction of a text: the text behind its opcode, and the numbers that the
conversions find there. -/
structure Item where
  opcode : Opcode
  text : List Char
  values : List Value

/-- The text begins with `n` instructions, as far as their opcodes go. -/
inductive Listing (undef : ℤ → ℤ) : ℕ → List Char → List Item → Prop
  | nil {l : List Char} : Listing undef 0 l []
  | cons {n : ℕ} {l opt l' r : List Char} {op : Opcode} {vs : List Value} {items : List Item}
      (opcode : word 9 l = (some opt, l')) (known : getOpcode (cstring opt) = some op)
      (args : scanArgs undef op l' = (vs, r)) (rest : Listing undef n r items) :
      Listing undef (n + 1) l (⟨op, l', vs⟩ :: items)

theorem Listing.unique {n : ℕ} {items items' : List Item}
    (h : Listing undef n l items) (h' : Listing undef n l items') : items = items' := by
  induction h generalizing items' with
  | nil =>
    cases h'
    rfl
  | cons opcode known args rest ih =>
    cases h' with
    | cons opcode' known' args' rest' =>
      obtain ⟨rfl, rfl⟩ : _ ∧ _ := by simpa using opcode.symm.trans opcode'
      obtain rfl := Option.some.inj (known.symm.trans known')
      obtain ⟨rfl, rfl⟩ := Prod.mk.inj (args.symm.trans args')
      rw [ih rest']

/-- An instruction of the text with the arguments that are left from `raw`. -/
def loaded (raw : ℕ → Args) : ℕ → List Item → List Instruction
  | _, [] => []
  | i, ⟨op, _, vs⟩ :: items => ⟨op, store vs (initArgs op (raw i))⟩ :: loaded raw (i + 1) items

theorem loadInst_eq {raw : Args} {opt l' : List Char} {op : Opcode}
    (opcode : word 9 l = (some opt, l')) (known : getOpcode (cstring opt) = some op) :
    loadInst undef raw l =
      some (⟨op, store (scanArgs undef op l').1 (initArgs op raw)⟩, (scanArgs undef op l').2) := by
  rw [loadInst, scanf_word, opcode]
  simp only [scanf_nil, known, Option.map_some]

theorem Listing.loadText {n : ℕ} {items : List Item}
    (h : Listing undef n l items) (raw : ℕ → Args) (i : ℕ) :
    loadText undef raw n i l = some (loaded raw i items) := by
  induction h generalizing i with
  | nil => rfl
  | cons opcode known args rest ih =>
    rw [Program.loadText, loadInst_eq opcode known, args]
    simp only [ih, Option.map_some, loaded]

end OSsim
