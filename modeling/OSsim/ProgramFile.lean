import OSsim.System
import OSsim.Lib.Scan

/-!
# Process files

`load` of `loader.c` on the text of the file. `text` comes from `malloc`, so an argument
that no conversion stores keeps whatever was in its place.
-/

namespace OSsim
open Scan

def Args : Type := Fin 4 → BitVec 32

structure Instruction where
  opcode : Opcode
  args : Args

/-- The fields of `pcb_t` and `code_seg_t` that `load` reads from the file. -/
structure Program where
  priority : BitVec 32
  size : BitVec 32
  text : List Instruction

namespace Opcode

def name : Opcode → List Char
  | CALC => ['c', 'a', 'l', 'c']
  | ALLOC => ['a', 'l', 'l', 'o', 'c']
  | FREE => ['f', 'r', 'e', 'e']
  | READ => ['r', 'e', 'a', 'd']
  | WRITE => ['w', 'r', 'i', 't', 'e']
  | SYSCALL => ['s', 'y', 's', 'c', 'a', 'l', 'l']

/-- How many arguments `run` passes on. -/
def used : Opcode → ℕ
  | CALC => 0
  | ALLOC => 2
  | FREE => 1
  | READ => 3
  | WRITE => 3
  | SYSCALL => 4

end Opcode

namespace Program

/-- `none` stands for `exit(1)`. -/
def getOpcode (opt : List Char) : Option Opcode :=
  if opt = Opcode.CALC.name then some .CALC
  else if opt = Opcode.ALLOC.name then some .ALLOC
  else if opt = Opcode.FREE.name then some .FREE
  else if opt = Opcode.READ.name then some .READ
  else if opt = Opcode.WRITE.name then some .WRITE
  else if opt = Opcode.SYSCALL.name then some .SYSCALL
  else none

def argsFormat : ℕ → List Directive
  | 0 => []
  | k + 1 => .uint 32 :: .space :: argsFormat k

def syscallFormat : List Directive := [.uint 32, .uint 32, .uint 32, .uint 32]

/-- A call assigns its values to the arguments in order. -/
def store (vs : List Value) (args : Args) : Args := fun i =>
  match vs[i.val]? with
  | some (.num z) => BitVec.ofInt 32 z
  | _ => args i

/-- What the conversions for the arguments of an instruction find, and the file behind
them. -/
def scanArgs (undef : ℤ → ℤ) (opcode : Opcode) (file : List Char) : List Value × List Char :=
  match opcode with
  | .CALC => ([], file)
  | .ALLOC => scanf undef (argsFormat 2) file
  | .FREE => scanf undef (argsFormat 1) file
  | .READ => scanf undef (argsFormat 3) file
  | .WRITE => scanf undef (argsFormat 3) file
  | .SYSCALL =>
    match fgets 200 file with
    | (some buf, file') => ((scanf undef syscallFormat (cstring buf)).1, file')
    | (none, file') => ((scanf undef syscallFormat []).1, file')

def initArgs (opcode : Opcode) (raw : Args) : Args :=
  match opcode with
  | .SYSCALL => fun i => if i.val = 0 then raw i else 0
  | _ => raw

def loadInst (undef : ℤ → ℤ) (raw : Args) (file : List Char) : Option (Instruction × List Char) :=
  match scanf undef [.word 9] file with
  | ([.str opt], file') =>
    (getOpcode (cstring opt)).map fun opcode =>
      (⟨opcode, store (scanArgs undef opcode file').1 (initArgs opcode raw)⟩,
        (scanArgs undef opcode file').2)
  | _ => none

/-- The loop of `load` from index `i` on, with `n` instructions to go. -/
def loadText (undef : ℤ → ℤ) (raw : ℕ → Args) : ℕ → ℕ → List Char → Option (List Instruction)
  | 0, _, _ => some []
  | n + 1, i, file =>
    match loadInst undef (raw i) file with
    | none => none
    | some (ins, file') => (loadText undef raw n (i + 1) file').map (ins :: ·)

def load (undef : ℤ → ℤ) (raw : ℕ → Args) (file : List Char) : Option Program :=
  match scanf undef [.uint 32, .space, .uint 32] file with
  | ([.num priority, .num size], file') =>
    (loadText undef raw (BitVec.ofInt 32 size).toNat 0 file').map
      (⟨BitVec.ofInt 32 priority, BitVec.ofInt 32 size, ·⟩)
  | _ => none

end Program
end OSsim
