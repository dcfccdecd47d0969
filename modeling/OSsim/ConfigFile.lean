import OSsim.CInt
import OSsim.Lib.Scan

/-!
# Configuration files

`read_config` of `os.c` on the text of the file, and the text that the format of the
configuration files gives to a configuration. The memory line is optional: the line
behind the header is read as five integers, and if that fails it is taken for the first
process and read again.
-/

namespace OSsim
open Scan

structure MemSizes where
  ram : ℤ
  swap0 : ℤ
  swap1 : ℤ
  swap2 : ℤ
  swap3 : ℤ
  deriving DecidableEq

structure LdProcess where
  startTime : ℤ
  path : List Char
  prio : ℤ
  deriving DecidableEq

structure Settings where
  timeSlot : ℤ
  numCpus : ℤ
  numProcesses : ℤ
  mem : MemSizes
  processes : List LdProcess
  deriving DecidableEq

namespace Settings

def headerFormat : List Directive := [.int, .space, .int, .space, .int, .space]

def memFormat : List Directive :=
  [.int, .space, .int, .space, .int, .space, .int, .space, .int]

def processFormat : List Directive := [.uint 64, .space, .word 63, .space, .uint 64, .space]

def defaultMem : MemSizes := ⟨0x100000, 0x1000000, 0, 0, 0⟩

def procDir : List Char := ['i', 'n', 'p', 'u', 't', '/', 'p', 'r', 'o', 'c', '/']

/-- `snprintf` into 100 characters. -/
def procPath (proc : List Char) : List Char := (procDir ++ cstring proc).take 99

def readProcesses (undef : ℤ → ℤ) : ℕ → List Char → Option (List LdProcess)
  | 0, _ => some []
  | n + 1, file =>
    match scanf undef processFormat file with
    | ([.num startTime, .str proc, .num prio], file') =>
      (readProcesses undef n file').map (⟨startTime, procPath proc, prio⟩ :: ·)
    | _ => none

/-- The memory line, or the defaults and the file as it was. -/
def readMem (undef : ℤ → ℤ) (file : List Char) : MemSizes × List Char :=
  match fgets 256 file with
  | (some line, file') =>
    match (scanf undef memFormat (cstring line)).1 with
    | [.num ram, .num swap0, .num swap1, .num swap2, .num swap3] =>
      (⟨ram, swap0, swap1, swap2, swap3⟩, file')
    | _ => (defaultMem, file)
  | (none, _) => (defaultMem, file)

/-- `none` stands for `exit(1)`. -/
def readConfig (undef : ℤ → ℤ) (file : List Char) : Option Settings :=
  match scanf undef headerFormat file with
  | ([.num timeSlot, .num numCpus, .num numProcesses], file') =>
    if timeSlot ≤ 0 ∨ numCpus ≤ 0 ∨ numProcesses ≤ 0 then none
    else
      let mem := readMem undef file'
      if mem.1.ram < pagingPagesz ∨ mem.1.swap0 < pagingPagesz then none
      else (readProcesses undef numProcesses.toNat mem.2).map
        (⟨timeSlot, numCpus, numProcesses, mem.1, ·⟩)
  | _ => none

end Settings

structure ProcessLine where
  startTime : ℤ
  name : List Char
  prio : ℤ
  startTime_nonneg : 0 ≤ startTime
  startTime_fits : FitsInt startTime
  prio_nonneg : 0 ≤ prio
  prio_fits : FitsInt prio
  token : Token name
  length_le : name.length ≤ 63
  no_nul : '\x00' ∉ name

structure MemSizes.Valid (mem : MemSizes) : Prop where
  ram : pagingPagesz ≤ mem.ram ∧ FitsInt mem.ram
  swap0 : pagingPagesz ≤ mem.swap0 ∧ FitsInt mem.swap0
  swap1 : FitsInt mem.swap1
  swap2 : FitsInt mem.swap2
  swap3 : FitsInt mem.swap3

/-- A configuration as the file format describes it; `mem` is the optional line. -/
structure ConfigFile where
  timeSlot : ℤ
  numCpus : ℤ
  mem : Option MemSizes
  first : ProcessLine
  others : List ProcessLine
  timeSlot_valid : 0 < timeSlot ∧ FitsInt timeSlot
  numCpus_valid : 0 < numCpus ∧ FitsInt numCpus
  mem_valid : ∀ m, mem = some m → m.Valid
  count_fits : FitsInt (others.length + 1)

def row : List (List Char) → List Char
  | [] => ['\n']
  | [w] => w ++ ['\n']
  | w :: ws => w ++ ' ' :: row ws

def ProcessLine.text (p : ProcessLine) : List Char :=
  row [decimal p.startTime, p.name, decimal p.prio]

def MemSizes.text (m : MemSizes) : List Char :=
  row [decimal m.ram, decimal m.swap0, decimal m.swap1, decimal m.swap2, decimal m.swap3]

namespace ConfigFile

def processes (f : ConfigFile) : List ProcessLine := f.first :: f.others

def text (f : ConfigFile) : List Char :=
  row [decimal f.timeSlot, decimal f.numCpus, decimal f.processes.length] ++
    ((f.mem.map MemSizes.text).getD [] ++ f.processes.flatMap ProcessLine.text)

def settings (f : ConfigFile) : Settings :=
  ⟨f.timeSlot, f.numCpus, f.processes.length, f.mem.getD Settings.defaultMem,
    f.processes.map fun p => ⟨p.startTime, Settings.procDir ++ p.name, p.prio⟩⟩

end ConfigFile
end OSsim
