import OSsim.ConfigRoundTrip
import OSsim.LoadRoundTrip
import OSsim.Simulator

/-!
# From the files to the results

The simulator started on a configuration file and the process files that it names. The
loader opens a file when its turn comes; which file it is and what is in it is fixed from
the start, so all of them are read first here. Written in their formats, the files are read
as they are meant, and what the processes leave in their registers is what the lines of
their files say.
-/

namespace OSsim
open Scan Settings

def MemSizes.memswpsz (mem : MemSizes) : ℕ → ℤ
  | 0 => mem.swap0
  | 1 => mem.swap1
  | 2 => mem.swap2
  | 3 => mem.swap3
  | _ => 0

/-- The process files that the loader opens, from entry `i` on. `files` has the text of a
file under its path and `raw i` what `malloc` gives for its instructions; `none` stands for
`exit(1)`. -/
def loadAll (undef : ℤ → ℤ) (raw : ℕ → ℕ → Args) (files : List Char → Option (List Char)) :
    ℕ → List LdProcess → Option (List (LdProcess × Program))
  | _, [] => some []
  | i, p :: ps =>
    match (files p.path).bind (Program.load undef (raw i)) with
    | none => none
    | some program => (loadAll undef raw files (i + 1) ps).map ((p, program) :: ·)

def Setup.ofFiles (timeSlot : ℤ) (timeSlot_pos : 0 < timeSlot) (l : List (LdProcess × Program)) :
    Setup l.length where
  timeSlot := timeSlot
  timeSlot_pos := timeSlot_pos
  startTime i := (l.get i).1.startTime.toNat
  prio i := (l.get i).1.prio.toNat
  path i := (l.get i).1.path
  code i := (l.get i).2.text

def SourceLine.instruction (p : SourceLine) : Instruction := ⟨p.opcode, p.args⟩

namespace SourceLine
variable {ins : Instruction} {p : SourceLine} {text : List Instruction} {ps : List SourceLine}

theorem Same.run (h : Same ins p) (a : Alone) : a.run ins = a.run p.instruction := by
  obtain ⟨hop, hargs⟩ := h
  have hop' : ins.opcode = p.instruction.opcode := hop
  have harg : ∀ i : Fin 4, i.val < p.opcode.used → ins.args i = p.instruction.args i := hargs
  rcases hp : p.opcode with _ | _ | _ | _ | _ | _
  all_goals
    have hi : p.instruction.opcode = _ := hp
    rw [hp] at harg hop
    simp only [Alone.run, hop, hi]
  · rw [harg 0 (by decide), harg 1 (by decide)]
  · rw [harg 0 (by decide)]
  · rw [harg 0 (by decide), harg 1 (by decide), harg 2 (by decide)]
  · rw [harg 0 (by decide), harg 1 (by decide), harg 2 (by decide)]

theorem Same.memmap (h : Same ins p) : ins.Memmap ↔ p.instruction.Memmap := by
  obtain ⟨hop, hargs⟩ := h
  refine ⟨fun hm => ⟨hop.symm.trans hm.1, ?_⟩, fun hm => ⟨hop.trans hm.1, ?_⟩⟩
  · have hp : p.opcode = .SYSCALL := hop.symm.trans hm.1
    rw [← hm.2]
    exact congrArg _ (hargs 0 (by rw [hp]; decide)).symm
  · have hp : p.opcode = .SYSCALL := hm.1
    rw [← hm.2]
    exact congrArg _ (hargs 0 (by rw [hp]; decide))

theorem after_same (h : List.Forall₂ Same text ps) :
    Alone.after text = Alone.after (ps.map instruction) := by
  have hfold : ∀ a : Alone, text.foldl Alone.run a = (ps.map instruction).foldl Alone.run a := by
    induction h with
    | nil => exact fun _ => rfl
    | cons hsame _ ih =>
      intro a
      rw [List.map_cons, List.foldl_cons, List.foldl_cons, hsame.run a]
      exact ih _
  exact hfold .init

end SourceLine

/-- The entry of the loader is the one of the configuration, with the lines of its file. -/
def Loads (source : List Char → List SourceLine) (e : LdProcess × Program) (p : ProcessLine) :
    Prop :=
  e.1 = ⟨p.startTime, procDir ++ p.name, p.prio⟩ ∧
    List.Forall₂ SourceLine.Same e.2.text (source p.name)

def fileCode (source : List Char → List SourceLine) (p : ProcessLine) : List Instruction :=
  (source p.name).map SourceLine.instruction

section
variable {source : List Char → List SourceLine} {files : List Char → Option (List Char)}
  {ps : List ProcessLine} {l : List (LdProcess × Program)} {timeSlot : ℤ} {h : 0 < timeSlot}

theorem loadAll_text (undef : ℤ → ℤ) (raw : ℕ → ℕ → Args)
    (hfiles : ∀ p ∈ ps, ∃ priority, files (procDir ++ p.name) =
      some (programText priority (source p.name)) ∧ (source p.name).length < 2 ^ 32) (i : ℕ) :
    ∃ l, loadAll undef raw files i
        (ps.map fun p => ⟨p.startTime, procDir ++ p.name, p.prio⟩) = some l ∧
      List.Forall₂ (Loads source) l ps := by
  induction ps generalizing i with
  | nil => exact ⟨[], rfl, .nil⟩
  | cons p ps ih =>
    obtain ⟨priority, hfile, hsize⟩ := hfiles p List.mem_cons_self
    obtain ⟨program, hload, _, _, hsame⟩ :=
      load_programText undef (raw i) priority (source p.name) hsize
    obtain ⟨l, hl, hall⟩ := ih (fun q hq => hfiles q (List.mem_cons_of_mem p hq)) (i + 1)
    refine ⟨(_, program) :: l, ?_, .cons ⟨rfl, hsame⟩ hall⟩
    simp only [List.map_cons, loadAll, hfile, Option.bind_some, hload, hl, Option.map_some]

theorem Loads.after {e : LdProcess × Program} {p : ProcessLine} (hl : Loads source e p) :
    Alone.after e.2.text = Alone.after (fileCode source p) := SourceLine.after_same hl.2

theorem loads_get (hl : List.Forall₂ (Loads source) l ps) (i : Fin l.length) :
    ∃ p, ps[i.val]? = some p ∧ Loads source (l.get i) p := by
  have hlt : i.val < ps.length := hl.length_eq ▸ i.isLt
  exact ⟨ps.get ⟨i.val, hlt⟩, List.getElem?_eq_getElem hlt, hl.get i.isLt hlt⟩

theorem loads_fst (hl : List.Forall₂ (Loads source) l ps) :
    l.map Prod.fst = ps.map fun p => ⟨p.startTime, procDir ++ p.name, p.prio⟩ := by
  induction hl with
  | nil => rfl
  | cons he _ ih => rw [List.map_cons, List.map_cons, he.1, ih]

theorem Loads.pages {e : LdProcess × Program} {p : ProcessLine} (hl : Loads source e p) :
    Alone.pages e.2.text = Alone.pages (fileCode source p) := by
  rw [Alone.pages, hl.after]
  rfl

theorem Loads.largest {e : LdProcess × Program} {p : ProcessLine} (hl : Loads source e p) :
    Alone.largest e.2.text = Alone.largest (fileCode source p) := by
  have htake : ∀ k, Alone.pages (e.2.text.take k) = Alone.pages ((fileCode source p).take k) := by
    intro k
    rw [fileCode, ← List.map_take, Alone.pages, SourceLine.after_same (List.forall₂_take k hl.2)]
    rfl
  rw [Alone.largest, Alone.largest, fileCode, List.length_map, ← hl.2.length_eq]
  exact Finset.sup_congr rfl fun k _ => by rw [htake, htake]; rfl

theorem pages_loaded (hl : List.Forall₂ (Loads source) l ps) :
    (l.map fun e => Alone.pages e.2.text) = ps.map fun p => Alone.pages (fileCode source p) := by
  induction hl with
  | nil => rfl
  | cons he _ ih => rw [List.map_cons, List.map_cons, ih, he.pages]

theorem codes_ofFiles : (Setup.ofFiles timeSlot h l).codes = l.map fun e => e.2.text :=
  List.ofFn_getElem_eq_map l fun e => e.2.text

theorem roomFor_ofFiles {nr ns : ℕ} (hl : List.Forall₂ (Loads source) l ps)
    (hfit : RoomFor (ps.map (fileCode source)) nr ns) :
    RoomFor (Setup.ofFiles timeSlot h l).codes nr ns := by
  have hsum : ((Setup.ofFiles timeSlot h l).codes.map Alone.pages).sum =
      ((ps.map (fileCode source)).map Alone.pages).sum := by
    rw [codes_ofFiles, List.map_map, List.map_map]
    exact congrArg List.sum (pages_loaded hl)
  have hmem : ∀ code ∈ (Setup.ofFiles timeSlot h l).codes, ∃ code' ∈ ps.map (fileCode source),
      Alone.pages code = Alone.pages code' ∧ Alone.largest code = Alone.largest code' := by
    intro code hcode
    obtain ⟨i, rfl⟩ := (List.mem_ofFn' _ _).mp hcode
    obtain ⟨p, hp, hloads⟩ := loads_get hl i
    exact ⟨fileCode source p, List.mem_map_of_mem (List.mem_of_getElem? hp), hloads.pages,
      hloads.largest⟩
  refine ⟨fun code hcode => ?_, fun code hcode => ?_, hsum ▸ hfit.swap⟩
  · obtain ⟨code', hcode', hpages, _⟩ := hmem code hcode
    exact hpages ▸ hfit.table code' hcode'
  · obtain ⟨code', hcode', hpages, hlargest⟩ := hmem code hcode
    rw [hsum, hpages, hlargest]
    exact hfit.ram code' hcode'

theorem private_ofFiles (hl : List.Forall₂ (Loads source) l ps)
    (hpriv : ∀ p ∈ ps, ∀ ins ∈ fileCode source p, ¬ ins.Memmap) :
    (Setup.ofFiles timeSlot h l).Private := by
  intro i ins hins hmemmap
  obtain ⟨p, hp, hloads⟩ := loads_get hl i
  obtain ⟨k, hk, rfl⟩ := List.getElem_of_mem hins
  have hlt : k < (source p.name).length := hloads.2.length_eq ▸ hk
  have hsame := hloads.2.get hk hlt
  refine hpriv p (List.mem_of_getElem? hp) ((source p.name).get ⟨k, hlt⟩).instruction ?_
    (hsame.memmap.mp hmemmap)
  exact List.mem_map_of_mem (List.get_mem _ _)

end

/-- From the files to the results: on a configuration file and process files in their
formats, every run of the simulator to its end leaves in the registers of every process
that was not killed what the lines of its file compute by themselves. -/
theorem run_files_to_results (undef : ℤ → ℤ) (raw : ℕ → ℕ → Args) (f : ConfigFile)
    (hconfig : f.mem ≠ none ∨ ¬ Numeric f.first.name) (files : List Char → Option (List Char))
    (source : List Char → List SourceLine)
    (hfiles : ∀ p ∈ f.processes, ∃ priority, files (procDir ++ p.name) =
      some (programText priority (source p.name)) ∧ (source p.name).length < 2 ^ 32)
    (hn : f.processes.length ≤ maxQueueSize)
    (hpriv : ∀ p ∈ f.processes, ∀ ins ∈ fileCode source p, ¬ ins.Memmap)
    (hram : framesOf f.settings.mem.ram ≤ 8192) (hswp : framesOf f.settings.mem.swap0 ≤ 2 ^ 21)
    (hfit : RoomFor (f.processes.map (fileCode source)) (framesOf f.settings.mem.ram)
      (framesOf f.settings.mem.swap0)) :
    ∃ l, readConfig undef f.text = some f.settings ∧
      loadAll undef raw files 0 f.settings.processes = some l ∧
      l.map Prod.fst = f.settings.processes ∧
      ∀ as (s₀ s : Simulator l.length f.numCpus.toNat),
        Simulator.main f.settings.mem.ram f.settings.mem.memswpsz = some s₀ →
        Run (Simulator.Next (Setup.ofFiles f.timeSlot f.timeSlot_valid.1 l)) s₀ as s →
        (s.timer.point = .exited ∨
          System.deadline (Setup.ofFiles f.timeSlot f.timeSlot_valid.1 l).config < s.timer.time) →
        ∀ (i : Fin l.length) p, f.processes[i.val]? = some p →
          (s.machine.sys.proc i).killed = true ∨
            ∀ r x, (Alone.after (fileCode source p)).regs r = some x → s.machine.regs i r = x := by
  obtain ⟨l, hload, hl⟩ := loadAll_text undef raw hfiles 0
  refine ⟨l, (readConfig_text_iff undef f).mpr hconfig, hload, loads_fst hl, ?_⟩
  intro as s₀ s h₀ hrun hover i p hp
  have hm : 0 < f.numCpus.toNat := Int.lt_toNat.mpr f.numCpus_valid.1
  have hends := Simulator.run_ends_with_results _ (hl.length_eq ▸ hn) hm
    (private_ofFiles hl hpriv) hram hswp (roomFor_ofFiles hl hfit) h₀ hrun hover i
  obtain ⟨q, hq, hloads⟩ := loads_get hl i
  obtain rfl := Option.some.inj (hp.symm.trans hq)
  rw [← hloads.after]
  exact hends

theorem zero_valid : (0 : ℤ) ≤ 0 := le_rfl

theorem fitsInt_zero : FitsInt 0 := by unfold FitsInt; decide

theorem one_valid : (0 : ℤ) < 1 ∧ FitsInt 1 := by unfold FitsInt; decide

theorem fitsInt_single : FitsInt (([] : List ProcessLine).length + 1) := one_valid.2

def oneFile : ConfigFile where
  timeSlot := 1
  numCpus := 1
  mem := some ⟨512, 256, 0, 0, 0⟩
  first := {
    startTime := 0
    name := ['p']
    prio := 0
    startTime_nonneg := zero_valid
    startTime_fits := fitsInt_zero
    prio_nonneg := zero_valid
    prio_fits := fitsInt_zero
    token := .of_all (by decide) (by decide)
    length_le := by decide
    no_nul := by decide }
  others := []
  timeSlot_valid := one_valid
  numCpus_valid := one_valid
  mem_valid := by
    intro m hm
    obtain rfl := Option.some.inj hm
    constructor <;> unfold FitsInt <;> decide
  count_fits := fitsInt_single

def storeLines : List SourceLine :=
  [allocLine,
    { opcode := .WRITE
      args := fun i => if i.val = 0 then 7 else if i.val = 2 then 299 else 0
      shown := 3
      needs_le := le_rfl
      shown_le := le_rfl
      hidden := fun _ h h' => absurd h' (Nat.not_lt.mpr h) },
    { opcode := .READ
      args := fun i => if i.val = 1 then 299 else if i.val = 2 then 3 else 0
      shown := 3
      needs_le := le_rfl
      shown_le := le_rfl
      hidden := fun _ h h' => absurd h' (Nat.not_lt.mpr h) }]

def oneFileLoaded : List (LdProcess × Program) :=
  (loadAll id (fun _ _ _ => 7) (fun _ => some (programText 0 storeLines)) 0
    oneFile.settings.processes).getD []

def oneFileSetup : Setup oneFileLoaded.length :=
  .ofFiles oneFile.timeSlot oneFile.timeSlot_valid.1 oneFileLoaded

def oneFileRun : List (SimulatorAction oneFileLoaded.length oneFile.numCpus.toNat) ×
    Simulator oneFileLoaded.length oneFile.numCpus.toNat :=
  Run.greedy (Simulator.step oneFileSetup) Simulator.oneCpuOrder 161
    ([], .start oneFile.settings.mem.ram oneFile.settings.mem.memswpsz)

theorem oneFileRun_run : Run (Simulator.Next oneFileSetup)
    (.start oneFile.settings.mem.ram oneFile.settings.mem.memswpsz) oneFileRun.1 oneFileRun.2 :=
  Run.of_greedy 161 .nil

theorem oneFileRun_exited : oneFileRun.2.timer.point = .exited := by decide +kernel

theorem run_files_to_results_oneFile :
    readConfig id oneFile.text = some oneFile.settings ∧ oneFileRun.2.timer.point = .exited ∧
      ∀ i, (oneFileRun.2.machine.sys.proc i).killed = true ∨ oneFileRun.2.machine.regs i 3 = 7 := by
  have hplain : ∀ p ∈ oneFile.processes, ∀ ins ∈ fileCode (fun _ => storeLines) p,
      ¬ ins.Memmap := by
    intro p _ ins hins hmemmap
    obtain ⟨line, hline, rfl⟩ := List.mem_map.mp hins
    have hop : ∀ q ∈ storeLines, q.opcode ≠ .SYSCALL := by decide
    exact hop line hline hmemmap.1
  obtain ⟨l, hconfig, hload, hfst, hresults⟩ := run_files_to_results id (fun _ _ _ => 7) oneFile
    (Or.inl (by simp [oneFile])) (fun _ => some (programText 0 storeLines)) (fun _ => storeLines)
    (fun _ _ => ⟨0, rfl, by decide⟩) (by decide) hplain (by decide) (by decide) (by decide +kernel)
  obtain rfl : oneFileLoaded = l := by rw [oneFileLoaded, hload, Option.getD_some]
  have hends := hresults oneFileRun.1 _ oneFileRun.2 rfl oneFileRun_run (Or.inl oneFileRun_exited)
  refine ⟨hconfig, oneFileRun_exited, fun i => ?_⟩
  have hone : oneFileLoaded.length = 1 := by
    rw [← List.length_map Prod.fst, hfst]
    rfl
  have hlt : i.val < 1 := hone ▸ i.isLt
  have hfirst : oneFile.processes[i.val]? = some oneFile.first := by
    rw [Nat.lt_one_iff.mp hlt]
    rfl
  have halone : (Alone.after (fileCode (fun _ => storeLines) oneFile.first)).regs 3 = some 7 := by
    decide +kernel
  exact (hends i _ hfirst).imp_right fun hall => hall 3 7 halone

end OSsim
