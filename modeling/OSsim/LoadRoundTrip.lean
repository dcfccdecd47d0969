import OSsim.ProgramFile

/-!
# Reading back a process file

Every instruction stands on a line of its own. The conversions for `alloc`, `free`, `read`
and `write` swallow the end of their line, `calc` leaves it to the next opcode, and
`syscall` reads its line as a whole; in each case the next opcode is found where the next
line begins.
-/

namespace OSsim
open Scan Program
variable {undef : ℤ → ℤ} {raw : Args} {as : List ℤ} {r : List Char}

def Opcode.needs : Opcode → ℕ
  | SYSCALL => 1
  | op => op.used

/-- An instruction as a file writes it: with its first `shown` arguments. Only zeros at
the end of a system call can be left out. -/
structure SourceLine where
  opcode : Opcode
  args : Args
  shown : ℕ
  needs_le : opcode.needs ≤ shown
  shown_le : shown ≤ opcode.used
  hidden : ∀ i : Fin 4, shown ≤ i.val → i.val < opcode.used → args i = 0

def argsText (as : List ℤ) : List Char := as.flatMap fun a => ' ' :: decimal a

namespace SourceLine

def values (p : SourceLine) : List ℤ :=
  ((List.finRange 4).take p.shown).map fun i => ((p.args i).toNat : ℤ)

def text (p : SourceLine) : List Char := p.opcode.name ++ (argsText p.values ++ ['\n'])

def Same (ins : Instruction) (p : SourceLine) : Prop :=
  ins.opcode = p.opcode ∧ ∀ i : Fin 4, i.val < p.opcode.used → ins.args i = p.args i

theorem used_le_four (op : Opcode) : op.used ≤ 4 := by
  cases op <;> decide

theorem length_values (p : SourceLine) : p.values.length = p.shown := by
  have := p.shown_le
  have := used_le_four p.opcode
  rw [values, List.length_map, List.length_take, List.length_finRange]
  omega

theorem values_getElem (p : SourceLine) (i : Fin 4) (h : i.val < p.shown) :
    p.values[i.val]? = some ((p.args i).toNat : ℤ) := by
  rw [values, List.getElem?_map, List.getElem?_take_of_lt h]
  simp

theorem values_fit (p : SourceLine) : ∀ a ∈ p.values, 0 ≤ a ∧ a < 2 ^ 32 := by
  intro a ha
  obtain ⟨i, _, rfl⟩ := List.mem_map.mp ha
  have := (p.args i).isLt
  omega

end SourceLine

def programText (priority : BitVec 32) (ps : List SourceLine) : List Char :=
  decimal priority.toNat ++ ' ' :: (decimal ps.length ++ '\n' :: ps.flatMap SourceLine.text)

theorem argsText_cons (a : ℤ) (as : List ℤ) :
    argsText (a :: as) ++ r = ' ' :: (decimal a ++ (argsText as ++ r)) := by
  simp [argsText]

theorem noDigit_argsText (as : List ℤ) : NoDigit (argsText as ++ '\n' :: r) := by
  cases as with
  | nil => exact NoDigit.space rfl
  | cons a as =>
    rw [argsText_cons]
    exact NoDigit.space rfl

theorem scanf_argsFormat (undef : ℤ → ℤ) (has : ∀ a ∈ as, 0 ≤ a ∧ a < 2 ^ 32) (r : List Char) :
    scanf undef (argsFormat as.length) (skipSpace (argsText as ++ '\n' :: r)) =
      (as.map .num, skipSpace r) := by
  induction as with
  | nil =>
    rw [argsText, List.flatMap_nil, List.nil_append, skipSpace_cons rfl]
    rfl
  | cons a as ih =>
    rw [argsText_cons, skipSpace_cons rfl, (decimal_token a).skipSpace, List.length_cons,
      argsFormat, scanf_uint_decimal (has a List.mem_cons_self) (noDigit_argsText as), scanf_space,
      ih fun b hb => has b (List.mem_cons_of_mem a hb)]
    rfl

theorem scanf_syscallFormat (has : ∀ a ∈ as, 0 ≤ a ∧ a < 2 ^ 32) {n : ℕ} (hn : as.length ≤ n) :
    (scanf undef (List.replicate n (.uint 32)) (argsText as ++ ['\n'])).1 = as.map .num := by
  induction as generalizing n with
  | nil => cases n <;> rfl
  | cons a as ih =>
    obtain ⟨n, rfl⟩ := Nat.exists_eq_succ_of_ne_zero (Nat.ne_of_gt (Nat.zero_lt_of_lt hn))
    rw [argsText_cons, List.replicate_succ, ← scanf_uint_skipSpace, skipSpace_cons rfl,
      (decimal_token a).skipSpace,
      scanf_uint_decimal (has a List.mem_cons_self) (noDigit_argsText as),
      ih (fun b hb => has b (List.mem_cons_of_mem a hb)) (Nat.le_of_succ_le_succ hn)]
    rfl

theorem argsText_chars (as : List ℤ) :
    ∀ c ∈ argsText as, c = ' ' ∨ c = '-' ∨ c.isDigit = true := by
  intro c hc
  obtain ⟨a, _, hc⟩ := List.mem_flatMap.mp hc
  rcases List.mem_cons.mp hc with rfl | hc
  · exact Or.inl rfl
  · exact Or.inr (decimal_chars a c hc)

theorem length_argsText_le (has : ∀ a ∈ as, 0 ≤ a ∧ a < 2 ^ 32) :
    (argsText as).length ≤ 12 * as.length := by
  induction as with
  | nil => exact Nat.zero_le _
  | cons a as ih =>
    have hbound := has a List.mem_cons_self
    have ha : (decimal a).length ≤ 11 := length_decimal_le (by omega)
    have hrest := ih fun b hb => has b (List.mem_cons_of_mem a hb)
    simp only [argsText, List.flatMap_cons, List.length_append, List.length_cons] at hrest ⊢
    omega

theorem scanArgs_text (undef : ℤ → ℤ) (p : SourceLine) (r : List Char) : ∃ r',
    scanArgs undef p.opcode (argsText p.values ++ '\n' :: r) = (p.values.map .num, r') ∧
      skipSpace r' = skipSpace r := by
  have hfit := p.values_fit
  have hlen := p.length_values
  have hle := p.shown_le
  have hge := p.needs_le
  have hargs : ∀ k, p.shown = k + 1 →
      scanf undef (argsFormat (k + 1)) (argsText p.values ++ '\n' :: r) =
        (p.values.map .num, skipSpace r) := by
    intro k hk
    have h := scanf_argsFormat undef hfit r
    rw [hlen, hk] at h
    rw [← h, argsFormat, scanf_uint_skipSpace]
  cases hop : p.opcode <;> rw [hop] at hle hge <;> simp only [Opcode.used, Opcode.needs] at hle hge
  · -- the end of the line is left for the next opcode
    have hnil : p.values = [] := List.length_eq_zero_iff.mp (by omega)
    exact ⟨'\n' :: r, by rw [hnil]; rfl, skipSpace_cons rfl⟩
  · exact ⟨_, hargs 1 (by omega), skipSpace_idem r⟩
  · exact ⟨_, hargs 0 (by omega), skipSpace_idem r⟩
  · exact ⟨_, hargs 2 (by omega), skipSpace_idem r⟩
  · exact ⟨_, hargs 2 (by omega), skipSpace_idem r⟩
  · have hchars := argsText_chars p.values
    have hline : '\n' ∉ argsText p.values := by
      intro hc
      rcases hchars _ hc with h | h | h <;> cases h
    have hnul : '\x00' ∉ argsText p.values ++ ['\n'] := by
      rw [List.mem_append, List.mem_singleton]
      intro hc
      rcases hc with hc | hc
      · rcases hchars _ hc with h | h | h <;> cases h
      · cases hc
    have hshort : (argsText p.values).length + 1 < 200 := by
      have := length_argsText_le hfit
      omega
    refine ⟨r, ?_, rfl⟩
    rw [scanArgs, fgets_append hline hshort]
    simp only [cstring_of_notMem hnul]
    exact Prod.ext (scanf_syscallFormat hfit (n := 4) (by omega)) rfl

theorem getOpcode_name (op : Opcode) : getOpcode op.name = some op := by
  cases op <;> decide

theorem name_token (op : Opcode) : Token op.name ∧ op.name.length ≤ 9 ∧ '\x00' ∉ op.name := by
  cases op <;> exact ⟨.of_all (by decide) (by decide), by decide, by decide⟩

theorem initArgs_hidden (op : Opcode) (i : Fin 4) (hge : op.needs ≤ i.val) (hlt : i.val < op.used) :
    initArgs op raw i = 0 := by
  cases op with
  | SYSCALL => exact if_neg (Nat.ne_of_gt hge)
  | _ => exact absurd hlt (Nat.not_lt.mpr hge)

theorem store_values (p : SourceLine) (i : Fin 4) (hi : i.val < p.opcode.used) :
    store (p.values.map .num) (initArgs p.opcode raw) i = p.args i := by
  rw [store, List.getElem?_map]
  by_cases hshown : i.val < p.shown
  · rw [p.values_getElem i hshown]
    exact (BitVec.ofInt_natCast 32 _).trans (BitVec.ofNat_toNat _ _)
  · have hle := Nat.not_lt.mp hshown
    have hnone : p.values[i.val]? = none := by
      rw [List.getElem?_eq_none_iff, p.length_values]
      exact hle
    rw [hnone, p.hidden i hle hi]
    exact initArgs_hidden p.opcode i (p.needs_le.trans hle) hi

theorem loadInst_text (undef : ℤ → ℤ) (raw : Args) (p : SourceLine) (r : List Char) : ∃ ins r',
    loadInst undef raw (p.text ++ r) = some (ins, r') ∧ SourceLine.Same ins p ∧
      skipSpace r' = skipSpace r := by
  obtain ⟨htoken, hlen, hnul⟩ := name_token p.opcode
  obtain ⟨r', hargs, hskip⟩ := scanArgs_text undef p r
  have htext : p.text ++ r = p.opcode.name ++ (argsText p.values ++ '\n' :: r) := by
    simp [SourceLine.text]
  have hhead : ∀ c, (argsText p.values ++ '\n' :: r).head? = some c → isSpace c = true := by
    intro c hc
    cases hv : p.values with
    | nil =>
      rw [hv] at hc
      rw [← Option.some.inj hc]
      rfl
    | cons a as =>
      rw [hv, argsText_cons] at hc
      rw [← Option.some.inj hc]
      rfl
  have hword : scanf undef [.word 9] (p.text ++ r) =
      ([.str p.opcode.name], argsText p.values ++ '\n' :: r) := by
    rw [htext, scanf_word_token htoken hlen hhead, scanf_nil]
  refine ⟨⟨p.opcode, store (p.values.map .num) (initArgs p.opcode raw)⟩, r', ?_,
    ⟨rfl, store_values p⟩, hskip⟩
  rw [loadInst, hword]
  simp only [cstring_of_notMem hnul, getOpcode_name, Option.map_some, hargs]

theorem loadInst_skipSpace (l : List Char) :
    loadInst undef raw (skipSpace l) = loadInst undef raw l := by
  rw [loadInst, loadInst, scanf_word_skipSpace]

theorem loadText_skipSpace (raw : ℕ → Args) (n i : ℕ) (l : List Char) :
    loadText undef raw n i (skipSpace l) = loadText undef raw n i l := by
  cases n with
  | zero => rfl
  | succ n => rw [loadText, loadText, loadInst_skipSpace]

theorem loadText_text (undef : ℤ → ℤ) (raw : ℕ → Args) (ps : List SourceLine) (i : ℕ) : ∃ text,
    loadText undef raw ps.length i (ps.flatMap SourceLine.text) = some text ∧
      List.Forall₂ SourceLine.Same text ps := by
  induction ps generalizing i with
  | nil => exact ⟨[], rfl, .nil⟩
  | cons p ps ih =>
    obtain ⟨ins, r', hload, hsame, hskip⟩ :=
      loadInst_text undef (raw i) p (ps.flatMap SourceLine.text)
    obtain ⟨text, htext, hall⟩ := ih (i + 1)
    refine ⟨ins :: text, ?_, .cons hsame hall⟩
    rw [← loadText_skipSpace, ← hskip, loadText_skipSpace] at htext
    rw [List.length_cons, loadText, List.flatMap_cons, hload]
    simp only [htext, Option.map_some]

theorem load_programText (undef : ℤ → ℤ) (raw : ℕ → Args) (priority : BitVec 32)
    (ps : List SourceLine) (hsize : ps.length < 2 ^ 32) : ∃ program,
      load undef raw (programText priority ps) = some program ∧ program.priority = priority ∧
        program.size.toNat = ps.length ∧ List.Forall₂ SourceLine.Same program.text ps := by
  obtain ⟨text, htext, hall⟩ := loadText_text undef raw ps 0
  have hprio : (0 : ℤ) ≤ priority.toNat ∧ (priority.toNat : ℤ) < 2 ^ 32 := by
    have := priority.isLt
    omega
  have hlen : (0 : ℤ) ≤ ps.length ∧ (ps.length : ℤ) < 2 ^ 32 := by omega
  have hscan : scanf undef [.uint 32, .space, .uint 32] (programText priority ps) =
      ([.num priority.toNat, .num ps.length], '\n' :: ps.flatMap SourceLine.text) := by
    rw [programText, scanf_uint_decimal hprio (NoDigit.space rfl), scanf_space_cons rfl,
      scanf_space_token (decimal_token _), scanf_uint_decimal hlen (NoDigit.space rfl), scanf_nil]
  have hcount : (BitVec.ofInt 32 (ps.length : ℤ)).toNat = ps.length := by
    rw [BitVec.ofInt_natCast, BitVec.toNat_ofNat, Nat.mod_eq_of_lt hsize]
  rw [load, hscan]
  simp only [hcount]
  rw [← loadText_skipSpace, skipSpace_cons rfl, loadText_skipSpace, htext]
  exact ⟨_, rfl, by simp, hcount, hall⟩

def calcLine : SourceLine where
  opcode := .CALC
  args := fun _ => 0
  shown := 0
  needs_le := le_rfl
  shown_le := le_rfl
  hidden := fun _ _ h => absurd h (Nat.not_lt_zero _)

def allocLine : SourceLine where
  opcode := .ALLOC
  args := fun i => if i.val = 0 then 300 else 0
  shown := 2
  needs_le := le_rfl
  shown_le := le_rfl
  hidden := fun _ h h' => absurd h' (Nat.not_lt.mpr h)

theorem load_programText_two : ∃ program,
    load id (fun _ _ => 7) (programText 1 [allocLine, calcLine]) = some program ∧
      [allocLine, calcLine].length < 2 ^ 32 ∧
      List.Forall₂ SourceLine.Same program.text [allocLine, calcLine] := by
  obtain ⟨program, hload, _, _, hall⟩ :=
    load_programText id (fun _ _ => 7) 1 [allocLine, calcLine] (by decide)
  exact ⟨program, hload, by decide, hall⟩

/-- `code->size` has 32 bits. -/
theorem load_too_long : ¬ ∃ program,
    load id (fun _ _ => 0) (programText 0 (List.replicate (2 ^ 32) calcLine)) = some program ∧
      program.size.toNat = (List.replicate (2 ^ 32) calcLine).length := by
  intro hex
  obtain ⟨program, _, hsize⟩ := hex
  have hlt := program.size.isLt
  rw [List.length_replicate] at hsize
  omega

end OSsim
