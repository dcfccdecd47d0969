import OSsim.ConfigFile

/-!
# Reading back a configuration file

With the memory line `read_config` finds what was written. Without it, it does unless the
name of the first process continues its start time to five integers: a conversion needs
no blank in front of it, so `0 1-2-3 5` is taken for a memory line. One process line is
missing then, and `read_config` gives up.
-/

namespace OSsim
open Scan Settings
variable {undef : ℤ → ℤ} {l r t w : List Char}

theorem ProcessLine.path_eq (p : ProcessLine) : procPath p.name = procDir ++ p.name := by
  have hlen : (procDir ++ p.name).length ≤ 99 := by
    rw [List.length_append]
    exact (Nat.add_le_add_left p.length_le _).trans (by decide)
  rw [procPath, cstring_of_notMem p.no_nul, List.take_of_length_le hlen]

theorem FitsInt.lt (z : ℤ) (h : FitsInt z) : z < 2 ^ 64 := by
  have := h.2
  omega

theorem ProcessLine.text_append (p : ProcessLine) (r : List Char) : p.text ++ r =
    decimal p.startTime ++ ' ' :: (p.name ++ ' ' :: (decimal p.prio ++ '\n' :: r)) := by
  simp [ProcessLine.text, row]

theorem scanf_process (p : ProcessLine) (r : List Char) :
    scanf undef processFormat (p.text ++ r) =
      ([.num p.startTime, .str p.name, .num p.prio], skipSpace r) := by
  have hspace : ∀ (l : List Char) c, (' ' :: l).head? = some c → isSpace c = true := by
    intro l c hc
    rw [← Option.some.inj hc]
    rfl
  rw [p.text_append, processFormat,
    scanf_uint_decimal ⟨p.startTime_nonneg, p.startTime_fits.lt⟩ (NoDigit.space rfl),
    scanf_space_cons rfl, scanf_space_token p.token,
    scanf_word_token p.token p.length_le (hspace _), scanf_space_cons rfl,
    scanf_space_token (decimal_token _),
    scanf_uint_decimal ⟨p.prio_nonneg, p.prio_fits.lt⟩ (NoDigit.space rfl),
    scanf_space_cons rfl, scanf_space, scanf_nil]

theorem readProcesses_skipSpace (n : ℕ) (l : List Char) :
    readProcesses undef n (skipSpace l) = readProcesses undef n l := by
  cases n with
  | zero => rfl
  | succ n => rw [readProcesses, readProcesses, processFormat, scanf_uint_skipSpace]

theorem readProcesses_text (undef : ℤ → ℤ) (ps : List ProcessLine) (n : ℕ) :
    readProcesses undef (ps.length + n) (ps.flatMap ProcessLine.text) =
      (readProcesses undef n []).map
        ((ps.map fun p => ⟨p.startTime, procDir ++ p.name, p.prio⟩) ++ ·) := by
  induction ps with
  | nil => simp
  | cons p ps ih =>
    rw [List.length_cons, Nat.add_right_comm, readProcesses, List.flatMap_cons, scanf_process]
    simp only [readProcesses_skipSpace, ih, p.path_eq, Option.map_map, List.map_cons]
    rfl

/-- How many of `k` integers a call finds. -/
def countInts : ℕ → List Char → ℕ
  | 0, _ => 0
  | k + 1, l =>
    match number l with
    | (none, _) => 0
    | (some _, r) => countInts k r + 1

def intsFormat : ℕ → List Directive
  | 0 => []
  | k + 1 => .space :: .int :: intsFormat k

theorem scanf_ints (undef : ℤ → ℤ) (k : ℕ) (l : List Char) : ∃ zs : List ℤ,
    (scanf undef (intsFormat k) l).1 = zs.map .num ∧ zs.length = countInts k l := by
  induction k generalizing l with
  | zero => exact ⟨[], rfl, rfl⟩
  | succ k ih =>
    rw [intsFormat, scanf_space, scanf_int, number_skipSpace, countInts]
    rcases number l with ⟨_ | z, r⟩
    · exact ⟨[], rfl, rfl⟩
    · obtain ⟨zs, hzs, hlen⟩ := ih r
      exact ⟨stored undef (-2 ^ 31) (2 ^ 31) z :: zs, by simp only [hzs, List.map_cons],
        by simp only [List.length_cons, hlen]⟩

theorem memFormat_ints (l : List Char) :
    scanf undef memFormat l = scanf undef (intsFormat 5) l := by
  rw [memFormat, intsFormat, scanf_int, scanf_space, scanf_int, number_skipSpace]
  rfl

theorem readMem_of_count (h : fgets 256 l = (some w, r)) (hw : '\x00' ∉ w)
    (hcount : countInts 5 w ≠ 5) : readMem undef l = (defaultMem, l) := by
  obtain ⟨zs, hzs, hlen⟩ := scanf_ints undef 5 w
  rw [readMem, h]
  simp only [cstring_of_notMem hw, memFormat_ints, hzs]
  split
  · next heq =>
    have := congrArg List.length heq
    simp only [List.length_map, List.length_cons, List.length_nil] at this
    omega
  · rfl

theorem readMem_rest_of_count (h : fgets 256 l = (some w, r)) (hw : '\x00' ∉ w)
    (hcount : countInts 5 w = 5) : (readMem undef l).2 = r := by
  obtain ⟨zs, hzs, hlen⟩ := scanf_ints undef 5 w
  rw [hcount] at hlen
  rw [readMem, h]
  simp only [cstring_of_notMem hw, memFormat_ints, hzs]
  match zs, hlen with
  | [_, _, _, _, _], _ => rfl

/-- An integer and two signed ones, or an integer and three signed ones in front. -/
def Numeric (name : List Char) : Prop :=
  ∃ i a b, IntText i ∧ SignedText a ∧ SignedText b ∧
    (name = i ++ (a ++ b) ∨ ∃ c r, SignedText c ∧ name = i ++ (a ++ (b ++ (c ++ r))))

theorem countInts_some {k : ℕ} {z : ℤ} (h : number l = (some z, r)) :
    countInts (k + 1) l = countInts k r + 1 := by
  rw [countInts, h]

theorem countInts_none {k : ℕ} (h : number l = (none, r)) : countInts (k + 1) l = 0 := by
  rw [countInts, h]

theorem countInts_token {k j : ℕ} (hl : Token l) (h : countInts (k + 1) (l ++ ' ' :: t) = j + 1) :
    ∃ w r, IntText w ∧ l = w ++ r ∧ NoDigit r ∧ (r = [] ∨ Token r) ∧
      countInts k (r ++ ' ' :: t) = j := by
  have hnumber := number_append_space (r := t) hl (c := ' ') rfl
  rcases hn : number l with ⟨_ | z, r⟩
  · rw [hn] at hnumber
    rw [countInts_none hnumber] at h
    cases h
  · obtain ⟨w, hw, rfl, hr⟩ := number_eq_some hl hn
    rw [hn] at hnumber
    rw [countInts_some hnumber] at h
    refine ⟨w, r, hw, rfl, hr, ?_, Nat.succ.inj h⟩
    by_cases hnil : r = []
    · exact Or.inl hnil
    · exact Or.inr ⟨hnil, fun c hc => hl.solid c (List.mem_append_right w hc)⟩

theorem countInts_prio (k : ℕ) (z : ℤ) : countInts (k + 1) (' ' :: (decimal z ++ ['\n'])) = 1 := by
  have hz : number (' ' :: (decimal z ++ ['\n'])) = (some z, ['\n']) := by
    rw [number_cons_space rfl, number_decimal z (NoDigit.space rfl)]
  rw [countInts_some hz]
  cases k <;> rfl

theorem countInts_numeric (hname : Numeric w) (z : ℤ) :
    countInts 4 (w ++ ' ' :: (decimal z ++ ['\n'])) = 4 := by
  obtain ⟨i, a, b, hi, ha, hb, rfl | ⟨c, r, hc, rfl⟩⟩ := hname
  · simp only [List.append_assoc]
    obtain ⟨z₁, h₁⟩ := hi.number ha.noDigit
    obtain ⟨z₂, h₂⟩ := IntText.number (Or.inr ha) hb.noDigit
    obtain ⟨z₃, h₃⟩ := IntText.number (Or.inr hb) (NoDigit.space (c := ' ') rfl)
    rw [countInts_some h₁, countInts_some h₂, countInts_some h₃, countInts_prio]
  · simp only [List.append_assoc]
    obtain ⟨z₁, h₁⟩ := hi.number ha.noDigit
    obtain ⟨z₂, h₂⟩ := IntText.number (Or.inr ha) hb.noDigit
    obtain ⟨z₃, h₃⟩ := IntText.number (Or.inr hb) hc.noDigit
    obtain ⟨z₄, r', h₄⟩ := hc.exists_number (r ++ ' ' :: (decimal z ++ ['\n']))
    rw [countInts_some h₁, countInts_some h₂, countInts_some h₃, countInts_some h₄]
    rfl

theorem numeric_of_countInts (hw : Token w) {z : ℤ}
    (h : countInts 4 (w ++ ' ' :: (decimal z ++ ['\n'])) = 4) : Numeric w := by
  obtain ⟨i, r₁, hi, rfl, hd₁, rfl | ht₁, h₁⟩ := countInts_token hw h
  · rw [List.nil_append, countInts_prio] at h₁
    cases h₁
  obtain ⟨a, r₂, ha, rfl, hd₂, rfl | ht₂, h₂⟩ := countInts_token ht₁ h₁
  · rw [List.nil_append, countInts_prio] at h₂
    cases h₂
  obtain ⟨b, r₃, hb, rfl, hd₃, rfl | ht₃, h₃⟩ := countInts_token ht₂ h₂
  · refine ⟨i, a, b, hi, ha.signed_of_noDigit hd₁, hb.signed_of_noDigit hd₂, Or.inl ?_⟩
    rw [List.append_nil]
  obtain ⟨c, r₄, hc, rfl, _, _, _⟩ := countInts_token ht₃ h₃
  exact ⟨i, a, b, hi, ha.signed_of_noDigit hd₁, hb.signed_of_noDigit hd₂,
    Or.inr ⟨c, r₄, hc.signed_of_noDigit hd₃, rfl⟩⟩

theorem row_body (ws : List (List Char)) : ∃ body, row ws = body ++ ['\n'] ∧
    (∀ c ∈ body, c = ' ' ∨ ∃ w ∈ ws, c ∈ w) ∧ body.length ≤ (ws.map (·.length + 1)).sum := by
  induction ws with
  | nil => exact ⟨[], rfl, by simp, by simp⟩
  | cons w ws ih =>
    rcases ws with _ | ⟨v, ws⟩
    · exact ⟨w, rfl, fun c hc => Or.inr ⟨w, List.mem_cons_self, hc⟩, by simp⟩
    · obtain ⟨body, hrow, hchars, hlen⟩ := ih
      have hcons : row (w :: v :: ws) = w ++ ' ' :: row (v :: ws) := rfl
      refine ⟨w ++ ' ' :: body, by rw [hcons, hrow]; simp, fun c hc => ?_, ?_⟩
      · rcases List.mem_append.mp hc with hc | hc
        · exact Or.inr ⟨w, List.mem_cons_self, hc⟩
        · rcases List.mem_cons.mp hc with hc | hc
          · exact Or.inl hc
          · exact (hchars c hc).imp_right fun hex =>
              hex.imp fun u hu => ⟨List.mem_cons_of_mem w hu.1, hu.2⟩
      · rw [List.map_cons, List.sum_cons, List.length_append, List.length_cons]
        omega

theorem fgets_row {ws : List (List Char)} {n : ℕ} (hws : ∀ w ∈ ws, Token w)
    (hlen : (ws.map (·.length + 1)).sum + 1 < n) (r : List Char) :
    fgets n (row ws ++ r) = (some (row ws), r) := by
  obtain ⟨body, hrow, hchars, hbody⟩ := row_body ws
  have hline : '\n' ∉ body := by
    intro hc
    rcases hchars _ hc with hc | ⟨w, hw, hc⟩
    · cases hc
    · have := (hws w hw).solid _ hc
      cases this
  rw [hrow, List.append_assoc, List.singleton_append, fgets_append hline (by omega)]

theorem row_no_nul {ws : List (List Char)} (hws : ∀ w ∈ ws, '\x00' ∉ w) : '\x00' ∉ row ws := by
  obtain ⟨body, hrow, hchars, _⟩ := row_body ws
  rw [hrow, List.mem_append]
  intro hc
  rcases hc with hc | hc
  · rcases hchars _ hc with hc | ⟨w, hw, hc⟩
    · cases hc
    · exact hws w hw hc
  · simp at hc

theorem decimal_no_nul (z : ℤ) : '\x00' ∉ decimal z := by
  intro hc
  rcases decimal_chars z _ hc with hc | hc <;> cases hc

theorem FitsInt.length_le {z : ℤ} (hz : FitsInt z) : (decimal z).length ≤ 11 := by
  apply length_decimal_le
  have := hz.1
  have := hz.2
  omega

theorem ProcessLine.fgets_text (p : ProcessLine) (r : List Char) :
    fgets 256 (p.text ++ r) = (some p.text, r) := by
  apply fgets_row
  · simp [decimal_token, p.token]
  · have h₁ := p.startTime_fits.length_le
    have h₂ := p.length_le
    have h₃ := p.prio_fits.length_le
    simp only [List.map_cons, List.map_nil, List.sum_cons, List.sum_nil]
    omega

theorem ProcessLine.text_no_nul (p : ProcessLine) : '\x00' ∉ p.text :=
  row_no_nul (by simp [decimal_no_nul, p.no_nul])

theorem ProcessLine.countInts_text (p : ProcessLine) :
    countInts 5 p.text = 5 ↔ Numeric p.name := by
  have htext := p.text_append []
  rw [List.append_nil] at htext
  have hstart : number p.text =
      (some p.startTime, ' ' :: (p.name ++ ' ' :: (decimal p.prio ++ ['\n']))) := by
    rw [htext, number_decimal _ (NoDigit.space rfl)]
  have hskip : countInts 4 (' ' :: (p.name ++ ' ' :: (decimal p.prio ++ ['\n']))) =
      countInts 4 (p.name ++ ' ' :: (decimal p.prio ++ ['\n'])) := by
    rw [countInts, countInts, number_cons_space rfl]
  rw [countInts_some hstart, hskip]
  constructor
  · intro h
    exact numeric_of_countInts p.token (Nat.succ.inj h)
  · intro h
    rw [countInts_numeric h]

theorem readMem_process (p : ProcessLine) (hp : ¬ Numeric p.name) (r : List Char) :
    readMem undef (p.text ++ r) = (defaultMem, p.text ++ r) :=
  readMem_of_count (p.fgets_text r) p.text_no_nul (mt p.countInts_text.mp hp)

theorem readMem_numeric (p : ProcessLine) (hp : Numeric p.name) (r : List Char) :
    (readMem undef (p.text ++ r)).2 = r :=
  readMem_rest_of_count (p.fgets_text r) p.text_no_nul (p.countInts_text.mpr hp)

theorem MemSizes.text_append (m : MemSizes) (r : List Char) : m.text ++ r =
    decimal m.ram ++ ' ' :: (decimal m.swap0 ++ ' ' :: (decimal m.swap1 ++
      ' ' :: (decimal m.swap2 ++ ' ' :: (decimal m.swap3 ++ '\n' :: r)))) := by
  simp [MemSizes.text, row]

theorem readMem_mem (m : MemSizes) (hm : m.Valid) (r : List Char) :
    readMem undef (m.text ++ r) = (m, r) := by
  have hgets : fgets 256 (m.text ++ r) = (some m.text, r) := by
    apply fgets_row
    · simp [decimal_token]
    · have h₁ := hm.ram.2.length_le
      have h₂ := hm.swap0.2.length_le
      have h₃ := hm.swap1.length_le
      have h₄ := hm.swap2.length_le
      have h₅ := hm.swap3.length_le
      simp only [List.map_cons, List.map_nil, List.sum_cons, List.sum_nil]
      omega
  have hnul : '\x00' ∉ m.text := row_no_nul (by simp [decimal_no_nul])
  have hscan : (scanf undef memFormat m.text).1 =
      [.num m.ram, .num m.swap0, .num m.swap1, .num m.swap2, .num m.swap3] := by
    have htext := m.text_append []
    rw [List.append_nil] at htext
    rw [htext, memFormat, scanf_int_decimal hm.ram.2 (NoDigit.space rfl), scanf_space_cons rfl,
      scanf_space_token (decimal_token _), scanf_int_decimal hm.swap0.2 (NoDigit.space rfl),
      scanf_space_cons rfl, scanf_space_token (decimal_token _),
      scanf_int_decimal hm.swap1 (NoDigit.space rfl), scanf_space_cons rfl,
      scanf_space_token (decimal_token _), scanf_int_decimal hm.swap2 (NoDigit.space rfl),
      scanf_space_cons rfl, scanf_space_token (decimal_token _),
      scanf_int_decimal hm.swap3 (NoDigit.space rfl), scanf_nil]
  rw [readMem, hgets]
  simp only [cstring_of_notMem hnul, hscan]

def ConfigFile.body (f : ConfigFile) : List Char :=
  (f.mem.map MemSizes.text).getD [] ++ f.processes.flatMap ProcessLine.text

theorem ConfigFile.body_decimal (f : ConfigFile) : ∃ z r, f.body = decimal z ++ r := by
  rcases hm : f.mem with _ | m
  · rw [body, hm, processes, List.flatMap_cons, f.first.text_append]
    exact ⟨_, _, rfl⟩
  · rw [body, hm, Option.map_some, Option.getD_some, m.text_append]
    exact ⟨_, _, rfl⟩

theorem readConfig_text (f : ConfigFile) :
    readConfig undef f.text =
      if (readMem undef f.body).1.ram < pagingPagesz ∨
        (readMem undef f.body).1.swap0 < pagingPagesz then none
      else (readProcesses undef f.processes.length (readMem undef f.body).2).map
        (⟨f.timeSlot, f.numCpus, f.processes.length, (readMem undef f.body).1, ·⟩) := by
  have hcount : FitsInt f.processes.length := by
    have := f.count_fits
    simpa [ConfigFile.processes] using this
  have hpos : (0 : ℤ) < f.processes.length := by simp [ConfigFile.processes]
  have htext : f.text = decimal f.timeSlot ++ ' ' :: (decimal f.numCpus ++
      ' ' :: (decimal f.processes.length ++ '\n' :: f.body)) := by
    simp [ConfigFile.text, ConfigFile.body, row]
  have hbody : skipSpace f.body = f.body := by
    obtain ⟨z, r, he⟩ := f.body_decimal
    rw [he, (decimal_token z).skipSpace]
  have hscan : scanf undef headerFormat f.text =
      ([.num f.timeSlot, .num f.numCpus, .num f.processes.length], f.body) := by
    rw [htext, headerFormat, scanf_int_decimal f.timeSlot_valid.2 (NoDigit.space rfl),
      scanf_space_cons rfl, scanf_space_token (decimal_token _),
      scanf_int_decimal f.numCpus_valid.2 (NoDigit.space rfl), scanf_space_cons rfl,
      scanf_space_token (decimal_token _), scanf_int_decimal hcount (NoDigit.space rfl),
      scanf_space_cons rfl, scanf_space, hbody, scanf_nil]
  have hvalid : ¬ (f.timeSlot ≤ 0 ∨ f.numCpus ≤ 0 ∨ (f.processes.length : ℤ) ≤ 0) := by
    have h₁ := f.timeSlot_valid.1
    have h₂ := f.numCpus_valid.1
    omega
  rw [readConfig, hscan]
  simp only [if_neg hvalid, Int.toNat_natCast]

theorem readProcesses_all (ps : List ProcessLine) :
    readProcesses undef ps.length (ps.flatMap ProcessLine.text) =
      some (ps.map fun p => ⟨p.startTime, procDir ++ p.name, p.prio⟩) := by
  have h := readProcesses_text undef ps 0
  rw [Nat.add_zero] at h
  simpa [readProcesses] using h

/-- A file with the memory line, or whose first name does not look like numbers, is read
back; any other is rejected. -/
theorem readConfig_text_iff (undef : ℤ → ℤ) (f : ConfigFile) :
    readConfig undef f.text = some f.settings ↔ f.mem ≠ none ∨ ¬ Numeric f.first.name := by
  rw [readConfig_text]
  rcases hmem : f.mem with _ | m
  · have hbody : f.body = f.first.text ++ f.others.flatMap ProcessLine.text := by
      rw [ConfigFile.body, hmem, ConfigFile.processes, List.flatMap_cons]
      rfl
    by_cases hname : Numeric f.first.name
    · -- the line of the first process is gone
      have hrest : readProcesses undef f.processes.length (readMem undef f.body).2 = none := by
        rw [hbody, readMem_numeric _ hname]
        exact (readProcesses_text undef f.others 1).trans rfl
      rw [hrest]
      simp [hname]
    · rw [hbody, readMem_process _ hname, ← List.flatMap_cons]
      change (if _ then _ else (readProcesses undef f.processes.length
        (f.processes.flatMap ProcessLine.text)).map _) = _ ↔ _
      rw [readProcesses_all, if_neg (by simp [defaultMem, pagingPagesz])]
      simp [hname, ConfigFile.settings, hmem]
  · have hm := f.mem_valid m hmem
    have hsizes : ¬ (m.ram < pagingPagesz ∨ m.swap0 < pagingPagesz) := by
      have h₁ := hm.ram.1
      have h₂ := hm.swap0.1
      omega
    have hbody : f.body = m.text ++ f.processes.flatMap ProcessLine.text := by
      rw [ConfigFile.body, hmem]
      rfl
    rw [hbody, readMem_mem m hm]
    simp [hsizes, readProcesses_all, ConfigFile.settings, hmem]

def dashedName : ConfigFile where
  timeSlot := 1
  numCpus := 1
  mem := none
  first := {
    startTime := 0
    name := ['1', '-', '2', '-', '3']
    prio := 5
    startTime_nonneg := by decide
    startTime_fits := by unfold FitsInt; decide
    prio_nonneg := by decide
    prio_fits := by unfold FitsInt; decide
    token := .of_all (by decide) (by decide)
    length_le := by decide
    no_nul := by decide }
  others := []
  timeSlot_valid := by unfold FitsInt; decide
  numCpus_valid := by unfold FitsInt; decide
  mem_valid := fun _ h => by cases h
  count_fits := by unfold FitsInt; decide

theorem readConfig_dashedName : readConfig id dashedName.text = none ∧
    readConfig id dashedName.text ≠ some dashedName.settings := by
  have h : readConfig id dashedName.text = none := by decide +kernel
  exact ⟨h, by rw [h]; simp⟩

end OSsim
