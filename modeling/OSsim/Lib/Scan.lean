import Mathlib.Data.List.TakeWhile
import Mathlib.Tactic

/-!
# Formatted input

The scanning functions of the C library on a stream given as the list of its remaining
characters. A conversion skips white space, takes the longest item that fits it and
leaves the rest in the stream. One that fails ends the call; a sign that it has read
by then is gone.
-/

namespace Scan

def isSpace (c : Char) : Bool :=
  c = ' ' || c = '\t' || c = '\n' || c = '\x0b' || c = '\x0c' || c = '\r'

def skipSpace (l : List Char) : List Char := l.dropWhile isSpace

def signed (negative : Bool) (v : ℕ) : ℤ := if negative then -v else v

def digits (negative : Bool) (l : List Char) : Option ℤ × List Char :=
  if l.takeWhile Char.isDigit = [] then (none, l)
  else (some (signed negative (Nat.ofDigitChars 10 (l.takeWhile Char.isDigit) 0)),
    l.dropWhile Char.isDigit)

/-- The item of `%d` and `%u`. -/
def number (l : List Char) : Option ℤ × List Char :=
  match skipSpace l with
  | [] => (none, [])
  | c :: r =>
    if c = '-' then digits true r else if c = '+' then digits false r else digits false (c :: r)

/-- The item of `%ns`. -/
def word (n : ℕ) (l : List Char) : Option (List Char) × List Char :=
  let w := ((skipSpace l).take n).takeWhile (!isSpace ·)
  if w = [] then (none, skipSpace l) else (some w, (skipSpace l).drop w.length)

/-- At most `n` characters, up to the end of the line. -/
def line : ℕ → List Char → List Char × List Char
  | 0, l => ([], l)
  | _ + 1, [] => ([], [])
  | n + 1, c :: l => if c = '\n' then ([c], l) else (c :: (line n l).1, (line n l).2)

def fgets (n : ℕ) (l : List Char) : Option (List Char) × List Char :=
  if l = [] then (none, []) else (some (line (n - 1) l).1, (line (n - 1) l).2)

/-- What a string function sees of a buffer. -/
def cstring (l : List Char) : List Char := l.takeWhile (· ≠ '\x00')

inductive Directive
  | space
  | int
  | uint (bits : ℕ)
  | word (n : ℕ)

inductive Value
  | num (z : ℤ)
  | str (w : List Char)
  deriving DecidableEq

/-- What a conversion stores. For a number that the object cannot represent this is
undefined. -/
def stored (undef : ℤ → ℤ) (lo hi z : ℤ) : ℤ := if lo ≤ z ∧ z < hi then z else undef z

/-- The values that a call assigns, and the stream behind it. -/
def scanf (undef : ℤ → ℤ) : List Directive → List Char → List Value × List Char
  | [], l => ([], l)
  | .space :: ds, l => scanf undef ds (skipSpace l)
  | .int :: ds, l =>
    match number l with
    | (none, r) => ([], r)
    | (some z, r) =>
      (.num (stored undef (-2 ^ 31) (2 ^ 31) z) :: (scanf undef ds r).1, (scanf undef ds r).2)
  | .uint bits :: ds, l =>
    match number l with
    | (none, r) => ([], r)
    | (some z, r) =>
      (.num (stored undef 0 (2 ^ bits) z) :: (scanf undef ds r).1, (scanf undef ds r).2)
  | .word n :: ds, l =>
    match word n l with
    | (none, r) => ([], r)
    | (some w, r) => (.str w :: (scanf undef ds r).1, (scanf undef ds r).2)

variable {c : Char} {l r w : List Char} {n : ℕ}

@[simp] theorem skipSpace_nil : skipSpace [] = [] := rfl

theorem skipSpace_cons (hc : isSpace c = true) : skipSpace (c :: l) = skipSpace l :=
  List.dropWhile_cons_of_pos hc

theorem skipSpace_of_not (hc : isSpace c = false) : skipSpace (c :: l) = c :: l :=
  List.dropWhile_cons_of_neg (by simp [hc])

theorem skipSpace_idem (l : List Char) : skipSpace (skipSpace l) = skipSpace l := by
  induction l with
  | nil => rfl
  | cons c l ih =>
    rcases hc : isSpace c with _ | _
    · rw [skipSpace_of_not hc, skipSpace_of_not hc]
    · rw [skipSpace_cons hc, ih]

theorem number_skipSpace (l : List Char) : number (skipSpace l) = number l := by
  rw [number, number, skipSpace_idem]

theorem word_skipSpace (n : ℕ) (l : List Char) : word n (skipSpace l) = word n l := by
  rw [word, word, skipSpace_idem]

theorem number_cons_space (hc : isSpace c = true) : number (c :: l) = number l := by
  rw [← number_skipSpace, skipSpace_cons hc, number_skipSpace]

theorem not_isSpace_of_isDigit (hc : c.isDigit = true) : isSpace c = false := by
  by_contra hspace
  simp only [isSpace, Bool.not_eq_false, Bool.or_eq_true, decide_eq_true_eq] at hspace
  rcases hspace with ((((rfl | rfl) | rfl) | rfl) | rfl) | rfl <;> exact absurd hc (by decide)

structure Token (w : List Char) : Prop where
  ne_nil : w ≠ []
  solid : ∀ c ∈ w, isSpace c = false

theorem Token.of_all (hne : w ≠ []) (h : w.all (!isSpace ·) = true) : Token w := by
  refine ⟨hne, fun c hc => ?_⟩
  have := List.all_eq_true.mp h c hc
  simpa using this

theorem Token.skipSpace (hw : Token w) (r : List Char) : skipSpace (w ++ r) = w ++ r := by
  rcases hw' : w with _ | ⟨c, v⟩
  · exact absurd hw' hw.ne_nil
  · exact skipSpace_of_not (hw.solid c (by rw [hw']; exact List.mem_cons_self))

def decimal : ℤ → List Char
  | .ofNat n => Nat.toDigits 10 n
  | .negSucc n => '-' :: Nat.toDigits 10 (n + 1)

def NoDigit (r : List Char) : Prop := ∀ c, r.head? = some c → c.isDigit = false

theorem NoDigit.nil : NoDigit [] := fun _ h => by cases h

theorem NoDigit.cons (hc : c.isDigit = false) : NoDigit (c :: l) := by
  intro d hd
  rw [← Option.some.inj hd]
  exact hc

theorem NoDigit.space (hc : isSpace c = true) : NoDigit (c :: l) := by
  apply NoDigit.cons
  by_contra hd
  rw [not_isSpace_of_isDigit (by simpa using hd)] at hc
  cases hc

theorem digits_append (neg : Bool) (hw : ∀ c ∈ w, c.isDigit = true) (hne : w ≠ [])
    (hr : NoDigit r) : digits neg (w ++ r) = (some (signed neg (Nat.ofDigitChars 10 w 0)), r) := by
  have hrest : r.takeWhile Char.isDigit = [] ∧ r.dropWhile Char.isDigit = r := by
    cases r with
    | nil => exact ⟨rfl, rfl⟩
    | cons d r =>
      have hd := hr d rfl
      exact ⟨List.takeWhile_cons_of_neg (by simp [hd]), List.dropWhile_cons_of_neg (by simp [hd])⟩
  rw [digits, List.takeWhile_append_of_pos hw, List.dropWhile_append_of_pos hw, hrest.1, hrest.2,
    List.append_nil, if_neg hne]

theorem number_of_head (hc : isSpace c = false) (hm : c ≠ '-') (hp : c ≠ '+') :
    number (c :: l) = digits false (c :: l) := by
  rw [number, skipSpace_of_not hc]
  simp only [if_neg hm, if_neg hp]

theorem number_minus (l : List Char) : number ('-' :: l) = digits true l := rfl

theorem number_plus (l : List Char) : number ('+' :: l) = digits false l := rfl

theorem number_digits (hw : ∀ c ∈ w, c.isDigit = true) (hne : w ≠ []) (hr : NoDigit r) :
    number (w ++ r) = (some (Nat.ofDigitChars 10 w 0 : ℤ), r) := by
  rcases hw' : w with _ | ⟨c, w'⟩
  · exact absurd hw' hne
  · have hc := hw c (by rw [hw']; exact List.mem_cons_self)
    rw [List.cons_append, number_of_head (not_isSpace_of_isDigit hc), ← List.cons_append, ← hw',
      digits_append false hw hne hr]
    · rfl
    · intro heq
      rw [heq] at hc
      exact absurd hc (by decide)
    · intro heq
      rw [heq] at hc
      exact absurd hc (by decide)

theorem number_decimal (z : ℤ) (hr : NoDigit r) : number (decimal z ++ r) = (some z, r) := by
  have hdigits : ∀ n, ∀ c ∈ Nat.toDigits 10 n, c.isDigit = true := fun n c hc =>
    Nat.isDigit_of_mem_toDigits (by decide) (by decide) hc
  cases z with
  | ofNat n =>
    rw [decimal, number_digits (hdigits n) Nat.toDigits_ne_nil hr, Nat.ofDigitChars_ten_toDigits]
    rfl
  | negSucc n =>
    rw [decimal, List.cons_append, number_minus,
      digits_append true (hdigits _) Nat.toDigits_ne_nil hr, Nat.ofDigitChars_ten_toDigits]
    simp [signed, Int.negSucc_eq]

theorem decimal_chars (z : ℤ) : ∀ c ∈ decimal z, c = '-' ∨ c.isDigit = true := by
  have hdigits : ∀ n, ∀ c ∈ Nat.toDigits 10 n, c.isDigit = true := fun n c hc =>
    Nat.isDigit_of_mem_toDigits (by decide) (by decide) hc
  intro c hc
  cases z with
  | ofNat n => exact Or.inr (hdigits n c hc)
  | negSucc n =>
    rcases List.mem_cons.mp hc with rfl | hc
    · exact Or.inl rfl
    · exact Or.inr (hdigits _ c hc)

theorem decimal_ne_nil (z : ℤ) : decimal z ≠ [] := by
  cases z with
  | ofNat n => exact Nat.toDigits_ne_nil
  | negSucc n => exact List.cons_ne_nil _ _

theorem decimal_token (z : ℤ) : Token (decimal z) where
  ne_nil := decimal_ne_nil z
  solid c hc := by
    rcases decimal_chars z c hc with rfl | hd
    · decide
    · exact not_isSpace_of_isDigit hd

theorem length_decimal_le {z : ℤ} (h : z.natAbs < 10 ^ 10) : (decimal z).length ≤ 11 := by
  cases z with
  | ofNat n =>
    have := (Nat.length_toDigits_le_iff (by decide) (by decide)).mpr (show n < 10 ^ 10 from h)
    rw [decimal]
    omega
  | negSucc n =>
    have := (Nat.length_toDigits_le_iff (by decide) (by decide)).mpr (show n + 1 < 10 ^ 10 from h)
    rw [decimal, List.length_cons]
    omega

structure DigitText (w : List Char) : Prop where
  digit : ∀ c ∈ w, c.isDigit = true
  ne_nil : w ≠ []

def SignedText (w : List Char) : Prop := ∃ c v, (c = '-' ∨ c = '+') ∧ DigitText v ∧ w = c :: v

def IntText (w : List Char) : Prop := DigitText w ∨ SignedText w

theorem SignedText.noDigit (hw : SignedText w) : NoDigit (w ++ r) := by
  obtain ⟨c, v, hc, _, rfl⟩ := hw
  rcases hc with rfl | rfl <;> exact NoDigit.cons (by decide)

theorem IntText.number (hw : IntText w) (hr : NoDigit r) : ∃ z, number (w ++ r) = (some z, r) := by
  rcases hw with hw | ⟨c, v, hc, hv, rfl⟩
  · exact ⟨_, number_digits hw.digit hw.ne_nil hr⟩
  · rw [List.cons_append]
    rcases hc with rfl | rfl
    · exact ⟨_, (number_minus _).trans (digits_append true hv.digit hv.ne_nil hr)⟩
    · exact ⟨_, (number_plus _).trans (digits_append false hv.digit hv.ne_nil hr)⟩

theorem SignedText.exists_number (hw : SignedText w) (r : List Char) :
    ∃ z r', Scan.number (w ++ r) = (some z, r') := by
  obtain ⟨c, v, hc, hv, rfl⟩ := hw
  have hdigits : ∀ neg, ∃ z r', digits neg (v ++ r) = (some z, r') := by
    intro neg
    rw [digits, List.takeWhile_append_of_pos hv.digit, if_neg (by simp [hv.ne_nil])]
    exact ⟨_, _, rfl⟩
  rcases hc with rfl | rfl
  · exact hdigits true
  · exact hdigits false

theorem digits_eq_some {neg : Bool} {z : ℤ} (h : digits neg l = (some z, r)) :
    ∃ w, DigitText w ∧ l = w ++ r ∧ NoDigit r := by
  rw [digits] at h
  split_ifs at h with hnil
  · cases (Prod.mk.inj h).1
  · obtain ⟨_, rfl⟩ := Prod.mk.inj h
    refine ⟨_, ⟨fun c hc => ?_, hnil⟩, (List.takeWhile_append_dropWhile).symm, fun c hc => ?_⟩
    · exact List.mem_takeWhile_imp hc
    · have hhead := List.head?_dropWhile_not Char.isDigit l
      rw [hc] at hhead
      simpa using hhead

theorem number_eq_some {z : ℤ} (hl : Token l) (h : number l = (some z, r)) :
    ∃ w, IntText w ∧ l = w ++ r ∧ NoDigit r := by
  rcases l with _ | ⟨c, l⟩
  · cases h
  · rw [number, skipSpace_of_not (hl.solid c List.mem_cons_self)] at h
    simp only at h
    split_ifs at h with hm hp
    · obtain ⟨v, hv, rfl, hr⟩ := digits_eq_some h
      exact ⟨c :: v, Or.inr ⟨c, v, Or.inl hm, hv, rfl⟩, rfl, hr⟩
    · obtain ⟨v, hv, rfl, hr⟩ := digits_eq_some h
      exact ⟨c :: v, Or.inr ⟨c, v, Or.inr hp, hv, rfl⟩, rfl, hr⟩
    · obtain ⟨v, hv, he, hr⟩ := digits_eq_some h
      exact ⟨v, Or.inl hv, he, hr⟩

theorem IntText.signed_of_noDigit (hw : IntText w) (h : NoDigit (w ++ r)) : SignedText w := by
  rcases hw with hw | hw
  · rcases hw' : w with _ | ⟨c, v⟩
    · exact absurd hw' hw.ne_nil
    · have hc := hw.digit c (by rw [hw']; exact List.mem_cons_self)
      rw [hw'] at h
      rw [h c rfl] at hc
      cases hc
  · exact hw

theorem digits_append_cons (neg : Bool) (hc : c.isDigit = false) (l r : List Char) :
    digits neg (l ++ c :: r) = ((digits neg l).1, (digits neg l).2 ++ c :: r) := by
  have htake : ∀ l : List Char,
      (l ++ c :: r).takeWhile Char.isDigit = l.takeWhile Char.isDigit := by
    intro l
    induction l with
    | nil => simp [hc]
    | cons d l ih => simp [List.takeWhile_cons, ih]
  have hdrop : ∀ l : List Char,
      (l ++ c :: r).dropWhile Char.isDigit = l.dropWhile Char.isDigit ++ c :: r := by
    intro l
    induction l with
    | nil => simp [hc]
    | cons d l ih =>
      rw [List.cons_append, List.dropWhile_cons, List.dropWhile_cons]
      split_ifs
      · exact ih
      · rfl
  rw [digits, digits, htake, hdrop]
  split_ifs <;> rfl

theorem number_append_space (hl : Token l) (hc : isSpace c = true) :
    number (l ++ c :: r) = ((number l).1, (number l).2 ++ c :: r) := by
  have hd : c.isDigit = false := NoDigit.space (l := []) hc c rfl
  rcases l with _ | ⟨d, l⟩
  · exact absurd rfl hl.ne_nil
  · have hhead := hl.solid d List.mem_cons_self
    rw [List.cons_append, number, number, skipSpace_of_not hhead, skipSpace_of_not hhead]
    simp only
    split_ifs
    · exact digits_append_cons true hd l r
    · exact digits_append_cons false hd l r
    · exact digits_append_cons false hd (d :: l) r

theorem word_append (hw : Token w) (hlen : w.length ≤ n)
    (hr : ∀ c, r.head? = some c → isSpace c = true) : word n (w ++ r) = (some w, r) := by
  have htake : ((w ++ r).take n).takeWhile (!isSpace ·) = w := by
    rw [List.take_append, List.take_of_length_le hlen,
      List.takeWhile_append_of_pos (fun c hc => by rw [hw.solid c hc]; rfl)]
    have hstop : (r.take (n - w.length)).takeWhile (!isSpace ·) = [] := by
      rcases hr' : r with _ | ⟨c, r'⟩
      · simp
      · rcases n - w.length with _ | k
        · simp
        · have hc := hr c (by rw [hr']; rfl)
          simp [List.take_succ_cons, hc]
    rw [hstop, List.append_nil]
  rw [word]
  simp only [hw.skipSpace, htake, if_neg hw.ne_nil, List.drop_left]

theorem line_append (hw : '\n' ∉ w) (hlen : w.length < n) :
    line n (w ++ '\n' :: r) = (w ++ ['\n'], r) := by
  induction w generalizing n with
  | nil =>
    obtain ⟨k, rfl⟩ := Nat.exists_eq_succ_of_ne_zero (Nat.ne_of_gt hlen)
    simp [line]
  | cons c w ih =>
    obtain ⟨k, rfl⟩ := Nat.exists_eq_succ_of_ne_zero (Nat.ne_of_gt (Nat.zero_lt_of_lt hlen))
    have hc : c ≠ '\n' := fun h => hw (by rw [h]; exact List.mem_cons_self)
    rw [List.cons_append, line, if_neg hc,
      ih (fun h => hw (List.mem_cons_of_mem c h)) (Nat.lt_of_succ_lt_succ hlen), List.cons_append]

theorem fgets_append (hw : '\n' ∉ w) (hlen : w.length + 1 < n) :
    fgets n (w ++ '\n' :: r) = (some (w ++ ['\n']), r) := by
  rw [fgets, if_neg (by simp), line_append hw (by omega)]

theorem cstring_of_notMem (hl : '\x00' ∉ l) : cstring l = l := by
  rw [cstring, List.takeWhile_eq_self_iff]
  intro c hc
  rw [decide_eq_true_iff]
  intro he
  exact hl (he ▸ hc)

section Calls
variable {undef : ℤ → ℤ} {ds : List Directive} {z : ℤ}

theorem scanf_nil (l : List Char) : scanf undef [] l = ([], l) := rfl

theorem scanf_space (l : List Char) : scanf undef (.space :: ds) l = scanf undef ds (skipSpace l) :=
  rfl

theorem scanf_int (l : List Char) : scanf undef (.int :: ds) l =
    match number l with
    | (none, r) => ([], r)
    | (some z, r) =>
      (.num (stored undef (-2 ^ 31) (2 ^ 31) z) :: (scanf undef ds r).1, (scanf undef ds r).2) :=
  rfl

theorem scanf_uint (bits : ℕ) (l : List Char) : scanf undef (.uint bits :: ds) l =
    match number l with
    | (none, r) => ([], r)
    | (some z, r) =>
      (.num (stored undef 0 (2 ^ bits) z) :: (scanf undef ds r).1, (scanf undef ds r).2) :=
  rfl

theorem scanf_word (n : ℕ) (l : List Char) : scanf undef (.word n :: ds) l =
    match word n l with
    | (none, r) => ([], r)
    | (some w, r) => (.str w :: (scanf undef ds r).1, (scanf undef ds r).2) :=
  rfl

theorem scanf_space_cons (hc : isSpace c = true) :
    scanf undef (.space :: ds) (c :: l) = scanf undef (.space :: ds) l := by
  rw [scanf_space, scanf_space, skipSpace_cons hc]

theorem scanf_space_token (hw : Token w) :
    scanf undef (.space :: ds) (w ++ r) = scanf undef ds (w ++ r) := by
  rw [scanf_space, hw.skipSpace]

theorem stored_of_mem {lo hi : ℤ} (h : lo ≤ z ∧ z < hi) : stored undef lo hi z = z := if_pos h

theorem scanf_int_decimal (hz : -2 ^ 31 ≤ z ∧ z < 2 ^ 31) (hr : NoDigit r) :
    scanf undef (.int :: ds) (decimal z ++ r) =
      (.num z :: (scanf undef ds r).1, (scanf undef ds r).2) := by
  rw [scanf_int, number_decimal z hr]
  simp only [stored_of_mem hz]

theorem scanf_uint_decimal {bits : ℕ} (hz : 0 ≤ z ∧ z < 2 ^ bits) (hr : NoDigit r) :
    scanf undef (.uint bits :: ds) (decimal z ++ r) =
      (.num z :: (scanf undef ds r).1, (scanf undef ds r).2) := by
  rw [scanf_uint, number_decimal z hr]
  simp only [stored_of_mem hz]

theorem scanf_word_token (hw : Token w) (hlen : w.length ≤ n)
    (hr : ∀ c, r.head? = some c → isSpace c = true) :
    scanf undef (.word n :: ds) (w ++ r) =
      (.str w :: (scanf undef ds r).1, (scanf undef ds r).2) := by
  rw [scanf_word, word_append hw hlen hr]

theorem scanf_uint_skipSpace (bits : ℕ) (l : List Char) :
    scanf undef (.uint bits :: ds) (skipSpace l) = scanf undef (.uint bits :: ds) l := by
  rw [scanf_uint, scanf_uint, number_skipSpace]

theorem scanf_word_skipSpace (l : List Char) :
    scanf undef (.word n :: ds) (skipSpace l) = scanf undef (.word n :: ds) l := by
  rw [scanf_word, scanf_word, word_skipSpace]

end Calls
end Scan
