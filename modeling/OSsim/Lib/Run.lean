import Mathlib.Tactic

/-!
# Labelled runs

A run is a finite sequence of labelled steps from a start state, its labels
collected newest first. Invariants and simulations are proved one step at a time
and transported to whole runs by the rules below.
-/

variable {σ α τ β : Type*}

inductive Run (next : σ → α → σ → Prop) (s₀ : σ) : List α → σ → Prop where
  | nil : Run next s₀ [] s₀
  | snoc {as : List α} {s s' : σ} {a : α} :
      Run next s₀ as s → next s a s' → Run next s₀ (a :: as) s'

namespace Run
variable {next : σ → α → σ → Prop} {s₀ s : σ} {as : List α}

theorem invariant (h : Run next s₀ as s) (I : σ → Prop) (hinit : I s₀)
    (hstep : ∀ s a s', I s → next s a s' → I s') : I s := by
  induction h with
  | nil => exact hinit
  | snoc _ hn ih => exact hstep _ _ _ ih hn

/-- A step relation between a concrete state and an abstract one that every step
maintains relates the end of a run to the abstract state its labels compute. -/
theorem simulates (h : Run next s₀ as s) (R : σ → τ → Prop) {abs : α → τ → τ} {t₀ : τ}
    (hinit : R s₀ t₀) (hstep : ∀ s a s' t, R s t → next s a s' → R s' (abs a t)) :
    R s (as.foldr abs t₀) := by
  induction h with
  | nil => exact hinit
  | snoc _ hn ih => exact hstep _ _ _ _ ih hn

theorem append {bs : List α} {t : σ} (h : Run next s₀ as s) (h' : Run next s bs t) :
    Run next s₀ (bs ++ as) t := by
  induction h' with
  | nil => exact h
  | snoc _ hn ih => exact .snoc ih hn

/-- Refinement with stuttering: when finitely many abstract steps answer each concrete
one, every concrete run has an abstract one beside it. The relation may speak about the
labels so far. -/
theorem refines (h : Run next s₀ as s) {next' : τ → β → τ → Prop} (R : List α → σ → τ → Prop)
    {t₀ : τ} (hinit : R [] s₀ t₀)
    (hstep : ∀ as s a s' t, R as s t → next s a s' →
      ∃ bs t', Run next' t bs t' ∧ R (a :: as) s' t') :
    ∃ bs t, Run next' t₀ bs t ∧ R as s t := by
  induction h with
  | nil => exact ⟨[], t₀, .nil, hinit⟩
  | snoc _ hn ih =>
    obtain ⟨bs, t, hr, ht⟩ := ih
    obtain ⟨cs, t', hr', ht'⟩ := hstep _ _ _ _ t ht hn
    exact ⟨cs ++ bs, t', hr.append hr', ht'⟩

theorem mono (h : Run next s₀ as s) {next' : σ → α → σ → Prop}
    (hle : ∀ s a s', next s a s' → next' s a s') : Run next' s₀ as s := by
  induction h with
  | nil => exact .nil
  | snoc _ hn ih => exact .snoc ih (hle _ _ _ hn)

theorem of_foldr {step : σ → α → Option σ}
    (h : as.foldr (fun a t => t.bind fun s => step s a) (some s₀) = some s) :
    Run (fun s a s' => step s a = some s') s₀ as s := by
  induction as generalizing s with
  | nil =>
    obtain rfl := Option.some.inj h
    exact .nil
  | cons a as ih =>
    obtain ⟨t, ht, hstep⟩ := Option.bind_eq_some_iff.mp h
    exact .snoc (ih ht) hstep

def pick (step : σ → α → Option σ) (order : List α) (s : σ) : Option (α × σ) :=
  order.findSome? fun a => (step s a).map fun s' => (a, s')

/-- The run that goes on with the first possible step for as long as there is one. -/
def greedy (step : σ → α → Option σ) (order : List α) : ℕ → List α × σ → List α × σ
  | 0, x => x
  | k + 1, x =>
    match pick step order x.2 with
    | none => x
    | some (a, s') => greedy step order k (a :: x.1, s')

theorem of_greedy {step : σ → α → Option σ} {order : List α} {x : List α × σ} (k : ℕ)
    (h : Run (fun s a s' => step s a = some s') s₀ x.1 x.2) :
    Run (fun s a s' => step s a = some s') s₀ (greedy step order k x).1
      (greedy step order k x).2 := by
  induction k generalizing x with
  | zero => exact h
  | succ k ih =>
    rw [greedy]
    split
    · exact h
    · next a s' hpick =>
      obtain ⟨b, _, hb⟩ := List.exists_of_findSome?_eq_some hpick
      obtain ⟨t, ht, heq⟩ := Option.map_eq_some_iff.mp hb
      cases heq
      exact ih (.snoc h ht)

theorem unique (hdet : ∀ s a t t', next s a t → next s a t' → t = t') {t : σ}
    (h : Run next s₀ as s) (h' : Run next s₀ as t) : s = t := by
  induction h generalizing t with
  | nil =>
    cases h'
    rfl
  | snoc _ hn ih =>
    cases h' with
    | snoc hr hn' =>
      have he := ih hr
      subst he
      exact hdet _ _ _ _ hn hn'

/-- A property that only `Bad` steps destroy, and that they always destroy, holds all
along a run exactly when the run takes no `Bad` step. -/
theorem along_iff (hdet : ∀ s a t t', next s a t → next s a t' → t = t')
    (I P : σ → Prop) (Bad : σ → α → Prop) (hI : I s₀) (hP : P s₀)
    (hstep : ∀ s a s', I s → next s a s' → I s')
    (hbad : ∀ s a s', I s → P s → next s a s' → (P s' ↔ ¬ Bad s a)) (h : Run next s₀ as s) :
    (∀ pre t, pre <:+ as → Run next s₀ pre t → P t) ↔
      ∀ a pre t, a :: pre <:+ as → Run next s₀ pre t → ¬ Bad t a := by
  induction h with
  | nil =>
    constructor
    · intro _ a pre t hsuf
      simp at hsuf
    · intro _ pre t hsuf hr
      rw [List.suffix_nil] at hsuf
      subst hsuf
      cases hr
      exact hP
  | @snoc as s s' a hr hn ih =>
    have hinv := hr.invariant I hI hstep
    constructor
    · intro hall b pre t hsuf ht
      have hold : ∀ pre t, pre <:+ as → Run next s₀ pre t → P t :=
        fun pre t hs => hall pre t (hs.trans (List.suffix_cons a as))
      rcases List.suffix_cons_iff.mp hsuf with he | hs
      · -- the last step of the run
        obtain ⟨rfl, rfl⟩ := List.cons.inj he
        have hts := hr.unique hdet ht
        subst hts
        exact (hbad _ _ _ hinv (hold _ _ List.suffix_rfl hr) hn).mp
          (hall _ _ List.suffix_rfl (.snoc hr hn))
      · exact ih.mp hold b pre t hs ht
    · intro hall pre t hsuf ht
      have hold := ih.mpr fun b pre t hs => hall b pre t (hs.trans (List.suffix_cons a as))
      rcases List.suffix_cons_iff.mp hsuf with he | hs
      · subst he
        have hts := (Run.snoc hr hn).unique hdet ht
        subst hts
        exact (hbad _ _ _ hinv (hold _ _ List.suffix_rfl hr) hn).mpr
          (hall a as s List.suffix_rfl hr)
      · exact hold pre t hs ht

end Run
