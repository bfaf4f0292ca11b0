import Mathlib.Data.List.Basic
/-!
# Labelled runs

A system is a step relation whose steps carry labels; `Steps` are its runs with
the labels in order. `inv` proves an invariant of every run, `simulated` that
another system has a run with the same labels, `tracked` that a function of the
labels follows the run.
-/

/-- `s'` is reached from `s` by steps with these labels. -/
inductive Steps {σ ℓ : Type} (step : σ → ℓ → σ → Prop) : σ → List ℓ → σ → Prop
  | nil {s} : Steps step s [] s
  | snoc {s ls s' l s''} (h : Steps step s ls s') (hl : step s' l s'') : Steps step s (ls ++ [l]) s''

namespace Steps

variable {σ τ ℓ : Type} {step : σ → ℓ → σ → Prop} {step' : τ → ℓ → τ → Prop} {s s' s'' : σ} {ls ls' : List ℓ}

/-- What every step keeps, every run keeps. -/
theorem inv {I : σ → Prop} (hI : ∀ s l s', I s → step s l s' → I s') (h : Steps step s ls s') (hs : I s) : I s' := by
  induction h with
  | nil => exact hs
  | snoc _ hl ih => exact hI _ _ _ ih hl

/-- Every label of a run was that of a step from a state with the invariant. -/
theorem label {I : σ → Prop} (hI : ∀ s l s', I s → step s l s' → I s') {P : ℓ → Prop}
    (hP : ∀ s l s', I s → step s l s' → P l) (h : Steps step s ls s') (hs : I s) : ∀ l ∈ ls, P l := by
  induction h with
  | nil =>
    intro l hl
    cases hl
  | snoc h hl ih =>
    intro l hmem
    rcases List.mem_append.1 hmem with hmem | hmem
    · exact ih l hmem
    · obtain rfl := List.mem_singleton.1 hmem
      exact hP _ _ _ (h.inv hI hs) hl

/-- Forward simulation: states related at the start stay related along a run of
the other system with the same labels. -/
theorem simulated {R : σ → τ → Prop} (hR : ∀ s l s' t, R s t → step s l s' → ∃ t', step' t l t' ∧ R s' t')
    (h : Steps step s ls s') {t : τ} (hst : R s t) : ∃ t', Steps step' t ls t' ∧ R s' t' := by
  induction h with
  | nil => exact ⟨t, .nil, hst⟩
  | snoc _ hl ih =>
    obtain ⟨t', ht, hst'⟩ := ih
    obtain ⟨t'', ht', hst''⟩ := hR _ _ _ _ hst' hl
    exact ⟨t'', .snoc ht ht', hst''⟩

/-- A state that is a function of the labels alone. -/
theorem tracked {R : σ → τ → Prop} {f : τ → ℓ → τ} (hR : ∀ s l s' t, R s t → step s l s' → R s' (f t l))
    (h : Steps step s ls s') {t : τ} (hst : R s t) : R s' (ls.foldl f t) := by
  induction h with
  | nil => exact hst
  | snoc _ hl ih =>
    rw [List.foldl_append]
    exact hR _ _ _ _ ih hl

theorem append (h : Steps step s ls s') (h' : Steps step s' ls' s'') : Steps step s (ls ++ ls') s'' := by
  induction h' with
  | nil => rwa [List.append_nil]
  | snoc _ hl ih =>
    rw [← List.append_assoc]
    exact .snoc ih hl

theorem mono {step'' : σ → ℓ → σ → Prop} (h : Steps step s ls s') (hs : ∀ s l s', step s l s' → step'' s l s') :
    Steps step'' s ls s' := by
  induction h with
  | nil => exact .nil
  | snoc _ hl ih => exact .snoc ih (hs _ _ _ hl)

end Steps
