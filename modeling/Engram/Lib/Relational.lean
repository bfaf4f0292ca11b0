import Engram.Lib.Program
/-!
# Two programs side by side

`Agrees` relates two programs that, from states related by `R`, come to the same
result and leave related states. It is kept by sequencing, so programs that
differ in a few parts are compared part by part. A program agrees with itself
where its calls cannot tell related states apart.
-/

namespace Prog

variable {ι : Type} {ο : ι → Type} {ε α β σ : Type}

/-- From related states: the same result, and related states. -/
def Agrees (h : (i : ι) → σ → ο i × σ) (R : σ → σ → Prop) (p p' : Prog ι ο ε α) : Prop :=
  ∀ s t, R s t → (p.run h s).1 = (p'.run h t).1 ∧ R (p.run h s).2 (p'.run h t).2

namespace Agrees
variable {h : (i : ι) → σ → ο i × σ} {R : σ → σ → Prop} {p p' : Prog ι ο ε α}

theorem pure (a : α) : Agrees h R (Pure.pure a : Prog ι ο ε α) (Pure.pure a) := fun _ _ hst => ⟨rfl, hst⟩

theorem bind {f f' : α → Prog ι ο ε β} (hp : Agrees h R p p') (hf : ∀ a, Agrees h R (f a) (f' a)) :
    Agrees h R (p >>= f) (p' >>= f') := by
  intro s t hst
  obtain ⟨hres, hend⟩ := hp s t hst
  rw [run_bind, run_bind]
  rcases hs : p.run h s with ⟨e | a, s'⟩ <;> rcases ht : p'.run h t with ⟨e' | a', t'⟩ <;>
    simp only [hs, ht] at hres hend <;> cases hres
  · exact ⟨rfl, hend⟩
  · exact hf a s' t' hend

theorem map (f : α → β) (hp : Agrees h R p p') : Agrees h R (f <$> p) (f <$> p') := by
  rw [map_eq_pure_bind, map_eq_pure_bind]
  exact hp.bind (fun a => pure (f a))

/-- Each call a program makes is answered alike in related states, and leaves related states. -/
theorem of_only {A : (i : ι) → ο i → Prop} {P : ι → Prop} {Q : α → Prop} (hp : p.Only A P Q)
    (hR : ∀ i s t, P i → R s t → A i (h i s).1 ∧ (h i s).1 = (h i t).1 ∧ R (h i s).2 (h i t).2) : Agrees h R p p :=
  fun _ _ hst => hp.run_agree hR hst

end Agrees

end Prog
