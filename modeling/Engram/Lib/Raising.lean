import Engram.Lib.Program
/-!
# Calls that raise

A handler may answer a call with an exception of its own, which then ends the
program. `run` is the case in which none does (`Only.runRaising_eq`).
-/

namespace Prog

variable {ι : Type} {ο : ι → Type} {ε δ α β σ : Type}

/-- Run to the end, or to the first call that raises. An exception is the
program's own or a call's. -/
def runRaising (h : (i : ι) → σ → Except δ (ο i) × σ) : Prog ι ο ε α → σ → Except (ε ⊕ δ) α × σ
  | ret a, s => (.ok a, s)
  | raise e, s => (.error (.inl e), s)
  | call i k, s => match h i s with
    | (.ok o, s') => (k o).runRaising h s'
    | (.error d, s') => (.error (.inr d), s')

section Rules
variable {h : (i : ι) → σ → Except δ (ο i) × σ} {h₀ : (i : ι) → σ → ο i × σ} {s : σ}

theorem runRaising_call_ok {i : ι} {k : ο i → Prog ι ο ε α} {o : ο i} {s' : σ} (hi : h i s = (.ok o, s')) :
    (call i k).runRaising h s = (k o).runRaising h s' := by
  rw [runRaising, hi]

theorem runRaising_call_error {i : ι} {k : ο i → Prog ι ο ε α} {d : δ} {s' : σ} (hi : h i s = (.error d, s')) :
    (call i k).runRaising h s = (.error (.inr d), s') := by
  rw [runRaising, hi]

theorem runRaising_bind (p : Prog ι ο ε α) (f : α → Prog ι ο ε β) (s : σ) :
    (p >>= f).runRaising h s = match p.runRaising h s with
      | (.ok a, s') => (f a).runRaising h s'
      | (.error e, s') => (.error e, s') := by
  induction p generalizing s with
  | ret a => rfl
  | raise e => rfl
  | call i k ih =>
    rw [call_bind, runRaising, runRaising]
    rcases h i s with ⟨d | o, s'⟩
    · rfl
    · exact ih o s'

/-- A program whose calls do not raise runs as it does with a handler that never does. -/
theorem Only.runRaising_eq {P : ι → Prop} {Q : α → Prop} {p : Prog ι ο ε α} (hp : p.Only (fun _ _ => True) P Q)
    (hh : ∀ i s, P i → h i s = (.ok (h₀ i s).1, (h₀ i s).2)) (s : σ) :
    p.runRaising h s = ((p.run h₀ s).1.mapError .inl, (p.run h₀ s).2) := by
  induction p generalizing s with
  | ret a => rfl
  | raise e => rfl
  | call i k ih =>
    obtain ⟨hi, hk⟩ := hp.of_call
    rw [runRaising_call_ok (hh i s hi)]
    exact ih _ (hk _ trivial) _

end Rules

end Prog
