import Mathlib.Data.List.Forall2
/-!
# Unwinding

A system takes steps, each with an output. Two runs, one without the steps of
some kind, agree on all other steps if there is a relation of states that a
step of that kind keeps on its own side and any other keeps on both.
-/

namespace Unwinding

variable {ρ ο σ : Type} (f : ρ → σ → ο × σ)

/-- Each step of a run with its output and the state after it. -/
def results : σ → List ρ → List (ρ × ο × σ)
  | _, [] => []
  | s, a :: as => (a, f a s) :: results (f a s).2 as

/-- The state after a run. -/
def after (s : σ) (as : List ρ) : σ := as.foldl (fun s a => (f a s).2) s

variable {f}

/-- A step is erased from one of two runs. -/
theorem purge {E : ρ → Bool} {R : σ → σ → Prop} {O : ο → ο → Prop}
    (herased : ∀ a s t, E a = true → R s t → R (f a s).2 t)
    (hkept : ∀ a s t, E a = false → R s t → O (f a s).1 (f a t).1 ∧ R (f a s).2 (f a t).2)
    {s t : σ} (h : R s t) (as : List ρ) :
    List.Forall₂ (fun r r' => r.1 = r'.1 ∧ O r.2.1 r'.2.1 ∧ R r.2.2 r'.2.2)
      ((results f s as).filter (fun r => !E r.1)) (results f t (as.filter (fun a => !E a))) := by
  induction as generalizing s t with
  | nil => exact .nil
  | cons a as ih =>
    rw [show results f s (a :: as) = (a, f a s) :: results f (f a s).2 as from rfl]
    cases ha : E a with
    | true =>
      rw [List.filter_cons_of_neg (by simp [ha]), List.filter_cons_of_neg (by simp [ha])]
      exact ih (herased a s t ha h)
    | false =>
      rw [List.filter_cons_of_pos (by simp [ha]), List.filter_cons_of_pos (by simp [ha])]
      obtain ⟨hout, hnext⟩ := hkept a s t ha h
      exact .cons ⟨rfl, hout, hnext⟩ (ih hnext)

/-- ... and at the end. -/
theorem purge_after {E : ρ → Bool} {R : σ → σ → Prop}
    (herased : ∀ a s t, E a = true → R s t → R (f a s).2 t)
    (hkept : ∀ a s t, E a = false → R s t → R (f a s).2 (f a t).2) {s t : σ} (h : R s t) (as : List ρ) :
    R (after f s as) (after f t (as.filter (fun a => !E a))) := by
  induction as generalizing s t with
  | nil => exact h
  | cons a as ih =>
    cases ha : E a with
    | true =>
      rw [List.filter_cons_of_neg (by simp [ha])]
      exact ih (herased a s t ha h)
    | false =>
      rw [List.filter_cons_of_pos (by simp [ha])]
      exact ih (hkept a s t ha h)

end Unwinding
