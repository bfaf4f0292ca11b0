import Engram.Lib.Program
import Engram.Lib.Steps
import Mathlib.Logic.Function.Basic
/-!
# Pools of programs

Any number of programs run at once over one state, one call at a time, in any
order. What a call may be answered, and what it does to the state, is a
relation. A run need not be finished, so each program may also have stopped
anywhere.

`inv` proves an invariant of the programs and the state; `erased` that a run
without the programs of some kind makes the same calls of the others.
-/

/-- What each program has still to do, and the state. -/
structure Pool (κ ι : Type) (ο : ι → Type) (ε α σ : Type) where
  prog : κ → Prog ι ο ε α
  state : σ

/-- The call a program made, and its answer. -/
structure Pool.Made (κ ι : Type) (ο : ι → Type) where
  who : κ
  call : ι
  answer : ο call

namespace Pool

variable {κ ι : Type} {ο : ι → Type} {ε α σ : Type} [DecidableEq κ]

/-- One program makes one call. -/
inductive Step (H : (i : ι) → σ → ο i → σ → Prop) : Pool κ ι ο ε α σ → Made κ ι ο → Pool κ ι ο ε α σ → Prop
  | call {c k i f o s} (hp : c.prog k = .call i f) (h : H i c.state o s) :
      Step H c ⟨k, i, o⟩ ⟨Function.update c.prog k (f o), s⟩

variable {H : (i : ι) → σ → ο i → σ → Prop} {V : κ → Prog ι ο ε α → Prop} {c c' d : Pool κ ι ο ε α σ}
  {ms : List (Made κ ι ο)}

theorem update_kept {k : κ} {p : Prog ι ο ε α} (hV : ∀ j, V j (c.prog j)) (hp : V k p) (j : κ) :
    V j (Function.update c.prog k p j) := by
  by_cases hj : j = k
  · subst hj
    rwa [Function.update_self]
  · rw [Function.update_of_ne hj]
    exact hV j

/-- What each call keeps of its program and of the state, without disturbing the
other programs, every run keeps. -/
theorem inv {W : κ → σ → Prog ι ο ε α → Prop} {I : σ → Prop}
    (hI : ∀ k i f s o s', W k s (.call i f) → I s → H i s o s' → W k s' (f o) ∧ I s')
    (hstable : ∀ k i f s o s' j p, W k s (.call i f) → I s → H i s o s' → W j s p → W j s' p)
    (h : Steps (Step H) c ms c') (hW : ∀ k, W k c.state (c.prog k)) (hs : I c.state) :
    (∀ k, W k c'.state (c'.prog k)) ∧ I c'.state := by
  refine Steps.inv (I := fun c => (∀ k, W k c.state (c.prog k)) ∧ I c.state) (fun c m c' hc hl => ?_) h ⟨hW, hs⟩
  obtain ⟨hW, hs⟩ := hc
  cases hl with
  | @call k i f o s hp hH =>
    have hcall : W k c.state (.call i f) := hp ▸ hW k
    obtain ⟨hf, hs'⟩ := hI k i f c.state o s hcall hs hH
    refine ⟨fun j => ?_, hs'⟩
    by_cases hj : j = k
    · subst hj
      simpa using hf
    · change W j s (Function.update c.prog k (f o) j)
      rw [Function.update_of_ne hj]
      exact hstable k i f c.state o s j _ hcall hs hH (hW j)

/-- Erase the programs outside `K`: related states stay related, and the others
make the same calls, with the same answers, in the same order. -/
theorem erased {R : σ → σ → Prop} (K : κ → Bool)
    (hgone : ∀ k i f s o s' t, K k = false → V k (.call i f) → R s t → H i s o s' → V k (f o) ∧ R s' t)
    (hkept : ∀ k i f s o s' t, K k = true → V k (.call i f) → R s t → H i s o s' → V k (f o) ∧
    ∃ t', H i t o t' ∧ R s' t')
    (h : Steps (Step H) c ms c') (hV : ∀ k, V k (c.prog k)) (hsame : ∀ k, K k = true → d.prog k = c.prog k)
    (hR : R c.state d.state) : ∃ d', Steps (Step H) d (ms.filter (fun m => K m.who)) d' ∧
      (∀ k, K k = true → d'.prog k = c'.prog k) ∧ R c'.state d'.state ∧ ∀ k, V k (c'.prog k) := by
  induction h with
  | nil => exact ⟨d, .nil, hsame, hR, hV⟩
  | @snoc ms c₁ m c₂ _ hl ih =>
    obtain ⟨d', hd, hsame, hR, hV⟩ := ih
    rw [List.filter_append]
    cases hl with
    | @call k i f o s hp hH =>
      have hcall : V k (.call i f) := hp ▸ hV k
      cases hk : K k with
      | false =>
        obtain ⟨hf, hR'⟩ := hgone k i f c₁.state o s d'.state hk hcall hR hH
        rw [List.filter_cons_of_neg (by simp [hk]), List.filter_nil, List.append_nil]
        refine ⟨d', hd, fun j hj => ?_, hR', update_kept hV hf⟩
        have hne : j ≠ k := by
          rintro rfl
          rw [hk] at hj
          cases hj
        rw [hsame j hj]
        exact (Function.update_of_ne hne _ _).symm
      | true =>
        obtain ⟨hf, t', hH', hR'⟩ := hkept k i f c₁.state o s d'.state hk hcall hR hH
        rw [List.filter_cons_of_pos (by simp [hk]), List.filter_nil]
        refine ⟨_, .snoc hd (.call ((hsame k hk).trans hp) hH'), fun j hj => ?_, hR', update_kept hV hf⟩
        by_cases hjk : j = k
        · subst hjk
          simp only [Function.update_self]
        · exact (Function.update_of_ne hjk _ _).trans ((hsame j hj).trans (Function.update_of_ne hjk _ _).symm)

/-- The program and the state after the next `n` calls of the program. -/
def after (h : (i : ι) → σ → ο i × σ) : Nat → Prog ι ο ε α → σ → Prog ι ο ε α × σ
  | 0, p, s => (p, s)
  | _ + 1, .ret a, s => (.ret a, s)
  | _ + 1, .raise e, s => (.raise e, s)
  | n + 1, .call i k, s => after h n (k (h i s).1) (h i s).2

/-- The program `t.1` makes its next `t.2` calls. -/
def turn (h : (i : ι) → σ → ο i × σ) (c : Pool κ ι ο ε α σ) (t : κ × Nat) : Pool κ ι ο ε α σ :=
  ⟨Function.update c.prog t.1 (after h t.2 (c.prog t.1) c.state).1, (after h t.2 (c.prog t.1) c.state).2⟩

/-- One turn after the other. -/
def play (h : (i : ι) → σ → ο i × σ) (c : Pool κ ι ο ε α σ) (ts : List (κ × Nat)) : Pool κ ι ο ε α σ :=
  ts.foldl (turn h) c

section Play
variable {h : (i : ι) → σ → ο i × σ} {J : σ → Prop}

/-- Who makes no more calls leaves everything as it is. -/
theorem turn_idle {t : κ × Nat} (ht : after h t.2 (c.prog t.1) c.state = (c.prog t.1, c.state)) (hJ : J c.state) :
    (∃ ms, Steps (Step H) c ms (turn h c t)) ∧ J (turn h c t).state := by
  rw [turn, ht, Function.update_eq_self]
  exact ⟨⟨[], .nil⟩, hJ⟩

variable (hH : ∀ i s, J s → H i s (h i s).1 (h i s).2 ∧ J (h i s).2)
include hH

theorem turn_steps (k : κ) (n : Nat) (hJ : J c.state) :
    (∃ ms, Steps (Step H) c ms (turn h c (k, n))) ∧ J (turn h c (k, n)).state := by
  induction n generalizing c with
  | zero => exact turn_idle (by simp [after]) hJ
  | succ n ih =>
    cases hp : c.prog k with
    | ret a => exact turn_idle (by simp [hp, after]) hJ
    | raise e => exact turn_idle (by simp [hp, after]) hJ
    | call i f =>
      obtain ⟨hcall, hJ'⟩ := hH i c.state hJ
      obtain ⟨⟨ms, hms⟩, hend⟩ := ih (c := ⟨Function.update c.prog k (f (h i c.state).1), (h i c.state).2⟩) hJ'
      have hturn : turn h ⟨Function.update c.prog k (f (h i c.state).1), (h i c.state).2⟩ (k, n) =
          turn h c (k, n + 1) := by
        simp [turn, hp, after]
      rw [hturn] at hms hend
      exact ⟨⟨_, .append (.snoc .nil (.call hp hcall)) hms⟩, hend⟩

/-- Any schedule is a run. -/
theorem play_steps {ts : List (κ × Nat)} (hJ : J c.state) : ∃ ms, Steps (Step H) c ms (play h c ts) := by
  induction ts generalizing c with
  | nil => exact ⟨[], .nil⟩
  | cons t ts ih =>
    obtain ⟨⟨ms, hms⟩, hJ'⟩ := turn_steps hH t.1 t.2 hJ
    obtain ⟨ms', hms'⟩ := ih hJ'
    exact ⟨_, hms.append hms'⟩

end Play

end Pool

namespace Prog

variable {ι : Type} {ο : ι → Type} {ε α β : Type}

theorem Guards.of_only {B C : ι → Prop} {Q : α → Prop} {p : Prog ι ο ε α}
    (hp : p.Only (fun _ _ => True) (fun i => ¬ C i) Q) : p.Guards B C := by
  induction p with
  | ret a => exact .ret
  | raise e => exact .raise
  | call i k ih =>
    obtain ⟨hi, hk⟩ := hp.of_call
    exact .call hi (fun o => ih o (hk o trivial))

/-- While answers are of the kind `A` describes, only errors in `E` are raised. -/
def Throws (A : (i : ι) → ο i → Prop) (E : ε → Prop) : Prog ι ο ε α → Prop
  | ret _ => True
  | raise e => E e
  | call i k => ∀ o, A i o → (k o).Throws A E

variable {A : (i : ι) → ο i → Prop} {E : ε → Prop}

theorem Throws.ret {a : α} : (Prog.ret a : Prog ι ο ε α).Throws A E := trivial

theorem Throws.raise {e : ε} (h : E e) : (Prog.raise e : Prog ι ο ε α).Throws A E := h

theorem Throws.of_raise {e : ε} (hp : (Prog.raise e : Prog ι ο ε α).Throws A E) : E e := hp

theorem Throws.of_call {i : ι} {k : ο i → Prog ι ο ε α} (hp : (Prog.call i k).Throws A E) :
    ∀ o, A i o → (k o).Throws A E :=
  hp

theorem Raises.throws {p : Prog ι ο ε α} (hp : p.Raises E) : p.Throws A E := by
  induction p with
  | ret a => exact .ret
  | raise e => exact .raise hp.of_raise
  | call i k ih => exact fun o _ => ih o (hp.of_call o)

theorem Throws.bind {p : Prog ι ο ε α} {f : α → Prog ι ο ε β} (hp : p.Throws A E) (hf : ∀ a, (f a).Throws A E) :
    (p >>= f).Throws A E := by
  induction p with
  | ret a => exact hf a
  | raise e => exact hp
  | call i k ih => exact fun o ho => ih o (hp o ho)

theorem Throws.map {p : Prog ι ο ε α} (f : α → β) (hp : p.Throws A E) : (f <$> p).Throws A E := by
  rw [map_eq_pure_bind]
  exact hp.bind (fun _ => .ret)

/-- One call and then the rest. -/
theorem Throws.next {i : ι} {f : ο i → Prog ι ο ε β} (hf : ∀ o, A i o → (f o).Throws A E) :
    ((Prog.call i .ret : Prog ι ο ε (ο i)) >>= f).Throws A E := hf

end Prog
