import Mathlib.Logic.Function.Basic
/-!
# Programs as trees of calls

A program returns, raises, or makes a call and goes on with the answer. What a
call does is left to a handler over some state, so one program can be run to
its end, stopped after any of its calls, or interleaved with another
(`Interleave.lean`).

Rules: `Only` bounds the calls a program can make while its answers are of an
expected kind. `Only.run_inv` and `Only.reaches_inv` turn that into an
invariant of the state, `Only.run_agree` into agreement of two runs. `Along`
bounds the calls of one run by the states they meet.
-/

/-- A program over calls `ι` answered in `ο`, raising `ε` or returning `α`. -/
inductive Prog (ι : Type) (ο : ι → Type) (ε α : Type) : Type where
  | ret (a : α)
  | raise (e : ε)
  | call (i : ι) (k : ο i → Prog ι ο ε α)

namespace Prog

variable {ι : Type} {ο : ι → Type} {ε α β σ : Type}

/-- Sequencing; a raised error skips the rest. -/
def bind : Prog ι ο ε α → (α → Prog ι ο ε β) → Prog ι ο ε β
  | ret a, f => f a
  | raise e, _ => raise e
  | call i k, f => call i (fun o => (k o).bind f)

instance : Monad (Prog ι ο ε) where
  pure := ret
  bind := bind

@[simp] theorem pure_eq (a : α) : (pure a : Prog ι ο ε α) = ret a := rfl
@[simp] theorem ret_bind (a : α) (f : α → Prog ι ο ε β) : (ret a : Prog ι ο ε α) >>= f = f a := rfl
@[simp] theorem raise_bind (e : ε) (f : α → Prog ι ο ε β) : (raise e : Prog ι ο ε α) >>= f = raise e := rfl
@[simp] theorem call_bind (i : ι) (k : ο i → Prog ι ο ε α) (f : α → Prog ι ο ε β) :
    call i k >>= f = call i (fun o => k o >>= f) := rfl

instance : LawfulMonad (Prog ι ο ε) := LawfulMonad.mk' _
  (by
    intro α p
    show p.bind (fun a => ret a) = p
    induction p with
    | ret a => rfl
    | raise e => rfl
    | call i k ih => simp only [bind]; congr 1; funext o; exact ih o)
  (fun _ _ => rfl)
  (by
    intro α β γ p f g
    show (p.bind f).bind g = p.bind (fun a => (f a).bind g)
    induction p with
    | ret a => rfl
    | raise e => rfl
    | call i k ih => simp only [bind]; congr 1; funext o; exact ih o)

/-- The program makes a call next. -/
def calls : Prog ι ο ε α → Bool
  | call _ _ => true
  | _ => false

/-! ## Runs -/

section Run
variable (h : (i : ι) → σ → ο i × σ)

/-- Run to the end. -/
def run : Prog ι ο ε α → σ → Except ε α × σ
  | ret a, s => (.ok a, s)
  | raise e, s => (.error e, s)
  | call i k, s => (k (h i s).1).run (h i s).2

@[simp] theorem run_ret (a : α) (s : σ) : (ret a : Prog ι ο ε α).run h s = (.ok a, s) := rfl
@[simp] theorem run_raise (e : ε) (s : σ) : (raise e : Prog ι ο ε α).run h s = (.error e, s) := rfl
@[simp] theorem run_call (i : ι) (k : ο i → Prog ι ο ε α) (s : σ) :
    (call i k).run h s = (k (h i s).1).run h (h i s).2 := rfl

theorem run_bind (p : Prog ι ο ε α) (f : α → Prog ι ο ε β) (s : σ) :
    (p >>= f).run h s = match p.run h s with
      | (.ok a, s') => (f a).run h s'
      | (.error e, s') => (.error e, s') := by
  induction p generalizing s with
  | ret a => rfl
  | raise e => rfl
  | call i k ih => exact ih _ _

theorem run_bind_ok {p : Prog ι ο ε α} {f : α → Prog ι ο ε β} {s s' : σ} {a : α} (hp : p.run h s = (.ok a, s')) :
    (p >>= f).run h s = (f a).run h s' := by
  rw [run_bind, hp]

theorem run_bind_error {p : Prog ι ο ε α} {f : α → Prog ι ο ε β} {s s' : σ} {e : ε}
    (hp : p.run h s = (.error e, s')) : (p >>= f).run h s = (.error e, s') := by
  rw [run_bind, hp]

/-- What every call keeps, every run keeps. -/
theorem run_inv {I : σ → Prop} (hI : ∀ i s, I s → I (h i s).2) (p : Prog ι ο ε α) {s : σ} (hs : I s) :
    I (p.run h s).2 := by
  induction p generalizing s with
  | ret a => exact hs
  | raise e => exact hs
  | call i k ih => exact ih _ (hI i s hs)

/-- `s'` is the state after some number of the calls `p` makes from `s`: all of
them, or those before an exception from outside stopped it. -/
inductive Reaches : Prog ι ο ε α → σ → σ → Prop
  | here {p s} : Reaches p s s
  | call {i k s s'} : Reaches (k (h i s).1) (h i s).2 s' → Reaches (call i k) s s'

/-- The state after the first `n` calls. -/
def cut : Nat → Prog ι ο ε α → σ → σ
  | n + 1, call i k, s => cut n (k (h i s).1) (h i s).2
  | _, _, s => s

variable {h}

theorem reaches_run (p : Prog ι ο ε α) (s : σ) : Reaches h p s (p.run h s).2 := by
  induction p generalizing s with
  | ret a => exact .here
  | raise e => exact .here
  | call i k ih => exact .call (ih _ _)

theorem reaches_cut (n : Nat) (p : Prog ι ο ε α) (s : σ) : Reaches h p s (cut h n p s) := by
  induction n generalizing p s with
  | zero => cases p <;> exact .here
  | succ n ih =>
    cases p with
    | call i k => exact .call (ih _ _)
    | _ => exact .here

/-- A sequence stopped part-way was stopped in its first part or its second. -/
theorem Reaches.of_bind {p : Prog ι ο ε α} {f : α → Prog ι ο ε β} {s s'' : σ} (hr : Reaches h (p >>= f) s s'') :
    Reaches h p s s'' ∨ ∃ a s', p.run h s = (.ok a, s') ∧ Reaches h (f a) s' s'' := by
  induction p generalizing s with
  | ret a => exact .inr ⟨a, s, rfl, hr⟩
  | raise e => cases hr; exact .inl .here
  | call i k ih =>
    cases hr with
    | here => exact .inl .here
    | call hr =>
      rcases ih _ hr with hp | ⟨a, s', hp, hf⟩
      · exact .inl (.call hp)
      · exact .inr ⟨a, s', hp, hf⟩

theorem Reaches.of_call {i : ι} {k : ο i → Prog ι ο ε α} {s s' : σ} (hr : Reaches h (Prog.call i k) s s') :
    s' = s ∨ Reaches h (k (h i s).1) (h i s).2 s' := by
  cases hr with
  | here => exact .inl rfl
  | call hr => exact .inr hr

end Run

/-! ## The calls a program can make -/

section Only
variable (A : (i : ι) → ο i → Prop) (P : ι → Prop)

/-- While answers are of the kind `A` describes, every call is one `P` allows
and a returned value satisfies `Q`. -/
def Only (Q : α → Prop) : Prog ι ο ε α → Prop
  | ret a => Q a
  | raise _ => True
  | call i k => P i ∧ ∀ o, A i o → (k o).Only Q

variable {A P}

theorem Only.ret {Q : α → Prop} {a : α} (hq : Q a) : (Prog.ret a : Prog ι ο ε α).Only A P Q := hq

theorem Only.pure {Q : α → Prop} {a : α} (hq : Q a) : (Pure.pure a : Prog ι ο ε α).Only A P Q := hq

theorem Only.raise {Q : α → Prop} {e : ε} : (Prog.raise e : Prog ι ο ε α).Only A P Q := trivial

theorem Only.call {Q : α → Prop} {i : ι} {k : ο i → Prog ι ο ε α} (h : P i) (hk : ∀ o, A i o → (k o).Only A P Q) :
    (Prog.call i k).Only A P Q := ⟨h, hk⟩

theorem Only.bind {Q : β → Prop} {p : Prog ι ο ε α} {f : α → Prog ι ο ε β}
    (hp : p.Only A P (fun a => (f a).Only A P Q)) : (p >>= f).Only A P Q := by
  induction p with
  | ret a => exact hp
  | raise e => trivial
  | call i k ih => exact ⟨hp.1, fun o ho => ih o (hp.2 o ho)⟩

theorem Only.mono {P' : ι → Prop} {Q Q' : α → Prop} {p : Prog ι ο ε α} (hp : p.Only A P Q)
    (hP : ∀ i, P i → P' i) (hQ : ∀ a, Q a → Q' a) : p.Only A P' Q' := by
  induction p with
  | ret a => exact hQ a hp
  | raise e => trivial
  | call i k ih => exact ⟨hP i hp.1, fun o ho => ih o (hp.2 o ho)⟩

/-- Two bounds hold together. -/
theorem Only.and {P' : ι → Prop} {Q Q' : α → Prop} {p : Prog ι ο ε α} (hp : p.Only A P Q) (hp' : p.Only A P' Q') :
    p.Only A (fun i => P i ∧ P' i) (fun a => Q a ∧ Q' a) := by
  induction p with
  | ret a => exact ⟨hp, hp'⟩
  | raise e => trivial
  | call i k ih => exact ⟨⟨hp.1, hp'.1⟩, fun o ho => ih o (hp.2 o ho) (hp'.2 o ho)⟩

/-- Nothing is asked of the calls or of what is returned. -/
theorem Only.top (p : Prog ι ο ε α) : p.Only A (fun _ => True) (fun _ => True) := by
  induction p with
  | ret a => exact .ret trivial
  | raise e => exact .raise
  | call i k ih => exact .call trivial (fun o _ => ih o)

/-- Fewer answers to expect. -/
theorem Only.of_answers {A' : (i : ι) → ο i → Prop} {Q : α → Prop} {p : Prog ι ο ε α} (hp : p.Only A P Q)
    (hA : ∀ i o, A' i o → A i o) : p.Only A' P Q := by
  induction p with
  | ret a => exact hp
  | raise e => trivial
  | call i k ih => exact ⟨hp.1, fun o ho => ih o (hp.2 o (hA i o ho))⟩

/-- The two halves of a sequence, with `R` in between. -/
theorem Only.seq {R : α → Prop} {Q : β → Prop} {p : Prog ι ο ε α} {f : α → Prog ι ο ε β}
    (hp : p.Only A P R) (hf : ∀ a, R a → (f a).Only A P Q) : (p >>= f).Only A P Q :=
  .bind (hp.mono (fun _ => id) hf)

theorem Only.map {Q : β → Prop} {p : Prog ι ο ε α} (f : α → β) (hp : p.Only A P (fun a => Q (f a))) :
    (f <$> p).Only A P Q := by
  rw [map_eq_pure_bind]
  exact .bind hp

variable {h : (i : ι) → σ → ο i × σ} {I : σ → Prop}

/-- Calls that keep `I` and, from `I`, are answered as expected: a run keeps `I`. -/
theorem Only.run_inv {Q : α → Prop} {p : Prog ι ο ε α} (hp : p.Only A P Q)
    (hI : ∀ i s, P i → I s → A i (h i s).1 ∧ I (h i s).2) {s : σ} (hs : I s) :
    I (p.run h s).2 ∧ ∀ a, (p.run h s).1 = .ok a → Q a := by
  induction p generalizing s with
  | ret a => exact ⟨hs, fun _ ha => by cases ha; exact hp⟩
  | raise e => exact ⟨hs, fun _ ha => by cases ha⟩
  | call i k ih =>
    obtain ⟨ha, hs'⟩ := hI i s hp.1 hs
    exact ih _ (hp.2 _ ha) hs'

/-- As `run_inv`, up to the first call after which `E` holds for good. -/
theorem Only.run_inv_or {Q : α → Prop} {E : σ → Prop} {p : Prog ι ο ε α} (hp : p.Only A P Q)
    (hE : ∀ i s, E s → E (h i s).2) (hI : ∀ i s, P i → I s → E (h i s).2 ∨ A i (h i s).1 ∧ I (h i s).2) {s : σ}
    (hs : I s) : E (p.run h s).2 ∨ I (p.run h s).2 := by
  induction p generalizing s with
  | ret a => exact .inr hs
  | raise e => exact .inr hs
  | call i k ih =>
    rcases hI i s hp.1 hs with he | ⟨ha, hs'⟩
    · exact .inl (Prog.run_inv h hE (k (h i s).1) he)
    · exact ih _ (hp.2 _ ha) hs'

/-- ... and so does a run stopped anywhere. -/
theorem Only.reaches_inv {Q : α → Prop} {p : Prog ι ο ε α} (hp : p.Only A P Q)
    (hI : ∀ i s, P i → I s → A i (h i s).1 ∧ I (h i s).2) {s s' : σ} (hs : I s) (hr : Reaches h p s s') : I s' := by
  induction p generalizing s with
  | ret a => cases hr; exact hs
  | raise e => cases hr; exact hs
  | call i k ih =>
    obtain ⟨ha, hs'⟩ := hI i s hp.1 hs
    cases hr with
    | here => exact hs
    | call hr => exact ih _ (hp.2 _ ha) hs' hr

/-- Two handlers that answer every allowed call alike run the program alike. -/
theorem Only.run_eq {Q : α → Prop} {h' : (i : ι) → σ → ο i × σ} {p : Prog ι ο ε α} (hp : p.Only (fun _ _ => True) P Q)
    (hh : ∀ i s, P i → h i s = h' i s) (s : σ) : p.run h s = p.run h' s := by
  induction p generalizing s with
  | ret a => rfl
  | raise e => rfl
  | call i k ih =>
    simp only [run_call]
    rw [hh i s hp.1]
    exact ih _ (hp.2 _ trivial) _

/-- Two states that answer every allowed call alike give one result, and the
states stay related. -/
theorem Only.run_agree {Q : α → Prop} {R : σ → σ → Prop} {p : Prog ι ο ε α} (hp : p.Only A P Q)
    (hR : ∀ i s t, P i → R s t → A i (h i s).1 ∧ (h i s).1 = (h i t).1 ∧ R (h i s).2 (h i t).2) {s t : σ}
    (hst : R s t) : (p.run h s).1 = (p.run h t).1 ∧ R (p.run h s).2 (p.run h t).2 := by
  induction p generalizing s t with
  | ret a => exact ⟨rfl, hst⟩
  | raise e => exact ⟨rfl, hst⟩
  | call i k ih =>
    obtain ⟨ha, he, hst'⟩ := hR i s t hp.1 hst
    simp only [run_call]
    rw [← he]
    exact ih _ (hp.2 _ ha) hst'

/-! ## Stopping anywhere -/

/-- `I` holds wherever a run of `p` from `s` may be stopped. -/
def Stays (h : (i : ι) → σ → ο i × σ) (I : σ → Prop) (p : Prog ι ο ε α) (s : σ) : Prop := ∀ s', Reaches h p s s' → I s'

theorem Stays.ret {a : α} {s : σ} (hs : I s) : (Prog.ret a : Prog ι ο ε α).Stays h I s := fun _ hr => by
  cases hr
  exact hs

theorem Stays.call {i : ι} {k : ο i → Prog ι ο ε α} {s : σ} (hs : I s) (hk : (k (h i s).1).Stays h I (h i s).2) :
    (Prog.call i k).Stays h I s := by
  intro s' hr
  rcases hr.of_call with rfl | hr
  · exact hs
  · exact hk s' hr

theorem Stays.bind {p : Prog ι ο ε α} {f : α → Prog ι ο ε β} {s : σ} (hp : p.Stays h I s)
    (hf : ∀ a s', p.run h s = (.ok a, s') → I s' → (f a).Stays h I s') : (p >>= f).Stays h I s := by
  intro s'' hr
  rcases hr.of_bind with hr | ⟨a, s', hrun, hr⟩
  · exact hp s'' hr
  · have hs' := hp _ (reaches_run p s)
    rw [hrun] at hs'
    exact hf a s' hrun hs' s'' hr

theorem Stays.map {p : Prog ι ο ε α} {s : σ} (f : α → β) (hp : p.Stays h I s) : (f <$> p).Stays h I s := by
  rw [map_eq_pure_bind]
  exact hp.bind (fun _ _ _ hs' => .ret hs')

theorem Stays.of_only {Q : α → Prop} {p : Prog ι ο ε α} (hp : p.Only A P Q)
    (hI : ∀ i s, P i → I s → A i (h i s).1 ∧ I (h i s).2) {s : σ} (hs : I s) : p.Stays h I s :=
  fun _ hr => hp.reaches_inv hI hs hr

theorem Only.of_ret {Q : α → Prop} {a : α} (hp : (Prog.ret a : Prog ι ο ε α).Only A P Q) : Q a := hp

theorem Only.of_call {Q : α → Prop} {i : ι} {k : ο i → Prog ι ο ε α} (hp : (Prog.call i k).Only A P Q) :
    P i ∧ ∀ o, A i o → (k o).Only A P Q := hp

end Only

/-! ## Calls and the states they meet -/

/-- A run of `p` from `s` makes the call `j` in the state `s'`. -/
inductive Makes (h : (i : ι) → σ → ο i × σ) : Prog ι ο ε α → σ → ι → σ → Prop
  | here {i k s} : Makes h (call i k) s i s
  | later {i k s j s'} : Makes h (k (h i s).1) (h i s).2 j s' → Makes h (call i k) s j s'

/-- Run from `s`, each call is one `P` allows in the state it meets, and a
returned value satisfies `Q` together with the state it leaves. -/
def Along (h : (i : ι) → σ → ο i × σ) (P : σ → ι → Prop) (Q : α → σ → Prop) : Prog ι ο ε α → σ → Prop
  | ret a, s => Q a s
  | raise _, _ => True
  | call i k, s => P s i ∧ (k (h i s).1).Along h P Q (h i s).2

section Along
variable {h : (i : ι) → σ → ο i × σ} {P : σ → ι → Prop} {Q : α → σ → Prop} {s : σ}

theorem Along.ret {a : α} (hq : Q a s) : (Prog.ret a : Prog ι ο ε α).Along h P Q s := hq

theorem Along.pure {a : α} (hq : Q a s) : (Pure.pure a : Prog ι ο ε α).Along h P Q s := hq

theorem Along.raise {e : ε} : (Prog.raise e : Prog ι ο ε α).Along h P Q s := trivial

/-- One call and then the rest. -/
theorem Along.next {i : ι} {f : ο i → Prog ι ο ε α} (hi : P s i) (hf : (f (h i s).1).Along h P Q (h i s).2) :
    ((Prog.call i .ret : Prog ι ο ε (ο i)) >>= f).Along h P Q s := ⟨hi, hf⟩

theorem Along.seq {R : β → σ → Prop} {p : Prog ι ο ε β} {f : β → Prog ι ο ε α} (hp : p.Along h P R s)
    (hf : ∀ b s', R b s' → (f b).Along h P Q s') : (p >>= f).Along h P Q s := by
  induction p generalizing s with
  | ret b => exact hf b s hp
  | raise e => exact .raise
  | call i k ih => exact ⟨hp.1, ih _ hp.2⟩

theorem Along.mono {Q' : α → σ → Prop} {p : Prog ι ο ε α} (hp : p.Along h P Q s) (hq : ∀ a s', Q a s' → Q' a s') :
    p.Along h P Q' s := by
  induction p generalizing s with
  | ret a => exact hq a s hp
  | raise e => exact .raise
  | call i k ih => exact ⟨hp.1, ih _ hp.2⟩

/-- A part whose calls keep `I`. -/
theorem Along.of_only {I : σ → Prop} {C : ι → Prop} {R : α → Prop} {p : Prog ι ο ε α}
    (hp : p.Only (fun _ _ => True) C R) (hI : ∀ i s, C i → I s → P s i ∧ I (h i s).2) (hs : I s) :
    p.Along h P (fun a s' => R a ∧ I s') s := by
  induction p generalizing s with
  | ret a => exact ⟨hp, hs⟩
  | raise e => exact .raise
  | call i k ih =>
    obtain ⟨hi, hk⟩ := hp.of_call
    exact ⟨(hI i s hi hs).1, ih _ (hk _ trivial) (hI i s hi hs).2⟩

/-- A part whose calls are allowed in any state, with what it came to. -/
theorem Along.of_run {C : ι → Prop} {R : α → Prop} {p : Prog ι ο ε α} (hp : p.Only (fun _ _ => True) C R)
    (hC : ∀ i s, C i → P s i) (s : σ) : p.Along h P (fun a s' => p.run h s = (.ok a, s')) s := by
  induction p generalizing s with
  | ret a => exact rfl
  | raise e => exact .raise
  | call i k ih =>
    obtain ⟨hi, hk⟩ := hp.of_call
    exact ⟨hC i s hi, ih _ (hk _ trivial) _⟩

theorem Along.allowed {P' : σ → ι → Prop} {p : Prog ι ο ε α} (hp : p.Along h P Q s) (hP : ∀ s i, P s i → P' s i) :
    p.Along h P' Q s := by
  induction p generalizing s with
  | ret a => exact hp
  | raise e => exact .raise
  | call i k ih => exact ⟨hP _ _ hp.1, ih _ hp.2⟩

theorem Along.with_run {p : Prog ι ο ε α} (hp : p.Along h P Q s) :
    p.Along h P (fun a s' => Q a s' ∧ p.run h s = (.ok a, s')) s := by
  induction p generalizing s with
  | ret a => exact ⟨hp, rfl⟩
  | raise e => exact .raise
  | call i k ih => exact ⟨hp.1, ih _ hp.2⟩

theorem Along.makes {p : Prog ι ο ε α} (hp : p.Along h P Q s) {i : ι} {s' : σ} (hm : Makes h p s i s') : P s' i := by
  induction hm with
  | here => exact hp.1
  | later _ ih => exact ih hp.2

theorem Along.run {p : Prog ι ο ε α} (hp : p.Along h P Q s) {a : α} {s' : σ} (hr : p.run h s = (.ok a, s')) :
    Q a s' := by
  induction p generalizing s with
  | ret b =>
    cases hr
    exact hp
  | raise e => cases hr
  | call i k ih => exact ih _ hp.2 hr

end Along

/-! ## Errors -/

/-- Whatever it is answered, the program raises only errors in `E`. -/
def Raises (E : ε → Prop) : Prog ι ο ε α → Prop
  | ret _ => True
  | raise e => E e
  | call _ k => ∀ o, (k o).Raises E

section Raises
variable {E : ε → Prop}

theorem Raises.ret {a : α} : (Prog.ret a : Prog ι ο ε α).Raises E := trivial

theorem Raises.pure {a : α} : (Pure.pure a : Prog ι ο ε α).Raises E := trivial

theorem Raises.raise {e : ε} (h : E e) : (Prog.raise e : Prog ι ο ε α).Raises E := h

theorem Raises.call {i : ι} {k : ο i → Prog ι ο ε α} (hk : ∀ o, (k o).Raises E) : (Prog.call i k).Raises E := hk

theorem Raises.of_raise {e : ε} (hp : (Prog.raise e : Prog ι ο ε α).Raises E) : E e := hp

theorem Raises.of_call {i : ι} {k : ο i → Prog ι ο ε α} (hp : (Prog.call i k).Raises E) : ∀ o, (k o).Raises E := hp

/-- One call and then the rest. -/
theorem Raises.next {i : ι} {f : ο i → Prog ι ο ε α} (hf : ∀ o, (f o).Raises E) :
    ((Prog.call i .ret : Prog ι ο ε (ο i)) >>= f).Raises E := hf

theorem Raises.bind {p : Prog ι ο ε α} {f : α → Prog ι ο ε β} (hp : p.Raises E) (hf : ∀ a, (f a).Raises E) :
    (p >>= f).Raises E := by
  induction p with
  | ret a => exact hf a
  | raise e => exact hp
  | call i k ih => exact fun o => ih o (hp o)

theorem Raises.mono {E' : ε → Prop} {p : Prog ι ο ε α} (hp : p.Raises E) (hE : ∀ e, E e → E' e) : p.Raises E' := by
  induction p with
  | ret a => exact .ret
  | raise e => exact hE e hp
  | call i k ih => exact fun o => ih o (hp o)

/-- A program that raises nothing returns. -/
theorem Raises.returns {h : (i : ι) → σ → ο i × σ} {p : Prog ι ο ε α} (hp : p.Raises (fun _ => False)) (s : σ) :
    ∃ a s', p.run h s = (.ok a, s') := by
  induction p generalizing s with
  | ret a => exact ⟨a, s, rfl⟩
  | raise e => exact hp.elim
  | call i k ih => exact ih _ (hp _) _

theorem Raises.run {h : (i : ι) → σ → ο i × σ} {p : Prog ι ο ε α} (hp : p.Raises E) {s : σ} {e : ε}
    (he : (p.run h s).1 = .error e) : E e := by
  induction p generalizing s with
  | ret a => cases he
  | raise e' =>
    cases he
    exact hp
  | call i k ih => exact ih _ (hp _) he

end Raises

/-! ## One call before another -/

/-- No call in `C` is made before the first in `B`. -/
def Guards (B C : ι → Prop) : Prog ι ο ε α → Prop
  | ret _ => True
  | raise _ => True
  | call i k => B i ∨ (¬ C i ∧ ∀ o, (k o).Guards B C)

section Guards
variable {B C : ι → Prop}

theorem Guards.ret {a : α} : (Prog.ret a : Prog ι ο ε α).Guards B C := trivial

theorem Guards.pure {a : α} : (Pure.pure a : Prog ι ο ε α).Guards B C := trivial

theorem Guards.raise {e : ε} : (Prog.raise e : Prog ι ο ε α).Guards B C := trivial

theorem Guards.first {i : ι} {k : ο i → Prog ι ο ε α} (h : B i) : (Prog.call i k).Guards B C := .inl h

theorem Guards.call {i : ι} {k : ο i → Prog ι ο ε α} (h : ¬ C i) (hk : ∀ o, (k o).Guards B C) :
    (Prog.call i k).Guards B C := .inr ⟨h, hk⟩

theorem Guards.of_call {i : ι} {k : ο i → Prog ι ο ε α} (hp : (Prog.call i k).Guards B C) :
    B i ∨ (¬ C i ∧ ∀ o, (k o).Guards B C) := hp

/-- A part that makes no call in `C` may come before. -/
theorem Guards.seq {R : α → Prop} {p : Prog ι ο ε α} {f : α → Prog ι ο ε β}
    (hp : p.Only (fun _ _ => True) (fun i => ¬ C i) R) (hf : ∀ a, R a → (f a).Guards B C) : (p >>= f).Guards B C := by
  induction p with
  | ret a => exact hf a hp
  | raise e => trivial
  | call i k ih => exact .inr ⟨hp.1, fun o => ih o (hp.2 o trivial)⟩

/-- What comes after does not matter if it needs no guard of its own. -/
theorem Guards.bind {p : Prog ι ο ε α} {f : α → Prog ι ο ε β} (hp : p.Guards B C) (hf : ∀ a, (f a).Guards B C) :
    (p >>= f).Guards B C := by
  induction p with
  | ret a => exact hf a
  | raise e => trivial
  | call i k ih =>
    rcases hp with hb | ⟨hc, hk⟩
    · exact .inl hb
    · exact .inr ⟨hc, fun o => ih o (hk o)⟩

theorem Guards.map {p : Prog ι ο ε α} (f : α → β) (hp : p.Guards B C) : (f <$> p).Guards B C := by
  rw [map_eq_pure_bind]
  exact hp.bind (fun _ => .ret)

end Guards

/-! ## Programs with ghost state -/

/-- Along `p`, a ghost state accounts for its calls: in the state `t` each call
is one `P t` allows, and for every answer of the kind `A t` there is a next
state that `N t` allows. A raised error leaves a state in `E`, a returned value
one in `Q`. -/
def Guided {τ : Type} (P : τ → ι → Prop) (A : τ → (i : ι) → ο i → Prop) (N : τ → (i : ι) → ο i → τ → Prop)
    (E : τ → Prop) (Q : τ → α → Prop) : τ → Prog ι ο ε α → Prop
  | t, ret a => Q t a
  | t, raise _ => E t
  | t, call i k => P t i ∧ ∀ o, A t i o → ∃ t', N t i o t' ∧ Guided P A N E Q t' (k o)

section Guided
variable {τ : Type} {P : τ → ι → Prop} {A : τ → (i : ι) → ο i → Prop} {N : τ → (i : ι) → ο i → τ → Prop}
  {E : τ → Prop} {t : τ}

theorem Guided.ret {Q : τ → α → Prop} {a : α} (h : Q t a) : Guided P A N E Q t (Prog.ret a : Prog ι ο ε α) := h

theorem Guided.pure {Q : τ → α → Prop} {a : α} (h : Q t a) : Guided P A N E Q t (Pure.pure a : Prog ι ο ε α) := h

theorem Guided.raise {Q : τ → α → Prop} {e : ε} (h : E t) : Guided P A N E Q t (Prog.raise e : Prog ι ο ε α) := h

theorem Guided.call {Q : τ → α → Prop} {i : ι} {k : ο i → Prog ι ο ε α} (h : P t i)
    (hk : ∀ o, A t i o → ∃ t', N t i o t' ∧ Guided P A N E Q t' (k o)) : Guided P A N E Q t (Prog.call i k) := ⟨h, hk⟩

theorem Guided.of_call {Q : τ → α → Prop} {i : ι} {k : ο i → Prog ι ο ε α} (h : Guided P A N E Q t (Prog.call i k)) :
    P t i ∧ ∀ o, A t i o → ∃ t', N t i o t' ∧ Guided P A N E Q t' (k o) := h

theorem Guided.seq {R : τ → α → Prop} {Q : τ → β → Prop} {p : Prog ι ο ε α} {f : α → Prog ι ο ε β}
    (hp : Guided P A N E R t p) (hf : ∀ t a, R t a → Guided P A N E Q t (f a)) : Guided P A N E Q t (p >>= f) := by
  induction p generalizing t with
  | ret a => exact hf t a hp
  | raise e => exact hp
  | call i k ih =>
    refine ⟨hp.1, fun o ho => ?_⟩
    obtain ⟨t', hn, hk⟩ := hp.2 o ho
    exact ⟨t', hn, ih o hk⟩

theorem Guided.mono {Q Q' : τ → α → Prop} {p : Prog ι ο ε α} (hp : Guided P A N E Q t p) (h : ∀ t a, Q t a → Q' t a) :
    Guided P A N E Q' t p := by
  induction p generalizing t with
  | ret a => exact h t a hp
  | raise e => exact hp
  | call i k ih =>
    refine ⟨hp.1, fun o ho => ?_⟩
    obtain ⟨t', hn, hk⟩ := hp.2 o ho
    exact ⟨t', hn, ih o hk⟩

theorem Guided.map {Q : τ → α → Prop} {p : Prog ι ο ε α} (f : α → β) {R : τ → β → Prop} (hp : Guided P A N E Q t p)
    (hf : ∀ t a, Q t a → R t (f a)) : Guided P A N E R t (f <$> p) := by
  rw [map_eq_pure_bind]
  exact hp.seq (fun t a ha => .pure (hf t a ha))

/-- At its end, nothing is left of a program but its result. -/
theorem Guided.ended {p : Prog ι ο ε α} {Q : τ → α → Prop} (hp : Guided P A N E Q t p) (h : p.calls = false) :
    E t ∨ ∃ a, Q t a := by
  cases p with
  | ret a => exact .inr ⟨a, hp⟩
  | raise e => exact .inl hp
  | call i k => cases h

/-- A part whose calls leave the ghost state as it is. -/
theorem Guided.of_only {A' : (i : ι) → ο i → Prop} {P' : ι → Prop} {Q : α → Prop} {p : Prog ι ο ε α}
    (hp : p.Only A' P' Q) (hP : ∀ i, P' i → P t i ∧ ∀ o, A t i o → A' i o ∧ N t i o t) (hE : E t) :
    Guided P A N E (fun t' a => t' = t ∧ Q a) t p := by
  induction p with
  | ret a => exact ⟨rfl, hp⟩
  | raise e => exact hE
  | call i k ih =>
    obtain ⟨hi, ho⟩ := hP i hp.1
    exact ⟨hi, fun o ha => ⟨t, (ho o ha).2, ih o (hp.2 o (ho o ha).1)⟩⟩

end Guided

-- The rules above say all about these; unfolding them would run the program.
attribute [irreducible] Only Along Raises Guided

end Prog
