import Engram.Lib.Program
import Mathlib.Logic.Relation
/-!
# Interleavings

Two programs run at once over one state, one call at a time, each side answered
by its own handler. A configuration
keeps the calls made so far, the latest first. A run may be bound to a
condition on each call, which can look at the past and at the state.
-/

namespace Interleave

inductive Side where
  | left | right
  deriving DecidableEq

variable {ι : Type} {ο : ι → Type} {ε α σ : Type}

structure Event (ι : Type) (ο : ι → Type) (σ : Type) where
  side : Side
  call : ι
  answer : ο call
  before : σ

structure Config (ι : Type) (ο : ι → Type) (ε α σ : Type) where
  past : List (Event ι ο σ)
  prog : Side → Prog ι ο ε α
  state : σ

/-- Before the first call. -/
def Config.start (prog : Side → Prog ι ο ε α) (s : σ) : Config ι ο ε α σ := ⟨[], prog, s⟩

/-- Both programs have returned or raised. -/
def Config.Finished (c : Config ι ο ε α σ) : Prop := (c.prog .left).calls = false ∧ (c.prog .right).calls = false

section Steps
variable (h : Side → (i : ι) → σ → ο i × σ)

/-- The configuration after `a` made the call `i`, with what it then does. -/
def Config.after (c : Config ι ο ε α σ) (a : Side) (i : ι) (k : ο i → Prog ι ο ε α) : Config ι ο ε α σ where
  past := ⟨a, i, (h a i c.state).1, c.state⟩ :: c.past
  prog := Function.update c.prog a (k (h a i c.state).1)
  state := (h a i c.state).2

variable (C : List (Event ι ο σ) → σ → Side → ι → Prop)

inductive Step : Config ι ο ε α σ → Config ι ο ε α σ → Prop
  | call {c a i k} (hp : c.prog a = .call i k) (hc : C c.past c.state a i) : Step c (c.after h a i k)

def Reach : Config ι ο ε α σ → Config ι ο ε α σ → Prop := Relation.ReflTransGen (Step h C)

/-- Run the sides in the given order. -/
def play : List Side → Config ι ο ε α σ → Config ι ο ε α σ
  | [], c => c
  | a :: as, c => match c.prog a with
    | .call i k => play as (c.after h a i k)
    | _ => play as c

variable {h C}

/-- What every step keeps, every run keeps. -/
theorem Reach.inv {I : Config ι ο ε α σ → Prop} (hI : ∀ c a i k, I c → c.prog a = .call i k → C c.past c.state a i →
    I (c.after h a i k)) {c c' : Config ι ο ε α σ} (hr : Reach h C c c') (hc : I c) : I c' := by
  induction hr with
  | refl => exact hc
  | tail _ hs ih =>
    cases hs with
    | call hp hcond => exact hI _ _ _ _ ih hp hcond

theorem Reach.mono {C' : List (Event ι ο σ) → σ → Side → ι → Prop} {c c' : Config ι ο ε α σ} (hr : Reach h C c c')
    (hC : ∀ past s a i, C past s a i → C' past s a i) : Reach h C' c c' := by
  induction hr with
  | refl => exact .refl
  | tail _ hs ih =>
    cases hs with
    | call hp hcond => exact .tail ih (.call hp (hC _ _ _ _ hcond))

/-- Playing in some order is a run, if every call on the way meets the condition. -/
def Meets (h : Side → (i : ι) → σ → ο i × σ) (C : List (Event ι ο σ) → σ → Side → ι → Prop) :
    List Side → Config ι ο ε α σ → Prop
  | [], _ => True
  | a :: as, c => match c.prog a with
    | .call i k => C c.past c.state a i ∧ Meets h C as (c.after h a i k)
    | _ => Meets h C as c

/-- `Meets`, computed. -/
def meets (h : Side → (i : ι) → σ → ο i × σ) (C : List (Event ι ο σ) → σ → Side → ι → Prop)
    [∀ past s a i, Decidable (C past s a i)] : List Side → Config ι ο ε α σ → Bool
  | [], _ => true
  | a :: as, c => match c.prog a with
    | .call i k => decide (C c.past c.state a i) && meets h C as (c.after h a i k)
    | _ => meets h C as c

theorem meets_iff [∀ past s a i, Decidable (C past s a i)] {as : List Side} {c : Config ι ο ε α σ} :
    meets h C as c = true ↔ Meets h C as c := by
  induction as generalizing c with
  | nil => simp [meets, Meets]
  | cons a as ih =>
    unfold meets Meets
    cases c.prog a with
    | call i k => simp [ih]
    | ret x => exact ih
    | raise e => exact ih

theorem meets_true (as : List Side) (c : Config ι ο ε α σ) : Meets h (fun _ _ _ _ => True) as c := by
  induction as generalizing c with
  | nil => trivial
  | cons a as ih =>
    unfold Meets
    split
    · exact ⟨trivial, ih _⟩
    · exact ih c

theorem reach_play {as : List Side} {c : Config ι ο ε α σ} (hm : Meets h C as c) : Reach h C c (play h as c) := by
  induction as generalizing c with
  | nil => exact .refl
  | cons a as ih =>
    unfold Meets at hm
    unfold play
    cases hp : c.prog a with
    | call i k =>
      simp only [hp] at hm
      exact .head (.call hp hm.1) (ih hm.2)
    | ret x =>
      simp only [hp] at hm
      exact ih hm
    | raise e =>
      simp only [hp] at hm
      exact ih hm

end Steps

/-! ## The calls of one side -/

section Sides
variable {h : Side → (i : ι) → σ → ο i × σ} {C : List (Event ι ο σ) → σ → Side → ι → Prop} {c c' : Config ι ο ε α σ}

theorem after_prog_self (c : Config ι ο ε α σ) (a : Side) (i : ι) (k : ο i → Prog ι ο ε α) :
    (c.after h a i k).prog a = k (h a i c.state).1 := Function.update_self _ _ _

theorem after_prog_of_ne (c : Config ι ο ε α σ) {a b : Side} (i : ι) (k : ο i → Prog ι ο ε α) (hb : b ≠ a) :
    (c.after h a i k).prog b = c.prog b := Function.update_of_ne hb _ _

/-- Answers so far are as expected: so are the calls, and what is still to come. -/
theorem Reach.only {A : (i : ι) → ο i → Prop} {P : ι → Prop} {Q : α → Prop} (hr : Reach h C c c') (a : Side)
    (hp : (c.prog a).Only A P Q) (hc : c.past = []) (hA : ∀ e ∈ c'.past, e.side = a → A e.call e.answer) :
    (c'.prog a).Only A P Q ∧ ∀ e ∈ c'.past, e.side = a → P e.call := by
  induction hr with
  | refl => exact ⟨hp, by simp [hc]⟩
  | tail _ hs ih =>
    cases hs with
    | @call b i k hd _ =>
      obtain ⟨ih, hcalls⟩ := ih (fun e he => hA e (List.mem_cons_of_mem _ he))
      by_cases hb : a = b
      · subst hb
        rw [hd] at ih
        obtain ⟨hi, hk⟩ := ih.of_call
        refine ⟨?_, fun e he hside => ?_⟩
        · rw [after_prog_self]
          exact hk _ (hA _ List.mem_cons_self rfl)
        · rcases List.mem_cons.1 he with rfl | he
          · exact hi
          · exact hcalls e he hside
      · refine ⟨?_, fun e he hside => ?_⟩
        · rw [after_prog_of_ne _ _ _ hb]
          exact ih
        · rcases List.mem_cons.1 he with rfl | he
          · exact absurd hside.symm hb
          · exact hcalls e he hside

/-- Calls that keep `I` and, from `I`, are answered as expected keep it in
every run, up to the first call after which `E` holds for good. -/
theorem Reach.only_inv_or {A : Side → (i : ι) → ο i → Prop} {P : Side → ι → Prop} {Q : Side → α → Prop} {E I : σ → Prop}
    (hE : ∀ a i s, E s → E (h a i s).2)
    (hI : ∀ a i s, P a i → I s → E (h a i s).2 ∨ A a i (h a i s).1 ∧ I (h a i s).2)
    (hr : Reach h C c c') (hp : ∀ a, (c.prog a).Only (A a) (P a) (Q a)) (hs : I c.state) :
    E c'.state ∨ (I c'.state ∧ (∀ a, (c'.prog a).Only (A a) (P a) (Q a)) ∧
      ∀ e ∈ c'.past, e ∈ c.past ∨ (P e.side e.call ∧ I e.before ∧ A e.side e.call e.answer)) := by
  induction hr with
  | refl => exact .inr ⟨hs, hp, fun e he => .inl he⟩
  | @tail d _ _ hs ih =>
    cases hs with
    | @call b i k hd _ =>
      rcases ih with he | ⟨hI', honly, hcalls⟩
      · exact .inl (hE b i _ he)
      · have hb := honly b
        rw [hd] at hb
        obtain ⟨hi, hk⟩ := hb.of_call
        -- Only the side that moved has a new program.
        rcases hI b i _ hi hI' with he | ⟨ha, hnext⟩
        · exact .inl he
        · refine .inr ⟨hnext, fun a => ?_, fun e he => ?_⟩
          · by_cases hab : a = b
            · subst hab
              rw [after_prog_self]
              exact hk _ ha
            · rw [after_prog_of_ne _ _ _ hab]
              exact honly a
          · rcases List.mem_cons.1 he with rfl | he
            · exact .inr ⟨hi, hI', ha⟩
            · exact hcalls e he

/-- ... or for all of the run. -/
theorem Reach.only_inv {A : Side → (i : ι) → ο i → Prop} {P : Side → ι → Prop} {Q : Side → α → Prop} {I : σ → Prop}
    (hI : ∀ a i s, P a i → I s → A a i (h a i s).1 ∧ I (h a i s).2) (hr : Reach h C c c')
    (hp : ∀ a, (c.prog a).Only (A a) (P a) (Q a)) (hs : I c.state) :
    I c'.state ∧ (∀ a, (c'.prog a).Only (A a) (P a) (Q a)) ∧
      ∀ e ∈ c'.past, e ∈ c.past ∨ (P e.side e.call ∧ I e.before ∧ A e.side e.call e.answer) :=
  (hr.only_inv_or (E := fun _ => False) (fun _ _ _ => id)
    (fun a i s hi hs => .inr (hI a i s hi hs)) hp hs).resolve_left id

theorem Reach.answer (hr : Reach h C c c') (hc : c.past = []) :
    ∀ e ∈ c'.past, e.answer = (h e.side e.call e.before).1 :=
  hr.inv (I := fun d => ∀ e ∈ d.past, e.answer = (h e.side e.call e.before).1)
    (fun _ _ _ _ hd _ _ => List.forall_mem_cons.2 ⟨rfl, hd⟩) (by simp [hc])

/-- The moment of a call, the run up to it and the run from it on. -/
theorem Reach.split (hr : Reach h C c c') (hc : c.past = []) {e : Event ι ο σ} (he : e ∈ c'.past) :
    ∃ d k l, Reach h C c d ∧ d.prog e.side = .call e.call k ∧ d.state = e.before ∧
      (d.after h e.side e.call k).past = e :: d.past ∧
      Reach h C c (d.after h e.side e.call k) ∧ Reach h C (d.after h e.side e.call k) c' ∧
        c'.past = l ++ e :: d.past := by
  induction hr with
  | refl => simp [hc] at he
  | @tail d _ hcd hs ih =>
    cases hs with
    | @call b i k hd hcond =>
      rcases List.mem_cons.1 he with rfl | he
      · exact ⟨d, k, [], hcd, hd, rfl, rfl, .tail hcd (.call hd hcond), .refl, rfl⟩
      · obtain ⟨d', k', l, h₁, h₂, h₃, h₄, h₅, h₆, h₇⟩ := ih he
        exact ⟨d', k', _ :: l, h₁, h₂, h₃, h₄, h₅, .tail h₆ (.call hd hcond), congrArg (_ :: ·) h₇⟩

/-- A side makes no call in `B'` before one in `B`. -/
theorem Reach.guards {B B' : ι → Prop} (hr : Reach h C c c') (a : Side) (hp : (c.prog a).Guards B B')
    (hc : c.past = []) :
    (∃ e ∈ c'.past, e.side = a ∧ B e.call) ∨
      (c'.prog a).Guards B B' ∧ ∀ e ∈ c'.past, e.side = a → ¬ B' e.call := by
  induction hr with
  | refl => exact .inr ⟨hp, by simp [hc]⟩
  | tail _ hs ih =>
    cases hs with
    | @call b i k hd _ =>
      rcases ih with ⟨e, he, hside, hB⟩ | ⟨hguards, hcalls⟩
      · exact .inl ⟨e, List.mem_cons_of_mem _ he, hside, hB⟩
      · by_cases hb : a = b
        · subst hb
          rw [hd] at hguards
          rcases hguards with hB | ⟨hC, hk⟩
          · exact .inl ⟨_, List.mem_cons_self, rfl, hB⟩
          · refine .inr ⟨by rw [after_prog_self]; exact hk _, fun e he hside => ?_⟩
            rcases List.mem_cons.1 he with rfl | he
            · exact hC
            · exact hcalls e he hside
        · refine .inr ⟨by rw [after_prog_of_ne _ _ _ hb]; exact hguards, fun e he hside => ?_⟩
          rcases List.mem_cons.1 he with rfl | he
          · exact absurd hside.symm hb
          · exact hcalls e he hside

/-- Each side with its ghost state, and an invariant of the past, the ghost
states and the state that every allowed call keeps. -/
theorem Reach.guided {τ : Type} {P : τ → ι → Prop} {A : τ → (i : ι) → ο i → Prop} {N : τ → (i : ι) → ο i → τ → Prop}
    {E : τ → Prop} {Q : τ → α → Prop} {J : List (Event ι ο σ) → (Side → τ) → σ → Prop}
    (hJ : ∀ past g s a i, J past g s → P (g a) i → C past s a i → A (g a) i (h a i s).1 ∧
      ∀ t, N (g a) i (h a i s).1 t → J (⟨a, i, (h a i s).1, s⟩ :: past) (Function.update g a t) (h a i s).2)
    {g : Side → τ} (hr : Reach h C c c') (hp : ∀ a, Prog.Guided P A N E Q (g a) (c.prog a)) (hc : J c.past g c.state) :
    ∃ g', J c'.past g' c'.state ∧ ∀ a, Prog.Guided P A N E Q (g' a) (c'.prog a) := by
  induction hr with
  | refl => exact ⟨g, hc, hp⟩
  | tail _ hs ih =>
    cases hs with
    | @call b i k hd hcond =>
      obtain ⟨g', hJ', hguided⟩ := ih
      have hb := hguided b
      rw [hd] at hb
      obtain ⟨hi, hk⟩ := hb.of_call
      obtain ⟨hA, hnext⟩ := hJ _ _ _ _ _ hJ' hi hcond
      obtain ⟨t, hN, hgt⟩ := hk _ hA
      refine ⟨Function.update g' b t, hnext t hN, fun a => ?_⟩
      by_cases ha : a = b
      · subst ha
        rw [after_prog_self, Function.update_self]
        exact hgt
      · rw [after_prog_of_ne _ _ _ ha, Function.update_of_ne ha]
        exact hguided a

end Sides

/-! ## The latest of two kinds of events -/

section Latest
variable {E : Type} (p q : E → Prop)

/-- There is an event in `p`, and none in `q` after it. -/
def Latest : List E → Prop
  | [] => False
  | e :: es => p e ∨ (¬ q e ∧ Latest es)

instance Latest.decidable [DecidablePred p] [DecidablePred q] : ∀ es, Decidable (Latest p q es)
  | [] => .isFalse id
  | _ :: es => @instDecidableOr _ _ _ (@instDecidableAnd _ _ _ (Latest.decidable es))

/-- Some event in `q` comes after one in `p`. -/
def Followed : List E → Prop
  | [] => False
  | e :: es => (q e ∧ ∃ d ∈ es, p d) ∨ Followed es

variable {p q}

theorem Latest.exists {es : List E} (h : Latest p q es) : ∃ e ∈ es, p e := by
  induction es with
  | nil => cases h
  | cons e es ih =>
    rcases h with h | ⟨-, h⟩
    · exact ⟨e, List.mem_cons_self, h⟩
    · obtain ⟨d, hd, hp⟩ := ih h
      exact ⟨d, List.mem_cons_of_mem _ hd, hp⟩

theorem Followed.exists {es : List E} (h : Followed p q es) : ∃ e ∈ es, q e := by
  induction es with
  | nil => cases h
  | cons e es ih =>
    rcases h with ⟨hq, -⟩ | h
    · exact ⟨e, List.mem_cons_self, hq⟩
    · obtain ⟨d, hd, hq⟩ := ih h
      exact ⟨d, List.mem_cons_of_mem _ hd, hq⟩

theorem Followed.of_append {es l : List E} {e : E} (he : q e) (h : ∃ d ∈ es, p d) : Followed p q (l ++ e :: es) := by
  induction l with
  | nil => exact .inl ⟨he, h⟩
  | cons _ l ih => exact .inr ih

/-- If there are events of either kind, the latest is of one. -/
theorem latest_or {es : List E} (h : ∃ e ∈ es, p e ∨ q e) : Latest p q es ∨ Latest q p es := by
  induction es with
  | nil => simp at h
  | cons e es ih =>
    by_cases hp : p e
    · exact .inl (.inl hp)
    · by_cases hq : q e
      · exact .inr (.inl hq)
      · obtain ⟨d, hd, hd'⟩ := h
        rcases List.mem_cons.1 hd with rfl | hd
        · exact absurd hd' (not_or.2 ⟨hp, hq⟩)
        · exact (ih ⟨d, hd, hd'⟩).imp (fun hl => .inr ⟨hq, hl⟩) (fun hl => .inr ⟨hp, hl⟩)

/-- ... and of no more than one, if the kinds are disjoint. -/
theorem Latest.not_both (hdisj : ∀ e, p e → ¬ q e) {es : List E} (h : Latest p q es) : ¬ Latest q p es := by
  induction es with
  | nil => cases h
  | cons e es ih =>
    rintro (hq | ⟨hp, hl⟩)
    · rcases h with hp | ⟨hnq, -⟩
      · exact hdisj e hp hq
      · exact hnq hq
    · rcases h with hp' | ⟨-, h⟩
      · exact hp hp'
      · exact ih h hl

variable {ι : Type} {ο : ι → Type} {ε α σ : Type} {h : Side → (i : ι) → σ → ο i × σ}
  {C : List (Event ι ο σ) → σ → Side → ι → Prop} {c c' : Config ι ο ε α σ}

/-- What some calls set and others clear is as the latest of them left it. -/
theorem Reach.toggle {T : σ → Prop} {p q : Event ι ο σ → Prop} (hr : Reach h C c c') (hc : c.past = [])
    (hset : ∀ e ∈ c'.past, p e → T (h e.side e.call e.before).2)
    (hclear : ∀ e ∈ c'.past, q e → ¬ T (h e.side e.call e.before).2)
    (hsame : ∀ e ∈ c'.past, ¬ p e → ¬ q e → (T (h e.side e.call e.before).2 ↔ T e.before)) :
    T c'.state ↔ Latest p q c'.past ∨ ((∀ e ∈ c'.past, ¬ p e ∧ ¬ q e) ∧ T c.state) := by
  induction hr with
  | refl => simp [hc, Latest]
  | @tail d _ _ hs ih =>
    cases hs with
    | @call a i k hd _ =>
      have hmem : ∀ {e}, e ∈ d.past → e ∈ (d.after h a i k).past := fun he => List.mem_cons_of_mem _ he
      have hlast : (⟨a, i, (h a i d.state).1, d.state⟩ : Event ι ο σ) ∈ (d.after h a i k).past := List.mem_cons_self
      have ih := ih (fun e he => hset e (hmem he)) (fun e he => hclear e (hmem he)) (fun e he => hsame e (hmem he))
      have hp := hset _ hlast
      have hq := hclear _ hlast
      have hrest := hsame _ hlast
      simp only [Config.after, Latest, List.mem_cons, forall_eq_or_imp]
      by_cases h₁ : p ⟨a, i, (h a i d.state).1, d.state⟩
      · exact ⟨fun _ => .inl (.inl h₁), fun _ => hp h₁⟩
      · by_cases h₂ : q ⟨a, i, (h a i d.state).1, d.state⟩
        · simp only [h₁, h₂, not_true, false_and, and_false, or_false, iff_false]
          exact hq h₂
        · simp only [h₁, h₂, not_false_eq_true, true_and, false_or]
          exact (hrest h₁ h₂).trans ih

end Latest

end Interleave
