import Engram.Calls
import Engram.Lib.Interleave
/-!
# Operations at once

Two operations over one backend, one call at a time. Each side may meet its own
components, so two equal texts need not be extracted alike.
-/

namespace Engram

open Interleave Backend

variable [Host]

abbrev Overlap := Config Call CallOn.Ans Error Outcome World

/-- Two operations of one agent, about to make their first calls. -/
def Agent.overlap (ag : Agent) (rounds : Nat) (op op' : Op) (w : World) : Overlap :=
  .start (fun | .left => ag.act rounds op | .right => ag.act rounds op') w

/-- From `c` to `c'` by calls that all meet `C`. -/
def Overlaps (S : Side → Services) (C : List (Event Call CallOn.Ans World) → World → Side → Call → Prop)
    (c c' : Overlap) : Prop := Reach (fun a => handle (S a)) C c c'

/-- The users of the two operations. -/
def Side.user (op op' : Op) : Side → String
  | .left => op.user
  | .right => op'.user

section Overlaps
variable {S : Side → Services} {C : List (Event Call CallOn.Ans World) → World → Side → Call → Prop} {c c' : Overlap}
  {ag : Agent} {rounds : Nat} {op op' : Op} {w : World}

theorem Overlaps.after (hr : Overlaps S C c c') : c.state.After c'.state :=
  Reach.inv (I := fun d => c.state.After d.state)
    (fun d a i _ hd _ _ => hd.trans (after_handle (S a) i d.state)) hr (.refl _)

theorem Overlaps.fed (hr : Overlaps S C c c') (hw : c.state.Fed) : c'.state.Fed :=
  Reach.inv (I := fun d => d.state.Fed) (fun _ a i _ hd _ _ => fed_handle (S a) i hd) hr hw

theorem only_overlap (G : Side → String → Prop) (a : Side) :
    ((ag.overlap rounds op op' w).prog a).Only
      (Answered (Side.user op op' a) (G a)) (PutsOwn (Side.user op op' a) (G a)) (fun _ => True) := by
  cases a with
  | left => exact only_act ag rounds op
  | right => exact only_act ag rounds op'

/-- Every answer comes from a store that keeps memories under their ids. -/
theorem Overlaps.matched (hr : Overlaps S C (ag.overlap rounds op op' w) c) (hw : w.Matched) :
    c.state.Matched ∧ ∀ e ∈ c.past, e.before.Matched := by
  obtain ⟨hm, -, hcalls⟩ := Reach.only_inv (I := Matched)
    (fun a i s hi hs => ⟨answered (S a) hs (fun _ _ _ => trivial) i (fun _ => trivial), matched_puts (S a) hs hi⟩) hr
    (only_overlap (fun _ _ => True)) hw
  exact ⟨hm, fun e he => ((hcalls e he).resolve_left (by simp [Agent.overlap, Config.start])).2.1⟩

/-- As after each alone: no memory is stored under an id that was not issued. -/
theorem Overlaps.keyed (hr : Overlaps S C (ag.overlap rounds op op' w) c) (hw : w.Keyed) : c.state.Keyed := by
  have hmatched := (hr.matched hw.matched).1
  refine ⟨fun h => (hmatched _ _ _ h).1, fun h => (hmatched _ _ _ h).2, fun {u k m} hget => ?_⟩
  by_contra hk
  have hstart : w.Unused k := hw.unused (fun h => hk (hr.after.issued h))
  rcases Reach.only_inv_or (E := fun w => k ∈ w.issued) (I := Unused k)
    (fun a i s h => (after_handle (S a) i s).issued h) (fun a i s hi hs => hs.handle (S a) hi) hr
    (only_overlap (fun _ => (· ≠ k))) hstart with h | h
  · exact hk h
  · cases hget.symm.trans (h.1.2 u)

end Overlaps

end Engram
