import Engram.Completeness
import Engram.Conversations
import Engram.Lib.Steps
/-!
# Runs with their results

A run as the list of what was asked and what came of it, so that it can be
compared with a run of something simpler.
-/

namespace Engram

open Backend

variable [Host]

/-- An operation as it was executed. -/
structure Done where
  op : Op
  input : Input
  result : Except Error Outcome

/-- One operation run to its end, by some components. -/
def Agent.Executes (ag : Agent) (w : World) (d : Done) (w' : World) : Prop :=
  d.input.Valid w ∧ ∃ S, ag.perform S d.op (w.given d.input) = (d.result, w')

section Invariants
variable {ag : Agent} {w w' : World} {d : Done} {ds : List Done}

theorem steps_perform (h : Steps ag.Executes Backend.empty ds w) (S : Services) (op : Op) {i : Input} (hi : i.Valid w) :
    Steps ag.Executes Backend.empty (ds ++ [⟨op, i, (ag.perform S op (w.given i)).1⟩])
      (ag.perform S op (w.given i)).2 :=
  .snoc h ⟨hi, S, rfl⟩

theorem Agent.Executes.accounted (h : ag.Executes w d w') (hw : w.Accounted) : w'.Accounted := by
  obtain ⟨-, S, hrun⟩ := h
  have hstays := act_stays ag S (d.op.rounds (w.given d.input)) d.op (hw.given d.input) _ (Prog.reaches_run _ _)
  rwa [show (ag.act _ d.op).run (handle S) (w.given d.input) = (d.result, w') from hrun] at hstays

theorem Agent.Executes.keyed (h : ag.Executes w d w') (hw : w.Keyed) : w'.Keyed := by
  obtain ⟨-, S, hrun⟩ := h
  have hk := (hw.given d.input).perform ag S d.op
  rwa [hrun] at hk

end Invariants

/-! ## Forgetting a thread -/

section Forget
variable {S : Services} {w w' : World} {u t : String}

/-- Without legacy entries `forget_thread` returns. -/
theorem forgetThread_returns (ag : Agent) (hc : w.Canonical) {result : Except Error Outcome}
    (h : ag.perform S (.forgetThread u t) w = (result, w')) : ∃ r, result = .ok r := by
  have hmap : ag.perform S (.forgetThread u t) w = _ := exec_map S w _ _
  have hsize : (w.store (.memories u)).size < w.rounds u := by
    unfold rounds
    omega
  rw [h, show (Op.forgetThread u t).rounds w = w.rounds u from rfl,
    exec_forgetThread_ok S w u (hc.not_legacy u t) hsize] at hmap
  exact ⟨_, (Prod.mk.inj hmap).1⟩

/-- It leaves the records of other threads, in their order. -/
theorem entries_eraseLearned : ((learnedIn S w u t).foldl Dict.erase (w.mem u)).entries =
    (w.mem u).entries.filter (fun e => e.2.threadId ≠ some t) := by
  rw [Dict.entries_eraseAll]
  refine List.filter_congr (fun e he => ?_)
  have hget : (w.mem u).get e.1 = some e.2 := Dict.get_eq_some_iff.2 he
  refine decide_eq_decide.2 (not_congr ?_)
  rw [mem_learnedIn]
  constructor
  · rintro ⟨m, hm, ht⟩
    rw [hget] at hm
    cases hm
    exact ht
  · exact fun ht => ⟨_, hget, ht⟩

end Forget

end Engram
