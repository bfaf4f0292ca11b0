import Engram.Calls
import Engram.Deletion
import Engram.Turn
import Engram.Lib.Unwinding
/-!
# Noninterference

Two worlds are alike to a view when they agree on the namespaces and the
transcripts in it. A program that reads nothing else has one result in both. So
untrusted content has no influence on memory: what it is blocked into, nothing
but its listing reads.
-/

namespace Engram

open Backend Text MemoryManager

variable [Host]

/-! ## Views -/

/-- Some namespaces and some transcripts. -/
structure View where
  ns : Namespace → Prop
  thread : String → Prop

namespace View

/-- The call reads nothing outside the view. -/
def Reads (V : View) : Call → Prop
  | .get ns _ | .search ns _ _ _ => V.ns ns
  | .getState c => V.thread c
  | _ => True

/-- The call changes nothing in the view. -/
def Avoids (V : View) : Call → Prop
  | .put ns _ _ | .delete ns _ => ¬ V.ns ns
  | .saveState c _ | .deleteThread c => ¬ V.thread c
  | _ => True

end View

/-- The cached embeddings are the embedder's. -/
def Backend.Sound (S : Services) (w : World) : Prop := ∀ text v, w.vectors.get text = some v → v = S.embed text

theorem sound_empty (S : Services) : Backend.empty.Sound S := fun _ _ h => by cases h

theorem Backend.Sound.embed {S : Services} {w : World} (h : w.Sound S) (text : String) :
    (w.embed S text).1 = S.embed text ∧ (w.embed S text).2.Sound S := by
  unfold Backend.embed
  cases hget : w.vectors.get text with
  | some v => exact ⟨h text v hget, h⟩
  | none =>
    refine ⟨rfl, fun text' v hv => ?_⟩
    rcases Dict.get_set_eq_some hv with ⟨rfl, rfl⟩ | ⟨-, hv⟩
    · rfl
    · exact h text' v hv

theorem Backend.Sound.handle {S : Services} {w : World} (h : w.Sound S) (i : Call) : (handle S i w).2.Sound S := by
  cases i with
  | embed text => exact (h.embed text).2
  | _ => exact h

/-- Worlds that the user of the view cannot tell apart. -/
structure Alike (S : Services) (V : View) (w w' : World) : Prop where
  store : ∀ ns, V.ns ns → w.store ns = w'.store ns
  checkpoints : ∀ c, V.thread c → w.checkpoints c = w'.checkpoints c
  matched : w.Matched
  matched' : w'.Matched
  sound : w.Sound S
  sound' : w'.Sound S

/-- The next operation is given the same readings and ids. -/
structure SameFeed (w w' : World) : Prop where
  clock : w.clock = w'.clock
  ids : w.ids = w'.ids

namespace Alike
variable {S : Services} {V : View} {w w' : World} {u : String} {i : Call}

theorem refl (S : Services) (V : View) (hw : w.Matched) (hs : w.Sound S) : Alike S V w w :=
  ⟨fun _ _ => rfl, fun _ _ => rfl, hw, hw, hs, hs⟩

theorem given (h : Alike S V w w') (i : Input) : Alike S V (w.given i) (w'.given i) :=
  ⟨h.store, h.checkpoints, h.matched.congr (fun _ => rfl), h.matched'.congr (fun _ => rfl), h.sound, h.sound'⟩

theorem matched_of_puts (hw : w.Matched) (hi : PutsOwn u (fun _ => True) i) : (handle S i w).2.Matched := by
  refine matched_handle S hw (fun v k m h => ?_)
  subst h
  exact ⟨hi.2.1.trans hi.1.symm, hi.2.2.1⟩

/-- A call that reads in the view is answered alike and leaves the worlds alike. -/
theorem handle (h : Alike S V w w') (hf : SameFeed w w') (hr : V.Reads i) (hi : PutsOwn u (fun _ => True) i) :
    (handle S i w).1 = (handle S i w').1 ∧ Alike S V (Engram.handle S i w).2 (Engram.handle S i w').2 ∧
      SameFeed (Engram.handle S i w).2 (Engram.handle S i w').2 := by
  have hm := matched_of_puts (S := S) h.matched hi
  have hm' := matched_of_puts (S := S) h.matched' hi
  have hs := h.sound.handle i
  have hs' := h.sound'.handle i
  cases i with
  | get ns key => exact ⟨by simp only [Engram.handle, h.store ns hr], h, hf⟩
  | search ns q limit offset => exact ⟨by simp only [Engram.handle, h.store ns hr], h, hf⟩
  | put ns key value =>
    refine ⟨rfl, ⟨fun ns' hns => ?_, h.checkpoints, hm, hm', hs, hs'⟩, ⟨hf.clock, hf.ids⟩⟩
    by_cases he : ns' = ns
    · subst he
      exact (store_put_self w ns' key value).trans ((congrArg (Dict.set · key value) (h.store ns' hns)).trans
        (store_put_self w' ns' key value).symm)
    · exact (store_put_of_ne w key value he).trans ((h.store ns' hns).trans (store_put_of_ne w' key value he).symm)
  | delete ns key =>
    refine ⟨rfl, ⟨fun ns' hns => ?_, h.checkpoints, hm, hm', hs, hs'⟩, ⟨hf.clock, hf.ids⟩⟩
    by_cases he : ns' = ns
    · subst he
      exact (store_delete_self w ns' key).trans ((congrArg (Dict.erase · key) (h.store ns' hns)).trans
        (store_delete_self w' ns' key).symm)
    · exact (store_delete_of_ne w key he).trans ((h.store ns' hns).trans (store_delete_of_ne w' key he).symm)
  | getState c => exact ⟨h.checkpoints c hr, h, hf⟩
  | saveState c ms =>
    refine ⟨rfl, ⟨h.store, fun c' hc => ?_, hm, hm', hs, hs'⟩, ⟨hf.clock, hf.ids⟩⟩
    show Function.update w.checkpoints c _ c' = Function.update w'.checkpoints c _ c'
    simp only [Function.update_apply, h.checkpoints c' hc]
  | deleteThread c =>
    refine ⟨rfl, ⟨h.store, fun c' hc => ?_, hm, hm', hs, hs'⟩, ⟨hf.clock, hf.ids⟩⟩
    show Function.update w.checkpoints c _ c' = Function.update w'.checkpoints c _ c'
    simp only [Function.update_apply, h.checkpoints c' hc]
  | utcnow =>
    exact ⟨congrFun hf.clock 0, ⟨h.store, h.checkpoints, hm, hm', hs, hs'⟩,
      ⟨funext fun n => congrFun hf.clock (n + 1), hf.ids⟩⟩
  | uuid4 =>
    exact ⟨congrFun hf.ids 0, ⟨h.store, h.checkpoints, hm, hm', hs, hs'⟩,
      ⟨hf.clock, funext fun n => congrFun hf.ids (n + 1)⟩⟩
  | embed text =>
    refine ⟨(h.sound.embed text).1.trans (h.sound'.embed text).1.symm,
      ⟨fun ns hns => ?_, fun c hc => ?_, hm, hm', hs, hs'⟩, ?_, ?_⟩
    · show (w.embed S text).2.store ns = (w'.embed S text).2.store ns
      rw [store_embed, store_embed]
      exact h.store ns hns
    · show (w.embed S text).2.checkpoints c = (w'.embed S text).2.checkpoints c
      rw [checkpoints_embed, checkpoints_embed]
      exact h.checkpoints c hc
    · exact (w.clock_embed S text).trans (hf.clock.trans (w'.clock_embed S text).symm)
    · exact (w.ids_embed S text).trans (hf.ids.trans (w'.ids_embed S text).symm)
  | extract turn => exact ⟨rfl, h, hf⟩
  | invoke prompt => exact ⟨rfl, h, hf⟩

/-- A program that reads in the view has one result and leaves the worlds alike. -/
theorem exec {α : Type} {Q : α → Prop} {p : Act α} (h : Alike S V w w') (hf : SameFeed w w')
    (hp : p.Only (Answered u (fun _ => True)) (fun i => V.Reads i ∧ PutsOwn u (fun _ => True) i) Q) :
    (exec S p w).1 = (exec S p w').1 ∧ Alike S V (Engram.exec S p w).2 (Engram.exec S p w').2 := by
  obtain ⟨hres, hend, -⟩ := hp.run_agree (R := fun w w' => Alike S V w w' ∧ SameFeed w w')
    (fun i s t hi hst => ⟨answered S hst.1.matched (fun _ _ _ => trivial) i (fun _ => trivial),
      hst.1.handle hst.2 hi.1 hi.2⟩) ⟨h, hf⟩
  exact ⟨hres, hend⟩

/-- A program that avoids the view leaves what it shows. -/
theorem exec_left {α : Type} {Q : α → Prop} {p : Act α} (h : Alike S V w w')
    (hp : p.Only (Answered u (fun _ => True)) (fun i => V.Avoids i ∧ PutsOwn u (fun _ => True) i) Q) :
    Alike S V (Engram.exec S p w).2 w' := by
  refine (hp.run_inv (I := fun s => Alike S V s w') (fun i s hi hs => ⟨answered S hs.matched (fun _ _ _ => trivial) i
    (fun _ => trivial), ?_⟩) h).1
  have hm := matched_of_puts (S := S) hs.matched hi.2
  -- Each call changes, if anything, what the view does not show.
  have hsound := hs.sound.handle i
  cases i with
  | put ns key value =>
    refine ⟨fun ns' hns => ?_, hs.checkpoints, hm, hs.matched', hsound, hs.sound'⟩
    have hne : ns' ≠ ns := by
      rintro rfl
      exact hi.1 hns
    exact (store_put_of_ne s key value hne).trans (hs.store ns' hns)
  | delete ns key =>
    refine ⟨fun ns' hns => ?_, hs.checkpoints, hm, hs.matched', hsound, hs.sound'⟩
    have hne : ns' ≠ ns := by
      rintro rfl
      exact hi.1 hns
    exact (store_delete_of_ne s key hne).trans (hs.store ns' hns)
  | saveState c ms =>
    refine ⟨hs.store, fun c' hc => ?_, hm, hs.matched', hsound, hs.sound'⟩
    have hne : c' ≠ c := by
      rintro rfl
      exact hi.1 hc
    exact (Function.update_of_ne hne _ _).trans (hs.checkpoints c' hc)
  | deleteThread c =>
    refine ⟨hs.store, fun c' hc => ?_, hm, hs.matched', hsound, hs.sound'⟩
    have hne : c' ≠ c := by
      rintro rfl
      exact hi.1 hc
    exact (Function.update_of_ne hne _ _).trans (hs.checkpoints c' hc)
  | embed text =>
    refine ⟨fun ns hns => ?_, fun c hc => ?_, hm, hs.matched', hsound, hs.sound'⟩
    · exact (congrFun (s.store_embed S text) ns).trans (hs.store ns hns)
    · exact (congrFun (s.checkpoints_embed S text) c).trans (hs.checkpoints c hc)
  | _ => exact ⟨hs.store, hs.checkpoints, hm, hs.matched', hsound, hs.sound'⟩

end Alike

end Engram
