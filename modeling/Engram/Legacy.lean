import Engram.Deletion
import Engram.Returns
/-!
# Legacy threads

An index entry without the key of its conversation comes from an older version.
Every operation that would touch a transcript looks for one first.
-/

namespace Engram

open MemoryManager Text

variable [Host]

/-! ## Other errors -/

/-- Nothing but the check of the index raises `legacyThread`. -/
def Modern {α : Type} (p : Act α) : Prop := p.Raises (· ≠ .legacyThread)

section Modern

theorem Returns.modern {α : Type} {p : Act α} (hp : Returns p) : Modern p := hp.mono (fun _ h => h.elim)

theorem modern_build (c : CandidateFact) (u : String) (threadId : Option String) (source : Provenance) :
    Modern (build c u threadId source) := by
  have hexp : Modern (expiry c.ttlDays) := by
    unfold expiry
    split
    · exact .pure
    · refine .next (fun t => ?_)
      split
      · exact .pure
      · exact .raise (by simp)
  exact .bind hexp (fun _ => .next (fun _ => .next (fun _ => .next (fun _ => .pure))))

theorem modern_writeNew (c : CandidateFact) (existing : List Memory) (u : String) (threadId : Option String)
    (source : Provenance) : Modern (writeNew c existing u threadId source) :=
  .bind (modern_build c u threadId source) (fun _ => .next (fun _ => .pure))

theorem modern_resolve (mm : MemoryManager) (c : CandidateFact) (existing : List Memory) (u : String)
    (threadId : Option String) (source : Provenance) : Modern (mm.resolve c existing u threadId source) := by
  unfold resolve
  split
  · split
    · exact .bind (returns_reinforce _ _).modern (fun _ => .pure)
    · split
      · refine .bind (modern_build c u threadId source) (fun m => .next (fun _ => ?_))
        exact .bind (returns_supersedeAll m.id _ existing).modern (fun _ => .pure)
      · exact modern_writeNew c existing u threadId source
  · refine .bind (returns_nearest mm c.text existing).modern (fun near => ?_)
    split
    · exact .bind (returns_reinforce _ _).modern (fun _ => .pure)
    · exact modern_writeNew c existing u threadId source

theorem modern_resolveAll (mm : MemoryManager) (u : String) (threadId : Option String) (source : Provenance)
    (cs : List CandidateFact) (existing : List Memory) (report : WriteReport) :
    Modern (mm.resolveAll u threadId source cs existing report) := by
  induction cs generalizing existing report with
  | nil => exact .pure
  | cons c cs ih => exact .bind (modern_resolve mm c existing u threadId source) (fun _ => ih _ _)

theorem modern_writer (writer : MemoryWriter) (u text : String) (threadId : Option String) (source : Provenance) :
    Modern (writer.apply u text threadId source) := by
  cases writer with
  | naive =>
    show Modern (naiveApply u text threadId source)
    exact (returns_naiveApply u text threadId source).modern
  | manager mm =>
    show Modern (mm.apply u text threadId source)
    unfold apply
    split
    · exact .pure
    split
    · exact .bind (.next (fun _ => .next (fun _ => .next (fun _ => .ret)))) (fun _ => .pure)
    · refine .next (fun candidates => ?_)
      split
      · exact .pure
      · exact .bind (returns_activeMemories u).modern
          (fun existing => modern_resolveAll mm u threadId source _ existing _)

theorem modern_runGraph (ag : Agent) (u t thread message : String) : Modern (ag.runGraph u t thread message) := by
  unfold Agent.runGraph
  refine .next (fun saved => .next (fun _ => ?_))
  split
  · refine .bind (returns_recallFor ag.reader _ none none).modern
      (fun recalled => .next (fun _ => .next (fun reply => .next (fun _ => ?_))))
    exact .bind (modern_writer ag.writer u _ (some t) .user) (fun _ => .next (fun _ => .pure))
  · exact .next (fun reply => .next (fun _ => .pure))

end Modern

/-! ## Raised first of all -/

/-- `p` raises `legacyThread` exactly if `Q`, and then the backend is as before. -/
def Blocked {α : Type} (S : Services) (p : Act α) (w : World) (Q : Prop) : Prop :=
  ((exec S p w).1 = .error .legacyThread ↔ Q) ∧ ((exec S p w).1 = .error .legacyThread → (exec S p w).2 = w)

section Blocked
variable {S : Services} {w : World} {u t : String} {α : Type}

/-- An operation that starts with the check, and raises nothing of the kind once it is past it. -/
theorem blocked_of_check {f : String → Act α}
    (hf : ¬ w.Legacy u t → (exec S (f (checkpointKey u t)) w).1 ≠ .error .legacyThread) :
    Blocked S (checkpointThreadId u t >>= f) w (w.Legacy u t) := by
  by_cases hl : w.Legacy u t
  · have hrun := exec_bind_of_error S w (f := f) (exec_checkpointThreadId_error S w hl)
    exact ⟨iff_of_true (congrArg Prod.fst hrun) hl, fun _ => congrArg Prod.snd hrun⟩
  · have hrun := exec_bind_of_ok S w (f := f) (exec_checkpointThreadId_ok S w hl)
    have hne : (exec S (checkpointThreadId u t >>= f) w).1 ≠ .error .legacyThread := by
      rw [hrun]
      exact hf hl
    exact ⟨iff_of_false hne hl, fun h => absurd h hne⟩

theorem Modern.ne {p : Act α} (hp : Modern p) : (exec S p w).1 ≠ .error .legacyThread :=
  fun h => Prog.Raises.run hp h rfl

theorem blocked_chat (ag : Agent) (message : String) : Blocked S (ag.chat u t message) w (w.Legacy u t) := by
  refine blocked_of_check (fun hl => ?_)
  have hrecord : exec S (recordThread u t) w =
      (.ok (), w.tick.put (.threads u) t ⟨t, some (checkpointKey u t), some (w.clock 0)⟩) := by
    rw [recordThread, exec_bind_of_ok S w (exec_checkpointThreadId_ok S w hl), exec_utcnow]
    rfl
  rw [exec_bind_of_ok S w hrecord]
  exact Modern.ne (.bind (modern_runGraph ag u t _ message) (fun _ => .pure))

theorem blocked_history : Blocked S (Agent.history u t) w (w.Legacy u t) :=
  blocked_of_check (fun _ => Modern.ne (.next (fun _ => .pure)))

theorem blocked_forgetThread : Blocked S (forgetThread (w.rounds u) u t) w (w.Legacy u t) := by
  have hsize : (w.store (.memories u)).size < w.rounds u := by
    unfold Backend.rounds
    omega
  refine blocked_of_check (fun hl h => ?_)
  have hrun := exec_forgetThread_ok S w u hl hsize
  unfold forgetThread at hrun
  rw [exec_bind_of_ok S w (exec_checkpointThreadId_ok S w hl)] at hrun
  rw [hrun] at h
  cases h

theorem blocked_forgetUser : Blocked S (forgetUser (w.rounds u) u) w (∃ s, w.Legacy u s) := by
  by_cases hl : ∃ s ∈ (w.store (.threads u)).keys, w.Legacy u s
  · have hsize : (w.store (.threads u)).size < w.rounds u := by
      unfold Backend.rounds
      omega
    have hrun := exec_forgetUser_error S w u hsize hl
    obtain ⟨s, -, hs⟩ := hl
    exact ⟨iff_of_true (congrArg Prod.fst hrun) ⟨s, hs⟩, fun _ => congrArg Prod.snd hrun⟩
  · have hrun := exec_forgetUser_ok S w u (le_refl _) (fun s hs hlegacy => hl ⟨s, hs, hlegacy⟩)
    have hne : (exec S (forgetUser (w.rounds u) u) w).1 ≠ .error .legacyThread := by
      rw [hrun]
      intro h
      cases h
    refine ⟨iff_of_false hne ?_, fun h => absurd h hne⟩
    rintro ⟨s, e, hget, hkey⟩
    exact hl ⟨s, Dict.mem_keys_iff.2 ⟨e, hget⟩, e, hget, hkey⟩

end Blocked

/-! ## Which transcripts are touched -/

/-- No transcript is read, written or deleted but those under a key in `K`. -/
def CallOn.Within (K : String → Prop) : Call → Prop
  | getState c | saveState c _ | deleteThread c => K c
  | _ => True

section Within
variable {A : (i : Call) → i.Ans → Prop} {u t : String}

theorem within_chat (ag : Agent) (message : String) :
    (ag.chat u t message).Only (fun _ _ => True) (CallOn.Within (· = checkpointKey u t)) (fun _ => True) := by
  refine (only_chat (shape_chats u t) ag message).mono (fun i hi => ?_) (fun _ _ => trivial)
  cases i with
  | deleteThread => cases hi
  | getState | saveState => exact hi
  | _ => trivial

theorem within_history :
    (Agent.history u t).Only A (CallOn.Within (· = checkpointKey u t)) (fun _ => True) := by
  refine .seq (only_checkpointThreadId trivial) ?_
  rintro _ rfl
  exact only_getState rfl (fun _ _ => .pure trivial)

theorem within_forgetThread (rounds : Nat) :
    (forgetThread rounds u t).Only A (CallOn.Within (· = checkpointKey u t)) (fun _ => True) := by
  refine .seq (only_checkpointThreadId trivial) ?_
  rintro _ rfl
  refine .seq (only_allKeys (.memories u) (fun _ _ => trivial) rounds) (fun memories _ => ?_)
  refine .seq (only_deleteAll (.memories u) (fun _ => trivial) _) (fun _ _ => ?_)
  exact only_deleteThread rfl (only_storeDelete trivial (.pure trivial))

theorem within_forgetUser (rounds : Nat) :
    (forgetUser rounds u).Only A (CallOn.Within (fun c => ∃ s, c = checkpointKey u s)) (fun _ => True) := by
  refine (only_forgetUser rounds).mono (fun i hi => ?_) (fun _ h => h)
  cases i with
  | deleteThread => exact hi
  | getState | saveState => cases hi
  | _ => trivial

end Within

/-- The four operations on transcripts raise `LegacyThreadError` exactly on a
legacy entry, then leave all as it was, and touch no transcript but under the
key of its conversation. -/
theorem legacy_blocks (S : Services) (ag : Agent) (w : World) (u t message : String) :
    Blocked S (forgetUser (w.rounds u) u) w (∃ s, w.Legacy u s) ∧ Blocked S (ag.chat u t message) w (w.Legacy u t) ∧
      Blocked S (Agent.history u t) w (w.Legacy u t) ∧ Blocked S (forgetThread (w.rounds u) u t) w (w.Legacy u t) ∧
      (forgetUser (w.rounds u) u).Only (fun _ _ => True) (CallOn.Within (fun c => ∃ s, c = checkpointKey u s))
      (fun _ => True) ∧
      (ag.chat u t message).Only (fun _ _ => True) (CallOn.Within (· = checkpointKey u t)) (fun _ => True) ∧
      (Agent.history u t).Only (fun _ _ => True) (CallOn.Within (· = checkpointKey u t)) (fun _ => True) ∧
      (forgetThread (w.rounds u) u t).Only (fun _ _ => True) (CallOn.Within (· = checkpointKey u t)) (fun _ => True) :=
  ⟨blocked_forgetUser, blocked_chat ag message, blocked_history, blocked_forgetThread, within_forgetUser _,
    within_chat ag message, within_history, within_forgetThread _⟩

end Engram
