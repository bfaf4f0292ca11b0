import Engram.Completeness
import Engram.Returns
/-!
# What a chat does

A chat run alone: it notes its thread, saves the message, recalls, saves the
reply, and hands the message to the writer. What it saves around the recall and
after the writer is there already.
-/

namespace Engram

open Backend Text

variable [Host]

/-! ## Calls beside the conversations -/

/-- Calls that change no transcript and no entry of the index. -/
def Mute : Call → Prop
  | .put (.threads _) _ _ | .delete (.threads _) _ | .saveState _ _ | .deleteThread _ => False
  | _ => True

/-- Calls that only look. -/
def Looks : Call → Prop
  | .get _ _ | .search _ _ _ _ | .getState _ | .utcnow => True
  | _ => False

/-- `w'` has the transcripts and the index of `w`. -/
structure SameTalk (w w' : World) : Prop where
  checkpoints : w'.checkpoints = w.checkpoints
  threads : ∀ u, w'.store (.threads u) = w.store (.threads u)

section Calls
variable (S : Services) {w w' : World} {i : Call}

theorem SameTalk.refl (w : World) : SameTalk w w := ⟨rfl, fun _ => rfl⟩

theorem SameTalk.trans {w'' : World} (h : SameTalk w w') (h' : SameTalk w' w'') : SameTalk w w'' :=
  ⟨h'.checkpoints.trans h.checkpoints, fun u => (h'.threads u).trans (h.threads u)⟩

theorem Backend.SameData.talk (h : SameData w w') : SameTalk w w' := ⟨h.checkpoints, fun _ => congrFun h.store _⟩

theorem mute_handle (hi : Mute i) : SameTalk w (handle S i w).2 := by
  cases i with
  | put ns key value =>
    cases ns with
    | threads => cases hi
    | _ => exact ⟨rfl, fun u => store_put_of_ne _ _ _ (by simp)⟩
  | delete ns key =>
    cases ns with
    | threads => cases hi
    | _ => exact ⟨rfl, fun u => store_delete_of_ne _ _ (by simp)⟩
  | saveState | deleteThread => cases hi
  | embed text => exact (sameData_embed S w text).talk
  | _ => exact ⟨rfl, fun _ => rfl⟩

theorem mute_exec {α : Type} {Q : α → Prop} {p : Act α} (hp : p.Only (fun _ _ => True) Mute Q) :
    SameTalk w (exec S p w).2 :=
  (hp.run_inv (I := SameTalk w) (fun _ _ hi h => ⟨trivial, h.trans (mute_handle S hi)⟩) (.refl w)).1

theorem mute_writes (u : String) (threadId : Option String) :
    Writes u threadId (fun _ => True) (fun _ _ => True) Mute where
  clock := trivial
  newId := trivial
  embed _ := trivial
  extract _ := trivial
  search _ _ _ := trivial
  searchOf _ _ _ _ _ := trivial
  put _ _ := trivial
  quarantine _ _ := trivial
  found _ _ _ _ _ _ _ := trivial
  reinforced _ _ _ := trivial
  retired _ _ _ _ := trivial
  new _ _ _ _ := trivial

/-- The write path leaves the conversations alone. -/
theorem writer_talk (writer : MemoryWriter) (u text : String) (threadId : Option String) (source : Provenance)
    (w : World) : SameTalk w (exec S (writer.apply u text threadId source) w).2 :=
  mute_exec S ((only_writer (mute_writes u threadId) writer text source).mono (fun _ h => h) (fun _ _ => trivial))

/-- Recall changes nothing, and returns. -/
theorem recallFor_looks (r : MemoryReader) (u query : String) (limit : Option Nat) (now : Option Time) (w : World) :
    ∃ recalled w', exec S (r.recallFor u query limit now) w = (.ok recalled, w') ∧ SameData w w' ∧ w'.ids = w.ids := by
  obtain ⟨recalled, w', hrun⟩ := (returns_recallFor (u := u) r query limit now).exec S w
  have honly : (r.recallFor u query limit now).Only (fun _ _ => True) Looks (fun _ => True) :=
    (only_recallFor (M := fun _ => True) trivial (fun _ _ _ => trivial)
      (fun _ _ _ _ _ _ _ => trivial) r query limit now).mono (fun _ h => h) (fun _ _ => trivial)
  have hinv := (honly.run_inv (h := handle S) (I := fun w' => SameData w w' ∧ w'.ids = w.ids)
    (fun i w' hi h => ⟨trivial, ?_⟩) ⟨.refl w, rfl⟩).1
  · rw [show (r.recallFor u query limit now).run (handle S) w = (.ok recalled, w') from hrun] at hinv
    exact ⟨recalled, w', hrun, hinv⟩
  · cases i with
    | utcnow => exact ⟨h.1.trans (sameData_tick w'), h.2⟩
    | get | search | getState => exact h
    | _ => cases hi

end Calls

/-! ## One chat -/

namespace Backend
variable (w : World) (u t message : String)

/-- What a chat finds saved. -/
def transcript : List Message := (w.checkpoints (checkpointKey u t)).getD []

/-- ... and the message after it. -/
def heard : List Message := w.transcript u t ++ [⟨.human, some message⟩]

/-- The message is saved, and its thread is noted. -/
def received : World :=
  (w.tick.put (.threads u) t ⟨t, some (checkpointKey u t), some (w.clock 0)⟩).setState (checkpointKey u t)
    (some (w.heard u t message))

theorem setState_self {c : String} {state : Option (List Message)} (h : w.checkpoints c = state) :
    w.setState c state = w := by
  unfold setState
  rw [← h, Function.update_eq_self]

theorem mem_received (v : String) : (w.received u t message).mem v = w.mem v := by
  change (w.tick.put (.threads u) t ⟨t, some (checkpointKey u t), some (w.clock 0)⟩).store (.memories v) = w.mem v
  rw [store_put_of_ne _ _ _ (by simp)]
  rfl

theorem after_received : w.After (w.received u t message) :=
  ⟨.inr ⟨0, rfl⟩, fun n => ⟨n + 1, rfl⟩, fun n => ⟨n, rfl⟩, List.Subset.refl _, fun _ h => .inl h⟩

variable {w} in
theorem Fed.received (h : w.Fed) : (w.received u t message).Fed :=
  ⟨fun _ _ hab => h.clock_mono (Nat.succ_le_succ hab), h.clock_mono (Nat.zero_le 1), h.ids_inj, h.ids_new⟩

theorem checkpoints_received : (w.received u t message).checkpoints (checkpointKey u t) = some (w.heard u t message) :=
  Function.update_self _ _ _

end Backend

namespace Agent
variable (S : Services) (ag : Agent) {w : World} {u t : String} (message : String)

omit [Host] in
theorem lastHumanText_heard (saved : List Message) : lastHumanText (saved ++ [⟨.human, some message⟩]) = message := by
  simp [lastHumanText]

omit [Host] in
theorem replyOf_turn (messages : List Message) (reply : Option String) :
    replyOf (messages ++ [⟨.ai, reply⟩]) = reply.getD "" := by
  cases reply <;> simp [replyOf]

/-- What the model makes of the recalled memories and the conversation. -/
abbrev answer (recalled : List Recall) (messages : List Message) : Option String := S.invoke (prompt recalled messages)

theorem exec_chat (hc : w.Canonical) (result : Except Error TurnState × World)
    (h : exec S (ag.runGraph u t (checkpointKey u t) message)
      (w.tick.put (.threads u) t ⟨t, some (checkpointKey u t), some (w.clock 0)⟩) = result) :
    exec S (ag.chat u t message) w =
      (result.1.map (fun s => ⟨replyOf s.messages, s.recalled, s.report.written, s.report.decisions⟩), result.2) := by
  rw [chat, exec_bind_of_ok S w (exec_checkpointThreadId_ok S w (hc.not_legacy u t)),
    exec_bind_of_ok S w (exec_recordThread S u t hc), exec_bind, h]
  obtain ⟨_ | s, w'⟩ := result <;> rfl

/-- A chat of the agent without memory. -/
theorem exec_chat_stateless (hmem : ag.memory = false) (hc : w.Canonical) : exec S (ag.chat u t message) w =
    (.ok ⟨(answer S [] (w.heard u t message)).getD "", [], [], []⟩,
      (w.received u t message).setState (checkpointKey u t)
        (some (w.heard u t message ++ [⟨.ai, answer S [] (w.heard u t message)⟩]))) := by
  refine (exec_chat S ag message hc _ rfl).trans ?_
  rw [runGraph, exec_getState, exec_saveState, if_neg (by simp [hmem]), exec_invoke, exec_saveState, exec_pure]
  change (Except.ok (TurnTrace.mk
    (replyOf (w.heard u t message ++ [⟨.ai, answer S [] (w.heard u t message)⟩])) [] [] []), _) = _
  rw [replyOf_turn]
  rfl

/-- A chat with memory: whatever the writer does, it comes last. -/
theorem exec_chat_memory (hmem : ag.memory = true) (hc : w.Canonical) :
    ∃ recalled w₁ w₂, exec S (ag.reader.recallFor u message none none) (w.received u t message) = (.ok recalled, w₁) ∧
      SameData ((w.received u t message).setState (checkpointKey u t)
        (some (w.heard u t message ++ [⟨.ai, answer S recalled (w.heard u t message)⟩]))) w₂ ∧
      w₂.ids = w.ids ∧ w.After w₂ ∧ (w.Fed → w₂.Fed) ∧
      exec S (ag.chat u t message) w =
        ((exec S (ag.writer.apply u message (some t) .user) w₂).1.map (fun report =>
          ⟨(answer S recalled (w.heard u t message)).getD "", recalled, report.written, report.decisions⟩),
        (exec S (ag.writer.apply u message (some t) .user) w₂).2) := by
  obtain ⟨recalled, w₁, hrec, hsame, hids⟩ := recallFor_looks S ag.reader u message none none (w.received u t message)
  set reply := answer S recalled (w.heard u t message) with hreply
  set w₂ := w₁.setState (checkpointKey u t) (some (w.heard u t message ++ [⟨.ai, reply⟩])) with hw₂
  have hafter : w.After w₁ := (w.after_received u t message).trans (After.of_exec hrec)
  refine ⟨recalled, w₁, w₂, hrec, ⟨hsame.store, ?_⟩, hids, ⟨hafter.now, hafter.clock, hafter.ids, hafter.issued,
    hafter.issued_from⟩, fun hw => ?_, ?_⟩
  · rw [hw₂, checkpoints_setState, checkpoints_setState, hsame.checkpoints]
  · have hw₁ := Fed.of_exec (hw.received u t message) hrec
    exact ⟨hw₁.clock_mono, hw₁.now_le, hw₁.ids_inj, hw₁.ids_new⟩
  have hsaved : w₁.setState (checkpointKey u t) (some (w.heard u t message)) = w₁ := by
    refine w₁.setState_self ?_
    rw [hsame.checkpoints]
    exact w.checkpoints_received u t message
  have hgraph : exec S (ag.runGraph u t (checkpointKey u t) message)
      (w.tick.put (.threads u) t ⟨t, some (checkpointKey u t), some (w.clock 0)⟩) =
      ((exec S (ag.writer.apply u message (some t) .user) w₂).1.map
        (fun report => ⟨w.heard u t message ++ [⟨.ai, reply⟩], recalled, report⟩),
      (exec S (ag.writer.apply u message (some t) .user) w₂).2) := by
    rw [runGraph, exec_getState, exec_saveState, if_pos hmem]
    change exec S (ag.reader.recallFor u (lastHumanText (w.heard u t message)) none none >>= _)
      (w.received u t message) = _
    rw [show lastHumanText (w.heard u t message) = message from lastHumanText_heard message _, exec_bind_of_ok S _ hrec,
      exec_saveState]
    change exec S (invoke (prompt recalled (w.heard u t message)) >>= _)
      (w₁.setState (checkpointKey u t) (some (w.heard u t message))) = _
    rw [hsaved, exec_invoke, exec_saveState]
    change exec S
      (ag.writer.apply u (lastHumanText (w.heard u t message ++ [⟨.ai, reply⟩])) (some t) .user >>= _) w₂ = _
    rw [show lastHumanText (w.heard u t message ++ [⟨.ai, reply⟩]) = message from lastHumanText_turn _ _ _, exec_bind]
    have htalk := writer_talk S ag.writer u message (some t) .user w₂
    generalize exec S (ag.writer.apply u message (some t) .user) w₂ = written at htalk
    obtain ⟨_ | report, w₃⟩ := written
    · rfl
    · dsimp only
      rw [exec_saveState, exec_pure]
      refine Prod.ext rfl (setState_self _ ?_)
      rw [htalk.checkpoints]
      exact Function.update_self _ _ _
  rw [exec_chat S ag message hc _ hgraph]
  refine Prod.ext ?_ rfl
  rcases (exec S (ag.writer.apply u message (some t) .user) w₂).1 with _ | report
  · rfl
  · change Except.ok (TurnTrace.mk (replyOf (w.heard u t message ++ [⟨.ai, reply⟩])) _ _ _) = _
    rw [replyOf_turn]
    rfl

end Agent

end Engram
