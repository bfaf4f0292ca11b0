import Engram.Calls
import Engram.Deletion
/-!
# Forget-me is complete

The checkpointer knows nothing of users, so all depends on the thread index:
every transcript has an entry with its key, wherever an operation is stopped.
-/

namespace Engram

open Backend

variable [Host]

/-! ## The index -/

namespace Backend

/-- Every transcript has an entry in the index with its key. -/
def Indexed (w : World) : Prop :=
  ∀ c ms, w.checkpoints c = some ms →
    ∃ u t e, c = checkpointKey u t ∧ (w.store (.threads u)).get t = some e ∧ e.checkpointId = some c

/-- Every entry of the index has the key of its conversation. -/
def Canonical (w : World) : Prop :=
  ∀ u t e, (w.store (.threads u)).get t = some e → e.checkpointId = some (checkpointKey u t)

structure Accounted (w : World) : Prop where
  indexed : w.Indexed
  canonical : w.Canonical
  matched : w.Matched

/-- `u`'s thread `t` has an entry. -/
def HasEntry (w : World) (u t : String) : Prop := ∃ e, (w.store (.threads u)).get t = some e

variable {w w' : World}

theorem hasEntry_put (w : World) (u t : String) (e : ThreadEntry) : (w.put (.threads u) t e).HasEntry u t :=
  ⟨e, get_put_self⟩

theorem accounted_empty : Backend.empty.Accounted where
  indexed _ _ h := by cases h
  canonical _ _ _ h := by cases h
  matched := matched_empty

theorem Accounted.congr (h : w.Accounted) (hs : ∀ u, w'.store (.threads u) = w.store (.threads u))
    (hc : w'.checkpoints = w.checkpoints) (hm : w'.Matched) : w'.Accounted where
  matched := hm
  indexed c ms hms := by
    obtain ⟨u, t, e, hkey, hget, he⟩ := h.indexed c ms (hc ▸ hms)
    exact ⟨u, t, e, hkey, by rw [hs]; exact hget, he⟩
  canonical u t e hget := h.canonical u t e (hs u ▸ hget)

theorem Accounted.given (h : w.Accounted) (i : Input) : (w.given i).Accounted :=
  h.congr (fun _ => rfl) rfl (h.matched.congr (fun _ => rfl))

theorem Canonical.not_legacy (h : w.Canonical) (u t : String) : ¬ w.Legacy u t :=
  fun ⟨e, hget, hne⟩ => hne (h u t e hget)

/-- Recording a thread under its key. -/
theorem Accounted.put (h : w.Accounted) {u t : String} {e : ThreadEntry}
    (he : e.checkpointId = some (checkpointKey u t)) : (w.put (.threads u) t e).Accounted := by
  refine ⟨fun c ms hms => ?_, fun u' t' e' hget' => ?_,
    h.matched.congr (fun v => store_put_of_ne _ _ _ (by simp))⟩
  · obtain ⟨u', t', e', hkey, hg, he'⟩ := h.indexed c ms hms
    by_cases hut : Namespace.threads u' = .threads u ∧ t' = t
    · obtain ⟨hu, rfl⟩ := hut
      cases hu
      exact ⟨_, _, e, hkey, get_put_self, by rw [he, hkey]⟩
    · exact ⟨u', t', e', hkey, (get_put_of_ne hut).trans hg, he'⟩
  · rcases get_put hget' with ⟨hu, rfl, hv⟩ | hget'
    · cases hu
      obtain rfl := eq_of_heq hv
      exact he
    · exact h.canonical u' t' e' hget'

/-- Saving a transcript that is indexed. -/
theorem Accounted.save (h : w.Accounted) {u t : String} (he : w.HasEntry u t) (ms : List Message) :
    (w.setState (checkpointKey u t) (some ms)).Accounted := by
  refine ⟨fun c ms' hms => ?_, h.canonical, h.matched⟩
  by_cases hc : c = checkpointKey u t
  · obtain ⟨e, hget⟩ := he
    exact ⟨u, t, e, hc, hget, by rw [hc]; exact h.canonical u t e hget⟩
  · rw [checkpoints_setState, Function.update_of_ne hc] at hms
    exact h.indexed c ms' hms

theorem Accounted.deleteThread (h : w.Accounted) (c : String) : (w.setState c none).Accounted := by
  refine ⟨fun c' ms hms => ?_, h.canonical, h.matched⟩
  by_cases hc : c' = c
  · subst hc
    simp at hms
  · rw [checkpoints_setState, Function.update_of_ne hc] at hms
    exact h.indexed c' ms hms

/-- The entry of a thread may go once its transcript is gone. -/
theorem Accounted.delete (h : w.Accounted) {u t : String} (hgone : w.checkpoints (checkpointKey u t) = none) :
    (w.delete (.threads u) t).Accounted := by
  refine ⟨fun c ms hms => ?_, fun u' t' e' hget' => h.canonical u' t' e' (get_delete hget'), h.matched.delete _ _⟩
  obtain ⟨u', t', e', hkey, hg, he'⟩ := h.indexed c ms hms
  refine ⟨u', t', e', hkey, (get_delete_of_ne ?_).trans hg, he'⟩
  rintro ⟨hu, rfl⟩
  cases hu
  have hms : w.checkpoints c = some ms := hms
  rw [hkey, hgone] at hms
  cases hms

end Backend

/-! ## The operations -/

/-- Calls that touch neither the thread index nor a transcript. -/
def Quiet : Call → Prop
  | .put (.memories u) k m => m.userId = u ∧ m.id = k
  | .put (.threads _) _ _ | .delete (.threads _) _ | .saveState _ _ | .deleteThread _ => False
  | _ => True

section Quiet
variable (S : Services) {i : Call} {w : World}

theorem quiet_handle (h : Quiet i) :
    (∀ u, (handle S i w).2.store (.threads u) = w.store (.threads u)) ∧
      (handle S i w).2.checkpoints = w.checkpoints := by
  cases i with
  | put ns key value =>
    cases ns with
    | threads => cases h
    | _ => exact ⟨fun u => store_put_of_ne _ _ _ (by simp), rfl⟩
  | delete ns key =>
    cases ns with
    | threads => cases h
    | _ => exact ⟨fun u => store_delete_of_ne _ _ (by simp), rfl⟩
  | saveState | deleteThread => cases h
  | embed text => exact ⟨fun u => congrFun (w.store_embed S text) _, w.checkpoints_embed S text⟩
  | _ => exact ⟨fun _ => rfl, rfl⟩

theorem quiet_accounted (h : Quiet i) (hw : w.Accounted) : (handle S i w).2.Accounted :=
  hw.congr (quiet_handle S h).1 (quiet_handle S h).2
    (matched_handle S hw.matched (fun _ _ _ hi => by subst hi; exact h))

omit [Host] in
theorem quiet_write {u : String} (G : String → Prop) (h : WriteCall u G i) : Quiet i := by
  cases i with
  | put ns =>
    cases ns with
    | memories v => exact ⟨h.2.1.trans h.1.symm, h.2.2.1⟩
    | quarantine v => trivial
    | threads v => cases h
  | delete | saveState | deleteThread => cases h
  | _ => trivial

theorem quiet_stays {α : Type} {Q : α → Prop} {p : Act α} (hp : p.Only (fun _ _ => True) Quiet Q)
    (hw : w.Accounted) : p.Stays (handle S) Accounted w :=
  .of_only hp (fun _ _ h hw => ⟨trivial, quiet_accounted S h hw⟩) hw

/-- The answers to `u`'s write path, with no condition on ids. -/
theorem answered_any (hw : w.Matched) (u : String) (i : Call) : Answered u (fun _ => True) i (handle S i w).1 :=
  answered S hw (fun _ _ _ => trivial) i (fun _ => trivial)

theorem writer_stays (writer : MemoryWriter) (u text : String) (threadId : Option String) (source : Provenance)
    (hw : w.Accounted) : (writer.apply u text threadId source).Stays (handle S) Accounted w :=
  .of_only (only_writer (own_writes u threadId _) writer text source)
    (fun i _ h hw => ⟨answered_any S hw.matched u i, quiet_accounted S (quiet_write _ h) hw⟩) hw

end Quiet

/-! ## The operations, stopped anywhere -/

section Operations
variable (S : Services) {w : World} (u t : String)

theorem checkpointThreadId_ok {u t key : String} {w w' : World} (hw : w.Canonical)
    (h : (checkpointThreadId u t).run (handle S) w = (.ok key, w')) : key = checkpointKey u t ∧ w = w' := by
  have hrun : exec S (checkpointThreadId u t) w = (.ok key, w') := h
  rw [exec_checkpointThreadId_ok S w (hw.not_legacy u t)] at hrun
  cases hrun
  exact ⟨rfl, rfl⟩

theorem exec_recordThread (hw : w.Canonical) : exec S (recordThread u t) w =
    (.ok (), w.tick.put (.threads u) t ⟨t, some (checkpointKey u t), some (w.clock 0)⟩) := by
  rw [recordThread, exec_bind_of_ok S w (exec_checkpointThreadId_ok S w (hw.not_legacy u t))]
  rfl

theorem recordThread_stays (hw : w.Accounted) : (recordThread u t).Stays (handle S) Accounted w := by
  refine .of_only (P := fun i => Quiet i ∨ ∃ e, i = .put (.threads u) t e ∧ e.checkpointId = some (checkpointKey u t))
    (A := fun _ _ => True) (Q := fun _ => True) ?_ ?_ hw
  · refine .seq (only_checkpointThreadId (.inl trivial)) ?_
    rintro _ rfl
    exact only_utcnow (.inl trivial) (fun now => .call (.inr ⟨_, rfl, rfl⟩) (fun _ _ => .ret trivial))
  · rintro i w (h | ⟨e, rfl, he⟩) hw
    · exact ⟨trivial, quiet_accounted S h hw⟩
    · exact ⟨trivial, hw.put he⟩

theorem chatCall_accounted {G : String → Prop} {i : Call} (hi : ChatCall u t G i) (hw : w.Accounted)
    (he : w.HasEntry u t) : (handle S i w).2.Accounted ∧ (handle S i w).2.HasEntry u t := by
  have hquiet : Quiet i → (handle S i w).2.Accounted ∧ (handle S i w).2.HasEntry u t := by
    intro h
    refine ⟨quiet_accounted S h hw, ?_⟩
    unfold HasEntry
    rw [(quiet_handle S h).1]
    exact he
  cases i with
  | put ns k v =>
    cases ns with
    | threads v =>
      obtain ⟨rfl, rfl, hkey⟩ := hi
      exact ⟨hw.put hkey, hasEntry_put w _ _ v⟩
    | _ => exact hquiet (quiet_write G hi)
  | saveState c ms =>
    obtain rfl := hi
    exact ⟨hw.save he ms, he⟩
  | get | getState | invoke => exact hquiet trivial
  | delete | deleteThread => cases hi
  | _ => exact hquiet trivial

/-- A chat on an indexed thread. -/
theorem runGraph_stays (ag : Agent) (message : String) (hw : w.Accounted) (he : w.HasEntry u t) :
    (ag.runGraph u t (checkpointKey u t) message).Stays (handle S) Accounted w := by
  have hchats := own_chats u t (fun _ => True)
  have hstays : (ag.runGraph u t (checkpointKey u t) message).Stays (handle S)
      (fun w => w.Accounted ∧ w.HasEntry u t) w :=
    .of_only (only_runGraph hchats.toConverses ag (only_writer hchats.toWrites ag.writer message .user))
      (fun i _ hi hw => ⟨answered_any S hw.1.matched u i, chatCall_accounted S u t hi hw.1 hw.2⟩) ⟨hw, he⟩
  exact fun w' hr => (hstays w' hr).1

theorem chat_stays (ag : Agent) (message : String) (hw : w.Accounted) :
    (ag.chat u t message).Stays (handle S) Accounted w := by
  refine .bind (quiet_stays S (only_checkpointThreadId trivial) hw) (fun key w₁ hkey _ => ?_)
  obtain ⟨rfl, rfl⟩ := checkpointThreadId_ok S hw.canonical hkey
  refine .bind (recordThread_stays S u t hw) (fun _ w₂ hrec hw₂ => ?_)
  have hentry : w₂.HasEntry u t := by
    have hrun : exec S (recordThread u t) w = (.ok _, w₂) := hrec
    rw [exec_recordThread S u t hw.canonical] at hrun
    cases hrun
    exact hasEntry_put _ _ _ _
  exact .bind (runGraph_stays S u t ag message hw₂ hentry) (fun result w₃ _ hw₃ => .ret hw₃)

theorem forgetMemory_stays (id : String) (hw : w.Accounted) : (forgetMemory u id).Stays (handle S) Accounted w := by
  refine quiet_stays S (Q := fun _ => True) (only_storeGet trivial (fun item _ => ?_)) hw
  split
  · exact .pure trivial
  · exact only_storeDelete trivial (.pure trivial)

/-- First the transcript, then its entry. -/
theorem dropThread_stays {α : Type} {rest : Act α} (hw : w.Accounted)
    (hrest : ∀ w : World, w.Accounted → rest.Stays (handle S) Accounted w) :
    (do deleteThread (checkpointKey u t); storeDelete (.threads u) t; rest).Stays (handle S) Accounted w := by
  refine .call hw (.call (hw.deleteThread _) (hrest _ ?_))
  exact (hw.deleteThread _).delete (by simp)

theorem forgetThread_stays (rounds : Nat) (hw : w.Accounted) :
    (forgetThread rounds u t).Stays (handle S) Accounted w := by
  refine .bind (quiet_stays S (only_checkpointThreadId trivial) hw) (fun key w₁ hkey _ => ?_)
  obtain ⟨rfl, rfl⟩ := checkpointThreadId_ok S hw.canonical hkey
  refine .bind (quiet_stays S (only_allKeys _ (fun _ _ => trivial) rounds) hw) (fun memories w₂ _ hw₂ => ?_)
  refine .bind (quiet_stays S (only_deleteAll _ (fun _ => trivial) _) hw₂) (fun _ w₃ _ hw₃ => ?_)
  exact dropThread_stays S u t hw₃ (fun w hw => .ret hw)

theorem deleteThreads_stays {pairs : List (String × String)} (hp : ∀ p ∈ pairs, p.2 = checkpointKey u p.1)
    (hw : w.Accounted) : (deleteThreads u pairs).Stays (handle S) Accounted w := by
  induction pairs generalizing w with
  | nil => exact .ret hw
  | cons p pairs ih =>
    obtain ⟨t, c⟩ := p
    obtain rfl : c = checkpointKey u t := hp _ List.mem_cons_self
    exact dropThread_stays S u t hw (fun w hw => ih (fun q hq => hp q (List.mem_cons_of_mem _ hq)) hw)

theorem forgetUser_stays (rounds : Nat) (hw : w.Accounted) : (forgetUser rounds u).Stays (handle S) Accounted w := by
  refine .bind (quiet_stays S (only_knownThreads (fun _ _ => trivial) rounds) hw) (fun threads w₁ _ hw₁ => ?_)
  refine .bind (quiet_stays S (only_checkpointIds (fun _ => trivial) threads) hw₁) (fun ids w₂ hids hw₂ => ?_)
  have hids : exec S (checkpointIds u threads) w₁ = (.ok ids, w₂) := hids
  rw [exec_checkpointIds_ok S w₁ (fun t _ => hw₁.canonical.not_legacy u t)] at hids
  cases hids
  refine .bind (quiet_stays S (only_allKeys _ (fun _ _ => trivial) rounds) hw₂) (fun memories w₃ _ hw₃ => ?_)
  refine .bind (quiet_stays S (only_deleteAll _ (fun _ => trivial) _) hw₃) (fun _ w₄ _ hw₄ => ?_)
  refine .bind (quiet_stays S (only_allKeys _ (fun _ _ => trivial) rounds) hw₄) (fun quarantined w₅ _ hw₅ => ?_)
  refine .bind (quiet_stays S (only_deleteAll _ (fun _ => trivial) _) hw₅) (fun _ w₆ _ hw₆ => ?_)
  refine .bind (deleteThreads_stays S u ?_ hw₆) (fun _ w₇ _ hw₇ => .ret hw₇)
  intro p hp
  rw [List.zip_eq_zipWith, List.zipWith_map_right, List.zipWith_self, List.mem_map] at hp
  obtain ⟨t, -, rfl⟩ := hp
  rfl

end Operations

/-! ## Runs -/

/-- Runs of operations from an empty backend, each stopped after any of its
calls or run to its end. -/
inductive FaultyRun (ag : Agent) : World → Prop
  | nil : FaultyRun ag Backend.empty
  | step {w w'} (h : FaultyRun ag w) (S : Services) (op : Op) (i : Input)
      (hr : Prog.Reaches (handle S) (ag.act (op.rounds w) op) (w.given i) w') : FaultyRun ag w'

theorem act_stays (ag : Agent) (S : Services) (rounds : Nat) (op : Op) {w : World} (hw : w.Accounted) :
    (ag.act rounds op).Stays (handle S) Accounted w := by
  cases op with
  | chat u t message => exact .map _ (chat_stays S u t ag message hw)
  | observe u text t source => exact .map _ (writer_stays S ag.writer u text t source hw)
  | forgetMemory u id => exact .map _ (forgetMemory_stays S u id hw)
  | forgetThread u t => exact .map _ (forgetThread_stays S u t rounds hw)
  | forgetUser u => exact .map _ (forgetUser_stays S u rounds hw)
  | wait => exact .map _ (quiet_stays S (Q := fun _ => True) (only_utcnow trivial (fun _ => .ret trivial)) hw)

theorem FaultyRun.accounted {ag : Agent} {w : World} (h : FaultyRun ag w) : w.Accounted := by
  induction h with
  | nil => exact accounted_empty
  | step _ S op i hr ih => exact act_stays ag S _ op (ih.given i) _ hr

/-- What `forget_user` does where every transcript is indexed. -/
theorem exec_forgetUser_accounted (ag : Agent) (S : Services) (i : Input) (u : String) {w : World} (hw : w.Accounted) :
    ag.perform S (.forgetUser u) (w.given i) =
      (.ok (.forgot ⟨u, (w.mem u).size, (w.store (.quarantine u)).size, sortedThreads S w u⟩),
      (w.given i).forgotten u) := by
  have hrun := exec_forgetUser_ok S (w.given i) u (le_refl _) (fun t _ => Canonical.not_legacy hw.canonical u t)
  exact (exec_map S _ _ _).trans
    (by rw [show (Op.forgetUser u).rounds (w.given i) = (w.given i).rounds u from rfl, hrun]; rfl)

/-- In every reachable state each transcript has an entry in the index, and
`forget_user` then returns, leaves nothing of the user behind, touches nothing
else and reports what there was; a second one finds nothing. -/
theorem forgetUser_complete (hsha : Function.Injective Host.sha256) {ag : Agent} {w : World} (h : FaultyRun ag w) :
    w.Indexed ∧ ∀ (S : Services) (i : Input) (u : String),
      ∃ report w', ag.perform S (.forgetUser u) (w.given i) = (.ok (.forgot report), w') ∧
        (∀ ns, ns.user = u → w'.store ns = .empty) ∧ (∀ t, w'.checkpoints (checkpointKey u t) = none) ∧
        (∀ ns, ns.user ≠ u → w'.store ns = w.store ns) ∧
        (∀ v t, v ≠ u → w'.checkpoints (checkpointKey v t) = w.checkpoints (checkpointKey v t)) ∧
        report.memoriesDeleted = (w.mem u).size ∧ report.quarantineDeleted = (w.store (.quarantine u)).size ∧
        report.threadsDeleted.Perm (w.store (.threads u)).keys ∧
        ∀ S' i', ∃ report' w'', ag.perform S' (.forgetUser u) (w'.given i') = (.ok (.forgot report'), w'') ∧
          report'.total = 0 := by
  have hw := h.accounted
  refine ⟨hw.indexed, fun S i u => ⟨_, _, exec_forgetUser_accounted ag S i u hw, ?_⟩⟩
  have hempty : ∀ ns : Namespace, ns.user = u → ((w.given i).forgotten u).store ns = .empty := fun ns hns => if_pos hns
  refine ⟨hempty, fun t => ?_, fun ns hns => if_neg hns, fun v t hv => if_neg ?_, rfl, rfl,
    sortedThreads_perm S w u, fun S' i' => ?_⟩
  · show (if _ then none else w.checkpoints (checkpointKey u t)) = none
    split
    · rfl
    · next hnot =>
      cases hms : w.checkpoints (checkpointKey u t) with
      | none => rfl
      | some ms =>
        -- It would have an entry, and every entry's transcript is erased.
        obtain ⟨u', t', e, hkey, hget, -⟩ := hw.indexed _ ms hms
        obtain ⟨rfl, rfl⟩ := checkpointKey_inj hsha hkey
        exact absurd (List.mem_map.2 ⟨t, Dict.mem_keys_iff.2 ⟨e, hget⟩, rfl⟩) hnot
  · intro hmem
    obtain ⟨t', -, hkey⟩ := List.mem_map.1 hmem
    exact hv (checkpointKey_inj hsha hkey).1.symm
  · have hw' : ((w.given i).forgotten u).Accounted := by
      have hrun := FaultyRun.accounted (.step h S (.forgetUser u) i (Prog.reaches_run _ _))
      rw [show (Prog.run (handle S) (ag.act ((Op.forgetUser u).rounds w) (.forgetUser u)) (w.given i)).2 = _ from
        congrArg Prod.snd (exec_forgetUser_accounted ag S i u hw)] at hrun
      exact hrun
    refine ⟨_, _, exec_forgetUser_accounted ag S' i' u hw', ?_⟩
    have hthreads := (sortedThreads_perm S' ((w.given i).forgotten u) u).length_eq
    rw [hempty (.threads u) rfl] at hthreads
    simp only [ForgetReport.total, hempty (.memories u) rfl, hempty (.quarantine u) rfl, hthreads]
    rfl

end Engram

/-! ## An interrupted chat -/

namespace Engram

open Backend

attribute [local instance] ascii

/-- A chat whose model call fails: its index entry and the first state of its
transcript are written, its reply is not. -/
def interrupted : World :=
  Prog.cut (handle teamBackend) 7 (Agent.act ⟨⟨5⟩, .manager lenient, true⟩ 0 (.chat "alice" "t1" "hi"))
    (Backend.empty.given (.at 1 'a'))

/-- Its transcript is there before forget-me, and not after. -/
theorem forgetUser_complete_interrupted :
    (interrupted.checkpoints (checkpointKey "alice" "t1")).isSome ∧
      ∃ report w', Agent.perform ⟨⟨5⟩, .manager lenient, true⟩ teamBackend (.forgetUser "alice")
        (interrupted.given (.at 2 'b')) = (.ok (.forgot report), w') ∧
          report.threadsDeleted.length = 1 ∧ w'.checkpoints (checkpointKey "alice" "t1") = none := by
  have hrun : FaultyRun ⟨⟨5⟩, .manager lenient, true⟩ interrupted :=
    .step .nil teamBackend (.chat "alice" "t1" "hi") (.at 1 'a') (Prog.reaches_cut 7 _ _)
  obtain ⟨report, w', hperform, -, htranscripts, -, -, -, -, hthreads, -⟩ :=
    (forgetUser_complete digest_injective hrun).2 teamBackend (.at 2 'b') "alice"
  refine ⟨by decide +kernel, report, w', hperform, ?_, htranscripts "t1"⟩
  have hkeys : (interrupted.store (.threads "alice")).keys.length = 1 := by decide +kernel
  exact hthreads.length_eq.trans hkeys

end Engram
