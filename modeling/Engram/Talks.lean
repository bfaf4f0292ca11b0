import Engram.Chats
import Engram.Executions
/-!
# Conversations as their users see them

What transcripts and the thread index are for: `Talks` is what was said on each
thread of each user since it was last forgotten. Every run is a run of these.
-/

namespace Engram

open Backend Text

variable [Host]

/-! ## Talks -/

/-- What was said on each user's threads. -/
abbrev Talks := String → String → List Message

namespace Talks

def none : Talks := fun _ _ => []

/-- What `u` has on the thread `t` is now `messages`. -/
def set (k : Talks) (u t : String) (messages : List Message) : Talks :=
  Function.update k u (Function.update (k u) t messages)

def drop (k : Talks) (u : String) : Talks := Function.update k u (fun _ => [])

/-- What an operation with its result does to the talks. -/
inductive Step : Talks → Done → Talks → Prop
  | chat {k u t message i result} (reply : Option String)
      (h : (∃ trace : TurnTrace, result = .ok (.turn trace) ∧ trace.reply = reply.getD "") ∨ ∃ e, result = .error e) :
      Step k ⟨.chat u t message, i, result⟩ (k.set u t (k u t ++ [⟨.human, some message⟩, ⟨.ai, reply⟩]))
  | observe {k u text t source i result} : Step k ⟨.observe u text t source, i, result⟩ k
  | forgetMemory {k u id i result} : Step k ⟨.forgetMemory u id, i, result⟩ k
  | forgetThread {k u t i n} : Step k ⟨.forgetThread u t, i, .ok (.forgot ⟨u, n, 0, [t]⟩)⟩ (k.set u t [])
  | forgetUser {k u i n q threads} (hsorted : threads.Pairwise (· ≤ ·)) (hnodup : threads.Nodup)
      (hall : ∀ t, t ∈ threads ↔ k u t ≠ []) :
      Step k ⟨.forgetUser u, i, .ok (.forgot ⟨u, n, q, threads⟩)⟩ (k.drop u)
  | wait {k i result} : Step k ⟨.wait, i, result⟩ k

variable (k : Talks) (u t v s : String) (messages : List Message)

omit [Host]

theorem set_self : k.set u t messages u t = messages := by simp [set]

theorem set_of_ne (h : (v, s) ≠ (u, t)) : k.set u t messages v s = k v s := by
  unfold set
  by_cases hv : v = u
  · subst hv
    rw [Function.update_self, Function.update_of_ne]
    rintro rfl
    exact h rfl
  · rw [Function.update_of_ne hv]

theorem drop_self : k.drop u u s = [] := by simp [drop]

theorem drop_of_ne (h : v ≠ u) : k.drop u v s = k v s := by simp [drop, h]

end Talks

/-- A plain message, as `type: content`. -/
def Message.line (m : Message) : Option String := m.content.map (fun content => m.role.str ++ ": " ++ content)

/-! ## Worlds that hold them -/

/-- The transcripts and the index are those of the talks `k`. -/
structure Backend.Recounts (w : World) (k : Talks) : Prop where
  accounted : w.Accounted
  transcript : ∀ u t, w.checkpoints (checkpointKey u t) = if k u t = [] then none else some (k u t)
  entry : ∀ u t, w.HasEntry u t ↔ k u t ≠ []

namespace Backend.Recounts
variable {S : Services} {w w' : World} {k : Talks} {u t : String}

theorem empty : Backend.empty.Recounts Talks.none where
  accounted := accounted_empty
  transcript _ _ := rfl
  entry _ _ := ⟨fun ⟨_, h⟩ => (by cases h), fun h => absurd rfl h⟩

theorem given (h : w.Recounts k) (i : Input) : (w.given i).Recounts k := ⟨h.accounted.given i, h.transcript, h.entry⟩

theorem same (h : w.Recounts k) (hw' : w'.Accounted) (hs : SameTalk w w') : w'.Recounts k where
  accounted := hw'
  transcript u t := by rw [hs.checkpoints]; exact h.transcript u t
  entry u t := by unfold HasEntry; rw [hs.threads]; exact h.entry u t

theorem transcript_eq (h : w.Recounts k) (u t : String) : w.transcript u t = k u t := by
  unfold Backend.transcript
  rw [h.transcript]
  split
  · next hk => exact hk.symm
  · rfl

end Backend.Recounts

/-! ## One operation -/

section Operations
variable {ag : Agent} {S : Services} {w w' : World} {k : Talks} {u t : String}

/-- A chat notes its thread and adds the message and the reply; an error of the
writer comes after both. -/
theorem chat_talk (ag : Agent) (S : Services) (u t message : String) (hc : w.Canonical) :
    ∃ reply : Option String,
      ((∃ trace, (exec S (ag.chat u t message) w).1 = .ok trace ∧ trace.reply = reply.getD "") ∨
        ∃ e, (exec S (ag.chat u t message) w).1 = .error e) ∧
      SameTalk ((w.received u t message).setState (checkpointKey u t) (some (w.heard u t message ++ [⟨.ai, reply⟩])))
        (exec S (ag.chat u t message) w).2 := by
  cases hmem : ag.memory with
  | false =>
    rw [Agent.exec_chat_stateless S ag message hmem hc]
    exact ⟨_, .inl ⟨_, rfl, rfl⟩, .refl _⟩
  | true =>
    obtain ⟨recalled, -, w₂, -, hsame, -, -, -, hrun⟩ := Agent.exec_chat_memory S ag message hmem hc (u := u) (t := t)
    rw [hrun]
    refine ⟨Agent.answer S recalled (w.heard u t message), ?_, ?_⟩
    · rcases (exec S (ag.writer.apply u message (some t) .user) w₂).1 with e | report
      · exact .inr ⟨e, rfl⟩
      · exact .inl ⟨_, rfl, rfl⟩
    · exact hsame.talk.trans (writer_talk S ag.writer u message (some t) .user w₂)

theorem SameTalk.canonical (h : SameTalk w w') (hc : w.Canonical) : w'.Canonical :=
  fun u t e hget => hc u t e (h.threads u ▸ hget)

theorem SameTalk.transcript (h : SameTalk w w') (u t : String) : w'.transcript u t = w.transcript u t := by
  rw [Backend.transcript, h.checkpoints, Backend.transcript]

/-- A chat leaves the other conversations, and its thread is in the index with its key. -/
theorem chat_leaves (hsha : Function.Injective Host.sha256) (ag : Agent) (S : Services) (u t message : String)
    (hc : w.Canonical) :
    (exec S (ag.chat u t message) w).2.Canonical ∧
      ∀ v s, (v, s) ≠ (u, t) → (exec S (ag.chat u t message) w).2.transcript v s = w.transcript v s := by
  obtain ⟨reply, -, htalk⟩ := chat_talk ag S u t message hc
  refine ⟨fun v s e hget => ?_, fun v s hvs => ?_⟩
  · rw [htalk.threads] at hget
    change ((w.put (.threads u) t ⟨t, some (checkpointKey u t), some (w.clock 0)⟩).store (.threads v)).get s =
      some e at hget
    by_cases hvs : (v, s) = (u, t)
    · obtain ⟨rfl, rfl⟩ := Prod.mk.inj hvs
      rw [get_put_self] at hget
      exact Option.some.inj hget ▸ rfl
    · rw [get_put_of_ne] at hget
      · exact hc v s e hget
      · rintro ⟨hv, rfl⟩
        cases hv
        exact hvs rfl
  · have hkey : checkpointKey v s ≠ checkpointKey u t := fun hk => by
      obtain ⟨rfl, rfl⟩ := checkpointKey_inj hsha hk
      exact hvs rfl
    rw [htalk.transcript, Backend.transcript, checkpoints_setState, Function.update_of_ne hkey,
      received, checkpoints_setState, Function.update_of_ne hkey]
    rfl

theorem Backend.Recounts.chat (hsha : Function.Injective Host.sha256) (h : w.Recounts k)
    {message : String} {reply : Option String}
    (hw' : w'.Accounted) (hs : SameTalk ((w.received u t message).setState (checkpointKey u t)
      (some (w.heard u t message ++ [⟨.ai, reply⟩]))) w') :
    w'.Recounts (k.set u t (k u t ++ [⟨.human, some message⟩, ⟨.ai, reply⟩])) := by
  have hthreads : ∀ v, w'.store (.threads v) =
      (w.put (.threads u) t ⟨t, some (checkpointKey u t), some (w.clock 0)⟩).store (.threads v) := hs.threads
  refine ⟨hw', fun v s => ?_, fun v s => ?_⟩
  · rw [hs.checkpoints, checkpoints_setState]
    by_cases hvs : (v, s) = (u, t)
    · obtain ⟨rfl, rfl⟩ := Prod.mk.inj hvs
      rw [Function.update_self, Talks.set_self, if_neg (by simp), heard, h.transcript_eq, List.append_assoc]
      rfl
    · have hkey : checkpointKey v s ≠ checkpointKey u t := fun hk => by
        obtain ⟨rfl, rfl⟩ := checkpointKey_inj hsha hk
        exact hvs rfl
      rw [Function.update_of_ne hkey, received, checkpoints_setState, Function.update_of_ne hkey,
        k.set_of_ne u t v s _ hvs]
      exact h.transcript v s
  · unfold HasEntry
    rw [hthreads]
    by_cases hvs : (v, s) = (u, t)
    · obtain ⟨rfl, rfl⟩ := Prod.mk.inj hvs
      rw [Talks.set_self]
      exact iff_of_true ⟨_, get_put_self⟩ (by simp)
    · rw [k.set_of_ne u t v s _ hvs, get_put_of_ne]
      · exact h.entry v s
      · rintro ⟨hv, rfl⟩
        cases hv
        exact hvs rfl

theorem Backend.Recounts.forgetThread (hsha : Function.Injective Host.sha256) (h : w.Recounts k) (hw' : w'.Accounted)
    (hl : LeftOf S u t w w') : w'.Recounts (k.set u t []) := by
  refine ⟨hw', fun v s => ?_, fun v s => ?_⟩
  · by_cases hvs : (v, s) = (u, t)
    · obtain ⟨rfl, rfl⟩ := Prod.mk.inj hvs
      rw [hl.transcript, Talks.set_self, if_pos rfl]
    · rw [hl.transcripts, k.set_of_ne u t v s _ hvs, h.transcript]
      intro hk
      obtain ⟨rfl, rfl⟩ := checkpointKey_inj hsha hk
      exact hvs rfl
  · unfold HasEntry
    by_cases hv : v = u
    · subst hv
      rw [hl.threads]
      by_cases hs : s = t
      · subst hs
        rw [Dict.get_erase_self, Talks.set_self]
        simp
      · rw [Dict.get_erase_of_ne _ hs, k.set_of_ne _ _ _ _ _ (fun he => hs (Prod.mk.inj he).2)]
        exact h.entry v s
    · rw [hl.others (.threads v) hv, k.set_of_ne _ _ _ _ _ (fun he => hv (Prod.mk.inj he).1)]
      exact h.entry v s

theorem Backend.Recounts.forgetUser (hsha : Function.Injective Host.sha256) (h : w.Recounts k)
    (hw' : (w.forgotten u).Accounted) : (w.forgotten u).Recounts (k.drop u) := by
  have hkeys : ∀ s, s ∈ (w.store (.threads u)).keys ↔ k u s ≠ [] := by
    intro s
    rw [← h.entry u s, HasEntry, ← Option.isSome_iff_exists, Option.isSome_iff_ne_none, ne_eq,
      Dict.get_eq_none_iff, not_not]
  refine ⟨hw', fun v s => ?_, fun v s => ?_⟩
  · change (if checkpointKey v s ∈ (w.store (.threads u)).keys.map (checkpointKey u) then none else
      w.checkpoints (checkpointKey v s)) = _
    by_cases hv : v = u
    · subst hv
      rw [Talks.drop_self, if_pos rfl]
      split
      · rfl
      · next hs =>
        rw [h.transcript, if_pos]
        by_contra hne
        exact hs (List.mem_map_of_mem ((hkeys s).2 hne))
    · rw [if_neg, h.transcript, k.drop_of_ne u v s hv]
      intro hmem
      obtain ⟨s', -, hk⟩ := List.mem_map.1 hmem
      exact hv (checkpointKey_inj hsha hk).1.symm
  · change (∃ e, (if v = u then Dict.empty else w.store (.threads v)).get s = some e) ↔ _
    by_cases hv : v = u
    · subst hv
      rw [if_pos rfl, Talks.drop_self]
      exact iff_of_false (fun ⟨_, he⟩ => by cases he) (by simp)
    · rw [if_neg hv, k.drop_of_ne u v s hv]
      exact h.entry v s

end Operations

/-! ## Runs -/

section Runs
variable {ag : Agent} {S : Services} {w w' : World} {k : Talks} {d : Done}

omit [Host] in
theorem mute_forgetMemory [Host] (u id : String) : (forgetMemory u id).Only (fun _ _ => True) Mute (fun _ => True) := by
  refine only_storeGet trivial (fun item _ => ?_)
  split
  · exact .pure trivial
  · exact only_storeDelete trivial (.pure trivial)

theorem sortedThreads_nodup (S : Services) (w : World) (u : String) : (sortedThreads S w u).Nodup :=
  (sortedThreads_perm S w u).nodup_iff.2 (w.store (.threads u)).nodup

/-- Each operation does to the talks what its result says. -/
theorem Agent.Executes.talks (hsha : Function.Injective Host.sha256) (hd : ag.Executes w d w') (h : w.Recounts k) :
    ∃ k', Talks.Step k d k' ∧ w'.Recounts k' := by
  have hacc := hd.accounted h.accounted
  obtain ⟨-, S, hrun⟩ := hd
  obtain ⟨op, i, result⟩ := d
  dsimp only at hrun
  have hi : (w.given i).Recounts k := h.given i
  cases op with
  | chat u t message =>
    have hmap : ag.perform S (.chat u t message) (w.given i) = _ := exec_map S (w.given i) _ _
    obtain ⟨reply, hreply, htalk⟩ := chat_talk ag S u t message hi.accounted.canonical
    rw [hrun] at hmap
    obtain ⟨rfl, rfl⟩ := Prod.mk.inj hmap
    refine ⟨_, .chat reply ?_, hi.chat hsha hacc htalk⟩
    rcases hreply with ⟨trace, htrace, heq⟩ | ⟨e, he⟩
    · exact .inl ⟨trace, by rw [htrace]; rfl, heq⟩
    · exact .inr ⟨e, by rw [he]; rfl⟩
  | observe u text t source =>
    have hmap : ag.perform S (.observe u text t source) (w.given i) = _ := exec_map S (w.given i) _ _
    rw [hrun] at hmap
    obtain ⟨rfl, rfl⟩ := Prod.mk.inj hmap
    exact ⟨k, .observe, hi.same hacc (writer_talk S ag.writer u text t source _)⟩
  | forgetMemory u id =>
    have hmap : ag.perform S (.forgetMemory u id) (w.given i) = _ := exec_map S (w.given i) _ _
    rw [hrun] at hmap
    obtain ⟨rfl, rfl⟩ := Prod.mk.inj hmap
    exact ⟨k, .forgetMemory, hi.same hacc (mute_exec S (mute_forgetMemory u id))⟩
  | forgetThread u t =>
    obtain ⟨r, rfl⟩ := forgetThread_returns ag hi.accounted.canonical hrun
    obtain ⟨rfl, hleft⟩ := perform_forgetThread ag hrun
    exact ⟨_, .forgetThread, hi.forgetThread hsha hacc hleft⟩
  | forgetUser u =>
    have hmap := exec_forgetUser_accounted ag S i u h.accounted
    rw [hrun] at hmap
    obtain ⟨rfl, rfl⟩ := Prod.mk.inj hmap
    refine ⟨_, .forgetUser (List.pairwise_insertionSort _ _) (sortedThreads_nodup S w u) (fun t => ?_),
      hi.forgetUser hsha hacc⟩
    rw [(sortedThreads_perm S w u).mem_iff, ← h.entry u t, HasEntry, ← Option.isSome_iff_exists,
      Option.isSome_iff_ne_none, ne_eq, Dict.get_eq_none_iff, not_not]
  | wait =>
    have hmap : ag.perform S .wait (w.given i) = _ := exec_map S (w.given i) _ _
    rw [hrun] at hmap
    obtain ⟨rfl, rfl⟩ := Prod.mk.inj hmap
    exact ⟨k, .wait, hi.same hacc (mute_exec S (Q := fun _ => True) (only_utcnow trivial (fun _ => .ret trivial)))⟩

/-- Whatever is run on an empty backend, its transcripts and its thread index are
one account of what was said: a chat adds the message and the reply to its
thread, forgetting clears what it names, and nothing else touches it. Forgetting
a user reports the threads that had something, forgetting a thread always itself.
`history` reads it back. -/
theorem run_talks (hsha : Function.Injective Host.sha256) {ds : List Done} (h : Steps ag.Executes Backend.empty ds w) :
    ∃ k, Steps Talks.Step Talks.none ds k ∧ ∀ u t,
      w.checkpoints (checkpointKey u t) = (if k u t = [] then none else some (k u t)) ∧ (w.HasEntry u t ↔ k u t ≠ []) ∧
        ∀ S, exec S (Agent.history u t) w = (.ok ((k u t).filterMap Message.line), w) := by
  obtain ⟨k, hk, hw⟩ := h.simulated (fun w d w' k hw hd => hd.talks hsha hw) Backend.Recounts.empty
  refine ⟨k, hk, fun u t => ⟨hw.transcript u t, hw.entry u t, fun S => ?_⟩⟩
  rw [Agent.history, exec_bind_of_ok S w (exec_checkpointThreadId_ok S w (hw.accounted.canonical.not_legacy u t)),
    exec_getState, exec_pure]
  refine Prod.ext (congrArg Except.ok ?_) rfl
  exact congrArg (List.filterMap Message.line) (hw.transcript_eq u t)

end Runs

end Engram

/-! ## A first message -/

namespace Engram

open Backend

attribute [local instance] ascii

def greeter : Agent := ⟨⟨5⟩, .manager lenient, true⟩

def greeted : World := (greeter.perform teamBackend (.chat "alice" "t1" "hi") (Backend.empty.given (.at 1 'a'))).2

/-- The message and the reply are read back. -/
theorem run_talks_greeted :
    exec teamBackend (Agent.history "alice" "t1") greeted = (.ok ["human: hi", "ai: ok"], greeted) := by
  have hvalid : (Input.at 1 'a').Valid Backend.empty := Stamped.empty.valid (by decide) (by decide)
  have hrun : Steps greeter.Executes Backend.empty _ greeted :=
    steps_perform .nil teamBackend (.chat "alice" "t1" "hi") hvalid
  obtain ⟨k, -, hall⟩ := run_talks digest_injective hrun
  obtain ⟨hsaved, -, hread⟩ := hall "alice" "t1"
  have hfound : greeted.checkpoints (checkpointKey "alice" "t1") = some [⟨.human, some "hi"⟩, ⟨.ai, some "ok"⟩] := by
    decide +kernel
  rw [hfound] at hsaved
  split at hsaved
  · cases hsaved
  · rw [hread, ← Option.some.inj hsaved]
    rfl

end Engram
