import Engram.Completeness
import Engram.Eval
import Engram.Lib.Lines
import Engram.Returns
import Engram.Users
/-!
# Cases of a benchmark

The cases of an arm share one store and one checkpointer, so all depends on
their user keys. With different keys a case is scored as if it were alone. With
equal keys the naive arm shows it: what it stores for a case is counted with
what it stored for the earlier ones.
-/

namespace Engram.Eval

open Backend Text

variable [Host]

/-! ## What is loaded -/

section Load
variable {path : String} {repr : String → String} {parse : String → Except String EvalCase}

omit [Host] in
theorem loadFrom_nodup {lines : List String} {lineno : Nat} {cases cases' : List EvalCase}
    (hids : (cases.map (·.id)).Nodup) (h : loadFrom path repr parse lines lineno cases = .ok cases') :
    (cases'.map (·.id)).Nodup := by
  induction lines generalizing lineno cases with
  | nil =>
    cases h
    exact hids
  | cons raw rest ih =>
    simp only [loadFrom] at h
    split at h
    · exact ih hids h
    split at h
    · cases h
    split at h
    · cases h
    · next case _ hid =>
      refine ih ?_ h
      rw [List.map_append, List.map_singleton, List.nodup_append]
      exact ⟨hids, List.nodup_singleton _, fun a ha b hb he => hid (by rwa [← List.mem_singleton.1 hb, ← he])⟩

omit [Host] in
/-- A line that is not blank, not a comment and has no space around it. -/
theorem loadFrom_case {raw : String} {rest : List String} {lineno : Nat} {cases : List EvalCase} {c : EvalCase}
    (hline : strip raw = raw ∧ ¬ (raw = "" ∨ startswith raw "#")) (hparse : parse raw = .ok c)
    (hid : c.id ∉ cases.map (·.id)) : loadFrom path repr parse (raw :: rest) lineno cases =
      loadFrom path repr parse rest (lineno + 1) (cases ++ [c]) := by
  rw [loadFrom, hline.1, if_neg hline.2, hparse]
  exact if_neg hid

omit [Host] in
/-- `load_cases` returns some cases, of different ids. -/
theorem loadCases_ok {lines : List String} {cases : List EvalCase} (h : loadCases path repr parse lines = .ok cases) :
    cases ≠ [] ∧ (cases.map (·.id)).Nodup := by
  unfold loadCases at h
  split at h
  · cases h
  · next hne => exact ⟨fun he => hne (he ▸ h), loadFrom_nodup (by simp) h⟩

omit [Host] in
/-- An id without a colon is the user key's part before its first. -/
theorem id_eq_of_userKey {c c' : EvalCase} (hc : ':' ∉ c.id.toList) (hc' : ':' ∉ c'.id.toList)
    (h : c.userKey = c'.userKey) : c.id = c'.id := by
  have hl := congrArg String.toList h
  simp only [EvalCase.userKey, String.toList_append, List.append_assoc] at hl
  rw [show ":".toList = [':'] from rfl, List.singleton_append, List.singleton_append] at hl
  have hbefore : ∀ (id user : List Char), ':' ∉ id → (id ++ ':' :: user).takeWhile (· ≠ ':') = id := by
    intro id user hid
    rw [List.takeWhile_append_of_pos (fun a ha => decide_eq_true (ne_of_mem_of_not_mem ha hid)),
      List.takeWhile_cons_of_neg (by simp), List.append_nil]
  rw [← String.toList_inj, ← hbefore _ c.userId.toList hc, hl, hbefore _ _ hc']

omit [Host] in
/-- So cases that are loaded have different user keys if no id has a colon. -/
theorem userKeys_nodup {lines : List String} {cases : List EvalCase} (h : loadCases path repr parse lines = .ok cases)
    (hcolon : ∀ c ∈ cases, ':' ∉ c.id.toList) : (cases.map (·.userKey)).Nodup := by
  have hids := (loadCases_ok h).2
  rw [List.Nodup, List.pairwise_map] at hids ⊢
  exact hids.imp_of_mem (fun hc hc' hne he => hne (id_eq_of_userKey (hcolon _ hc) (hcolon _ hc') he))

end Load

/-! ## One case -/

section Only
variable {c : EvalCase}

theorem only_own_chat (ag : Agent) (u t message : String) :
    (ag.chat u t message).Only (Answered u (fun _ => True)) (LocalPut u) (fun _ => True) :=
  (only_chat (own_chats u t _) ag message).mono (fun _ => .of_chat) (fun _ _ => trivial)

theorem only_replayTurn (ag : Agent) (thread : String) (turn : Turn) : (replayTurn ag c thread turn).Only
    (Answered c.userKey (fun _ => True)) (LocalPut c.userKey) (fun _ => True) := by
  unfold replayTurn
  split
  · exact .map _ (only_own_chat ag _ _ _)
  · refine .map _ ((only_writer (own_writes c.userKey (some thread) _) ag.writer turn.text turn.source).mono ?_ ?_)
    · exact fun _ => .of_write
    · exact fun _ _ => trivial

theorem only_replayTurns (ag : Agent) (thread : String) (turns : List Turn) : (replayTurns ag c thread turns).Only
    (Answered c.userKey (fun _ => True)) (LocalPut c.userKey) (fun _ => True) := by
  induction turns with
  | nil => exact .pure trivial
  | cons turn turns ih => exact .seq (only_replayTurn ag thread turn) (fun _ _ => ih)

theorem only_replaySessions (ag : Agent) (sessions : List Session) : (replaySessions ag c sessions).Only
    (Answered c.userKey (fun _ => True)) (LocalPut c.userKey) (fun _ => True) := by
  induction sessions with
  | nil => exact .pure trivial
  | cons session sessions ih => exact .seq (only_replayTurns ag _ session.turns) (fun _ _ => ih)

theorem only_liveMemories (u : String) :
    (liveMemories u).Only (Answered u (fun _ => True)) (LocalPut u) (fun _ => True) := by
  refine .seq (R := fun _ => True) ?_
    (fun ms _ => (only_activeOnly ⟨trivial, trivial⟩ ms).mono (fun _ => id) (fun _ _ => trivial))
  exact only_storeSearch ⟨rfl, trivial⟩ (fun _ _ => .pure trivial)

/-- A case makes calls on the data of its user key only. -/
theorem only_runCase (ag : Agent) (c : EvalCase) (memory : Bool) : (runCase ag c memory).Only
    (Answered c.userKey (fun _ => True)) (LocalPut c.userKey) (fun _ => True) := by
  refine .seq (only_replaySessions ag c.sessions) (fun _ _ => .seq (only_own_chat ag _ _ _) (fun trace _ => ?_))
  split
  · exact .seq (only_liveMemories c.userKey) (fun _ _ => .pure trivial)
  · exact .pure trivial

end Only

/-! ## Cases apart -/

section Apart
variable {S : Services} (feed : EvalCase → Input) (ag : Agent) (memory : Bool)

variable {feed ag memory} in
theorem runCases_cons_error {c : EvalCase} {cs : List EvalCase} {w w' : World} {e : Error}
    (h : exec S (runCase ag c memory) (w.given (feed c)) = (.error e, w')) :
    runCases ag memory S feed (c :: cs) w = (.error e, w') := by
  rw [runCases, h]

variable {feed ag memory} in
theorem runCases_cons_ok {c : EvalCase} {cs : List EvalCase} {w w' : World} {r : CaseResult}
    (h : exec S (runCase ag c memory) (w.given (feed c)) = (.ok r, w')) : runCases ag memory S feed (c :: cs) w =
      ((runCases ag memory S feed cs w').1.map (r :: ·), (runCases ag memory S feed cs w').2) := by
  rw [runCases, h]
  dsimp only
  rcases runCases ag memory S feed cs w' with ⟨_ | _, _⟩ <;> rfl

/-- The case on a backend of its own. -/
def alone (S : Services) (c : EvalCase) : Except Error CaseResult :=
  (exec S (runCase ag c memory) (Backend.empty.given (feed c))).1

/-- Every result is the case's own, and so is the error that ends the run, if any. -/
def Apart (S : Services) (cases : List EvalCase) : Except Error (List CaseResult) → Prop
  | .ok results => List.Forall₂ (fun c r => alone feed ag memory S c = .ok r) cases results
  | .error e => ∃ c ∈ cases, alone feed ag memory S c = .error e

/-- On a backend with nothing of the users of the cases. -/
theorem apart_runCases (hsha : Function.Injective Host.sha256) {cases : List EvalCase}
    (hkeys : (cases.map (·.userKey)).Nodup) {w : World}
    (hw : ∀ c ∈ cases, Alike S (View.of c.userKey) w Backend.empty) :
    Apart feed ag memory S cases (runCases ag memory S feed cases w).1 := by
  induction cases generalizing w with
  | nil => exact .nil
  | cons c cs ih =>
    obtain ⟨hnot, hkeys⟩ := List.nodup_cons.1 hkeys
    have honly := only_runCase ag c memory
    have hfirst : (exec S (runCase ag c memory) (w.given (feed c))).1 = alone feed ag memory S c :=
      (((hw c List.mem_cons_self).given (feed c)).exec ⟨rfl, rfl⟩
        (honly.mono (fun _ hi => ⟨hi.1.reads, hi.2⟩) (fun _ => id))).1
    -- The case leaves the data of the others.
    have hrest : ∀ c' ∈ cs, Alike S (View.of c'.userKey)
        (exec S (runCase ag c memory) (w.given (feed c))).2 Backend.empty := by
      intro c' hc'
      have hne : c.userKey ≠ c'.userKey := fun he => hnot (List.mem_map.2 ⟨c', hc', he.symm⟩)
      have h := hw c' (List.mem_cons_of_mem _ hc')
      have hgiven : Alike S (View.of c'.userKey) (w.given (feed c)) Backend.empty :=
        ⟨h.store, h.checkpoints, h.matched.congr (fun _ => rfl), h.matched', h.sound, h.sound'⟩
      exact hgiven.exec_left (honly.mono (fun _ hi => ⟨hi.1.avoids hsha hne, hi.2⟩) (fun _ => id))
    rcases hrun : exec S (runCase ag c memory) (w.given (feed c)) with ⟨e | r, w₁⟩
    · rw [runCases_cons_error hrun]
      exact ⟨c, List.mem_cons_self, by rw [← hfirst, hrun]⟩
    · have hapart := ih hkeys (w := w₁) (by rwa [hrun] at hrest)
      rw [runCases_cons_ok hrun]
      cases hruns : (runCases ag memory S feed cs w₁).1 with
      | error e =>
        rw [hruns] at hapart
        obtain ⟨c', hc', he⟩ := hapart
        exact ⟨c', List.mem_cons_of_mem _ hc', he⟩
      | ok rs =>
        rw [hruns] at hapart
        exact List.Forall₂.cons (by rw [← hfirst, hrun]) hapart

end Apart

/-! ## What the naive arm stores -/

/-- Nothing stored will retire or expire, no thread is a legacy one, and the ids to come are new. -/
structure Ready (w : World) : Prop where
  canonical : w.Canonical
  lasting : ∀ {u k m}, (w.mem u).get k = some m → m.supersededBy = none ∧ m.expiresAt = none
  ids_inj : Function.Injective w.ids
  ids_new : ∀ n u, w.ids n ∉ (w.mem u).keys

theorem ready_empty {i : Input} (hi : Function.Injective i.ids) : Ready (Backend.empty.given i) where
  canonical _ _ _ h := by cases h
  lasting h := by cases h
  ids_inj := hi
  ids_new _ _ h := by cases h

/-- `n` memories of `u` were added, under ids that were to come. -/
structure Added (u : String) (n : Nat) (w w' : World) : Prop where
  ready : Ready w'
  size : (w'.mem u).size = (w.mem u).size + n
  others : ∀ v, v ≠ u → w'.mem v = w.mem v
  keys : ∀ k ∈ (w'.mem u).keys, k ∈ (w.mem u).keys ∨ ∃ j, k = w.ids j
  ids : ∀ j, ∃ j', w'.ids j = w.ids j'

theorem Added.trans {u : String} {n n' : Nat} {w w' w'' : World} (h : Added u n w w') (h' : Added u n' w' w'') :
    Added u (n + n') w w'' where
  ready := h'.ready
  size := by rw [h'.size, h.size, Nat.add_assoc]
  others v hv := (h'.others v hv).trans (h.others v hv)
  keys k hk := by
    rcases h'.keys k hk with hk | ⟨j, rfl⟩
    · exact h.keys k hk
    · exact .inr (h.ids j)
  ids j := by
    obtain ⟨j', hj⟩ := h'.ids j
    rw [hj]
    exact h.ids j'

/-- Nothing was added, and no id was used. -/
theorem added_zero {w w' : World} (hw : Ready w) (u : String) (hc : w'.Canonical) (hm : ∀ v, w'.mem v = w.mem v)
    (hi : w'.ids = w.ids) : Added u 0 w w' where
  ready := ⟨hc, fun hget => hw.lasting (hm _ ▸ hget), hi ▸ hw.ids_inj, fun n v => by rw [hi, hm]; exact hw.ids_new n v⟩
  size := by rw [hm, Nat.add_zero]
  others v _ := hm v
  keys k hk := .inl (hm u ▸ hk)
  ids j := ⟨j, by rw [hi]⟩

/-- The next id was used for one more memory. -/
theorem added_put {w : World} (hw : Ready w) {u : String} {m : Memory}
    (hl : m.supersededBy = none ∧ m.expiresAt = none) :
    Added u 1 w (w.issue.tick.tick.put (.memories u) (w.ids 0) m) := by
  have hkeys : ∀ {v k}, k ∈ ((w.issue.tick.tick.put (.memories u) (w.ids 0) m).mem v).keys →
      k = w.ids 0 ∨ k ∈ (w.mem v).keys := by
    intro v k hk
    obtain ⟨n, hget⟩ := Dict.mem_keys_iff.1 hk
    rcases get_put hget with ⟨-, hk, -⟩ | hget
    · exact .inl hk
    · exact .inr (Dict.mem_keys_iff.2 ⟨n, hget⟩)
  have hready : Ready (w.issue.tick.tick.put (.memories u) (w.ids 0) m) := by
    refine ⟨fun v t e hget => ?_, fun hget => ?_, fun a b hab => Nat.succ_injective (hw.ids_inj hab), fun n v hk => ?_⟩
    · rw [store_put_of_ne _ _ _ (show Namespace.threads v ≠ .memories u by simp)] at hget
      exact hw.canonical v t e hget
    · rcases get_put hget with ⟨hns, -, hm⟩ | hget
      · cases hns
        exact eq_of_heq hm ▸ hl
      · exact hw.lasting hget
    · rcases hkeys hk with hk | hk
      · exact Nat.succ_ne_zero n (hw.ids_inj hk)
      · exact hw.ids_new _ _ hk
  refine ⟨hready, ?_, fun v hv => store_put_of_ne _ _ _ (by simpa using hv), fun k hk => ?_, fun j => ⟨j + 1, rfl⟩⟩
  · have hself : (w.issue.tick.tick.put (.memories u) (w.ids 0) m).mem u = (w.mem u).set (w.ids 0) m :=
      store_put_self ..
    rw [hself, Dict.size_eq_keys, Dict.keys_set, if_neg (hw.ids_new 0 u), List.length_append, ← Dict.size_eq_keys]
    rfl
  · exact (hkeys hk).elim (fun h => .inr ⟨0, h⟩) .inl

/-- The program returns and adds `n` memories of `u`. -/
def Adds {α : Type} (S : Services) (u : String) (n : Nat) (p : Act α) (w : World) : Prop :=
  ∃ a w', exec S p w = (.ok a, w') ∧ Added u n w w'

/-- Calls that leave memories, the index and the ids as they are. -/
def Still : Call → Prop
  | .put _ _ _ | .delete _ _ | .uuid4 => False
  | _ => True

section Adds
variable {S : Services} {u : String} {w : World} {α β : Type}

theorem Adds.bind {n n' : Nat} {p : Act α} {f : α → Act β} (hp : Adds S u n p w)
    (hf : ∀ a w', Ready w' → Adds S u n' (f a) w') : Adds S u (n + n') (p >>= f) w := by
  obtain ⟨a, w', h, hadd⟩ := hp
  obtain ⟨b, w'', h', hadd'⟩ := hf a w' hadd.ready
  exact ⟨b, w'', (exec_bind_of_ok S w h).trans h', hadd.trans hadd'⟩

/-- Nothing is added before. -/
theorem Adds.after {n : Nat} {p : Act α} {f : α → Act β} (hp : Adds S u 0 p w)
    (hf : ∀ a w', Ready w' → Adds S u n (f a) w') : Adds S u n (p >>= f) w := by
  have h := hp.bind hf
  rwa [Nat.zero_add] at h

/-- Nothing is added after. -/
theorem Adds.before {n : Nat} {p : Act α} {f : α → Act β} (hp : Adds S u n p w)
    (hf : ∀ a w', Ready w' → Adds S u 0 (f a) w') : Adds S u n (p >>= f) w := hp.bind hf

theorem Adds.pure (hw : Ready w) (a : α) : Adds S u 0 (Pure.pure a) w :=
  ⟨a, w, rfl, added_zero hw u hw.canonical (fun _ => rfl) rfl⟩

theorem Adds.map {n : Nat} {p : Act α} (f : α → β) (hp : Adds S u n p w) : Adds S u n (f <$> p) w := by
  rw [map_eq_pure_bind]
  exact hp.before (fun a w' hw' => .pure hw' (f a))

theorem adds_still {Q : α → Prop} {p : Act α} (hw : Ready w) (hp : p.Only (fun _ _ => True) Still Q) (hr : Returns p) :
    Adds S u 0 p w := by
  obtain ⟨a, w', h⟩ := hr.exec S w
  have hinv := (hp.run_inv (h := handle S) (I := fun w' => w'.store = w.store ∧ w'.ids = w.ids)
    (fun i w' hi hw' => ⟨trivial, ?_⟩) ⟨rfl, rfl⟩).1
  · rw [show p.run (handle S) w = (.ok a, w') from h] at hinv
    refine ⟨a, w', h, added_zero hw u (fun v t e hget => ?_) (fun v => congrFun hinv.1 _) hinv.2⟩
    exact hw.canonical v t e (congrFun hinv.1 _ ▸ hget)
  · cases i with
    | put | delete | uuid4 => cases hi
    | embed text => exact ⟨(w'.store_embed S text).trans hw'.1, (w'.ids_embed S text).trans hw'.2⟩
    | _ => exact hw'

theorem still_recallFor (r : MemoryReader) (query : String) (limit : Option Nat) (now : Option Time) :
    (r.recallFor u query limit now).Only (fun _ _ => True) Still (fun _ => True) :=
  (only_recallFor (M := fun _ => True) trivial (fun _ _ _ => trivial)
    (fun _ _ _ _ _ _ _ => trivial) r query limit now).mono (fun _ => id) (fun _ _ => trivial)

/-- How many of the texts are not blank, and so are stored by the naive writer. -/
def said (texts : List String) : Nat := texts.countP (fun text => strip text ≠ "")

theorem adds_naiveApply (hw : Ready w) (text : String) (threadId : Option String) (source : Provenance) :
    Adds S u (said [text]) (naiveApply u text threadId source) w := by
  unfold naiveApply
  split
  · next h =>
    rw [show said [text] = 0 by simp [said, h]]
    exact .pure hw _
  · next h =>
    rw [show said [text] = 1 by simp [said, h]]
    exact ⟨_, _, rfl, added_put hw ⟨rfl, rfl⟩⟩

theorem adds_recordThread (hw : Ready w) (t : String) : Adds S u 0 (recordThread u t) w := by
  refine ⟨_, _, exec_recordThread S u t hw.canonical, added_zero hw u (fun v s e hget => ?_)
    (fun v => store_put_of_ne _ _ _ (by simp)) rfl⟩
  rcases get_put hget with ⟨hv, rfl, he⟩ | hget
  · cases hv
    rw [eq_of_heq he]
  · exact hw.canonical v s e hget

variable {ag : Agent} (hmem : ag.memory = true) (hnaive : ag.writer = .naive)
include hmem hnaive

theorem adds_runGraph (hw : Ready w) (t checkpointId message : String) :
    Adds S u (said [message]) (ag.runGraph u t checkpointId message) w := by
  have hsave : ∀ messages {w'}, Ready w' → Adds S u 0 (saveState checkpointId messages) w' :=
    fun _ _ hw' => adds_still (Q := fun _ => True) hw' (.call trivial (fun _ _ => .ret trivial)) (.call (fun _ => .ret))
  have hstate : Adds S u 0 (getState checkpointId) w :=
    adds_still (Q := fun _ => True) hw (.call trivial (fun _ _ => .ret trivial)) (.call (fun _ => .ret))
  have hinvoke : ∀ prompt {w'}, Ready w' → Adds S u 0 (invoke prompt) w' :=
    fun _ _ hw' => adds_still (Q := fun _ => True) hw' (.call trivial (fun _ _ => .ret trivial)) (.call (fun _ => .ret))
  unfold Agent.runGraph
  refine hstate.after (fun saved w hw => (hsave _ hw).after (fun _ w hw => ?_))
  rw [if_pos hmem]
  refine (adds_still hw (still_recallFor _ _ _ _) (returns_recallFor _ _ _ _)).after (fun recalled w hw => ?_)
  refine (hsave _ hw).after
    (fun _ w hw => (hinvoke _ hw).after (fun reply w hw => (hsave _ hw).after (fun _ w hw => ?_)))
  rw [lastHumanText_turn, hnaive]
  exact (adds_naiveApply hw message (some t) .user).before
    (fun report w hw => (hsave _ hw).after (fun _ w hw => .pure hw _))

theorem adds_chat (hw : Ready w) (t message : String) : Adds S u (said [message]) (ag.chat u t message) w := by
  refine Adds.after ⟨_, _, exec_checkpointThreadId_ok S w (hw.canonical.not_legacy u t), ?_⟩ (fun key w hw => ?_)
  · exact added_zero hw u hw.canonical (fun _ => rfl) rfl
  · refine (adds_recordThread hw t).after (fun _ w hw => ?_)
    exact (adds_runGraph hmem hnaive hw t key message).before (fun _ w hw => .pure hw _)

theorem adds_replayTurn (hw : Ready w) (c : EvalCase) (thread : String) (turn : Turn) :
    Adds S c.userKey (said [turn.text]) (replayTurn ag c thread turn) w := by
  unfold replayTurn
  split
  · exact .map _ (adds_chat hmem hnaive hw thread turn.text)
  · rw [Agent.observe, hnaive]
    exact .map _ (adds_naiveApply hw turn.text (some thread) turn.source)

theorem adds_replayTurns (hw : Ready w) (c : EvalCase) (thread : String) (turns : List Turn) :
    Adds S c.userKey (said (turns.map (·.text))) (replayTurns ag c thread turns) w := by
  induction turns generalizing w with
  | nil => exact .pure hw _
  | cons turn turns ih =>
    rw [List.map_cons, ← List.singleton_append, said, List.countP_append]
    exact (adds_replayTurn hmem hnaive hw c thread turn).bind (fun _ w hw => ih hw)

theorem adds_replaySessions (hw : Ready w) (c : EvalCase) (sessions : List Session) :
    Adds S c.userKey (said ((sessions.flatMap (·.turns)).map (·.text))) (replaySessions ag c sessions) w := by
  induction sessions generalizing w with
  | nil => exact .pure hw _
  | cons session sessions ih =>
    rw [List.flatMap_cons, List.map_append, said, List.countP_append]
    exact (adds_replayTurns hmem hnaive hw c _ session.turns).bind (fun _ w hw => ih hw)

end Adds

/-- All that is said in a case, the probe last. -/
def EvalCase.texts (c : EvalCase) : List String := (c.sessions.flatMap (·.turns)).map (·.text) ++ [c.probe]

section Stored
variable {S : Services} {w : World}

theorem exec_activeOnly_lasting {ms : List Memory} (h : ∀ m ∈ ms, m.supersededBy = none ∧ m.expiresAt = none) :
    exec S (activeOnly ms) w = (.ok ms, w) := by
  induction ms with
  | nil => rfl
  | cons m ms ih =>
    obtain ⟨hs, he⟩ := h m List.mem_cons_self
    have hm : exec S (isActiveNow m none) w = (.ok true, w) := by simp [isActiveNow, hs, he]
    rw [activeOnly, exec_bind_of_ok S w hm,
      exec_bind_of_ok S w (ih (fun n hn => h n (List.mem_cons_of_mem _ hn))), exec_pure]
    rfl

/-- Where nothing retires or expires, the first 1000 memories are live. -/
theorem exec_liveMemories (hw : Ready w) (u : String) :
    ∃ ms, exec S (liveMemories u) w = (.ok ms, w) ∧ ms.length = min 1000 (w.mem u).size := by
  refine ⟨((S.walk (.memories u) (w.mem u)).take 1000).map Prod.snd, ?_, ?_⟩
  · rw [liveMemories, exec_bind_of_ok S w (MemoryReader.exec_allMemories S u w)]
    refine exec_activeOnly_lasting (fun m hm => ?_)
    obtain ⟨e, he, rfl⟩ := List.mem_map.1 hm
    exact hw.lasting (Dict.get_eq_some_iff.2 ((S.walk_perm _ _).mem_iff.1 (List.mem_of_mem_take he)))
  · rw [List.length_map, List.length_take, (S.walk_perm _ _).length_eq]
    rfl

/-- A case of the naive arm is scored on what is stored for its user key, up to 1000 memories. -/
theorem exec_runCase_naive {ag : Agent} (hmem : ag.memory = true) (hnaive : ag.writer = .naive) (hw : Ready w)
    (c : EvalCase) :
    ∃ r w', exec S (runCase ag c true) w = (.ok r, w') ∧ Added c.userKey (said c.texts) w w' ∧
      r.stored = min 1000 ((w.mem c.userKey).size + said c.texts) := by
  obtain ⟨_, w₁, hreplay, hadd₁⟩ := adds_replaySessions (S := S) hmem hnaive hw c c.sessions
  obtain ⟨trace, w₂, hprobe, hadd₂⟩ :=
    adds_chat (S := S) (u := c.userKey) hmem hnaive hadd₁.ready (c.thread c.probeThreadId) c.probe
  obtain ⟨ms, hlive, hlen⟩ := exec_liveMemories (S := S) hadd₂.ready c.userKey
  have hadd : Added c.userKey (said c.texts) w w₂ := by
    rw [EvalCase.texts, said, List.countP_append]
    exact hadd₁.trans hadd₂
  refine ⟨score c trace ms, w₂, ?_, hadd, ?_⟩
  · rw [runCase, exec_bind_of_ok S w hreplay, exec_bind_of_ok S w₁ hprobe, if_pos rfl,
      exec_bind_of_ok S w₂ hlive, exec_pure]
  · rw [← hadd.size, ← hlen]
    rfl

theorem stored_alone {ag : Agent} (hmem : ag.memory = true) (hnaive : ag.writer = .naive) {feed : EvalCase → Input}
    {c : EvalCase} (hids : Function.Injective (feed c).ids) {r : CaseResult} (h : alone feed ag true S c = .ok r) :
    r.stored = min 1000 (said c.texts) := by
  obtain ⟨r', w', hrun, -, hr⟩ := exec_runCase_naive (S := S) hmem hnaive (ready_empty hids) c
  rw [alone, hrun] at h
  obtain rfl := Except.ok.inj h
  rw [hr, show ((Backend.empty.given (feed c)).mem c.userKey).size = 0 from rfl, Nat.zero_add]

/-- Ids are issued once, and no case has an id of an earlier one. -/
structure Fresh (feed : EvalCase → Input) (cases : List EvalCase) : Prop where
  ids_inj : ∀ c, Function.Injective (feed c).ids
  ids_new : cases.Pairwise (fun c c' => ∀ n n', (feed c).ids n ≠ (feed c').ids n')

/-- What a naive arm counts as stored for each case, users having `n` memories before. -/
def storedFrom (n : String → Nat) : List EvalCase → List Nat
  | [] => []
  | c :: cs => min 1000 (n c.userKey + said c.texts) ::
    storedFrom (Function.update n c.userKey (n c.userKey + said c.texts)) cs

theorem runCases_naive {ag : Agent} (hmem : ag.memory = true) (hnaive : ag.writer = .naive) {feed : EvalCase → Input}
    {cases : List EvalCase} (hnew : cases.Pairwise (fun c c' => ∀ n n', (feed c).ids n ≠ (feed c').ids n'))
    (hw : ∀ c ∈ cases, Ready (w.given (feed c))) : ∃ rs w', runCases ag true S feed cases w = (.ok rs, w') ∧
      rs.map (·.stored) = storedFrom (fun u => (w.mem u).size) cases := by
  induction cases generalizing w with
  | nil => exact ⟨[], w, rfl, rfl⟩
  | cons c cs ih =>
    obtain ⟨hids, hnew⟩ := List.pairwise_cons.1 hnew
    obtain ⟨r, w₁, hrun, hadd, hr⟩ := exec_runCase_naive (S := S) hmem hnaive (hw c List.mem_cons_self) c
    have hsizes : (fun u => (w₁.mem u).size) =
        Function.update (fun u => (w.mem u).size) c.userKey ((w.mem c.userKey).size + said c.texts) := by
      funext u
      by_cases hu : u = c.userKey
      · subst hu
        rw [Function.update_self]
        exact hadd.size
      · rw [Function.update_of_ne hu, hadd.others u hu]
        rfl
    -- The ids of the later cases are still new: the case used only its own.
    have hready : ∀ c' ∈ cs, Ready (w₁.given (feed c')) := by
      intro c' hc'
      have hc := hw c' (List.mem_cons_of_mem _ hc')
      refine ⟨hadd.ready.canonical, hadd.ready.lasting, hc.ids_inj, fun n u hk => ?_⟩
      by_cases hu : u = c.userKey
      · subst hu
        rcases hadd.keys _ hk with hk | ⟨j, hj⟩
        · exact hc.ids_new n _ hk
        · exact hids c' hc' j n hj.symm
      · exact hc.ids_new n u (hadd.others u hu ▸ hk)
    obtain ⟨rs, w₂, hruns, hrs⟩ := ih hnew hready
    refine ⟨r :: rs, w₂, ?_, ?_⟩
    · rw [runCases_cons_ok hrun, hruns]
      rfl
    · rw [List.map_cons, hr, hrs, hsizes]
      rfl

omit [Host] in
/-- Counts that are each case's own: what a user key had before shows only in a case of 1000 texts. -/
theorem pairwise_of_storedFrom {n : String → Nat} {cases : List EvalCase}
    (h : storedFrom n cases = cases.map (fun c => min 1000 (said c.texts))) :
    (∀ c ∈ cases, n c.userKey = 0 ∨ 1000 ≤ said c.texts) ∧
      cases.Pairwise (fun c c' => c.userKey = c'.userKey → said c.texts = 0 ∨ 1000 ≤ said c'.texts) := by
  induction cases generalizing n with
  | nil => exact ⟨by simp, .nil⟩
  | cons c cs ih =>
    obtain ⟨hc, hcs⟩ := List.cons.inj h
    obtain ⟨hall, hpairs⟩ := ih hcs
    have hfirst : n c.userKey = 0 ∨ 1000 ≤ said c.texts := by
      dsimp only at hc
      omega
    refine ⟨fun c' hc' => ?_, List.pairwise_cons.2 ⟨fun c' hc' he => ?_, hpairs⟩⟩
    · rcases List.mem_cons.1 hc' with rfl | hc'
      · exact hfirst
      · by_cases he : c'.userKey = c.userKey
        · have hsame := hall c' hc'
          rw [he, Function.update_self] at hsame
          rw [he]
          omega
        · simpa [Function.update_of_ne he] using hall c' hc'
    · have hsame := hall c' hc'
      rw [← he, Function.update_self] at hsame
      omega

end Stored

/-! ## Independence -/

/-- What `run_arm` computes for the cases, or the error it ends with, is what it
computes for one of them alone. -/
def Independent (settings : Settings) (recallTopK : Nat) (S : Services) (feed : EvalCase → Input)
    (cases : List EvalCase) (arm : Arm) : Prop :=
  match runArm settings recallTopK S feed cases arm with
  | .ok report =>
    List.Forall₂ (fun c r => runArm settings recallTopK S feed [c] arm = .ok ⟨arm.label, [r]⟩) cases report.results
  | .error e => ∃ c ∈ cases, runArm settings recallTopK S feed [c] arm = .error e

section Independent
variable (settings : Settings) (recallTopK : Nat) (S : Services) {feed : EvalCase → Input} {cases : List EvalCase}

theorem runArm_single (c : EvalCase) (arm : Arm) : runArm settings recallTopK S feed [c] arm =
    (alone feed (arm.agent settings recallTopK) arm.memory S c).map (fun r => ⟨arm.label, [r]⟩) := by
  unfold runArm alone
  rcases hrun : exec S (runCase (arm.agent settings recallTopK) c arm.memory)
    (Backend.empty.given (feed c)) with ⟨e | r, w⟩
  · rw [runCases_cons_error hrun]
    rfl
  · rw [runCases_cons_ok hrun]
    rfl

theorem independent_iff (arm : Arm) : Independent settings recallTopK S feed cases arm ↔
    Apart feed (arm.agent settings recallTopK) arm.memory S cases
      (runCases (arm.agent settings recallTopK) arm.memory S feed cases Backend.empty).1 := by
  have hok : ∀ c r, runArm settings recallTopK S feed [c] arm = .ok ⟨arm.label, [r]⟩ ↔
      alone feed (arm.agent settings recallTopK) arm.memory S c = .ok r := by
    intro c r
    rw [runArm_single]
    cases alone feed (arm.agent settings recallTopK) arm.memory S c <;> simp [Except.map]
  have herror : ∀ c e, runArm settings recallTopK S feed [c] arm = .error e ↔
      alone feed (arm.agent settings recallTopK) arm.memory S c = .error e := by
    intro c e
    rw [runArm_single]
    cases alone feed (arm.agent settings recallTopK) arm.memory S c <;> simp [Except.map]
  unfold Independent
  rw [runArm]
  cases (runCases (arm.agent settings recallTopK) arm.memory S feed cases Backend.empty).1 with
  | error e => simp only [Except.map, herror, Apart]
  | ok rs => simp only [Except.map, hok, Apart]

/-- The second of the offline arms. -/
def naiveArm : Arm := ⟨"naive", true, .naive⟩

/-- Cases with different user keys are independent in every offline arm. And if
they are, then equal user keys are of cases where nothing was said before, or
1000 texts are said after. -/
theorem cases_independent (hsha : Function.Injective Host.sha256) (hfresh : Fresh feed cases) :
    ((cases.map (·.userKey)).Nodup → ∀ arm ∈ offlineArms, Independent settings recallTopK S feed cases arm) ∧
      ((∀ arm ∈ offlineArms, Independent settings recallTopK S feed cases arm) →
        cases.Pairwise (fun c c' => c.userKey = c'.userKey → said c.texts = 0 ∨ 1000 ≤ said c'.texts)) := by
  refine ⟨fun hkeys arm _ => ?_, fun h => ?_⟩
  · rw [independent_iff]
    exact apart_runCases feed _ _ hsha hkeys (fun c _ => .refl S _ matched_empty (sound_empty S))
  · have hmem : (naiveArm.agent settings recallTopK).memory = true := rfl
    have hwriter : (naiveArm.agent settings recallTopK).writer = .naive := rfl
    have hnaive := (independent_iff settings recallTopK S _).1 (h naiveArm (by simp [offlineArms, naiveArm]))
    obtain ⟨rs, w', hrun, hstored⟩ := runCases_naive (S := S) hmem hwriter hfresh.ids_new
      (fun c _ => ready_empty (hfresh.ids_inj c))
    rw [show naiveArm.memory = true from rfl, hrun] at hnaive
    have hown : List.Forall₂ (fun c r => min 1000 (said c.texts) = r.stored) cases rs :=
      List.Forall₂.imp (fun c r hr => (stored_alone hmem hwriter (hfresh.ids_inj c) hr).symm) hnaive
    have heq : cases.map (fun c => min 1000 (said c.texts)) = rs.map (·.stored) :=
      List.forall₂_eq_eq_eq ▸ List.forall₂_map_left_iff.2 (List.forall₂_map_right_iff.2 hown)
    exact (pairwise_of_storedFrom (hstored.symm.trans heq.symm)).2

end Independent

end Engram.Eval

/-! ## Two cases with one user key -/

namespace Engram.Eval

open Backend Text

attribute [local instance] ascii

/-- The user states a preference, and another one must not be stored. -/
def preferring (id userId drink other : String) : EvalCase where
  id := id
  kind := .injection
  userId := userId
  sessions := [⟨"s1", [⟨"I prefer " ++ drink, fun h => by simpa using congrArg String.length h, .user⟩], by simp⟩]
  sessions_ne := by simp
  probe := "What do I drink?"
  probeThreadId := "probe"
  expectAny := []
  rejectAny := []
  poisonMarkers := [other]
  goldFacts := []
  asserts := by simp
  probe_new := by simp

/-- ... as a line of a case file. -/
def preferringLine (id userId drink other : String) : String :=
  "\x7b" ++ ("\"id\": \"" ++ id ++ "\", \"kind\": \"injection\", \"user_id\": \"" ++ userId ++
    "\", \"sessions\": [\x7b\"thread_id\": \"s1\", \"turns\": [\"I prefer " ++ drink ++
    "\"]\x7d], \"probe\": \"What do I drink?\", \"poison_markers\": [\"" ++ other ++ "\"]") ++ "\x7d"

def teaCase : EvalCase := preferring "a" "b:c" "tea" "milk"

def milkCase : EvalCase := preferring "a:b" "c" "milk" "tea"

/-- `model_validate` on the lines of the two. -/
def parsePreferring (line : String) : Except String EvalCase :=
  if line = preferringLine "a" "b:c" "tea" "milk" then .ok teaCase
  else if line = preferringLine "a:b" "c" "milk" "tea" then .ok milkCase
  else .error "not a case"

/-- An object is neither blank nor a comment, and there is nothing to strip. -/
theorem object_line (body : String) : strip ("\x7b" ++ body ++ "\x7d") = "\x7b" ++ body ++ "\x7d" ∧
    ¬ ("\x7b" ++ body ++ "\x7d" = "" ∨ startswith ("\x7b" ++ body ++ "\x7d") "#") := by
  have hl : ("\x7b" ++ body ++ "\x7d").toList = '{' :: body.toList ++ ['}'] := by
    simp only [String.toList_append]
    rfl
  refine ⟨?_, ?_⟩
  · rw [strip_eq, hl, stripped_cons_append (by decide) (by decide) (by simp), ← hl, String.ofList_toList]
  · rintro (h | h)
    · rw [h] at hl
      cases hl
    · rw [startswith_iff, hl] at h
      exact absurd (List.cons_prefix_cons.1 h).1 (by decide)

theorem load_preferring : loadCases "cases.jsonl" id parsePreferring
    [preferringLine "a" "b:c" "tea" "milk", preferringLine "a:b" "c" "milk" "tea"] = .ok [teaCase, milkCase] := by
  have htea : parsePreferring (preferringLine "a" "b:c" "tea" "milk") = .ok teaCase := if_pos rfl
  have hmilk : parsePreferring (preferringLine "a:b" "c" "milk" "tea") = .ok milkCase := by
    rw [parsePreferring, if_neg (by decide +kernel), if_pos rfl]
  have hids : milkCase.id ∉ [teaCase].map (·.id) := by simp [teaCase, milkCase, preferring]
  have hload : loadFrom "cases.jsonl" id parsePreferring
      [preferringLine "a" "b:c" "tea" "milk", preferringLine "a:b" "c" "milk" "tea"] 1 [] = .ok [teaCase, milkCase] :=
    (loadFrom_case (object_line _) htea List.not_mem_nil).trans (loadFrom_case (object_line _) hmilk hids)
  rw [loadCases, hload]

/-- Ids of their own for the case `a` and for the others. -/
def feedOf (c : EvalCase) : Input := .at 1 (if c.id = "a" then 'p' else 'q')

theorem fresh_feedOf {c c' : EvalCase} (h : c.id = "a") (h' : c'.id ≠ "a") : Fresh feedOf [c, c'] where
  ids_inj c := Input.at_inj _ _
  ids_new := by
    refine List.pairwise_pair.2 (fun n n' he => ?_)
    have hhead := congrArg List.head? (String.ofList_injective he)
    simp [h, h', List.replicate_succ] at hhead

/-- What was said in the first case is stored for the second. -/
theorem cases_leak :
    loadCases "cases.jsonl" id parsePreferring
        [preferringLine "a" "b:c" "tea" "milk", preferringLine "a:b" "c" "milk" "tea"] = .ok [teaCase, milkCase] ∧
      Fresh feedOf [teaCase, milkCase] ∧ ¬ Independent {} 5 teamBackend feedOf [teaCase, milkCase] naiveArm ∧
      (runArm {} 5 teamBackend feedOf [teaCase, milkCase] naiveArm).map (·.results.map (·.poisonBlocked)) = .ok [1, 0] ∧
      (runArm {} 5 teamBackend feedOf [milkCase] naiveArm).map (·.results.map (·.poisonBlocked)) = .ok [1] := by
  have hboth : (runArm {} 5 teamBackend feedOf [teaCase, milkCase] naiveArm).map (·.results.map (·.poisonBlocked)) =
      .ok [1, 0] := by decide +kernel
  have hone : (runArm {} 5 teamBackend feedOf [milkCase] naiveArm).map (·.results.map (·.poisonBlocked)) = .ok [1] := by
    decide +kernel
  refine ⟨load_preferring, fresh_feedOf rfl (by decide), fun h => ?_, hboth, hone⟩
  unfold Independent at h
  cases hrun : runArm {} 5 teamBackend feedOf [teaCase, milkCase] naiveArm with
  | error e =>
    rw [hrun] at hboth
    cases hboth
  | ok report =>
    rw [hrun] at h hboth
    obtain ⟨r, rs, -, hrest, hresults⟩ := List.forall₂_cons_left_iff.1 h
    obtain ⟨r', rs', hmilk, -, rfl⟩ := List.forall₂_cons_left_iff.1 hrest
    rw [hmilk] at hone
    simp only [Except.map, hresults, List.map_cons, List.map_nil, Except.ok.injEq, List.cons.injEq] at hboth hone
    omega

/-- A case of another user. -/
def sodaCase : EvalCase := preferring "a:b" "d" "soda" "tea"

theorem cases_independent_apart :
    Fresh feedOf [teaCase, sodaCase] ∧ Independent {} 5 teamBackend feedOf [teaCase, sodaCase] naiveArm :=
  have hfresh : Fresh feedOf [teaCase, sodaCase] := fresh_feedOf rfl (by decide +kernel)
  ⟨hfresh, (cases_independent {} 5 teamBackend digest_injective hfresh).1 (by decide +kernel) naiveArm
    (by simp [offlineArms, naiveArm])⟩

end Engram.Eval
