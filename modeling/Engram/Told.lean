import Engram.Recall
import Engram.Records
import Engram.Talks
/-!
# What the model is told

The model sees the prompt of a chat and nothing else of a user's data: the
standing instructions with what was recalled, the conversation so far, and the
message.
-/

namespace Engram

open Backend Text

variable [Host]

/-! ## What is recalled -/

/-- A few memories stored for `u`, active at some reading of the clock. -/
structure Recalled (k : Nat) (u : String) (w : World) (recalled : List Recall) : Prop where
  few : recalled.length ≤ k
  stored : ∀ r ∈ recalled, ∃ key, (w.mem u).get key = some r.memory
  active : ∀ r ∈ recalled, ∃ n, r.memory.isActive (w.clock n)

section Recall
variable {S : Services} {u query : String} {w w' : World}

/-- The loop adds active items only, and stops at `k`. -/
theorem recallFrom_adds {k : Nat} {items : List (SearchItem Memory)} {acc recalled : List Recall} (hk : acc.length < k)
    (h : exec S (MemoryReader.recallFrom k none items acc) w = (.ok recalled, w')) : recalled.length ≤ k ∧
      ∀ r ∈ recalled, r ∈ acc ∨ (∃ item ∈ items, r.memory = item.value) ∧ ∃ n, r.memory.isActive (w.clock n) := by
  induction items generalizing acc w with
  | nil =>
    obtain ⟨hr, -⟩ := Prod.mk.inj h
    obtain rfl := Except.ok.inj hr
    exact ⟨hk.le, fun r hr => .inl hr⟩
  | cons item items ih =>
    obtain ⟨b, w₁, hactive, -, htrue, -⟩ := exec_isActiveNow S item.value w
    have hclock := (After.of_exec hactive).clock
    have hnext : ∀ {acc'}, acc'.length < k → exec S (MemoryReader.recallFrom k none items acc') w₁ =
      (.ok recalled, w') →
        (∀ r ∈ acc', r ∈ acc ∨ r.memory = item.value ∧ b = true) → recalled.length ≤ k ∧ ∀ r ∈ recalled, r ∈ acc ∨
          (∃ i ∈ item :: items, r.memory = i.value) ∧ ∃ n, r.memory.isActive (w.clock n) := by
      intro acc' hacc' hrun hfrom
      obtain ⟨hlen, hall⟩ := ih hacc' hrun
      refine ⟨hlen, fun r hr => ?_⟩
      rcases hall r hr with hr | ⟨⟨i, hi, hm⟩, n, hn⟩
      · rcases hfrom r hr with hr | ⟨hm, hb⟩
        · exact .inl hr
        · exact .inr ⟨⟨item, List.mem_cons_self, hm⟩, 0, hm ▸ htrue hb⟩
      · obtain ⟨j, hj⟩ := hclock n
        exact .inr ⟨⟨i, List.mem_cons_of_mem _ hi, hm⟩, j, hj ▸ hn⟩
    rw [MemoryReader.recallFrom, exec_bind_of_ok S w hactive] at h
    cases b with
    | false => exact hnext hk h (fun r hr => .inl hr)
    | true =>
      have hfrom : ∀ r ∈ acc ++ [(⟨item.value, item.score.getD 0⟩ : Recall)], r ∈ acc ∨
          r.memory = item.value ∧ true = true := by
        intro r hr
        rcases List.mem_append.1 hr with hr | hr
        · exact .inl hr
        · exact .inr ⟨by rw [List.mem_singleton.1 hr], rfl⟩
      simp only [not_true, if_false] at h
      split at h
      · next hfull =>
        obtain ⟨hr, -⟩ := Prod.mk.inj h
        obtain rfl := Except.ok.inj hr
        refine ⟨hfull.le, fun r hr => ?_⟩
        rcases hfrom r hr with hr | ⟨hm, -⟩
        · exact .inl hr
        · exact .inr ⟨⟨item, List.mem_cons_self, hm⟩, 0, hm ▸ htrue rfl⟩
      · next hnot =>
        have hlen : (acc ++ [(⟨item.value, item.score.getD 0⟩ : Recall)]).length < k := by
          rw [List.length_append, List.length_singleton] at hnot ⊢
          omega
        exact hnext hlen h hfrom

theorem recallFor_recalled {r : MemoryReader} {recalled : List Recall}
    (h : exec S (r.recallFor u query none none) w = (.ok recalled, w')) : Recalled r.topK u w recalled := by
  have hempty : Recalled r.topK u w [] := ⟨Nat.zero_le _, by simp, by simp⟩
  unfold MemoryReader.recallFor at h
  dsimp only at h
  split at h
  · obtain ⟨hr, -⟩ := Prod.mk.inj h
    obtain rfl := Except.ok.inj hr
    exact hempty
  · rw [exec_searchMemories, List.drop_zero] at h
    rcases Nat.eq_zero_or_pos r.topK with hzero | hpos
    · rw [hzero] at h
      obtain ⟨hr, -⟩ := Prod.mk.inj h
      obtain rfl := Except.ok.inj hr
      exact hempty
    · obtain ⟨hlen, hall⟩ := recallFrom_adds hpos h
      refine ⟨hlen, fun x hx => ?_, fun x hx => ?_⟩
      · rcases hall x hx with hx | ⟨⟨item, hitem, hm⟩, -⟩
        · cases hx
        · exact ⟨item.key, hm ▸ S.search_mem (List.mem_of_mem_take hitem)⟩
      · rcases hall x hx with hx | ⟨-, hn⟩
        · cases hx
        · exact hn

end Recall

/-! ## What is told -/

/-- The prompt of a chat of `u` on `t` that meets the state `w`. -/
def Told (ag : Agent) (w : World) (u t message : String) (prompt : List Message) : Prop :=
  ∃ recalled, Recalled ag.reader.topK u w recalled ∧ (ag.memory = false → recalled = []) ∧
    prompt = Agent.prompt recalled (w.heard u t message)

/-- The model is asked this only. -/
def Asks (told : World → List Message → Prop) (w : World) (i : Call) : Prop :=
  ∀ prompt, i = .invoke prompt → told w prompt

/-- Calls that do not ask the model. -/
def Unspoken (i : Call) : Prop := ∀ prompt, i ≠ .invoke prompt

section Told
variable {S : Services} {told : World → List Message → Prop} {u t message : String} {w : World}

theorem Unspoken.asks {i : Call} (hi : Unspoken i) : Asks told w i := fun prompt h => absurd h (hi prompt)

theorem unspoken_writes (u : String) (threadId : Option String) :
    Writes u threadId (fun _ => True) (fun _ _ => True) Unspoken where
  clock _ := by simp
  newId _ := by simp
  embed _ _ := by simp
  extract _ _ := by simp
  search _ _ _ _ := by simp
  searchOf _ _ _ _ _ _ := by simp
  put _ _ _ := by simp
  quarantine _ _ _ := by simp
  found _ _ _ _ _ _ _ := trivial
  reinforced _ _ _ := trivial
  retired _ _ _ _ := trivial
  new _ _ _ _ := trivial

/-- The write path asks nothing and says nothing. -/
theorem aside_writes (u : String) (threadId : Option String) :
    Writes u threadId (fun _ => True) (fun _ _ => True) (fun i => Mute i ∧ Unspoken i) :=
  have hm := mute_writes u threadId
  have hu := unspoken_writes u threadId
  { hm with
    clock := ⟨hm.clock, hu.clock⟩
    newId := ⟨hm.newId, hu.newId⟩
    embed := fun text => ⟨hm.embed text, hu.embed text⟩
    extract := fun turn => ⟨hm.extract turn, hu.extract turn⟩
    search := fun q limit offset => ⟨hm.search q limit offset, hu.search q limit offset⟩
    searchOf := fun m q limit offset h => ⟨hm.searchOf m q limit offset h, hu.searchOf m q limit offset h⟩
    put := fun m h => ⟨hm.put m h, hu.put m h⟩
    quarantine := fun key q => ⟨hm.quarantine key q, hu.quarantine key q⟩ }

theorem Recalled.received {k : Nat} {recalled : List Recall} (h : Recalled k u (w.received u t message) recalled) :
    Recalled k u w recalled where
  few := h.few
  stored r hr := by
    obtain ⟨key, hget⟩ := h.stored r hr
    exact ⟨key, w.mem_received u t message u ▸ hget⟩
  active r hr := by
    obtain ⟨n, hn⟩ := h.active r hr
    exact ⟨n + 1, hn⟩

/-- What is told, while the memories are those of `w`. -/
def ToldOf (ag : Agent) (w : World) (u t message : String) (w' : World) (prompt : List Message) : Prop :=
  Told ag w u t message prompt ∧ w'.mem u = w.mem u

/-- A chat asks the model once, and tells it this. -/
theorem asks_chat (S : Services) (ag : Agent) (hc : w.Canonical) (message : String) :
    (ag.chat u t message).Along (handle S)
    (Asks (ToldOf ag w u t message)) (fun trace w' => exec S (ag.chat u t message) w = (.ok trace, w')) w := by
  have hquiet : ∀ {α : Type} {R : α → Prop} {p : Act α} {w' : World}, p.Only (fun _ _ => True) Unspoken R →
      p.Along (handle S) (Asks (ToldOf ag w u t message)) (fun a w'' => exec S p w' = (.ok a, w'')) w' :=
    fun hp => .of_run hp (fun _ _ hi => hi.asks) _
  refine (Prog.Along.with_run (Q := fun _ _ => True) ?_).mono (fun _ _ h => h.2)
  refine .seq (hquiet (only_checkpointThreadId (by simp [Unspoken]))) (fun key w₁ hkey => ?_)
  rw [exec_checkpointThreadId_ok S w (hc.not_legacy u t)] at hkey
  obtain ⟨hk, rfl⟩ := Prod.mk.inj hkey
  obtain rfl := Except.ok.inj hk
  have hrecordOnly : (recordThread u t).Only (fun _ _ => True) Unspoken (fun _ => True) :=
    .seq (only_checkpointThreadId (by simp [Unspoken])) (fun _ _ => only_utcnow (by simp [Unspoken])
      (fun _ => .call (by simp [Unspoken]) (fun _ _ => .ret trivial)))
  refine .seq (hquiet hrecordOnly) (fun _ w₁ hrecord => ?_)
  rw [exec_recordThread S u t hc] at hrecord
  obtain ⟨-, rfl⟩ := Prod.mk.inj hrecord
  refine .seq (R := fun _ _ => True) ?_ (fun _ _ _ => .pure trivial)
  refine .next (by simp [Asks]) (.next (by simp [Asks]) ?_)
  change Prog.Along _ _ _ _ (w.received u t message)
  have hafter : ∀ {α : Type} {R : α → Prop} {p : Act α} {w' : World}, p.Only (fun _ _ => True) Unspoken R →
      p.Along (handle S) (Asks (ToldOf ag w u t message)) (fun _ _ => True) w' :=
    fun hp => (hquiet hp).mono (fun _ _ _ => trivial)
  have hunspoken : ∀ {c messages}, Unspoken (.saveState c messages) := by simp [Unspoken]
  split
  · next hmem =>
    have hrecall : (ag.reader.recallFor u message none none).Only (fun _ _ => True) Unspoken (fun _ => True) :=
      (only_recallFor (M := fun _ => True) (by simp [Unspoken]) (by simp [Unspoken])
        (fun _ _ _ _ _ _ _ => trivial) ag.reader message none none).mono (fun _ h => h) (fun _ _ => trivial)
    change Prog.Along _ _ _ (ag.reader.recallFor u (lastHumanText (w.heard u t message)) none none >>= _) _
    rw [show lastHumanText (w.heard u t message) = message from Agent.lastHumanText_heard message _]
    refine .seq (hquiet hrecall) (fun recalled w₁ hrec => ?_)
    refine .next (by simp [Asks]) (.next ?_ ?_)
    · rintro prompt hprompt
      obtain rfl := CallOn.invoke.inj hprompt
      obtain ⟨recalled', w₂, hrec', hsame, -⟩ :=
        recallFor_looks S ag.reader u message none none (w.received u t message)
      obtain ⟨-, rfl⟩ := Prod.mk.inj (hrec.symm.trans hrec')
      refine ⟨⟨recalled, (recallFor_recalled hrec).received, fun h => absurd hmem (by simp [h]), rfl⟩, ?_⟩
      exact hsame.mem.trans (w.mem_received u t message u)
    · refine hafter (R := fun _ => True) (only_saveState hunspoken ?_)
      refine .seq (only_writer (unspoken_writes u (some t)) ag.writer _ .user) (fun _ _ => ?_)
      exact only_saveState hunspoken (.pure trivial)
  · next hmem =>
    refine .next ?_ ?_
    · rintro prompt hprompt
      obtain rfl := CallOn.invoke.inj hprompt
      exact ⟨⟨[], ⟨Nat.zero_le _, by simp, by simp⟩, fun _ => rfl, rfl⟩, w.mem_received u t message u⟩
    · exact hafter (R := fun _ => True) (only_saveState hunspoken (.pure trivial))

/-- No other operation asks it. -/
theorem asks_act (S : Services) (ag : Agent) (hc : w.Canonical) (rounds : Nat) (op : Op) :
    (ag.act rounds op).Along (handle S)
      (Asks (fun _ prompt => ∃ u t message, op = .chat u t message ∧ Told ag w u t message prompt))
      (fun _ _ => True) w := by
  have hunspoken : ∀ {α β : Type} {R : α → Prop} {p : Act α} {f : α → β} {told}, p.Only (fun _ _ => True) Unspoken R →
      (f <$> p).Along (handle S) (Asks told) (fun _ _ => True) w := by
    intro α β R p f told hp
    rw [map_eq_pure_bind]
    exact .seq (.of_run hp (fun _ _ hi => hi.asks) w) (fun _ _ _ => .pure trivial)
  have hforget : ∀ v i, ForgetCall v i → Unspoken i := by
    rintro v i hi prompt rfl
    cases hi
  cases op with
  | chat u t message =>
    rw [Agent.act, map_eq_pure_bind]
    refine .seq (R := fun _ _ => True) ?_ (fun _ _ _ => .pure trivial)
    refine ((asks_chat S ag hc message).mono (fun _ _ _ => trivial)).allowed (fun w' i hi prompt h => ?_)
    exact ⟨u, t, message, rfl, (hi prompt h).1⟩
  | observe u text t source => exact hunspoken (only_writer (unspoken_writes u t) ag.writer text source)
  | forgetMemory u id => exact hunspoken ((only_forgetMemory id).mono (hforget u) (fun _ h => h))
  | forgetThread u t => exact hunspoken ((only_forgetThread rounds t).mono (hforget u) (fun _ h => h))
  | forgetUser u => exact hunspoken ((only_forgetUser rounds).mono (hforget u) (fun _ h => h))
  | wait => exact hunspoken (R := fun _ => True) (only_utcnow (by simp [Unspoken]) (fun _ => .ret trivial))

end Told

/-- In every run the model is asked by chats only. It is told what was said on their
thread since it was last forgotten, the message, and a few memories: the user's own,
stored as they are shown, and active by the clock of the chat. -/
theorem run_told (hsha : Function.Injective Host.sha256) {ag : Agent} {ds : List Done} {w : World}
    (h : Steps ag.Executes Backend.empty ds w) : ∃ k, Steps Talks.Step Talks.none ds k ∧
      ∀ (S : Services) (op : Op) (i : Input) (prompt : List Message) (w' : World),
        Prog.Makes (handle S) (ag.act (op.rounds (w.given i)) op) (w.given i) (.invoke prompt) w' →
        ∃ u t message recalled, op = .chat u t message ∧
          prompt = Agent.prompt recalled (k u t ++ [⟨.human, some message⟩]) ∧
          recalled.length ≤ ag.reader.topK ∧ (ag.memory = false → recalled = []) ∧
          ∀ r ∈ recalled, (w.mem u).get r.memory.id = some r.memory ∧ r.memory.userId = u ∧
            ∃ n, r.memory.isActive (i.clock n) := by
  obtain ⟨k, hk, hw⟩ := h.simulated (fun w d w' k hw hd => hd.talks hsha hw) Backend.Recounts.empty
  have hkeyed : w.Keyed := h.inv (fun _ _ _ hw hd => hd.keyed hw) keyed_empty
  refine ⟨k, hk, fun S op i prompt w' hm => ?_⟩
  have hasks := asks_act S ag (hw.given i).accounted.canonical (op.rounds (w.given i)) op
  obtain ⟨u, t, message, rfl, recalled, hrecalled, hoff, rfl⟩ := hasks.makes hm prompt rfl
  refine ⟨u, t, message, recalled, rfl, ?_, hrecalled.few, hoff, fun r hr => ?_⟩
  · rw [heard, (hw.given i).transcript_eq]
  · obtain ⟨key, hget⟩ := hrecalled.stored r hr
    have hget : (w.mem u).get key = some r.memory := hget
    have hid := hkeyed.id_eq hget
    exact ⟨hid ▸ hget, hkeyed.user_eq hget, hrecalled.active r hr⟩

end Engram

/-! ## The next message -/

namespace Engram

open Backend

attribute [local instance] ascii

/-- The prompt of the second chat holds what was said in the first. -/
theorem run_told_again : ∃ (k : Talks) (prompt : List Message) (w' : World) (recalled : List Recall),
    Prog.Makes (handle teamBackend) (greeter.act ((Op.chat "alice" "t1" "again").rounds (greeted.given (.at 2 'b')))
      (.chat "alice" "t1" "again")) (greeted.given (.at 2 'b')) (.invoke prompt) w' ∧
      prompt = Agent.prompt recalled (k "alice" "t1" ++ [⟨.human, some "again"⟩]) ∧ recalled.length ≤ 5 := by
  have hvalid : (Input.at 1 'a').Valid Backend.empty := Stamped.empty.valid (by decide) (by decide)
  have hrun : Steps greeter.Executes Backend.empty _ greeted :=
    steps_perform .nil teamBackend (.chat "alice" "t1" "hi") hvalid
  obtain ⟨k, -, htold⟩ := run_told digest_injective hrun
  have hasked : ∃ (prompt : List Message) (w' : World), Prog.Makes (handle teamBackend)
      (greeter.act ((Op.chat "alice" "t1" "again").rounds (greeted.given (.at 2 'b'))) (.chat "alice" "t1" "again"))
      (greeted.given (.at 2 'b')) (.invoke prompt) w' :=
    ⟨_, _, .later (.later (.later (.later (.later (.later (.later (.later .here)))))))⟩
  obtain ⟨prompt, w', hasked⟩ := hasked
  obtain ⟨u, t, message, recalled, hop, hprompt, hfew, -⟩ := htold teamBackend _ (.at 2 'b') prompt w' hasked
  obtain ⟨rfl, rfl, rfl⟩ := Op.chat.inj hop
  exact ⟨k, prompt, w', recalled, hasked, hprompt, hfew⟩

end Engram
