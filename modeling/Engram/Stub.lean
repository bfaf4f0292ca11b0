import Engram.Prompts
import Engram.Sources
/-!
# What the stub says

Offline, facts are extracted by rules and the stub answers with what it finds in
the prompt. Here requests are served at once, in any order, and each message is
one line without the end marker. Then each reply tells the recalled texts, no
more and no less, and each of these was said by the same user.
-/

namespace Engram

open Backend Text MemoryManager Re

variable [Host]

/-! ## Texts without the end marker -/

section Marks
variable {α : Type} {l a b : List α} {c : α}

omit [Host] in
/-- What has no `c` is on one side of a `c`. -/
theorem within_side (hc : c ∉ l) (h : l <:+: a ++ c :: b) : l <:+: a ∨ l <:+: b := by
  obtain ⟨s, t, h⟩ := h
  rcases List.append_eq_append_iff.1 h with ⟨x, ha, -⟩ | ⟨x, hs, hb⟩
  · exact .inl ⟨s, x, ha.symm⟩
  cases x with
  | nil => exact .inl ⟨s, [], by simpa using hs⟩
  | cons d x =>
    obtain ⟨rfl, rfl⟩ := List.cons.inj hb
    rcases List.append_eq_append_iff.1 hs with ⟨y, -, hy⟩ | ⟨y, -, hy⟩
    · exact absurd (hy ▸ by simp) hc
    · cases y with
      | nil => exact absurd (show c ∈ l by rw [← List.nil_append l, ← hy]; exact List.mem_cons_self) hc
      | cons e y =>
        obtain ⟨-, rfl⟩ := List.cons.inj hy
        exact .inr ⟨y, t, rfl⟩

end Marks

/-- The end marker is not in it. -/
def Unmarked (l : List Char) : Prop := ¬ memoryBlockEnd.toList <:+: l

omit [Host] in
theorem Unmarked.part {l l' : List Char} (h : Unmarked l) (hl : l' <:+: l) : Unmarked l' := fun h' => h (h'.trans hl)

omit [Host] in
theorem Unmarked.spaced {l l' : List Char} (h : Unmarked l) (h' : Unmarked l') : Unmarked (l ++ ' ' :: l') := by
  intro hin
  rcases within_side (by decide) hin with hin | hin
  · exact h hin
  · exact h' hin

omit [Host] in
theorem unmarked_joined {ls : List (List Char)} (h : ∀ l ∈ ls, Unmarked l) : Unmarked ([' '].intercalate ls) := by
  induction ls with
  | nil => exact memoryBlockEnd_unmarked (by simp)
  | cons l ls ih =>
    obtain ⟨hl, hls⟩ := List.forall_mem_cons.1 h
    cases ls with
    | nil => simpa using hl
    | cons l' ls =>
      rw [List.intercalate_cons_cons, List.append_assoc]
      exact hl.spaced (ih hls)

omit [Host] in
/-- A reply brings no marker of its own. -/
theorem unmarked_tell {facts : List String} (h : ∀ fact ∈ facts, Unmarked fact.toList) :
    Unmarked (tell facts).toList := by
  unfold tell
  split
  · exact memoryBlockEnd_unmarked (by decide +kernel)
  · rw [String.toList_append, String.toList_intercalate,
      show "Based on what I remember about you — ".toList =
        "Based on what I remember about you —".toList ++ [' '] from by decide,
      List.append_assoc]
    refine Unmarked.spaced (memoryBlockEnd_unmarked (by decide +kernel)) (unmarked_joined ?_)
    rw [List.map_map, List.forall_mem_map]
    intro fact hfact
    show Unmarked ("You told me: " ++ fact).toList
    rw [String.toList_append, show "You told me: ".toList = "You told me:".toList ++
      [' '] from by decide, List.append_assoc]
    exact Unmarked.spaced (memoryBlockEnd_unmarked (by decide +kernel)) (h fact hfact)

omit [Host] in
theorem Unmarked.silent {m : Message} (h : ∀ content, m.content = some content → Unmarked content.toList) :
    Silent m := by
  intro content hcontent block hblock
  have hnone : blocks content = [] := by
    unfold blocks
    cases hstart : cutAt memoryBlockStart.toList content.toList with
    | none => exact between_of_none hstart
    | some p =>
      have htext := (cutAt_eq_some memoryBlockStart_ne hstart).1
      refine between_of_open hstart (cutAt_eq_none memoryBlockEnd_ne ?_)
      exact (h content hcontent).part ⟨p.1 ++ memoryBlockStart.toList, [], by rw [List.append_nil, htext]⟩
  rw [hnone] at hblock
  cases hblock

/-- One line, white space around it aside, without the end marker. -/
structure PlainMessage (message : String) : Prop where
  oneLine : OneLine (strip message).toList
  unmarked : Unmarked message.toList

/-! ## One chat -/

/-- The stub answers, and saved messages are silent. -/
def Replied : (i : Call) → i.Ans → Prop
  | .getState _, saved => ∀ m ∈ saved.getD [], Silent m
  | .invoke prompt, reply => reply = some (defaultResponder prompt)
  | _, _ => True

/-- Messages that are saved are silent. -/
def SavesSilent : Call → Prop
  | .saveState _ messages => ∀ m ∈ messages, Silent m
  | _ => True

/-- Answers to a request of `u`, over a store of memories in `M`. -/
def HeardBy (P : Services → Prop) (M : Memory → Prop) (u : String) (i : Call) (o : i.Ans) : Prop :=
  FoundIn P M i o ∧ Answered u (fun _ => True) i o ∧ Replied i o

section Chat
variable {P : Services → Prop} {M : Memory → Prop} {u t message : String}

omit [Host] in
/-- The prompt's facts are those that are recalled. -/
theorem defaultResponder_prompt {recalls : List Recall} {messages : List Message}
    (hplain : ∀ r ∈ recalls, PlainText r.memory.text) (hsilent : ∀ m ∈ messages, Silent m) :
    defaultResponder (Agent.prompt recalls messages) = tell (recalls.map (·.memory.text)) := by
  rw [defaultResponder, extractMemoryBlock_prompt, extract_buildSystemPrompt hplain,
    extractMemoryBlock_eq_nil.2 hsilent, List.append_nil]

omit [Host] in
/-- Where no transcript is saved. -/
theorem savesSilent_of {C : Call → Prop} (hC : ∀ c messages, ¬ C (.saveState c messages)) {i : Call} (h : C i) :
    SavesSilent i := by
  cases i with
  | saveState c messages => exact absurd h (hC c messages)
  | _ => trivial

/-- The reply tells what is recalled, which is in `M` and of the user. -/
theorem tells_chat (hM : ∀ m, M m → PlainText m.text) (ag : Agent) (hmessage : Unmarked message.toList) :
    (ag.chat u t message).Only (HeardBy P M u) SavesSilent
    (fun trace => trace.reply = tell (trace.recalled.map (·.memory.text)) ∧
      ∀ r ∈ trace.recalled, r.memory.userId = u ∧ M r.memory) := by
  have hreply : ∀ (recalls : List Recall) (messages : List Message), (∀ r ∈ recalls, PlainText r.memory.text) →
      (∀ m ∈ messages, Silent m) → ∀ m ∈ messages ++ [⟨.ai, some (defaultResponder (Agent.prompt recalls messages))⟩],
        Silent m := by
    intro recalls messages hplain hsilent m hm
    rcases List.mem_append.1 hm with hm | hm
    · exact hsilent m hm
    · obtain rfl := List.mem_singleton.1 hm
      refine Unmarked.silent (fun content hc => ?_)
      obtain rfl := Option.some.inj hc
      rw [defaultResponder_prompt hplain hsilent]
      exact unmarked_tell (List.forall_mem_map.2 (fun r hr => (hplain r hr).unmarked))
  refine .seq (only_checkpointThreadId trivial) ?_
  rintro _ rfl
  refine .seq (R := fun _ => True) (.seq (only_checkpointThreadId trivial) (fun _ _ => only_utcnow trivial
    (fun _ => .call trivial (fun _ _ => .ret trivial)))) (fun _ _ => ?_)
  refine .seq (R := fun result => Agent.replyOf result.messages = tell (result.recalled.map (·.memory.text)) ∧
    ∀ r ∈ result.recalled, r.memory.userId = u ∧ M r.memory) ?_ (fun result h => .pure h)
  unfold Agent.runGraph
  refine only_getState trivial (fun saved hsaved => ?_)
  have hmessages : ∀ m ∈ saved.getD [] ++ [⟨.human, some message⟩], Silent m := by
    intro m hm
    rcases List.mem_append.1 hm with hm | hm
    · exact hsaved.2.2 m hm
    · obtain rfl := List.mem_singleton.1 hm
      exact Unmarked.silent (fun content hc => Option.some.inj hc ▸ hmessage)
  refine only_saveState hmessages ?_
  split
  · refine .seq (only_recallFor (u := u) (M := fun m => m.userId = u ∧ M m) trivial (fun _ _ _ => trivial)
      (fun q limit offset items hitems item hitem => ⟨(hitems.2.1 rfl item hitem).2.1, hitems.1 item hitem⟩)
        ag.reader _ none none) (fun recalled hrecalled => ?_)
    have hplain : ∀ r ∈ recalled, PlainText r.memory.text := fun r hr => hM _ (hrecalled r hr).2
    refine only_saveState hmessages (.call trivial (fun reply hanswer => ?_))
    obtain rfl : reply = some (defaultResponder (Agent.prompt recalled _)) := hanswer.2.2
    have hsilent := hreply recalled _ hplain hmessages
    refine only_saveState hsilent ?_
    refine .seq (((only_writer (own_writes u (some t) (fun _ => True)) ag.writer _ .user).of_answers
      (fun _ _ h => h.2.1)).mono (fun _ => savesSilent_of (fun _ _ h => h)) (fun _ h => h))
      (fun report _ => only_saveState hsilent (.pure ⟨?_, hrecalled⟩))
    rw [Agent.replyOf_turn, Option.getD_some]
    exact defaultResponder_prompt hplain hmessages
  · refine .call trivial (fun reply hanswer => ?_)
    obtain rfl : reply = some (defaultResponder (Agent.prompt [] _)) := hanswer.2.2
    have hnone : ∀ r ∈ ([] : List Recall), PlainText r.memory.text := by simp
    refine only_saveState (hreply [] _ hnone hmessages) (.pure ⟨?_, by simp⟩)
    rw [Agent.replyOf_turn, Option.getD_some]
    exact defaultResponder_prompt hnone hmessages

end Chat

/-! ## Requests at once -/

/-- Saved messages are silent. -/
def Backend.Quiet (w : World) : Prop := ∀ c messages, w.checkpoints c = some messages → ∀ m ∈ messages, Silent m

/-- A chat's response tells what it says was recalled, all of which passes. -/
def Tells (Passes : String → String → Prop) (r : Request) (response : Response) : Prop :=
  ∀ u message t reply recalled written decisions,
    r = .chat u message t → response = .chat reply recalled written decisions →
    reply = tell (recalled.map (·.text)) ∧ ∀ out ∈ recalled, Passes u out.text

section Requests
variable {P : Services → Prop} {M : Memory → Prop} {ag : Agent} {Passes : String → String → Prop}

/-- The texts of memories go out as they are. -/
theorem texts_memoriesOut {A : (i : Call) → i.Ans → Prop} {C : Call → Prop} (h : C .utcnow) (ms : List Memory) :
    (memoriesOut ms).Only A C (fun outs => outs.map (·.text) = ms.map (·.text)) := by
  induction ms with
  | nil => exact .pure rfl
  | cons m ms ih =>
    have hone : (MemoryOut.of m).Only A C (fun out => out.text = m.text) :=
      .seq (only_isActiveNow h m none) (fun _ _ => .pure rfl)
    refine .seq hone (fun out hout => .seq ih (fun outs houts => .pure ?_))
    rw [List.map_cons, List.map_cons, hout, houts]

theorem tells_route (hM : ∀ m, M m → PlainText m.text ∧ Passes m.userId m.text) (rounds : Nat) (r : Request)
    (hmessage : ∀ u message t, r = .chat u message t → Unmarked message.toList) :
    (ag.route rounds r).Only (HeardBy P M r.userId) SavesSilent (Tells Passes r) := by
  have hother : ∀ {r : Request}, (∀ c messages, ¬ r.Shape (.saveState c messages)) →
    (∀ u message t, r ≠ .chat u message t) →
      (ag.route rounds r).Only (HeardBy P M r.userId) SavesSilent (Tells Passes r) := by
    intro r hshape hr
    exact ((only_shape ag rounds r).of_answers (fun _ _ _ => trivial)).mono (fun _ => savesSilent_of hshape)
      (fun _ _ u message t _ _ _ _ he => absurd he (hr u message t))
  cases r with
  | chat u message t =>
    refine .seq (tells_chat (fun m hm => (hM m hm).1) ag (hmessage u message t rfl)) (fun trace htrace => ?_)
    refine .seq (texts_memoriesOut trivial _) (fun recalled hrecalled => .seq (texts_memoriesOut trivial _)
      (fun written _ => .pure ?_))
    rintro _ _ _ _ _ _ _ ⟨⟩ ⟨⟩
    rw [List.map_map] at hrecalled
    refine ⟨htrace.1.trans (congrArg tell hrecalled.symm), fun out hout => ?_⟩
    have hmem : out.text ∈ recalled.map (·.text) := List.mem_map_of_mem hout
    rw [hrecalled] at hmem
    obtain ⟨r, hr, he⟩ := List.mem_map.1 hmem
    obtain ⟨huser, hin⟩ := htrace.2 r hr
    have hpasses := (hM r.memory hin).2
    rw [huser] at hpasses
    exact he ▸ hpasses
  | _ => exact hother (fun _ _ h => h) (by simp)

/-- The calls of a request of `u` that keep all memories in `M`, under their user, and all saved messages silent. -/
def KeepsPlain (M : Memory → Prop) (u : String) (i : Call) : Prop :=
  PutsIn M (fun _ _ => True) i ∧ PutsOwn u (fun _ => True) i ∧ SavesSilent i

theorem tells_serving {mm : MemoryManager} {reader : MemoryReader} {memory : Bool} (hM : Traceable M)
    (hpasses : ∀ m, M m → PlainText m.text ∧ Passes m.userId m.text) (rounds : Nat) (subject : Option String)
    (r : Request)
    (hsaid : ∀ u message t, r = .chat u message t → owns subject u → ∀ S, P S → ∀ m, SaidBy S mm u message t m → M m)
    (hmessage : ∀ u message t, r = .chat u message t → Unmarked message.toList) :
    ((Agent.mk reader (.manager mm) memory).serving rounds subject r).Only
      (HeardBy P M r.userId) (KeepsPlain M r.userId) (Tells Passes r) := by
  have herror : ∀ status detail, Tells Passes r (.error status detail) := by
    intro status detail _ _ _ _ _ _ _ _ he
    cases he
  unfold Agent.serving
  split
  · exact .pure (herror _ _)
  split
  · exact .pure (herror _ _)
  · next howns =>
    have howns : owns subject r.userId := not_not.1 howns
    have hputs : ((Agent.mk reader (.manager mm) memory).route rounds r).Only (FoundIn P M) (PutsIn M (fun _ _ => True))
        (fun _ => True) := by
      refine sources_route hM rounds r (fun u message t hr => hsaid u message t hr ?_) (fun _ _ => trivial)
      rwa [hr] at howns
    have hown := only_route ⟨reader, .manager mm, memory⟩ rounds r
    have htells : ((Agent.mk reader (.manager mm) memory).route rounds r).Only
        (HeardBy P M r.userId) SavesSilent (Tells Passes r) := tells_route hpasses rounds r hmessage
    exact (((hputs.of_answers (fun _ _ h => h.1)).and (hown.of_answers (fun _ _ h => h.2.1))).and htells).mono
      (fun i hi => ⟨hi.1.1, hi.1.2.2, hi.2⟩) (fun _ hq => hq.2)

/-- A call of such a request leaves the memories in `M` and the messages silent. -/
theorem Answers.heard (hinvoke : ∀ S, P S → S.invoke = fun prompt => some (defaultResponder prompt)) {u : String}
    {w w' : World} {i : Call} {o : i.Ans} (ha : Answers P i w o w') (hall : w.AllIn M (fun _ _ => True))
    (hmatched : w.Matched) (hquiet : w.Quiet) (hi : KeepsPlain M u i) :
    HeardBy P M u i o ∧ w'.AllIn M (fun _ _ => True) ∧ w'.Matched ∧ w'.Quiet := by
  obtain ⟨hputs, hown, hsaves⟩ := hi
  obtain ⟨hfound, hall'⟩ := ha.sources hall hputs
  obtain ⟨S, hS, j, -, hh⟩ := ha
  have hgiven : (w.given j).Matched := hmatched.congr (fun _ => rfl)
  have hanswered := answered_any S hgiven u i
  have hmatched' := Alike.matched_of_puts (S := S) hgiven hown
  rw [hh] at hanswered hmatched'
  obtain ⟨rfl, rfl⟩ := Prod.mk.inj hh.symm
  have hkept : ∀ {w' : World}, w'.checkpoints = w.checkpoints → w'.Quiet := fun hc c ms hget => hquiet c ms (hc ▸ hget)
  have hset : ∀ c messages, (∀ ms, messages = some ms → ∀ m ∈ ms, Silent m) →
      ((w.given j).setState c messages).Quiet := by
    intro c messages hms c' ms hget
    change Function.update w.checkpoints c messages c' = some ms at hget
    rw [Function.update_apply] at hget
    split at hget
    · exact hms ms hget
    · exact hquiet c' ms hget
  suffices hreplied : Replied i (handle S i (w.given j)).1 ∧ (handle S i (w.given j)).2.Quiet from
    ⟨⟨hfound, hanswered, hreplied.1⟩, hall', hmatched', hreplied.2⟩
  cases i with
  | getState c =>
    refine ⟨fun m hm => ?_, hkept rfl⟩
    obtain ⟨ms, hms, hin⟩ : ∃ ms, w.checkpoints c = some ms ∧ m ∈ ms := by
      cases hget : w.checkpoints c with
      | none =>
        rw [show (handle S (.getState c) (w.given j)).1 = none from hget] at hm
        cases hm
      | some ms => exact ⟨ms, rfl, by rwa [show (handle S (.getState c) (w.given j)).1 = some ms from hget] at hm⟩
    exact hquiet c ms hms m hin
  | invoke prompt => exact ⟨congrFun (hinvoke S hS) prompt, hkept rfl⟩
  | saveState c messages => exact ⟨trivial, hset c _ (fun ms hms => Option.some.inj hms ▸ hsaves)⟩
  | deleteThread c => exact ⟨trivial, hset c none (fun ms hms => by cases hms)⟩
  | embed text => exact ⟨trivial, hkept ((w.given j).checkpoints_embed S text)⟩
  | _ => exact ⟨trivial, hkept rfl⟩

end Requests

/-- A candidate of one line without the marker has none either. -/
theorem plainText_of_extract (hw : WordChars) {message : String} (hplain : PlainMessage message) {c : CandidateFact}
    (hc : c ∈ RuleFactExtractor.extract (strip message)) : PlainText c.text := by
  obtain ⟨l, v, htext, -, -⟩ := RuleFactExtractor.cut_text hw hc
  rw [strip_strip] at htext
  have hpart : c.text.toList <:+: (strip message).toList := ⟨l, v, by rw [htext, List.append_assoc]⟩
  obtain ⟨l', v', hwhole, -, -⟩ := cut_strip hw message
  have hstrip : (strip message).toList <:+: message.toList := ⟨l', v', by rw [List.append_assoc, ← hwhole]⟩
  obtain ⟨raw, -, hfact⟩ := List.mem_filterMap.1 hc
  refine ⟨?_, fun ch hch => hplain.oneLine ch (hpart.mem hch), hplain.unmarked.part (hpart.trans hstrip)⟩
  rw [(RuleFactExtractor.fact_eq_some hfact).1, trimmed, strip_eq, String.toList_ofList, stripped_stripped]

theorem SaidBy.plain (hw : WordChars) {S : Services} (hextract : S.extract = RuleFactExtractor.extract)
    {mm : MemoryManager} {u message t : String} {m : Memory} (hplain : PlainMessage message)
    (h : SaidBy S mm u message t m) : PlainText m.text ∧ Cut isWord message.toList m.text.toList := by
  obtain ⟨c, hc, htext⟩ := h.proposed hextract
  refine ⟨?_, h.cut hw hextract⟩
  rw [htext]
  exact plainText_of_extract hw hplain hc

/-- The text is a piece of what the user sent to a chat. -/
def PieceOf {κ : Type} (arrivals : κ → Arrival) (u text : String) : Prop :=
  ∃ k message t, (arrivals k).request = .chat u message t ∧ owns (arrivals k).subject u ∧
    Cut isWord message.toList text.toList

/-- The memory is such a piece of its user, and plain. -/
def PlainPiece {κ : Type} (arrivals : κ → Arrival) (m : Memory) : Prop :=
  PlainText m.text ∧ PieceOf arrivals m.userId m.text

theorem plainPiece_traceable {κ : Type} (arrivals : κ → Arrival) : Traceable (PlainPiece arrivals) :=
  ⟨fun _ _ hm => hm, fun _ _ _ hm => hm⟩

theorem SaidBy.plainPiece (hw : WordChars) {S : Services} (hextract : S.extract = RuleFactExtractor.extract)
    {mm : MemoryManager} {κ : Type} {arrivals : κ → Arrival} {k : κ} {u message t : String} {m : Memory}
    (hplain : PlainMessage message) (hk : (arrivals k).request = .chat u message t)
    (howns : owns (arrivals k).subject u) (h : SaidBy S mm u message t m) : PlainPiece arrivals m := by
  obtain ⟨htext, hcut⟩ := h.plain hw hextract hplain
  obtain ⟨-, _, -, hmade⟩ := h
  obtain rfl := hmade.user
  exact ⟨htext, k, message, t, hk, howns, hcut⟩

/-- Offline, whatever is served at once and in whatever order: a chat's reply tells the
texts that its response says were recalled, and each of them is a piece of a
message that the same user sent to a chat. -/
theorem concurrent_tells (hw : WordChars) {P : Services → Prop}
    (hextract : ∀ S, P S → S.extract = RuleFactExtractor.extract)
    (hinvoke : ∀ S, P S → S.invoke = fun prompt => some (defaultResponder prompt)) (reader : MemoryReader)
    (mm : MemoryManager) (memory : Bool) {κ : Type} [DecidableEq κ] (arrivals : κ → Arrival)
    (hplain : ∀ k u message t, (arrivals k).request = .chat u message t → PlainMessage message)
    {made : List (Pool.Made κ Call CallOn.Ans)} {c : Serving κ}
    (h : Steps (Pool.Step (Answers P)) (Serving.start ⟨reader, .manager mm, memory⟩ arrivals) made c) {k : κ}
    {u message t : String} (hk : (arrivals k).request = .chat u message t) {reply : String}
    {recalled written : List MemoryOut} {decisions : List DecisionOut}
    (hdone : c.prog k = .ret (.chat reply recalled written decisions)) :
    reply = tell (recalled.map (·.text)) ∧ ∀ out ∈ recalled, PieceOf arrivals u out.text := by
  obtain ⟨hall, -⟩ := Pool.inv
    (W := fun k _ p => p.Only (HeardBy P (PlainPiece arrivals) (arrivals k).request.userId)
      (KeepsPlain (PlainPiece arrivals) (arrivals k).request.userId) (Tells (PieceOf arrivals) (arrivals k).request))
    (I := fun w => w.AllIn (PlainPiece arrivals) (fun _ _ => True) ∧ w.Matched ∧ w.Quiet)
    (fun k i f w o w' hW hI ha => by
      obtain ⟨hi, hf⟩ := hW.of_call
      obtain ⟨hheard, hI'⟩ := ha.heard hinvoke hI.1 hI.2.1 hI.2.2 hi
      exact ⟨hf o hheard, hI'⟩)
    (fun _ _ _ _ _ _ _ _ _ _ _ h => h) h
    (fun k => tells_serving (plainPiece_traceable arrivals) (fun _ hm => hm) _ _ _
      (fun u message t hr howns S hS m hm => hm.plainPiece hw (hextract S hS) (hplain k u message t hr) hr howns)
      (fun u message t hr => (hplain k u message t hr).unmarked))
    ⟨.mk (fun _ _ _ hget => by cases hget) (fun _ _ _ hget => by cases hget), matched_empty,
      fun _ _ hget => by cases hget⟩
  have hresult := hall k
  rw [hdone] at hresult
  exact hresult.of_ret u message t reply recalled written decisions hk rfl

end Engram

/-! ## One chat after the other -/

namespace Engram

open Backend Text Re

attribute [local instance] ascii

def stubBackend : Services := { offlineBackend with invoke := fun prompt => some (defaultResponder prompt) }

/-- A user says what they drink, and asks in another thread. -/
def teaChats (second : Bool) : Arrival :=
  if second then ⟨some "alice", .chat "alice" "What do I drink?" "t2", 0⟩
  else ⟨some "alice", .chat "alice" "Hello. I prefer tea!" "t1", 0⟩

/-- Components with the offline extractor and the stub. -/
def Stubbed (S : Services) : Prop := Offline S ∧ S.invoke = fun prompt => some (defaultResponder prompt)

/-- The second chat begins, the first is served, and the second goes on. -/
def teaTold : Serving Bool :=
  (Serving.start chattingAgent teaChats).play stubBackend [(true, 4), (false, 100), (true, 100)]

theorem teaTold_steps :
    ∃ made, Steps (Pool.Step (Answers Stubbed)) (Serving.start chattingAgent teaChats) made teaTold :=
  Serving.play_steps ⟨by simp only [Offline, stubBackend, offlineBackend], by simp only [stubBackend]⟩
    (fun id hid => by cases hid)

/-- The response of a request that is done. -/
def Serving.response : Act Response → Option Response
  | .ret response => some response
  | _ => none

theorem response_eq_some {p : Act Response} {response : Response} (h : Serving.response p = some response) :
    p = .ret response := by
  cases p with
  | ret r => rw [Option.some.inj h]
  | _ => cases h

/-- The recalled texts of a response. -/
def Response.recalledTexts : Response → Option (List String)
  | .chat _ recalled _ _ => some (recalled.map (·.text))
  | _ => none

theorem plainMessage_teaChats {second : Bool} {u message t : String}
    (h : (teaChats second).request = .chat u message t) : PlainMessage message := by
  cases second with
  | false =>
    obtain rfl := (Request.chat.inj h).2.1
    exact ⟨by decide +kernel, memoryBlockEnd_unmarked (by decide +kernel)⟩
  | true =>
    obtain rfl := (Request.chat.inj h).2.1
    exact ⟨by decide +kernel, memoryBlockEnd_unmarked (by decide +kernel)⟩

/-- The second chat is told what was said in the first. -/
theorem concurrent_tells_tea : ∃ made c reply recalled written decisions,
    Steps (Pool.Step (Answers Stubbed)) (Serving.start chattingAgent teaChats) made c ∧
      c.prog true = .ret (.chat reply recalled written decisions) ∧ recalled.map (·.text) = ["I prefer tea"] ∧
      reply = tell ["I prefer tea"] := by
  obtain ⟨made, hmade⟩ := teaTold_steps
  have htexts : (Serving.response (teaTold.prog true)).bind Response.recalledTexts = some ["I prefer tea"] := by
    decide +kernel
  obtain ⟨response, hresponse, hrecalled⟩ := Option.bind_eq_some_iff.1 htexts
  cases response with
  | chat reply recalled written decisions =>
    have hrecalled : recalled.map (·.text) = ["I prefer tea"] := Option.some.inj hrecalled
    have hdone := response_eq_some hresponse
    have htells := concurrent_tells ascii_wordChars (P := Stubbed) (fun S hS => hS.1) (fun S hS => hS.2)
      ⟨5⟩ lenient true teaChats (fun _ _ _ _ => plainMessage_teaChats) hmade (k := true) rfl hdone
    exact ⟨_, _, reply, recalled, written, decisions, hmade, hdone, hrecalled, hrecalled ▸ htells.1⟩
  | _ => cases hrecalled

end Engram
