import Engram.Keys
import Engram.Returns
import Engram.Structured
/-!
# Failed structured calls

The extractor and the judge catch what is raised in the call to the model. What
the model answers is validated after that, so an answer that does not fit the
schema raises, and ends a chat whose extractor got it
(`structured_degrades_iff`).
-/

namespace Engram

open MemoryManager Text

/-! ## The two components -/

section Ask
variable {Obj α : Type} {schema : Schema Obj α} {answer : Answer Obj}

/-- The value is an instance of the schema or passes validation. -/
def Schema.Fits (schema : Schema Obj α) (result : Obj) : Prop :=
  (schema.isInstance result).isSome ∨ (schema.modelValidate result).isSome

/-- There is a result, and without a value that fits it is a `fallback`. -/
def Degrades {β : Type} (schema : Schema Obj α) (answer : Answer Obj) (fallback : β → Prop)
    (outcome : Except ValidationError β) : Prop :=
  ∃ b, outcome = .ok b ∧ ((∀ result, answer = .value result → ¬ schema.Fits result) → fallback b)

/-- The shared pattern raises nothing unless a value is returned that does not fit. -/
theorem ask_ok_iff {failed : String → α} :
    (∃ a, schema.ask failed answer = .ok a) ↔ ∀ result, answer = .value result → schema.Fits result := by
  cases answer with
  | raised typeName => exact iff_of_true ⟨_, rfl⟩ (fun _ h => by cases h)
  | value result =>
    have hone : (∀ v, Answer.value result = .value v → schema.Fits v) ↔ schema.Fits result :=
      ⟨fun h => h result rfl, fun h v hv => by cases hv; exact h⟩
    rw [hone]
    unfold Schema.ask Schema.Fits
    cases hi : schema.isInstance result with
    | some a => exact iff_of_true ⟨a, by simp only [hi]⟩ (.inl rfl)
    | none =>
      cases hv : schema.modelValidate result with
      | some a => exact iff_of_true ⟨a, by simp only [hi, hv]⟩ (.inr rfl)
      | none => simp [hi, hv]

/-- ... and then what it gives for an exception is a fallback. -/
theorem ask_degrades_iff {β : Type} (f : α → β) {failed : String → α} {fallback : β → Prop}
    (hfailed : ∀ typeName, fallback (f (failed typeName))) :
    Degrades schema answer fallback ((schema.ask failed answer).map f) ↔
      ∀ result, answer = .value result → schema.Fits result := by
  rw [← @ask_ok_iff _ _ schema answer failed]
  constructor
  · rintro ⟨b, hb, -⟩
    cases ha : schema.ask failed answer with
    | ok a => exact ⟨a, rfl⟩
    | error e =>
      rw [ha] at hb
      cases hb
  · rintro ⟨a, ha⟩
    refine ⟨f a, by rw [ha]; rfl, fun hno => ?_⟩
    cases answer with
    | raised typeName =>
      cases ha
      exact hfailed typeName
    | value result => exact absurd ((ask_ok_iff.1 ⟨a, ha⟩) result rfl) (hno result rfl)

theorem ask_error_iff {β : Type} (f : α → β) {failed : String → α} :
    (∃ e, (schema.ask failed answer).map f = .error e) ↔ ¬ ∀ result, answer = .value result → schema.Fits result := by
  rw [← @ask_ok_iff _ _ schema answer failed]
  cases schema.ask failed answer with
  | ok a => exact iff_of_false (by rintro ⟨e, he⟩; cases he) (fun h => h ⟨a, rfl⟩)
  | error e => exact iff_of_true ⟨e, rfl⟩ (by rintro ⟨a, ha⟩; cases ha)

end Ask

variable [Host]

/-! ## Functions that do not extract -/

def CallOn.extracts : Call → Prop
  | .extract _ => True
  | _ => False

/-- The program does not call the extractor. -/
def NoExtract {α : Type} (p : Act α) : Prop := p.Only (fun _ _ => True) (fun i => ¬ i.extracts) (fun _ => True)

section NoExtract
variable {α β : Type} {u t : String} {threadId : Option String} {source : Provenance} {existing : List Memory}

theorem NoExtract.bind {p : Act α} {f : α → Act β} (hp : NoExtract p) (hf : ∀ a, NoExtract (f a)) :
    NoExtract (p >>= f) :=
  .seq hp (fun a _ => hf a)

theorem NoExtract.next {i : Call} {f : i.Ans → Act β} (hi : ¬ i.extracts) (hf : ∀ o, NoExtract (f o)) :
    NoExtract ((Prog.call i .ret : Act i.Ans) >>= f) := .call hi (fun o _ => hf o)

theorem NoExtract.pure {a : α} : NoExtract (Pure.pure a : Act α) := Prog.Only.pure trivial

theorem noExtract_reinforce (m : Memory) (existing : List Memory) : NoExtract (reinforce m existing) :=
  .next id (fun _ => .next id (fun _ => .pure))

theorem noExtract_supersedeAll (newId : String) (stale existing : List Memory) :
    NoExtract (supersedeAll newId stale existing) := by
  induction stale generalizing existing with
  | nil => exact .pure
  | cons m stale ih => exact .bind (.next id (fun _ => .next id (fun _ => .pure))) (fun existing => ih existing)

theorem noExtract_build (c : CandidateFact) : NoExtract (build c u threadId source) :=
  .bind (only_expiry id c.ttlDays) (fun _ => .next id (fun _ => .next id (fun _ => .next id (fun _ => .pure))))

theorem noExtract_writeNew (c : CandidateFact) : NoExtract (writeNew c existing u threadId source) :=
  .bind (noExtract_build c) (fun _ => .next id (fun _ => .pure))

theorem noExtract_resolve (mm : MemoryManager) (c : CandidateFact) :
    NoExtract (mm.resolve c existing u threadId source) := by
  unfold resolve
  split
  · split
    · exact .bind (noExtract_reinforce _ _) (fun _ => .pure)
    · split
      · refine .bind (noExtract_build c) (fun m => .next id (fun _ => ?_))
        exact .bind (noExtract_supersedeAll m.id _ existing) (fun _ => .pure)
      · exact noExtract_writeNew c
  · refine .seq (only_nearest (fun _ => id) (fun _ _ _ _ => id) mm c.text) (fun near _ => ?_)
    split
    · exact NoExtract.bind (noExtract_reinforce _ _) (fun _ => .pure)
    · exact noExtract_writeNew c

theorem noExtract_resolveAll (mm : MemoryManager) (cs : List CandidateFact) (existing : List Memory)
    (report : WriteReport) : NoExtract (mm.resolveAll u threadId source cs existing report) := by
  induction cs generalizing existing report with
  | nil => exact .pure
  | cons c cs ih => exact .bind (noExtract_resolve mm c) (fun _ => ih _ _)

theorem noExtract_naiveApply (u text : String) (threadId : Option String) (source : Provenance) :
    NoExtract (naiveApply u text threadId source) := by
  unfold naiveApply
  split
  · exact .pure
  · exact .next id (fun _ => .next id (fun _ => .next id (fun _ => .next id (fun _ => .pure))))

theorem noExtract_activeMemories : NoExtract (activeMemories u) :=
  .next id (fun _ => (only_activeOnly id _).mono (fun _ => id) (fun _ _ => trivial))

theorem noExtract_recallFor (r : MemoryReader) (query : String) (limit : Option Nat) (now : Option Time) :
    NoExtract (r.recallFor u query limit now) :=
  (only_recallFor (M := fun _ => True) id (fun _ _ _ => id) (fun _ _ _ _ _ _ _ => trivial) r query limit now).mono
    (fun _ => id) (fun _ _ => trivial)

end NoExtract

/-! ## A chat that fails in extraction -/

section Fails
variable (S : Services) (extract : String → Except ValidationError (List CandidateFact)) {α β : Type} {w : World}

/-- An error of the extractor ends the run. -/
def Fails (p : Act α) (w : World) : Prop := ∃ e, (p.runRaising (handleExtracting S extract) w).1 = .error (.inr e)

variable {S extract}

theorem runRaising_noExtract {p : Act α} (hp : NoExtract p) (w : World) :
    p.runRaising (handleExtracting S extract) w = ((exec S p w).1.mapError .inl, (exec S p w).2) := by
  refine Prog.Only.runRaising_eq hp (fun i s hi => ?_) w
  cases i with
  | extract turn => exact absurd trivial hi
  | _ => rfl

theorem not_fails {p : Act α} (hp : NoExtract p) (w : World) : ¬ Fails S extract p w := by
  rintro ⟨e, he⟩
  rw [runRaising_noExtract hp] at he
  cases h : (exec S p w).1 with
  | ok a =>
    rw [h] at he
    cases he
  | error e' =>
    rw [h] at he
    cases he

/-- A part that does not extract comes before. -/
theorem fails_bind_ok {p : Act α} {f : α → Act β} (hp : NoExtract p) {a : α} {w' : World}
    (h : exec S p w = (.ok a, w')) : Fails S extract (p >>= f) w ↔ Fails S extract (f a) w' := by
  unfold Fails
  rw [Prog.runRaising_bind, runRaising_noExtract hp, h]
  rfl

theorem fails_bind_iff {p : Act α} {f : α → Act β} {Q : Prop} (hp : NoExtract p) (hr : Returns p)
    (hf : ∀ a w', Fails S extract (f a) w' ↔ Q) : Fails S extract (p >>= f) w ↔ Q := by
  obtain ⟨a, w', h⟩ := hr.exec S w
  rw [fails_bind_ok hp h]
  exact hf a w'

/-- A part that does not extract comes after. -/
theorem fails_bind_left {p : Act α} {f : α → Act β} (hf : ∀ a, NoExtract (f a)) :
    Fails S extract (p >>= f) w ↔ Fails S extract p w := by
  unfold Fails
  rw [Prog.runRaising_bind]
  rcases p.runRaising (handleExtracting S extract) w with ⟨e | a, w'⟩
  · constructor <;> rintro ⟨e', he⟩ <;> cases he <;> exact ⟨_, rfl⟩
  · refine iff_of_false (not_fails (hf a) w') ?_
    rintro ⟨e, he⟩
    cases he

theorem not_fails_of_error {p : Act α} {f : α → Act β} (hp : NoExtract p) {e : Error} {w' : World}
    (h : exec S p w = (.error e, w')) : ¬ Fails S extract (p >>= f) w := by
  unfold Fails
  rw [Prog.runRaising_bind, runRaising_noExtract hp, h]
  rintro ⟨e', he⟩
  cases he

theorem fails_extract {turn : String} {f : List CandidateFact → Act β} (hf : ∀ cs, NoExtract (f cs)) :
    Fails S extract (Engram.extract turn >>= f) w ↔ ∃ e, extract turn = .error e := by
  have hcall : ∀ r, extract turn = r → handleExtracting S extract (.extract turn) w = (r, w) := fun r h => by
    rw [← h]
    rfl
  constructor
  · rintro ⟨e, he⟩
    cases h : extract turn with
    | error e' => exact ⟨e', rfl⟩
    | ok cs =>
      have hno : ¬ Fails S extract (f cs) w := not_fails (hf cs) w
      refine absurd ⟨e, ?_⟩ hno
      have hrun := Prog.runRaising_call_ok (k := f) (hcall _ h)
      rw [← hrun]
      exact he
  · rintro ⟨e, he⟩
    have hrun : (Engram.extract turn >>= f).runRaising (handleExtracting S extract) w = (.error (.inr e), w) :=
      Prog.runRaising_call_error (hcall _ he)
    exact ⟨e, congrArg Prod.fst hrun⟩

end Fails

section Chat
variable {S : Services} {extract : String → Except ValidationError (List CandidateFact)}

theorem apply_fails_iff (mm : MemoryManager) (u text : String) (threadId : Option String) (source : Provenance)
    (w : World) :
    Fails S extract (mm.apply u text threadId source) w ↔
      strip text ≠ "" ∧ (mm.gate.inspect (strip text) source).allowed = true ∧
        ∃ e, extract (strip text) = .error e := by
  unfold apply
  split
  · next h => exact iff_of_false (not_fails .pure w) (fun hc => hc.1 h)
  · next h =>
    split
    · next hg =>
      refine iff_of_false (not_fails ?_ w) (fun hc => hg hc.2.1)
      exact .bind (.next id (fun _ => .next id (fun _ => .next id (fun _ => .pure)))) (fun _ => .pure)
    · next hg =>
      rw [fails_extract]
      · simp [h, not_not.1 hg]
      · intro cs
        split
        · exact .pure
        · exact NoExtract.bind noExtract_activeMemories (fun existing => noExtract_resolveAll mm _ existing _)

/-- The graph asks the extractor with memory on, of a manager, about a message that
is not blank and that the gate allows. -/
theorem runGraph_fails_iff (ag : Agent) (u t checkpointId message : String) (w : World) :
    Fails S extract (ag.runGraph u t checkpointId message) w ↔
      ag.memory = true ∧ ∃ mm, ag.writer = .manager mm ∧ strip message ≠ "" ∧
        (mm.gate.inspect (strip message) .user).allowed = true ∧ ∃ e, extract (strip message) = .error e := by
  have hsave : ∀ messages, NoExtract (saveState checkpointId messages) := fun _ => .call id (fun _ _ => .ret trivial)
  have hsaved : ∀ messages, Returns (saveState checkpointId messages) := fun _ => .call (fun _ => .ret)
  have hinvoke : ∀ prompt, NoExtract (invoke prompt) := fun _ => .call id (fun _ _ => .ret trivial)
  have hinvoked : ∀ prompt, Returns (invoke prompt) := fun _ => .call (fun _ => .ret)
  unfold Agent.runGraph
  -- Only the writer extracts; the other steps are passed over.
  refine fails_bind_iff (.call id (fun _ _ => .ret trivial)) (.call (fun _ => .ret)) (fun saved w => ?_)
  refine fails_bind_iff (hsave _) (hsaved _) (fun _ w => ?_)
  split
  · next hmem =>
    refine fails_bind_iff (noExtract_recallFor _ _ _ _) (returns_recallFor _ _ _ _) (fun recalled w => ?_)
    refine fails_bind_iff (hsave _) (hsaved _) (fun _ w => ?_)
    refine fails_bind_iff (hinvoke _) (hinvoked _) (fun reply w => ?_)
    refine fails_bind_iff (hsave _) (hsaved _) (fun _ w => ?_)
    rw [fails_bind_left (fun report => NoExtract.bind (hsave _) (fun _ => .pure)), lastHumanText_turn]
    cases hwriter : ag.writer with
    | naive =>
      refine iff_of_false (not_fails (noExtract_naiveApply u message (some t) .user) w) ?_
      rintro ⟨-, mm, hmm, -⟩
      cases hmm
    | manager mm =>
      rw [show MemoryWriter.apply (.manager mm) = mm.apply from rfl, apply_fails_iff]
      simp [hmem]
  · next hmem =>
    refine iff_of_false (not_fails ?_ w) (fun h => hmem h.1)
    exact .bind (hinvoke _) (fun _ => .bind (hsave _) (fun _ => .pure))

/-- The chat comes to ask the extractor: the thread is not a legacy one, memory is
on with a manager, and the message is not blank and the gate allows it. -/
def Agent.AsksExtractor (ag : Agent) (u t message : String) (w : World) : Prop :=
  ¬ w.Legacy u t ∧ ag.memory = true ∧ ∃ mm, ag.writer = .manager mm ∧ strip message ≠ "" ∧
    (mm.gate.inspect (strip message) .user).allowed = true

/-- A chat fails in extraction where it comes to ask the extractor and that raises. -/
theorem chat_fails_iff (ag : Agent) (u t message : String) (w : World) :
    Fails S extract (ag.chat u t message) w ↔
      ag.AsksExtractor u t message w ∧ ∃ e, extract (strip message) = .error e := by
  have hcheck : NoExtract (checkpointThreadId u t) :=
    (only_checkpointThreadId id).mono (fun _ => id) (fun _ _ => trivial)
  have hindex : NoExtract (recordThread u t) :=
    .bind hcheck (fun _ => .next id (fun _ => .call id (fun _ _ => .ret trivial)))
  unfold Agent.chat
  by_cases hl : w.Legacy u t
  · exact iff_of_false (not_fails_of_error hcheck (exec_checkpointThreadId_error S w hl)) (fun h => h.1.1 hl)
  · have hrecord : exec S (recordThread u t) w = (.ok (), w.tick.put (.threads u) t
        ⟨t, some (checkpointKey u t), some (w.clock 0)⟩) := by
      rw [recordThread, exec_bind_of_ok S w (exec_checkpointThreadId_ok S w hl)]
      rfl
    rw [fails_bind_ok hcheck (exec_checkpointThreadId_ok S w hl), fails_bind_ok hindex hrecord,
      fails_bind_left (fun result => .pure), runGraph_fails_iff]
    constructor
    · rintro ⟨hmem, mm, hmm, hne, hg, he⟩
      exact ⟨⟨hl, hmem, mm, hmm, hne, hg⟩, he⟩
    · rintro ⟨⟨-, hmem, mm, hmm, hne, hg⟩, he⟩
      exact ⟨hmem, mm, hmm, hne, hg, he⟩

end Chat

/-! ## Both components, and the chat -/

/-- The extractor degrades to no facts, the judge to a wrong answer, and a chat
does not fail in extraction, each if and only if the model, where it is asked and
does not raise, answers with a value that fits the schema. -/
theorem structured_degrades_iff {Obj : Type} (results : Schema Obj ExtractionResult) (verdicts : Schema Obj Verdict)
    (invoke : List Message → Answer Obj) :
    (∀ turn, Degrades results (invoke (extractionPrompt turn)) (· = []) (LLMFactExtractor.extract results invoke turn) ↔
      ∀ result, invoke (extractionPrompt turn) = .value result → results.Fits result) ∧
    (∀ question gold answer, Degrades verdicts (invoke (judgePrompt question gold answer)) (·.correct = false)
        (LLMJudge.score verdicts invoke question gold answer) ↔
      ∀ result, invoke (judgePrompt question gold answer) = .value result → verdicts.Fits result) ∧
    ∀ (ag : Agent) (S : Services) (u t message : String) (w : World),
      (∀ e, (ag.chatExtracting S (LLMFactExtractor.extract results invoke) u t message w).1 ≠ .error (.inr e)) ↔
        (ag.AsksExtractor u t message w →
          ∀ result, invoke (extractionPrompt (strip message)) = .value result → results.Fits result) := by
  have hextract : ∀ turn, Degrades results (invoke (extractionPrompt turn)) (· = [])
      (LLMFactExtractor.extract results invoke turn) ↔
      ∀ result, invoke (extractionPrompt turn) = .value result → results.Fits result :=
    fun turn => ask_degrades_iff ExtractionResult.facts (fun _ => rfl)
  refine ⟨hextract, fun question gold answer => ?_, fun ag S u t message w => ?_⟩
  · have h : Degrades verdicts (invoke (judgePrompt question gold answer)) (·.correct = false)
        ((LLMJudge.score verdicts invoke question gold answer).map id) ↔ _ := ask_degrades_iff id (fun _ => rfl)
    rwa [Except.map_id] at h
  · have hnot :
        (∀ e, (ag.chatExtracting S (LLMFactExtractor.extract results invoke) u t message w).1 ≠ .error (.inr e)) ↔
        ¬ Fails S (LLMFactExtractor.extract results invoke) (ag.chat u t message) w := not_exists.symm
    have herror : (∃ e, LLMFactExtractor.extract results invoke (strip message) = .error e) ↔ _ :=
      ask_error_iff ExtractionResult.facts
    rw [hnot, chat_fails_iff, herror, not_and, not_not]

end Engram

/-! ## A model that answers `None` -/

namespace Engram

open Text

attribute [local instance] ascii

/-- Some values a structured model may return. -/
inductive Reply where
  | none
  | result (result : ExtractionResult)
  | verdict (verdict : Verdict)

def Reply.results : Schema Reply ExtractionResult where
  isInstance
    | .result r => some r
    | _ => Option.none
  modelValidate
    | .result r => some r
    | _ => Option.none

def Reply.verdicts : Schema Reply Verdict where
  isInstance
    | .verdict v => some v
    | _ => Option.none
  modelValidate
    | .verdict v => some v
    | _ => Option.none

/-- Without a tool call, the extractor and the judge raise, and a chat with such an extractor fails. -/
theorem structured_escapes :
    LLMFactExtractor.extract Reply.results (fun _ => .value .none) "I prefer pytest" = .error .invalid ∧
    LLMJudge.score Reply.verdicts (fun _ => .value .none) "Which team?" "payments" "I do not know" = .error .invalid ∧
    (Agent.chatExtracting ⟨⟨5⟩, .manager lenient, true⟩ teamBackend
      (LLMFactExtractor.extract Reply.results (fun _ => .value .none)) "alice" "t1" "I prefer pytest"
      (Backend.empty.given (.at 1 'a'))).1 = .error (.inr .invalid) := by
  have hfails : Fails teamBackend (LLMFactExtractor.extract Reply.results (fun _ => .value .none))
      (Agent.chat ⟨⟨5⟩, .manager lenient, true⟩ "alice" "t1" "I prefer pytest") (Backend.empty.given (.at 1 'a')) := by
    refine (chat_fails_iff _ _ _ _ _).2 ⟨⟨?_, rfl, lenient, rfl, ?_, ?_⟩, .invalid, rfl⟩
    · rintro ⟨e, he, -⟩
      cases he
    · decide +kernel
    · decide +kernel
  obtain ⟨e, he⟩ := hfails
  cases e
  exact ⟨rfl, rfl, he⟩

end Engram
