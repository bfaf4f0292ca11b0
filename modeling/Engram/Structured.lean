import Engram.Graph
import Engram.Lib.Raising
/-!
# Answers of the model with a structure

`LLMFactExtractor` of `extract.py` and `LLMJudge` of `judge.py`. A model that is
asked for an instance of a schema may answer with anything, so the type of its
answers is a parameter, and so is what pydantic makes of them.
-/

namespace Engram

open Text

/-! ## Schemas -/

/-- What a structured call comes to: a value, or an exception of some class. -/
inductive Answer (Obj : Type) where
  | value (result : Obj)
  | raised (typeName : String)

/-- pydantic's. -/
inductive ValidationError where
  | invalid
  deriving DecidableEq

/-- A pydantic model: `isinstance(result, Model)`, with the instance, and
`Model.model_validate(result)`, where `none` is a `ValidationError`. -/
structure Schema (Obj α : Type) where
  isInstance : Obj → Option α
  modelValidate : Obj → Option α

/-- The shared pattern of the two components: what is raised in the call is
caught, then an instance is taken as it is and anything else is validated. -/
def Schema.ask {Obj α : Type} (schema : Schema Obj α) (failed : String → α) : Answer Obj → Except ValidationError α
  | .raised typeName => .ok (failed typeName)
  | .value result => match schema.isInstance result with
    | some a => .ok a
    -- This call is outside the `try`.
    | none => match schema.modelValidate result with
      | some a => .ok a
      | none => .error .invalid

/-! ## The extractor -/

structure ExtractionResult where
  facts : List CandidateFact

def extractionSystem : String :=
  "You extract durable facts about a user from one conversational turn, so an assistant can remember them in " ++
  "later sessions.\n\nReturn facts ONLY when the turn states something about the user that would still be " ++
  "useful weeks from now: preferences, tools they use, where they live, their role or team, constraints, " ++
  "dietary needs, and standing instructions about how they want things done.\n\nMost turns contain nothing. " ++
  "Small talk, status updates, complaints about the office, questions, and requests are NOT facts about the " ++
  "user:\n  \"Morning! The coffee machine is broken again.\"  -> no facts\n  \"Did you see the standup " ++
  "notes?\"                -> no facts\n  \"Scaffold me a test for the refund endpoint.\"   -> no facts\n  " ++
  "\"We finally shipped the dashboard on Friday.\"   -> no facts\n\nA QUESTION IS NEVER A FACT. When the user " ++
  "asks about something, they are telling you they do not know it — that is the opposite of stating it. Never " ++
  "turn the subject of a question into a slot:\n  \"Which team am I on again?\"        -> no facts (NOT " ++
  "team=\"\")\n  \"What access do I have?\"           -> no facts (NOT access=\"unknown\")\n  \"Where did I " ++
  "say I lived?\"         -> no facts\n  \"Who should review my change?\"     -> no facts\n\nNever emit a fact " ++
  "whose `value` is empty, \"unknown\", or \"unspecified\". If you do not know the value, there is no fact — " ++
  "return nothing.\n\nReturning an empty list is the common, correct answer. Inventing facts to seem useful is " ++
  "the main failure mode.\n\nFor each fact:\n- `text` — a self-contained sentence in the third person, " ++
  "understandable with no other context. Write \"Prefers pytest for testing\", not \"yeah I like it\".\n\n  If " ++
  "the turn begins with a date in brackets, that is when it was said. RESOLVE relative time against it and " ++
  "write the resolved date into the fact. A memory that still says \"yesterday\" is anchored to nothing and " ++
  "can never answer a question about when something happened:\n    \"[7 May 2023] Caroline: I went to the " ++
  "support group yesterday\"\n      -> \"Caroline went to the LGBTQ support group on 6 May 2023\"\n    \"[25 " ++
  "May 2023] Melanie: I ran a charity race last Sunday\"\n      -> \"Melanie ran a charity race on Sunday 21 " ++
  "May 2023\"\n    \"[3 June 2023] Sam: I'm moving to Berlin next month\"\n      -> \"Sam is moving to Berlin " ++
  "in July 2023\"\n  Never carry \"yesterday\", \"last week\", \"next month\" or \"recently\" into a fact " ++
  "unresolved. Do not put the bracketed date in the fact verbatim — resolve it.\n- `attribute` — a short " ++
  "snake_case slot key. Two facts that cannot both be true at once MUST share an attribute, and the same fact " ++
  "restated later MUST get the same key, so prefer one of these wherever it fits:\n  team, role, employer, " ++
  "location, timezone, working_hours, language,   testing_framework, web_framework, database, editor, " ++
  "deploy_tool, cloud, os,   diet, allergy, accessibility, pet_name, communication_preference\n  Invent a new " ++
  "snake_case key only when none of them fits, and keep it generic (`editor`, not `preferred_code_editor`). " ++
  "Leave it empty for standing instructions that do not name a property of the user.\n- `value` — the value " ++
  "filling the slot, normalised and short: \"platform\", \"Berlin\", \"pytest\".\n- `scope` — set only when " ++
  "two values of the same attribute can genuinely both be true (a work address and a home address). Otherwise " ++
  "leave it empty.\n- `kind` — `semantic` for durable facts, `episodic` for things that happened, `procedural` " ++
  "for standing instructions about how to do things.\n- `importance` — 0 to 1. Standing preferences and " ++
  "constraints score high.\n- `ttl_days` — null for almost everything. Set a number ONLY when the user's own " ++
  "words mark the state as temporary. Do not invent an expiry for something that simply feels like it might " ++
  "change one day.\n  \"I'm debugging a flaky test today\"   -> ttl_days: 1\n  \"I'm on call this " ++
  "week\"              -> ttl_days: 7\n  \"I prefer pytest\"                    -> ttl_days: null\n  \"I've " ++
  "relocated to Berlin\"           -> ttl_days: null\n  \"I'm on the payments team\"           -> ttl_days: " ++
  "null\n  Never use 0. A 0 means \"expired already\" and throws the fact away.\n"

def extractionPrompt (turn : String) : List Message := [⟨.system, some extractionSystem⟩, ⟨.human, some turn⟩]

/-- `LLMFactExtractor.extract`. -/
def LLMFactExtractor.extract {Obj : Type} (schema : Schema Obj ExtractionResult) (invoke : List Message → Answer Obj)
    (turn : String) : Except ValidationError (List CandidateFact) :=
  (schema.ask (fun _ => ⟨[]⟩) (invoke (extractionPrompt turn))).map (·.facts)

/-! ## The judge -/

structure Verdict where
  correct : Bool
  reason : String

def judgeSystem : String :=
  "You grade an assistant's answer against a known-correct answer.\n\nMark it correct when the answer conveys " ++
  "the same fact, however it is worded. Paraphrase, extra detail, a different date format, or a fuller " ++
  "sentence are all fine — you are grading the information, not the phrasing.\n\nMark it incorrect when the " ++
  "answer states something that contradicts the gold answer, omits the fact entirely, hedges without " ++
  "committing to it, or says it does not know. An answer that lists the right fact among several guesses is " ++
  "incorrect: guessing broadly enough to include the truth is not remembering it.\n\nGive one short sentence " ++
  "of justification.\n"

def judgePrompt (question gold answer : String) : List Message :=
  [⟨.system, some judgeSystem⟩, ⟨.human, some ("Question: " ++ question ++ "\nKnown-correct answer: " ++ gold ++
    "\nAssistant's answer: " ++ answer)⟩]

/-- `LLMJudge.score`. -/
def LLMJudge.score {Obj : Type} (schema : Schema Obj Verdict) (invoke : List Message → Answer Obj)
    (question gold answer : String) : Except ValidationError Verdict :=
  schema.ask (fun typeName => ⟨false, "judge error: " ++ typeName⟩) (invoke (judgePrompt question gold answer))

/-! ## A turn with an extractor that may raise -/

variable [Host]

/-- The components behind the calls, with this extractor in place of theirs. -/
def handleExtracting (S : Services) (extract : String → Except ValidationError (List CandidateFact)) :
    (i : Call) → World → Except ValidationError i.Ans × World
  | .extract turn, w => (extract turn, w)
  | i, w => (.ok (handle S i w).1, (handle S i w).2)

/-- `Agent.chat`, which may raise an error of its own or let one of the extractor through. -/
def Agent.chatExtracting (ag : Agent) (S : Services) (extract : String → Except ValidationError (List CandidateFact))
    (userId threadId message : String) (w : World) : Except (Error ⊕ ValidationError) TurnTrace × World :=
  (ag.chat userId threadId message).runRaising (handleExtracting S extract) w

end Engram
