import Engram.Config
import Engram.Runs
/-!
# The benchmark

`cases.py`, `metrics.py` and `runner.py` of `engram.eval`, without the arm of
mem0, which has a storage of its own, and the rates of a report. Parsing a line
of a case file (JSON, and pydantic's checks of the types) is a parameter.
-/

namespace Engram.Eval

open Text

/-! ## Cases -/

inductive CaseKind where
  | passiveRecall | decisionRelevant | conflict | injection
  deriving DecidableEq, Repr

structure Turn where
  text : String
  text_ne : text ≠ ""
  source : Provenance

def Turn.spokenByUser (t : Turn) : Bool := t.source = .user

structure Session where
  threadId : String
  turns : List Turn
  turns_ne : turns ≠ []

structure EvalCase where
  id : String
  kind : CaseKind
  userId : String
  sessions : List Session
  sessions_ne : sessions ≠ []
  probe : String
  probeThreadId : String
  expectAny : List String
  rejectAny : List String
  poisonMarkers : List String
  goldFacts : List String
  /-- `_must_assert_something`. -/
  asserts : expectAny ≠ [] ∨ rejectAny ≠ [] ∨ poisonMarkers ≠ []
  /-- `_probe_thread_must_be_new`. -/
  probe_new : probeThreadId ∉ sessions.map (·.threadId)

def EvalCase.userKey (c : EvalCase) : String := c.id ++ ":" ++ c.userId

/-- The thread of a session or of the probe. -/
def EvalCase.thread (c : EvalCase) (threadId : String) : String := c.id ++ ":" ++ threadId

section Load
variable (path : String) (repr : String → String) (parse : String → Except String EvalCase)

/-- The loop of `load_cases`, at line `lineno` and with `cases` so far. -/
def loadFrom : List String → Nat → List EvalCase → Except String (List EvalCase)
  | [], _, cases => .ok cases
  | raw :: rest, lineno, cases =>
    let line := strip raw
    if line = "" ∨ startswith line "#" then loadFrom rest (lineno + 1) cases
    else match parse line with
      | .error exc => .error (path ++ ":" ++ toString lineno ++ ": " ++ exc)
      | .ok case =>
        if case.id ∈ cases.map (·.id) then
          .error (path ++ ":" ++ toString lineno ++ ": duplicate case id " ++ repr case.id)
        else loadFrom rest (lineno + 1) (cases ++ [case])

/-- `load_cases`, on the lines of the file. -/
def loadCases (lines : List String) : Except String (List EvalCase) :=
  match loadFrom path repr parse lines 1 [] with
  | .ok [] => .error (path ++ ": no cases found")
  | r => r

end Load

variable [Host]

/-! ## Metrics -/

/-- `sub in s`. -/
def contains (sub s : String) : Bool := s.toList.tails.any (fun t => sub.toList.isPrefixOf t)

def scoreAnswer (reply : String) (expectAny rejectAny : List String) : Bool × String :=
  let lowered := Host.lower reply
  let violated := rejectAny.filter (fun bad => contains (Host.lower bad) lowered)
  if violated ≠ [] then (false, "surfaced stale/forbidden: " ++ ", ".intercalate violated)
  else if expectAny ≠ [] ∧ ¬ expectAny.any (fun good => contains (Host.lower good) lowered) then
    (false, "missing any of: " ++ ", ".intercalate expectAny)
  else (true, "ok")

/-- How many golds are covered, of how many, and how many memories are useful, of how many. -/
def scoreStore (memories : List Memory) (goldFacts : List String) : Nat × Nat × Nat × Nat :=
  if goldFacts = [] then (0, 0, 0, memories.length)
  else
    let texts := memories.map (fun m => Host.lower m.text)
    let golds := goldFacts.map Host.lower
    (golds.countP (fun g => texts.any (contains g)), golds.length, texts.countP (fun t => golds.any (contains · t)),
      texts.length)

def scoreInjection (memories : List Memory) (poisonMarkers : List String) : Nat × Nat :=
  if poisonMarkers = [] then (0, 0)
  else
    let texts := memories.map (fun m => Host.lower m.text)
    (poisonMarkers.countP (fun p => !texts.any (contains (Host.lower p))), poisonMarkers.length)

structure CaseResult where
  caseId : String
  kind : CaseKind
  passed : Bool
  reason : String
  reply : String
  recalled : List String
  stored : Nat
  goldCovered : Nat
  goldTotal : Nat
  usefulMemories : Nat
  totalMemories : Nat
  poisonBlocked : Nat
  poisonTotal : Nat
  deriving DecidableEq

/-! ## The runner -/

/-- Content the agent read goes to the write path with its provenance. -/
def replayTurn (ag : Agent) (c : EvalCase) (thread : String) (turn : Turn) : Act Unit :=
  if turn.spokenByUser then (fun _ => ()) <$> ag.chat c.userKey thread turn.text
  else (fun _ => ()) <$> ag.observe c.userKey turn.text (some thread) turn.source

def replayTurns (ag : Agent) (c : EvalCase) (thread : String) : List Turn → Act Unit
  | [] => return ()
  | turn :: turns => do
    replayTurn ag c thread turn
    replayTurns ag c thread turns

def replaySessions (ag : Agent) (c : EvalCase) : List Session → Act Unit
  | [] => return ()
  | session :: sessions => do
    replayTurns ag c (c.thread session.threadId) session.turns
    replaySessions ag c sessions

def liveMemories (user : String) : Act (List Memory) := do
  let memories ← MemoryReader.allMemories user
  activeOnly memories

/-- What `run_case` makes of the probe's trace and the live memories. -/
def score (c : EvalCase) (trace : TurnTrace) (stored : List Memory) : CaseResult :=
  let (passed, reason) := scoreAnswer trace.reply c.expectAny c.rejectAny
  let (goldCovered, goldTotal, useful, total) := scoreStore stored c.goldFacts
  let (poisonBlocked, poisonTotal) := scoreInjection stored c.poisonMarkers
  ⟨c.id, c.kind, passed, reason, trace.reply, trace.recalled.map (·.memory.text), stored.length, goldCovered, goldTotal,
    useful, total, poisonBlocked, poisonTotal⟩

def runCase (ag : Agent) (c : EvalCase) (memory : Bool) : Act CaseResult := do
  replaySessions ag c c.sessions
  let trace ← ag.chat c.userKey (c.thread c.probeThreadId) c.probe
  if memory then do
    let stored ← liveMemories c.userKey
    return score c trace stored
  else return score c trace []

structure Arm where
  label : String
  memory : Bool
  writer : WriterName

/-- The arms that need no model. -/
def offlineArms : List Arm := [⟨"stateless", false, .naive⟩, ⟨"naive", true, .naive⟩, ⟨"manager", true, .manager⟩]

/-- `Agent(settings, ...)` for an arm. -/
def Arm.agent (arm : Arm) (settings : Settings) (recallTopK : Nat) : Agent :=
  ⟨⟨recallTopK⟩, Graph.buildWriter { settings with memoryWriter := arm.writer }, arm.memory⟩

/-- One case after the other over one backend; the first that raises ends the run.
`feed` gives each case its clock readings and ids. -/
def runCases (ag : Agent) (memory : Bool) (S : Services) (feed : EvalCase → Input) :
    List EvalCase → World → Except Error (List CaseResult) × World
  | [], w => (.ok [], w)
  | c :: cs, w => match exec S (runCase ag c memory) (w.given (feed c)) with
    | (.error e, w') => (.error e, w')
    | (.ok r, w') => match runCases ag memory S feed cs w' with
      | (.error e, w'') => (.error e, w'')
      | (.ok rs, w'') => (.ok (r :: rs), w'')

structure ArmReport where
  arm : String
  results : List CaseResult

/-- `run_arm`, on an empty store of its own. -/
def runArm (settings : Settings) (recallTopK : Nat) (S : Services) (feed : EvalCase → Input) (cases : List EvalCase)
    (arm : Arm) : Except Error ArmReport :=
  (runCases (arm.agent settings recallTopK) arm.memory S feed cases Backend.empty).1.map (⟨arm.label, ·⟩)

end Engram.Eval
