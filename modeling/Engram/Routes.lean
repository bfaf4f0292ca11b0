import Engram.Graph
/-!
# The HTTP endpoints

`auth.py` and `routes.py`, after token verification: a request arrives with the
subject of its token, or with none when authentication is disabled.
-/

namespace Engram

variable [Host]

/-! ## Requests and responses -/

inductive Request where
  | chat (userId message threadId : String)
  | observe (userId text : String) (threadId : Option String) (source : Provenance)
  | listMemories (userId : String) (includeRetired : Bool)
  | threadHistory (userId threadId : String)
  | quarantine (userId : String)
  | forgetUser (userId : String)
  | forgetThread (userId threadId : String)
  | forgetMemory (userId memoryId : String)

def Request.userId : Request → String
  | chat u _ _ | observe u _ _ _ | listMemories u _ | threadHistory u _ | quarantine u | forgetUser u
  | forgetThread u _ | forgetMemory u _ => u

/-- The `min_length=1` fields of a request body. -/
def Request.wellFormed : Request → Bool
  | chat u message _ => u ≠ "" ∧ message ≠ ""
  | observe u text _ _ => u ≠ "" ∧ text ≠ ""
  | _ => true

structure DecisionOut where
  op : String
  candidate : String
  reason : String
  deriving DecidableEq

def DecisionOut.of (d : MemoryDecision) : DecisionOut := ⟨d.op.str, d.candidate, d.reason⟩

structure MemoryOut where
  id : String
  text : String
  kind : String
  source : String
  attr : String
  value : String
  importance : Rat
  active : Bool
  createdAt : String
  expiresAt : Option String
  supersededBy : Option String
  deriving DecidableEq

def MemoryOut.of (m : Memory) : Act MemoryOut := do
  let active ← isActiveNow m none
  return ⟨m.id, m.text, m.kind.str, m.source.str, m.attr, m.value, m.importance.val, active,
    Host.isoformat m.createdAt, m.expiresAt.map Host.isoformat, m.supersededBy⟩

/-- `[MemoryOut.of(m) for m in memories]`. -/
def memoriesOut : List Memory → Act (List MemoryOut)
  | [] => return []
  | m :: ms => do
    let out ← MemoryOut.of m
    let rest ← memoriesOut ms
    return out :: rest

inductive Response where
  | chat (reply : String) (recalled written : List MemoryOut) (decisions : List DecisionOut)
  | observe (written : List MemoryOut) (decisions : List DecisionOut)
  | memories (userId : String) (total active : Nat) (memories : List MemoryOut)
  | history (userId threadId : String) (history : List String)
  | quarantine (userId : String) (count : Nat) (items : List Quarantined)
  | forgot (report : ForgetReport)
  | deleted (userId memoryId : String)
  | error (status : Nat) (detail : String)
  deriving DecidableEq

/-! ## Endpoints -/

/-- `require_owner`: whether the subject may act on this user's data. -/
def owns (subject : Option String) (userId : String) : Bool := subject = none ∨ subject = some userId

namespace Agent

def chatRoute (ag : Agent) (userId message threadId : String) : Act Response := do
  let trace ← ag.chat userId threadId message
  let recalled ← memoriesOut (trace.recalled.map (·.memory))
  let written ← memoriesOut trace.written
  return .chat trace.reply recalled written (trace.decisions.map .of)

def observeRoute (ag : Agent) (userId text : String) (threadId : Option String) (source : Provenance) :
    Act Response :=
  if source ∉ [Provenance.tool, .document] then
    return .error 422 "Observed content must come from a tool or document; use /chat for user input"
  else do
    let report ← ag.observe userId text threadId source
    let written ← memoriesOut report.written
    return .observe written (report.decisions.map .of)

def listMemoriesRoute (userId : String) (includeRetired : Bool) : Act Response := do
  let memories ← MemoryReader.allMemories userId
  let shown ← if includeRetired then pure memories else activeOnly memories
  let active ← activeOnly memories
  let out ← memoriesOut shown
  return .memories userId memories.length active.length out

def threadHistoryRoute (userId threadId : String) : Act Response := do
  let history ← history userId threadId
  return .history userId threadId history

def quarantineRoute (userId : String) : Act Response := do
  let held ← InjectionGate.quarantined userId
  return .quarantine userId held.length held

def forgetMemoryRoute (userId memoryId : String) : Act Response := do
  let existed ← forgetMemory userId memoryId
  return if existed then .deleted userId memoryId else .error 404 "no such memory"

/-- The endpoint of a request; `rounds` bounds the paging loops of deletion. -/
def route (ag : Agent) (rounds : Nat) : Request → Act Response
  | .chat userId message threadId => ag.chatRoute userId message threadId
  | .observe userId text threadId source => ag.observeRoute userId text threadId source
  | .listMemories userId includeRetired => listMemoriesRoute userId includeRetired
  | .threadHistory userId threadId => threadHistoryRoute userId threadId
  | .quarantine userId => quarantineRoute userId
  | .forgetUser userId => Response.forgot <$> forgetUser rounds userId
  | .forgetThread userId threadId => Response.forgot <$> forgetThread rounds userId threadId
  | .forgetMemory userId memoryId => forgetMemoryRoute userId memoryId

end Agent

/-- The response to an endpoint's result: a legacy thread is a conflict, any
other exception an internal error. -/
def Response.of : Except Error Response → Response
  | .ok r => r
  | .error .legacyThread => .error 409 ("This user has a legacy conversation requiring operator migration; " ++
      "see docs/operations.md#upgrading-existing-data.")
  | .error _ => .error 500 "Internal Server Error"

/-- Serve one request. -/
def Agent.serve (ag : Agent) (S : Services) (subject : Option String) (r : Request) (w : World) :
    Response × World :=
  if ¬ r.wellFormed then (.error 422 "string_too_short", w)
  -- The body is validated before the owner is checked.
  else if ¬ owns subject r.userId then (.error 403 "Cannot access another user's data", w)
  else
    let result := exec S (ag.route (w.rounds r.userId) r) w
    (.of result.1, result.2)

end Engram
