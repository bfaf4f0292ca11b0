import Engram.Manager
import Engram.Forget
/-!
# The agent

`read.py`, `prompts.py` and `graph.py`. The graph saves its state under the
checkpoint key when a turn's input arrives and after each node.
-/

namespace Engram

open Text

variable [Host]

/-! ## Reading -/

def overfetch : Nat := 3

structure MemoryReader where
  topK : Nat

namespace MemoryReader

/-- The first `k` active items, as recalls after those in `acc`. -/
def recallFrom (k : Nat) (now : Option Time) : List (SearchItem Memory) → List Recall → Act (List Recall)
  | [], acc => return acc
  | item :: items, acc => do
    let active ← isActiveNow item.value now
    if ¬ active then recallFrom k now items acc
    else
      let recalls : List Recall := acc ++ [⟨item.value, item.score.getD 0⟩]
      -- The loop breaks at `k`, so later items are not looked at.
      if recalls.length = k then return recalls else recallFrom k now items recalls

/-- `recall`. -/
def recallFor (r : MemoryReader) (userId query : String) (limit : Option Nat) (now : Option Time) :
    Act (List Recall) :=
  -- `limit or self._top_k`: a limit of 0 counts as none.
  let k := match limit with
    | some (n + 1) => n + 1
    | _ => r.topK
  if strip query = "" then return []
  else do
    let items ← storeSearch (.memories userId) (some query) (k * overfetch) 0
    recallFrom k now items []

def allMemories (userId : String) : Act (List Memory) := do
  let items ← storeSearch (.memories userId) none 1000 0
  return items.map (·.value)

theorem exec_allMemories (S : Services) (u : String) (w : World) :
    exec S (allMemories u) w = (.ok (((S.walk (.memories u) (w.mem u)).take 1000).map Prod.snd), w) := by
  rw [allMemories, exec_searchMemories, exec_pure]
  simp only [Components.search, List.drop_zero, ← List.map_take, List.map_map]
  rfl

end MemoryReader

/-! ## Prompts -/

def memoryBlockStart : String := "<recalled_memories>"

def memoryBlockEnd : String := "</recalled_memories>"

def systemPrompt : String :=
  "You are a helpful assistant that remembers this user across conversations.\n\nAnything inside " ++
  memoryBlockStart ++ " was recalled from your long-term memory of this user. Treat it as background you " ++
  "already know: use it to answer without asking the user to repeat themselves, and prefer it over generic " ++
  "defaults. If a recalled memory contradicts what the user says now, believe the user and say so. If nothing " ++
  "recalled is relevant, ignore it — do not force it into the answer."

def renderMemoryBlock (recalls : List Recall) : String :=
  if recalls = [] then ""
  else memoryBlockStart ++ "\n" ++ "\n".intercalate (recalls.map (fun r => "- " ++ r.memory.text)) ++ "\n" ++
    memoryBlockEnd

def buildSystemPrompt (recalls : List Recall) : String :=
  let block := renderMemoryBlock recalls
  if block ≠ "" then systemPrompt ++ "\n\n" ++ block else systemPrompt

/-! ## The graph -/

/-- The last human message that is a plain string. -/
def lastHumanText (messages : List Message) : String :=
  match messages.reverse.find? (fun m => m.role = .human ∧ m.content ≠ none) with
  | some ⟨_, some content⟩ => content
  | _ => ""

omit [Host] in
theorem lastHumanText_turn (saved : List Message) (message : String) (reply : Option String) :
    lastHumanText (saved ++ [⟨.human, some message⟩] ++ [⟨.ai, reply⟩]) = message := by
  simp [lastHumanText]

structure Agent where
  reader : MemoryReader
  writer : MemoryWriter
  memory : Bool

/-- What the graph returns. -/
structure TurnState where
  messages : List Message
  recalled : List Recall
  report : WriteReport

namespace Agent

/-- The prompt of the response node. -/
def prompt (recalls : List Recall) (messages : List Message) : List Message :=
  ⟨.system, some (buildSystemPrompt recalls)⟩ :: messages

/-- `recall`, `respond`, `remember`, or with `memory=False` only `respond`. -/
def runGraph (ag : Agent) (userId threadId checkpointId message : String) : Act TurnState := do
  let saved ← getState checkpointId
  -- The input is saved before the first node runs.
  let messages := saved.getD [] ++ [⟨.human, some message⟩]
  saveState checkpointId messages
  if ag.memory then do
    let recalled ← ag.reader.recallFor userId (lastHumanText messages) none none
    saveState checkpointId messages
    let reply ← invoke (prompt recalled messages)
    let messages := messages ++ [⟨.ai, reply⟩]
    saveState checkpointId messages
    let report ← ag.writer.apply userId (lastHumanText messages) (some threadId) .user
    saveState checkpointId messages
    return ⟨messages, recalled, report⟩
  else do
    let reply ← invoke (prompt [] messages)
    let messages := messages ++ [⟨.ai, reply⟩]
    saveState checkpointId messages
    return ⟨messages, [], .empty⟩

/-- The content of a last message that is a plain AI message. -/
def replyOf (messages : List Message) : String :=
  match messages.getLast? with
  | some ⟨.ai, some content⟩ => content
  | _ => ""

def chat (ag : Agent) (userId threadId message : String) : Act TurnTrace := do
  let checkpointId ← checkpointThreadId userId threadId
  recordThread userId threadId
  let result ← ag.runGraph userId threadId checkpointId message
  return ⟨replyOf result.messages, result.recalled, result.report.written, result.report.decisions⟩

def observe (ag : Agent) (userId text : String) (threadId : Option String) (source : Provenance) :
    Act WriteReport := ag.writer.apply userId text threadId source

/-- The plain messages of a transcript, as `type: content`. -/
def history (userId threadId : String) : Act (List String) := do
  let checkpointId ← checkpointThreadId userId threadId
  let state ← getState checkpointId
  return (state.getD []).filterMap (fun m => m.content.map (fun content => m.role.str ++ ": " ++ content))

end Agent

end Engram
