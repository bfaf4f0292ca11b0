import Engram.Gate
/-!
# The write path

`manager.py`, and the naive writer of `write.py`. The list `existing` that the
source mutates in place is passed along and returned.
-/

namespace Engram

open Text

variable [Host]

def maxExisting : Nat := 500

def dedupeCandidates : Nat := 10

/-- Values that report the absence of a fact. -/
def nonValues : List String := ["", "unknown", "unspecified", "none", "n/a", "na", "null", "?"]

/-- Case and spacing do not distinguish values. -/
def norm (value : String) : String := " ".intercalate (split (Host.lower value))

def vectorNorm (a : Vec) : Rat := Host.sqrt (∑ i, a i * a i)

def cosine (a b : Vec) : Rat :=
  if vectorNorm a ≠ 0 ∧ vectorNorm b ≠ 0 then (∑ i, a i * b i) / (vectorNorm a * vectorNorm b) else 0

/-- `Memory.is_active()`: the clock is read only for a record that can expire. -/
def isActiveNow (m : Memory) (now : Option Time) : Act Bool :=
  if m.supersededBy.isSome then return false
  else match m.expiresAt with
    | none => return true
    | some e => match now with
      | some t => return decide (t < e)
      | none => do return decide ((← utcnow) < e)

/-- `[m for m in memories if m.is_active()]`. -/
def activeOnly : List Memory → Act (List Memory)
  | [] => return []
  | m :: ms => do
    let active ← isActiveNow m none
    let rest ← activeOnly ms
    return if active then m :: rest else rest

structure MemoryManager where
  gate : InjectionGate
  dedupeSimilarity : Rat

namespace MemoryManager

/-- A slotted candidate must carry a value. -/
def isUsable (c : CandidateFact) : Bool :=
  if c.attr = "" then true else norm c.value ∉ nonValues

/-- Drop an expiry the turn does not support. -/
def verifyTtl (c : CandidateFact) (turn : String) : CandidateFact :=
  if c.ttlDays = none ∨ hasTemporalMarker turn then c else { c with ttlDays := none }

/-! ## Changing records -/

def reinforced (m : Memory) (now : Time) : Memory :=
  { m with importance := m.importance.bump, updatedAt := now }

def retired (m : Memory) (replacementId : String) (now : Time) : Memory :=
  { m with supersededBy := some replacementId, supersededAt := some now }

/-- `_replace`: the first record with the id of `updated` becomes `updated`. -/
def replace (updated : Memory) : List Memory → List Memory
  | [] => []
  | m :: ms => if m.id = updated.id then updated :: ms else m :: replace updated ms

def reinforce (m : Memory) (existing : List Memory) : Act (List Memory) := do
  let updated := reinforced m (← utcnow)
  storePut updated.namespace updated.id updated
  return replace updated existing

def supersede (stale : Memory) (replacementId : String) (existing : List Memory) : Act (List Memory) := do
  let updated := retired stale replacementId (← utcnow)
  storePut updated.namespace updated.id updated
  return existing.filter (fun m => m.id ≠ stale.id)

/-- `for stale in same_slot: self._supersede(...)`. -/
def supersedeAll (replacementId : String) : List Memory → List Memory → Act (List Memory)
  | [], existing => return existing
  | stale :: rest, existing => do
    let existing ← supersede stale replacementId existing
    supersedeAll replacementId rest existing

/-- `utcnow() + timedelta(days=ttl_days)`, if there is a TTL. -/
def expiry : Option PNat → Act (Option Time)
  | none => return none
  | some d => do
    match addDays (← utcnow) d with
    | some e => return some e
    | none => .raise .overflow

def build (c : CandidateFact) (userId : String) (threadId : Option String) (source : Provenance) : Act Memory := do
  let expiresAt ← expiry c.ttlDays
  let id ← uuid4
  let createdAt ← utcnow
  let updatedAt ← utcnow
  return { id, userId, text := c.text, text_ne := c.text_ne, kind := c.kind, source, importance := c.importance,
           createdAt, updatedAt, expiresAt, supersededBy := none, supersededAt := none, attr := c.attr,
           value := c.value, scope := c.scope, threadId, evidence := some c.text }

/-! ## Near-duplicates -/

/-- `live.get(key)` for `live = {m.id: m for m in existing}`. -/
def live (existing : List Memory) (key : String) : Option Memory := existing.reverse.find? (fun m => m.id = key)

/-- The best of `candidates`, given the best so far. -/
def closest (query : Vec) : List Memory → Option Memory × Rat → Act (Option Memory × Rat)
  | [], best => return best
  | m :: ms, best => do
    let score := cosine query (← embed m.text)
    closest query ms (if best.2 < score then (some m, score) else best)

def nearest (mm : MemoryManager) (text : String) (existing : List Memory) : Act (Option Memory) :=
  match existing with
  | [] => return none
  | first :: _ => do
    let items ← storeSearch (.memories first.userId) (some text) dedupeCandidates 0
    -- The store ranks retired records, too; they are not in `existing`.
    let candidates := items.filterMap (fun item => live existing item.key)
    if candidates = [] then return none
    else do
      let query ← embed text
      let best ← closest query candidates (none, 0)
      return if mm.dedupeSimilarity ≤ best.2 then best.1 else none

/-! ## One candidate -/

/-- The last lines of `_resolve`. -/
def writeNew (c : CandidateFact) (existing : List Memory) (userId : String) (threadId : Option String)
    (source : Provenance) : Act (MemoryDecision × Option Memory × List Memory) := do
  let memory ← build c userId threadId source
  storePut memory.namespace memory.id memory
  return (⟨.write, c.text, some memory.id, [], ""⟩, some memory, existing)

def sameSlot (c : CandidateFact) (existing : List Memory) : List Memory :=
  existing.filter (fun m => m.attr = c.attr ∧ m.scope = c.scope)

/-- The decision, the record written if any, and the new `existing`. -/
def resolve (mm : MemoryManager) (c : CandidateFact) (existing : List Memory) (userId : String)
    (threadId : Option String) (source : Provenance) : Act (MemoryDecision × Option Memory × List Memory) :=
  if c.attr ≠ "" then
    -- A known value is reinforced, another one supersedes what is there.
    match (sameSlot c existing).find? (fun m => norm m.value = norm c.value) with
    | some duplicate => do
      let existing ← reinforce duplicate existing
      return (⟨.dedupe, c.text, some duplicate.id, [], "already knew " ++ c.attr ++ "=" ++ c.value⟩, none, existing)
    | none =>
      if sameSlot c existing ≠ [] then do
        let memory ← build c userId threadId source
        storePut memory.namespace memory.id memory
        -- Stored first: a failure here leaves two live records, not none.
        let rest ← supersedeAll memory.id (sameSlot c existing) existing
        return (⟨.supersede, c.text, some memory.id, (sameSlot c existing).map (·.id),
          c.attr ++ ": " ++ ", ".intercalate ((sameSlot c existing).map (·.value)) ++ " -> " ++ c.value⟩,
          some memory, rest)
      else writeNew c existing userId threadId source
  else do
    -- Without a slot, only near-duplicates are looked for.
    match ← nearest mm c.text existing with
    | some near => do
      let existing ← reinforce near existing
      return (⟨.dedupe, c.text, some near.id, [], "near-duplicate of an existing memory"⟩, none, existing)
    | none => writeNew c existing userId threadId source

/-! ## One turn -/

def activeMemories (userId : String) : Act (List Memory) := do
  let items ← storeSearch (.memories userId) none maxExisting 0
  activeOnly (items.map (·.value))

/-- The loop of `apply`: what was written and decided so far grows with each candidate. -/
def resolveAll (mm : MemoryManager) (userId : String) (threadId : Option String) (source : Provenance) :
    List CandidateFact → List Memory → WriteReport → Act WriteReport
  | [], _, report => return report
  | c :: cs, existing, report => do
    let (decision, memory, existing) ← resolve mm c existing userId threadId source
    resolveAll mm userId threadId source cs (existing ++ memory.toList)
      ⟨report.written ++ memory.toList, report.decisions ++ [decision]⟩

/-- The candidates of a turn that the write path considers. -/
def usable (candidates : List CandidateFact) (turn : String) : List CandidateFact :=
  (candidates.map (verifyTtl · turn)).filter isUsable

def apply (mm : MemoryManager) (userId text : String) (threadId : Option String) (source : Provenance) :
    Act WriteReport :=
  if strip text = "" then return .empty
  -- The extractor never sees what the gate blocks.
  else if ¬ (mm.gate.inspect (strip text) source).allowed then do
    InjectionGate.quarantine userId (strip text) (mm.gate.inspect (strip text) source) threadId
    return ⟨[], [⟨.quarantine, strip text, none, [], (mm.gate.inspect (strip text) source).reason⟩]⟩
  else do
    let candidates ← extract (strip text)
    if usable candidates (strip text) = [] then return .empty
    else do
      let existing ← activeMemories userId
      resolveAll mm userId threadId source (usable candidates (strip text)) existing .empty

end MemoryManager

/-! ## The naive baseline -/

/-- `NaiveMemoryWriter.apply`. -/
def naiveApply (userId text : String) (threadId : Option String) (source : Provenance) : Act WriteReport :=
  if h : strip text = "" then return .empty
  else do
    let id ← uuid4
    let createdAt ← utcnow
    let updatedAt ← utcnow
    let memory : Memory :=
      { id, userId, text := strip text, text_ne := h, kind := .semantic, source, importance := .half, createdAt,
        updatedAt, expiresAt := none, supersededBy := none, supersededAt := none, attr := "", value := "",
        scope := "", threadId, evidence := some (strip text) }
    storePut memory.namespace memory.id memory
    return ⟨[memory], [⟨.write, strip text, some memory.id, [], ""⟩]⟩

/-- The configured write path. -/
inductive MemoryWriter where
  | naive
  | manager (mm : MemoryManager)

def MemoryWriter.apply : MemoryWriter → String → String → Option String → Provenance → Act WriteReport
  | naive => naiveApply
  | manager mm => mm.apply

end Engram
