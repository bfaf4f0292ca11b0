import Engram.Host
/-!
# Records

The records the code keeps and passes around (`schemas.py`, and the record
types of `extract.py`, `gate.py`, `write.py`, `forget.py` and `graph.py`). What
pydantic validates is carried by the types, so only valid records exist, and
the store holds the records themselves: `to_value` and `from_value` are in
`Persistence.lean`. `attr` is the source's `attribute`.
-/

namespace Engram

/-! ## Memories -/

inductive MemoryKind where
  | semantic | episodic | procedural
  deriving DecidableEq, Repr

def MemoryKind.str : MemoryKind → String
  | semantic => "semantic"
  | episodic => "episodic"
  | procedural => "procedural"

inductive Provenance where
  | user | agent | tool | document
  deriving DecidableEq, Repr

def Provenance.str : Provenance → String
  | user => "user"
  | agent => "agent"
  | tool => "tool"
  | document => "document"

def trustedSources : List Provenance := [.user, .agent]

def isTrusted (source : Provenance) : Bool := source ∈ trustedSources

/-- A float between 0 and 1. -/
structure Importance where
  val : Rat
  nonneg : 0 ≤ val
  le_one : val ≤ 1
  deriving DecidableEq

namespace Importance

def half : Importance := ⟨1 / 2, by norm_num, by norm_num⟩

/-- `min(1.0, importance + 0.1)`. -/
def bump (i : Importance) : Importance where
  val := min 1 (i.val + 1 / 10)
  nonneg := le_min (by norm_num) (add_nonneg i.nonneg (by norm_num))
  le_one := min_le_left _ _

theorem le_bump (i : Importance) : i.val ≤ i.bump.val :=
  le_min i.le_one (by linarith)

end Importance

structure Memory where
  id : String
  userId : String
  text : String
  text_ne : text ≠ ""
  kind : MemoryKind
  source : Provenance
  importance : Importance
  createdAt : Time
  updatedAt : Time
  expiresAt : Option Time
  supersededBy : Option String
  supersededAt : Option Time
  attr : String
  value : String
  scope : String
  threadId : Option String
  evidence : Option String
  deriving DecidableEq

/-- `Memory.is_active`, at the time `now`. -/
def Memory.isActive (m : Memory) (now : Time) : Bool :=
  if m.supersededBy.isSome then false
  else match m.expiresAt with
    | none => true
    | some e => now < e

/-- The `(attribute, scope)` pair of `m`, a slot if the attribute is non-empty. -/
def Memory.slot (m : Memory) : String × String := (m.attr, m.scope)

/-! ## Candidates -/

structure CandidateFact where
  text : String
  text_ne : text ≠ ""
  attr : String
  value : String
  scope : String
  kind : MemoryKind
  importance : Importance
  ttlDays : Option PNat
  deriving DecidableEq

def CandidateFact.slot (c : CandidateFact) : String × String := (c.attr, c.scope)

/-- `CandidateFact._zero_means_durable`: no candidate has a TTL below one day. -/
def zeroMeansDurable : Option Int → Option PNat
  | none => none
  | some v => if h : v ≤ 0 then none else some ⟨v.toNat, by omega⟩

/-! ## The gate -/

inductive GateDecision where
  | allow | blockUntrusted | blockInstruction
  deriving DecidableEq, Repr

structure GateVerdict where
  decision : GateDecision
  source : Provenance
  reason : String
  markers : List String
  deriving DecidableEq

def GateVerdict.allowed (v : GateVerdict) : Bool := v.decision = .allow

/-- What `InjectionGate.quarantine` stores. -/
structure Quarantined where
  text : String
  source : Provenance
  decision : GateDecision
  reason : String
  markers : List String
  threadId : Option String
  quarantinedAt : Time
  deriving DecidableEq

/-! ## Write reports -/

inductive MemoryOp where
  | write | dedupe | supersede | quarantine
  deriving DecidableEq, Repr

def MemoryOp.str : MemoryOp → String
  | write => "write"
  | dedupe => "dedupe"
  | supersede => "supersede"
  | quarantine => "quarantine"

structure MemoryDecision where
  op : MemoryOp
  candidate : String
  memoryId : Option String
  supersededIds : List String
  reason : String
  deriving DecidableEq

structure WriteReport where
  written : List Memory
  decisions : List MemoryDecision
  deriving DecidableEq

def WriteReport.empty : WriteReport := ⟨[], []⟩

/-! ## Threads -/

/-- An entry of the thread index. Entries written before checkpoints were keyed
by user have only a thread name. -/
structure ThreadEntry where
  threadId : String
  checkpointId : Option String
  lastSeen : Option Time
  deriving DecidableEq

inductive Role where
  | human | ai | system
  deriving DecidableEq, Repr

/-- The `type` of a message. -/
def Role.str : Role → String
  | human => "human"
  | ai => "ai"
  | system => "system"

/-- A chat message; `content` is `none` when it is not a plain string. -/
structure Message where
  role : Role
  content : Option String
  deriving DecidableEq

structure ForgetReport where
  userId : String
  memoriesDeleted : Nat
  quarantineDeleted : Nat
  threadsDeleted : List String
  deriving DecidableEq

def ForgetReport.total (r : ForgetReport) : Nat :=
  r.memoriesDeleted + r.quarantineDeleted + r.threadsDeleted.length

structure Recall where
  memory : Memory
  score : Rat
  deriving DecidableEq

structure TurnTrace where
  reply : String
  recalled : List Recall
  written : List Memory
  decisions : List MemoryDecision
  deriving DecidableEq

/-! ## What activity means -/

namespace Memory

variable {m : Memory} {s t : Time}

theorem isActive_iff : m.isActive t ↔ m.supersededBy = none ∧ ∀ e, m.expiresAt = some e → t < e := by
  unfold isActive
  cases m.supersededBy <;> cases m.expiresAt <;> simp

/-- Time only ever retires a record. -/
theorem isActive_of_le (hst : s ≤ t) (h : m.isActive t) : m.isActive s := by
  rw [isActive_iff] at h ⊢
  exact ⟨h.1, fun e he => lt_of_le_of_lt hst (h.2 e he)⟩

theorem isActive_congr {m' : Memory} (hs : m'.supersededBy = m.supersededBy) (he : m'.expiresAt = m.expiresAt)
    (t : Time) : m'.isActive t = m.isActive t := by
  unfold isActive
  rw [hs, he]

end Memory

end Engram
