import Engram.Store
/-!
# Threads and forgetting

`threads.py` and `forget.py`. `_all_keys` loops until a page is empty; here it
is given a number of rounds and raises `diverged` when they run out.
-/

namespace Engram

open Text

variable [Host]

/-! ## Threads -/

/-- The checkpoint key of a conversation. -/
def checkpointKey (userId threadId : String) : String :=
  "engram:v2:" ++ Host.sha256 (dumpsPair userId threadId)

/-- `checkpoint_thread_id`: the key, unless the index holds another one. -/
def checkpointThreadId (userId threadId : String) : Act String := do
  let entry ← storeGet (.threads userId) threadId
  if ∃ e, entry = some e ∧ e.checkpointId ≠ some (checkpointKey userId threadId) then .raise .legacyThread
  else return checkpointKey userId threadId

def recordThread (userId threadId : String) : Act Unit := do
  let checkpointId ← checkpointThreadId userId threadId
  let now ← utcnow
  storePut (.threads userId) threadId ⟨threadId, some checkpointId, some now⟩

/-! ## Listing -/

def pageSize : Nat := 200

/-- `_all_keys` from an offset on, with what was collected so far. -/
def allKeysFrom (ns : Namespace) : (rounds : Nat) → (offset : Nat) → (out : List (String × ns.Val)) →
    Act (List (String × ns.Val))
  -- The source has no such bound.
  | 0, _, _ => .raise .diverged
  | rounds + 1, offset, out => do
    let page ← storeSearch ns none pageSize offset
    if page.isEmpty then return out
    else allKeysFrom ns rounds (offset + page.length) (out ++ page.map (fun item => (item.key, item.value)))

def allKeys (rounds : Nat) (ns : Namespace) : Act (List (String × ns.Val)) := allKeysFrom ns rounds 0 []

def knownThreads (rounds : Nat) (userId : String) : Act (List String) := do
  let keys ← allKeys rounds (.threads userId)
  return (keys.map Prod.fst).insertionSort (· ≤ ·)

/-! ## Deleting -/

/-- `for key in keys: store.delete(namespace, key)`. -/
def deleteAll (ns : Namespace) : List String → Act Unit
  | [] => return ()
  | key :: keys => do
    storeDelete ns key
    deleteAll ns keys

def forgetMemory (userId memoryId : String) : Act Bool := do
  let item ← storeGet (.memories userId) memoryId
  if item = none then return false
  else do
    storeDelete (.memories userId) memoryId
    return true

def forgetThread (rounds : Nat) (userId threadId : String) : Act ForgetReport := do
  let checkpointId ← checkpointThreadId userId threadId
  let memories ← allKeys rounds (.memories userId)
  let learned := (memories.filter (fun e => e.2.threadId = some threadId)).map Prod.fst
  deleteAll (.memories userId) learned
  deleteThread checkpointId
  storeDelete (.threads userId) threadId
  return ⟨userId, learned.length, 0, [threadId]⟩

/-- `[checkpoint_thread_id(store, user_id, thread) for thread in threads]`. -/
def checkpointIds (userId : String) : List String → Act (List String)
  | [] => return []
  | thread :: threads => do
    let id ← checkpointThreadId userId thread
    let ids ← checkpointIds userId threads
    return id :: ids

/-- Each transcript, then its entry in the index. -/
def deleteThreads (userId : String) : List (String × String) → Act Unit
  | [] => return ()
  | (thread, checkpointId) :: rest => do
    deleteThread checkpointId
    storeDelete (.threads userId) thread
    deleteThreads userId rest

def forgetUser (rounds : Nat) (userId : String) : Act ForgetReport := do
  let threads ← knownThreads rounds userId
  -- Raises on a legacy thread before anything is deleted.
  let ids ← checkpointIds userId threads
  let memories ← allKeys rounds (.memories userId)
  deleteAll (.memories userId) (memories.map Prod.fst)
  let quarantined ← allKeys rounds (.quarantine userId)
  deleteAll (.quarantine userId) (quarantined.map Prod.fst)
  deleteThreads userId (threads.zip ids)
  return ⟨userId, memories.length, quarantined.length, threads⟩

/-- Enough rounds for the paging loops over the records of `u`. -/
def Backend.rounds {M : Type} (w : Backend M) (u : String) : Nat :=
  (w.store (.memories u)).size + (w.store (.quarantine u)).size + (w.store (.threads u)).size + 1

end Engram
