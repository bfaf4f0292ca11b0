import Engram.Schemas
import Engram.Lib.Dict
import Engram.Lib.Program
/-!
# The backend

Everything the code does not do by itself is a call: to the store, the
checkpointer, the clock, the id generator, the embedder, the extractor and the
chat model. A function of the source that makes calls is a program over `Call`.

`handle` answers a call from a `World`. Clock readings and ids are inputs: the
world holds those still to come. `Backend.now` and `Backend.issued` record what
was handed out; no program sees them. Every call is assumed to succeed: the
store takes what is put (langgraph's refuses a namespace with an empty or dotted
label, and its in-memory index a text equal to its `slot_text`).

The calls and the world are defined for any type of what is kept for a memory;
the code sees `Memory`.
-/

namespace Engram

/-! ## Namespaces -/

inductive Namespace where
  | memories (userId : String)
  | quarantine (userId : String)
  | threads (userId : String)
  deriving DecidableEq

namespace Namespace

/-- `("memories", user_id)` and so on. -/
def labels : Namespace → String × String
  | memories u => ("memories", u)
  | quarantine u => ("quarantine", u)
  | threads u => ("threads", u)

def user : Namespace → String
  | memories u => u
  | quarantine u => u
  | threads u => u

/-- What is stored there, if `M` is for a memory. -/
@[reducible] def ValOf (M : Type) : Namespace → Type
  | memories _ => M
  | quarantine _ => Quarantined
  | threads _ => ThreadEntry

abbrev Val (ns : Namespace) : Type := ns.ValOf Memory

end Namespace

/-- `Memory.namespace`. -/
abbrev Memory.namespace (m : Memory) : Namespace := .memories m.userId

abbrev StoreOf (M : Type) := (ns : Namespace) → Dict String (ns.ValOf M)

abbrev Store := StoreOf Memory

/-- An item of a search result. -/
structure SearchItem (β : Type) where
  key : String
  value : β
  score : Option Rat

/-! ## Calls -/

variable [Host] {M : Type}

inductive CallOn (M : Type) where
  | get (ns : Namespace) (key : String)
  | search (ns : Namespace) (query : Option String) (limit offset : Nat)
  | put (ns : Namespace) (key : String) (value : ns.ValOf M)
  | delete (ns : Namespace) (key : String)
  | getState (thread : String)
  | saveState (thread : String) (messages : List Message)
  | deleteThread (thread : String)
  | utcnow
  | uuid4
  | embed (text : String)
  | extract (turn : String)
  | invoke (prompt : List Message)

/-- What a call is answered with. -/
@[reducible] def CallOn.Ans : CallOn M → Type
  | get ns _ => Option (ns.ValOf M)
  | search ns _ _ _ => List (SearchItem (ns.ValOf M))
  | put _ _ _ => Unit
  | delete _ _ => Unit
  | getState _ => Option (List Message)
  | saveState _ _ => Unit
  | deleteThread _ => Unit
  | utcnow => Time
  | uuid4 => String
  | embed _ => Vec
  | extract _ => List CandidateFact
  | invoke _ => Option String

/-- `LegacyThreadError`, `OverflowError`, and a `while` loop that was given too
few rounds. -/
inductive Error where
  | legacyThread | overflow | diverged
  deriving DecidableEq, Repr

abbrev Call := CallOn Memory

abbrev Act := Prog Call CallOn.Ans Error

def storeGet (ns : Namespace) (key : String) : Act (Option ns.Val) := .call (.get ns key) .ret
def storeSearch (ns : Namespace) (query : Option String) (limit offset : Nat) : Act (List (SearchItem ns.Val)) :=
  .call (.search ns query limit offset) .ret
def storePut (ns : Namespace) (key : String) (value : ns.Val) : Act Unit := .call (.put ns key value) .ret
def storeDelete (ns : Namespace) (key : String) : Act Unit := .call (.delete ns key) .ret
def getState (thread : String) : Act (Option (List Message)) := .call (.getState thread) .ret
def saveState (thread : String) (messages : List Message) : Act Unit := .call (.saveState thread messages) .ret
def deleteThread (thread : String) : Act Unit := .call (.deleteThread thread) .ret
def utcnow : Act Time := .call .utcnow .ret
def uuid4 : Act String := .call .uuid4 .ret
/-- `MemoryManager._embed`. -/
def embed (text : String) : Act Vec := .call (.embed text) .ret
def extract (turn : String) : Act (List CandidateFact) := .call (.extract turn) .ret
def invoke (prompt : List Message) : Act (Option String) := .call (.invoke prompt) .ret

/-! ## Answers -/

/-- The components behind the calls: the order in which the store walks a
namespace without a query, its ranking for a query, and the three models. -/
structure Components (M : Type) where
  walk : (ns : Namespace) → Dict String (ns.ValOf M) → List (String × ns.ValOf M)
  /-- A walk visits every record of the namespace once. -/
  walk_perm : ∀ ns d, (walk ns d).Perm d.entries
  rank : (ns : Namespace) → String → Dict String (ns.ValOf M) → List (SearchItem (ns.ValOf M))
  /-- A ranking has only records of the namespace. -/
  rank_mem : ∀ ns q d, ∀ item ∈ rank ns q d, (item.key, item.value) ∈ d.entries
  extract : String → List CandidateFact
  embed : String → Vec
  invoke : List Message → Option String

abbrev Services := Components Memory

@[ext]
structure Backend (M : Type) where
  store : StoreOf M
  checkpoints : String → Option (List Message)
  /-- `MemoryManager._vectors`. -/
  vectors : Dict String Vec
  clock : Nat → Time
  ids : Nat → String
  now : Time
  issued : List String

abbrev World := Backend Memory

namespace Backend
variable (w : Backend M)

def put (ns : Namespace) (key : String) (value : ns.ValOf M) : Backend M :=
  { w with store := Function.update w.store ns ((w.store ns).set key value) }

def delete (ns : Namespace) (key : String) : Backend M :=
  { w with store := Function.update w.store ns ((w.store ns).erase key) }

def setState (thread : String) (messages : Option (List Message)) : Backend M :=
  { w with checkpoints := Function.update w.checkpoints thread messages }

/-- One clock reading later. -/
def tick : Backend M := { w with clock := fun n => w.clock (n + 1), now := w.clock 0 }

/-- One id later. -/
def issue : Backend M := { w with ids := fun n => w.ids (n + 1), issued := w.ids 0 :: w.issued }

/-- The body of `MemoryManager._embed`: embed once per distinct text. -/
def embed (S : Components M) (text : String) : Vec × Backend M :=
  match w.vectors.get text with
  | some vector => (vector, w)
  | none => (S.embed text, { w with vectors := w.vectors.set text (S.embed text) })

/-- The records of `("memories", u)`. -/
abbrev mem (w : World) (u : String) : Dict String Memory := w.store (.memories u)

end Backend

/-- `store.search`: a page of the walk, or of the ranking. -/
def Components.search (S : Components M) (ns : Namespace) (d : Dict String (ns.ValOf M)) :
    Option String → List (SearchItem (ns.ValOf M))
  | none => (S.walk ns d).map (fun e => ⟨e.1, e.2, none⟩)
  | some q => S.rank ns q d

theorem Components.search_mem (S : Components M) {ns : Namespace} {d : Dict String (ns.ValOf M)} {q : Option String}
    {item : SearchItem (ns.ValOf M)} (h : item ∈ S.search ns d q) : d.get item.key = some item.value := by
  rw [Dict.get_eq_some_iff]
  cases q with
  | none =>
    obtain ⟨e, he, rfl⟩ := List.mem_map.1 h
    exact (S.walk_perm ns d).mem_iff.1 he
  | some q => exact S.rank_mem ns q d item h

def handle (S : Components M) : (i : CallOn M) → Backend M → i.Ans × Backend M
  | .get ns key, w => ((w.store ns).get key, w)
  | .search ns query limit offset, w => (((S.search ns (w.store ns) query).drop offset).take limit, w)
  | .put ns key value, w => ((), w.put ns key value)
  | .delete ns key, w => ((), w.delete ns key)
  | .getState thread, w => (w.checkpoints thread, w)
  | .saveState thread messages, w => ((), w.setState thread (some messages))
  | .deleteThread thread, w => ((), w.setState thread none)
  | .utcnow, w => (w.clock 0, w.tick)
  | .uuid4, w => (w.ids 0, w.issue)
  | .embed text, w => w.embed S text
  | .extract turn, w => (S.extract turn, w)
  | .invoke prompt, w => (S.invoke prompt, w)

/-- Run a program to its end. -/
def exec {α : Type} (S : Services) (p : Act α) (w : World) : Except Error α × World := p.run (handle S) w

/-! ## Running -/

section Exec
variable {α β : Type} (S : Services) (w : World)

@[simp] theorem exec_ret (a : α) : exec S (.ret a) w = (.ok a, w) := rfl
@[simp] theorem exec_pure (a : α) : exec S (pure a : Act α) w = (.ok a, w) := rfl
@[simp] theorem exec_raise (e : Error) : exec S (.raise e : Act α) w = (.error e, w) := rfl

theorem exec_bind (p : Act α) (f : α → Act β) : exec S (p >>= f) w = match exec S p w with
    | (.ok a, w') => exec S (f a) w'
    | (.error e, w') => (.error e, w') := by
  unfold exec
  rw [Prog.run_bind]
  rcases p.run (handle S) w with ⟨_ | _, _⟩ <;> rfl

theorem exec_bind_of_ok {p : Act α} {f : α → Act β} {w' : World} {a : α} (h : exec S p w = (.ok a, w')) :
    exec S (p >>= f) w = exec S (f a) w' := Prog.run_bind_ok _ h

theorem exec_bind_of_error {p : Act α} {f : α → Act β} {w' : World} {e : Error}
    (h : exec S p w = (.error e, w')) : exec S (p >>= f) w = (.error e, w') := Prog.run_bind_error _ h

@[simp] theorem exec_map (f : α → β) (p : Act α) :
    exec S (f <$> p) w = ((exec S p w).1.map f, (exec S p w).2) := by
  rw [map_eq_pure_bind, exec_bind]
  rcases exec S p w with ⟨_ | _, _⟩ <;> rfl

@[simp] theorem exec_storeGet (ns : Namespace) (key : String) (f : Option ns.Val → Act β) :
    exec S (storeGet ns key >>= f) w = exec S (f ((w.store ns).get key)) w := rfl
@[simp] theorem exec_storeSearch (ns : Namespace) (q : Option String) (limit offset : Nat)
    (f : List (SearchItem ns.Val) → Act β) : exec S (storeSearch ns q limit offset >>= f) w =
      exec S (f (((S.search ns (w.store ns) q).drop offset).take limit)) w := rfl
@[simp] theorem exec_searchMemories (u : String) (q : Option String) (limit offset : Nat)
    (f : List (SearchItem Memory) → Act β) : exec S (storeSearch (.memories u) q limit offset >>= f) w =
      exec S (f (((S.search (.memories u) (w.mem u) q).drop offset).take limit)) w := rfl
@[simp] theorem exec_storePut (ns : Namespace) (key : String) (value : ns.Val) (f : Unit → Act β) :
    exec S (storePut ns key value >>= f) w = exec S (f ()) (w.put ns key value) := rfl
@[simp] theorem exec_storeDelete (ns : Namespace) (key : String) (f : Unit → Act β) :
    exec S (storeDelete ns key >>= f) w = exec S (f ()) (w.delete ns key) := rfl
@[simp] theorem exec_getState (t : String) (f : Option (List Message) → Act β) :
    exec S (getState t >>= f) w = exec S (f (w.checkpoints t)) w := rfl
@[simp] theorem exec_saveState (t : String) (ms : List Message) (f : Unit → Act β) :
    exec S (saveState t ms >>= f) w = exec S (f ()) (w.setState t (some ms)) := rfl
@[simp] theorem exec_deleteThread (t : String) (f : Unit → Act β) :
    exec S (deleteThread t >>= f) w = exec S (f ()) (w.setState t none) := rfl
@[simp] theorem exec_utcnow (f : Time → Act β) :
    exec S (utcnow >>= f) w = exec S (f (w.clock 0)) w.tick := rfl
@[simp] theorem exec_uuid4 (f : String → Act β) :
    exec S (uuid4 >>= f) w = exec S (f (w.ids 0)) w.issue := rfl
@[simp] theorem exec_embed (text : String) (f : Vec → Act β) :
    exec S (embed text >>= f) w = exec S (f (w.embed S text).1) (w.embed S text).2 := rfl
@[simp] theorem exec_extract (turn : String) (f : List CandidateFact → Act β) :
    exec S (extract turn >>= f) w = exec S (f (S.extract turn)) w := rfl
@[simp] theorem exec_invoke (prompt : List Message) (f : Option String → Act β) :
    exec S (invoke prompt >>= f) w = exec S (f (S.invoke prompt)) w := rfl

end Exec

/-! ## Fields of a world -/

namespace Backend
variable (w : World)

@[simp] theorem store_put_self (ns : Namespace) (k : String) (v : ns.Val) :
    (w.put ns k v).store ns = (w.store ns).set k v := by simp [put]
theorem store_put_of_ne {ns ns' : Namespace} (k : String) (v : ns.Val) (h : ns' ≠ ns) :
    (w.put ns k v).store ns' = w.store ns' := by simp [put, h]
theorem mem_put_self (u k : String) (m : Memory) : (w.put (.memories u) k m).mem u = (w.mem u).set k m :=
  w.store_put_self (.memories u) k m
theorem mem_put_of_ne {u v : String} (k : String) (m : Memory) (h : v ≠ u) :
    (w.put (.memories u) k m).mem v = w.mem v :=
  w.store_put_of_ne k m (show Namespace.memories v ≠ .memories u by simpa using h)
@[simp] theorem mem_put_quarantine (u v : String) (k : String) (q : Quarantined) :
    (w.put (.quarantine u) k q).mem v = w.mem v :=
  w.store_put_of_ne k q (show Namespace.memories v ≠ .quarantine u by simp)
@[simp] theorem checkpoints_put (ns : Namespace) (k : String) (v : ns.Val) :
    (w.put ns k v).checkpoints = w.checkpoints := rfl
@[simp] theorem clock_put (ns : Namespace) (k : String) (v : ns.Val) : (w.put ns k v).clock = w.clock := rfl
@[simp] theorem ids_put (ns : Namespace) (k : String) (v : ns.Val) : (w.put ns k v).ids = w.ids := rfl
@[simp] theorem now_put (ns : Namespace) (k : String) (v : ns.Val) : (w.put ns k v).now = w.now := rfl
@[simp] theorem issued_put (ns : Namespace) (k : String) (v : ns.Val) : (w.put ns k v).issued = w.issued := rfl

@[simp] theorem store_delete_self (ns : Namespace) (k : String) :
    (w.delete ns k).store ns = (w.store ns).erase k := by simp [delete]
theorem store_delete_of_ne {ns ns' : Namespace} (k : String) (h : ns' ≠ ns) :
    (w.delete ns k).store ns' = w.store ns' := by simp [delete, h]
@[simp] theorem checkpoints_delete (ns : Namespace) (k : String) :
    (w.delete ns k).checkpoints = w.checkpoints := rfl

@[simp] theorem store_setState (t : String) (ms : Option (List Message)) :
    (w.setState t ms).store = w.store := rfl
@[simp] theorem checkpoints_setState (t : String) (ms : Option (List Message)) :
    (w.setState t ms).checkpoints = Function.update w.checkpoints t ms := rfl

@[simp] theorem store_tick : w.tick.store = w.store := rfl
@[simp] theorem checkpoints_tick : w.tick.checkpoints = w.checkpoints := rfl
@[simp] theorem now_tick : w.tick.now = w.clock 0 := rfl
@[simp] theorem issued_tick : w.tick.issued = w.issued := rfl
@[simp] theorem store_issue : w.issue.store = w.store := rfl
@[simp] theorem checkpoints_issue : w.issue.checkpoints = w.checkpoints := rfl
@[simp] theorem now_issue : w.issue.now = w.now := rfl
@[simp] theorem issued_issue : w.issue.issued = w.ids 0 :: w.issued := rfl

/-- `_embed` changes nothing but its cache. -/
theorem embed_eq (S : Services) (text : String) :
    ∃ vs, (w.embed S text).2 = { w with vectors := vs } := by
  unfold embed
  split
  · exact ⟨w.vectors, rfl⟩
  · exact ⟨_, rfl⟩

/-- What does not depend on the cache. -/
theorem embed_inv (S : Services) (text : String) {I : World → Prop} (hI : ∀ vs, I { w with vectors := vs }) :
    I (w.embed S text).2 := by
  obtain ⟨vs, hvs⟩ := w.embed_eq S text
  rw [hvs]
  exact hI vs

@[simp] theorem store_embed (S : Services) (text : String) : (w.embed S text).2.store = w.store :=
  w.embed_inv S text (I := fun w' => w'.store = w.store) (fun _ => rfl)
@[simp] theorem mem_embed (S : Services) (text u : String) : (w.embed S text).2.mem u = w.mem u :=
  congrFun (w.store_embed S text) _
@[simp] theorem checkpoints_embed (S : Services) (text : String) : (w.embed S text).2.checkpoints = w.checkpoints :=
  w.embed_inv S text (I := fun w' => w'.checkpoints = w.checkpoints) (fun _ => rfl)
@[simp] theorem clock_embed (S : Services) (text : String) : (w.embed S text).2.clock = w.clock :=
  w.embed_inv S text (I := fun w' => w'.clock = w.clock) (fun _ => rfl)
@[simp] theorem ids_embed (S : Services) (text : String) : (w.embed S text).2.ids = w.ids :=
  w.embed_inv S text (I := fun w' => w'.ids = w.ids) (fun _ => rfl)

end Backend

/-! ## What a key holds -/

namespace Backend
variable {w : World} {ns ns' : Namespace} {k k' : String} {v : ns.Val} {v' : ns'.Val}

theorem get_put_self : ((w.put ns k v).store ns).get k = some v := by
  rw [store_put_self, Dict.get_set_self]

theorem get_put_of_ne (h : ¬ (ns' = ns ∧ k' = k)) : ((w.put ns k v).store ns').get k' = (w.store ns').get k' := by
  by_cases hns : ns' = ns
  · subst hns
    rw [store_put_self, Dict.get_set_of_ne _ _ (fun hk => h ⟨rfl, hk⟩)]
  · rw [store_put_of_ne _ _ _ hns]

/-- What a put leaves is what was put, or was there. -/
theorem get_put (h : ((w.put ns k v).store ns').get k' = some v') :
    (ns' = ns ∧ k' = k ∧ HEq v' v) ∨ (w.store ns').get k' = some v' := by
  by_cases hboth : ns' = ns ∧ k' = k
  · obtain ⟨rfl, rfl⟩ := hboth
    rw [get_put_self] at h
    obtain rfl := Option.some.inj h
    exact .inl ⟨rfl, rfl, HEq.rfl⟩
  · rw [get_put_of_ne hboth] at h
    exact .inr h

theorem get_delete_self : ((w.delete ns k).store ns).get k = none := by
  rw [store_delete_self, Dict.get_erase_self]

theorem get_delete_of_ne (h : ¬ (ns' = ns ∧ k' = k)) : ((w.delete ns k).store ns').get k' = (w.store ns').get k' := by
  by_cases hns : ns' = ns
  · subst hns
    rw [store_delete_self, Dict.get_erase_of_ne _ (fun hk => h ⟨rfl, hk⟩)]
  · rw [store_delete_of_ne _ _ hns]

/-- What a delete leaves was there. -/
theorem get_delete (h : ((w.delete ns k).store ns').get k' = some v') : (w.store ns').get k' = some v' := by
  by_cases hboth : ns' = ns ∧ k' = k
  · obtain ⟨rfl, rfl⟩ := hboth
    rw [get_delete_self] at h
    cases h
  · rwa [get_delete_of_ne hboth] at h

end Backend

end Engram
