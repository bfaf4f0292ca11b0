import Engram.Graph
/-!
# Runs

Operations of one agent, executed one at a time. Each operation is given its
own clock readings and ids, and may meet its own components: an extractor can
answer the same text differently tomorrow.
-/

namespace Engram

variable [Host]

/-! ## Operations -/

/-- `observe` is `apply` of the agent's writer; `wait` lets time pass. -/
inductive Op where
  | chat (userId threadId message : String)
  | observe (userId text : String) (threadId : Option String) (source : Provenance)
  | forgetMemory (userId memoryId : String)
  | forgetThread (userId threadId : String)
  | forgetUser (userId : String)
  | wait
  deriving DecidableEq

/-- The operation is one `apply` and nothing else. -/
def Op.isApply : Op → Bool
  | observe .. => true
  | _ => false

def Op.isChat : Op → Bool
  | chat .. => true
  | _ => false

inductive Outcome where
  | turn (trace : TurnTrace)
  | observed (report : WriteReport)
  | deleted (existed : Bool)
  | forgot (report : ForgetReport)
  | waited
  deriving DecidableEq

/-- The rounds its paging loops are given. -/
def Op.rounds {M : Type} (w : Backend M) : Op → Nat
  | forgetThread u _ | forgetUser u => w.rounds u
  | _ => 0

namespace Agent

def act (ag : Agent) (rounds : Nat) : Op → Act Outcome
  | .chat u t message => .turn <$> ag.chat u t message
  | .observe u text t source => .observed <$> ag.observe u text t source
  | .forgetMemory u id => .deleted <$> Engram.forgetMemory u id
  | .forgetThread u t => .forgot <$> Engram.forgetThread rounds u t
  | .forgetUser u => .forgot <$> Engram.forgetUser rounds u
  | .wait => (fun _ => .waited) <$> utcnow

def perform (ag : Agent) (S : Services) (op : Op) (w : World) : Except Error Outcome × World :=
  exec S (ag.act (op.rounds w) op) w

end Agent

theorem perform_eq {ag : Agent} {S : Services} {op : Op} {w : World} {r : Except Error Outcome}
    (h : (ag.perform S op w).1 = r) : ag.perform S op w = (r, (ag.perform S op w).2) := by rw [← h]

/-! ## Inputs -/

/-- The clock readings and ids an operation is given. -/
structure Input where
  clock : Nat → Time
  ids : Nat → String

def Backend.given {M : Type} (w : Backend M) (i : Input) : Backend M := { w with clock := i.clock, ids := i.ids }

/-- The clock does not go back, and ids are new. -/
structure Input.Valid {M : Type} (i : Input) (w : Backend M) : Prop where
  clock_mono : Monotone i.clock
  now_le : w.now ≤ i.clock 0
  ids_inj : Function.Injective i.ids
  ids_new : ∀ n, i.ids n ∉ w.issued

/-- An empty backend. -/
def Backend.empty {M : Type} : Backend M where
  store := fun _ => .empty
  checkpoints := fun _ => none
  vectors := .empty
  clock := fun _ => 0
  ids := fun _ => ""
  now := 0
  issued := []

/-- Runs from `w₀` whose operations all meet `P` where they start. -/
inductive Run (ag : Agent) (P : Services → Op → World → Prop) (w₀ : World) : World → Prop
  | nil : Run ag P w₀ w₀
  | step {w} (h : Run ag P w₀ w) (S : Services) (op : Op) (i : Input) (hi : i.Valid w) (hp : P S op (w.given i)) :
      Run ag P w₀ (ag.perform S op (w.given i)).2

variable {ag : Agent} {P : Services → Op → World → Prop} {w₀ w : World}

/-- An invariant kept by every operation holds after every run. -/
theorem Run.inv (I : World → Prop) (h₀ : I w₀)
    (hs : ∀ S op i w, I w → i.Valid w → P S op (w.given i) → I (ag.perform S op (w.given i)).2)
    (h : Run ag P w₀ w) : I w := by
  induction h with
  | nil => exact h₀
  | step _ S op i hi hp ih => exact hs S op i _ ih hi hp

/-! ## An in-memory backend -/

/-- Walks and ranks in insertion order. -/
def Components.inMemory {M : Type} (extract : String → List CandidateFact) (embed : String → Vec)
    (invoke : List Message → Option String) : Components M where
  walk _ d := d.entries
  walk_perm _ _ := .refl _
  rank _ _ d := d.entries.map (fun e => ⟨e.1, e.2, none⟩)
  rank_mem _ _ _ item h := by
    obtain ⟨e, he, rfl⟩ := List.mem_map.1 h
    exact he
  extract := extract
  embed := embed
  invoke := invoke

/-- A clock that stands still, and the ids `tag`, `tag tag` and so on. -/
def Input.at (t : Time) (tag : Char) : Input where
  clock _ := t
  ids n := String.ofList (List.replicate (n + 1) tag)

omit [Host] in
theorem Input.at_inj (t : Time) (tag : Char) : Function.Injective (Input.at t tag).ids := fun a b h => by
  have hlen := congrArg List.length (String.ofList_injective h)
  simpa using hlen

/-- Valid where no issued id starts with the tag. -/
theorem Input.at_valid {M : Type} {t : Time} {tag : Char} {w : Backend M} (ht : w.now ≤ t)
    (htag : ∀ id ∈ w.issued, id.toList.head? ≠ some tag) : (Input.at t tag).Valid w where
  clock_mono := monotone_const
  now_le := ht
  ids_inj := Input.at_inj t tag
  ids_new n hn := by
    apply htag _ hn
    simp [Input.at, List.replicate_succ]

/-- A candidate for an unscoped slot. -/
def CandidateFact.stating (attr value : String) (ttlDays : Option PNat) : CandidateFact where
  text := attr ++ "=" ++ value
  text_ne h := by simpa using congrArg String.length h
  attr := attr
  value := value
  scope := ""
  kind := .semantic
  importance := .half
  ttlDays := ttlDays

/-- A backend whose extractor takes every text for the user's team. -/
def teamBackend : Services :=
  .inMemory (fun text => [.stating "team" text none]) (fun _ _ => 1) (fun _ => some "ok")

def lenient : MemoryManager := ⟨⟨false⟩, 1⟩

/-! ## Time and ids -/

namespace Backend

/-- What is still to come: later readings, unused ids. -/
structure Fed (w : World) : Prop where
  clock_mono : Monotone w.clock
  now_le : w.now ≤ w.clock 0
  ids_inj : Function.Injective w.ids
  ids_new : ∀ n, w.ids n ∉ w.issued

/-- The ids still to come are new. -/
structure Fresh (w : World) : Prop where
  ids_inj : Function.Injective w.ids
  ids_new : ∀ n, w.ids n ∉ w.issued

theorem Fed.fresh {w : World} (h : w.Fed) : w.Fresh := ⟨h.ids_inj, h.ids_new⟩

theorem fed_given {w : World} {i : Input} (h : i.Valid w) : (w.given i).Fed :=
  ⟨h.clock_mono, h.now_le, h.ids_inj, h.ids_new⟩

/-- `w'` comes after `w` in one operation. -/
structure After (w w' : World) : Prop where
  now : w'.now = w.now ∨ ∃ n, w'.now = w.clock n
  clock : ∀ n, ∃ k, w'.clock n = w.clock k
  ids : ∀ n, ∃ k, w'.ids n = w.ids k
  issued : w.issued ⊆ w'.issued
  issued_from : ∀ id ∈ w'.issued, id ∈ w.issued ∨ ∃ n, id = w.ids n

variable {w : World}

theorem After.refl (w : World) : After w w :=
  ⟨.inl rfl, fun n => ⟨n, rfl⟩, fun n => ⟨n, rfl⟩, List.Subset.refl _, fun _ h => .inl h⟩

theorem After.trans {w' w'' : World} (h : After w w') (h' : After w' w'') : After w w'' where
  now := by
    rcases h'.now with hn | ⟨n, hn⟩
    · rw [hn]; exact h.now
    · obtain ⟨k, hk⟩ := h.clock n
      exact .inr ⟨k, hn.trans hk⟩
  clock n := by
    obtain ⟨k, hk⟩ := h'.clock n
    obtain ⟨l, hl⟩ := h.clock k
    exact ⟨l, hk.trans hl⟩
  ids n := by
    obtain ⟨k, hk⟩ := h'.ids n
    obtain ⟨l, hl⟩ := h.ids k
    exact ⟨l, hk.trans hl⟩
  issued := List.Subset.trans h.issued h'.issued
  issued_from id hid := by
    rcases h'.issued_from id hid with hid | ⟨n, rfl⟩
    · exact h.issued_from id hid
    · obtain ⟨k, hk⟩ := h.ids n
      exact .inr ⟨k, hk⟩

theorem After.now_le {w' : World} (h : After w w') (hf : w.Fed) : w.now ≤ w'.now := by
  rcases h.now with hn | ⟨n, hn⟩
  · exact hn.ge
  · rw [hn]; exact hf.now_le.trans (hf.clock_mono (Nat.zero_le n))

end Backend

section Calls
variable (S : Services)

theorem fresh_handle (i : Call) {w : World} (h : w.Fresh) : (handle S i w).2.Fresh := by
  cases i with
  | uuid4 =>
    refine ⟨fun a b hab => Nat.succ_injective (h.ids_inj hab), fun n hn => ?_⟩
    rcases List.mem_cons.1 hn with hn | hn
    · exact Nat.succ_ne_zero n (h.ids_inj hn)
    · exact h.ids_new _ hn
  | embed text => exact w.embed_inv S text (I := Backend.Fresh) (fun _ => ⟨h.ids_inj, h.ids_new⟩)
  | _ => exact ⟨h.ids_inj, h.ids_new⟩

theorem fed_handle (i : Call) {w : World} (h : w.Fed) : (handle S i w).2.Fed := by
  have hfresh := fresh_handle S i h.fresh
  cases i with
  | utcnow =>
    exact ⟨fun a b hab => h.clock_mono (Nat.succ_le_succ hab), h.clock_mono (Nat.zero_le 1), hfresh.ids_inj,
      hfresh.ids_new⟩
  | embed text => exact w.embed_inv S text (I := Backend.Fed) (fun _ => ⟨h.clock_mono, h.now_le, h.ids_inj, h.ids_new⟩)
  | _ => exact ⟨h.clock_mono, h.now_le, hfresh.ids_inj, hfresh.ids_new⟩

theorem after_handle (i : Call) (w : World) : w.After (handle S i w).2 := by
  have hsame : w.After w := .refl w
  cases i with
  | utcnow => exact ⟨.inr ⟨0, rfl⟩, fun n => ⟨n + 1, rfl⟩, hsame.ids, hsame.issued, hsame.issued_from⟩
  | uuid4 =>
    refine ⟨.inl rfl, hsame.clock, fun n => ⟨n + 1, rfl⟩, List.subset_cons_self _ _, fun id hid => ?_⟩
    rcases List.mem_cons.1 hid with rfl | hid
    · exact .inr ⟨0, rfl⟩
    · exact .inl hid
  | embed text =>
    exact w.embed_inv S text
      (I := w.After) (fun _ => ⟨.inl rfl, hsame.clock, hsame.ids, hsame.issued, hsame.issued_from⟩)
  | _ => exact ⟨.inl rfl, hsame.clock, hsame.ids, hsame.issued, hsame.issued_from⟩

variable {α : Type} (p : Act α) {w : World}

theorem fed_exec (h : w.Fed) : (exec S p w).2.Fed :=
  Prog.run_inv _ (fun i _ => fed_handle S i) p h

theorem after_exec : w.After (exec S p w).2 :=
  Prog.run_inv _ (fun i _ h => h.trans (after_handle S i _)) p (.refl w)

end Calls

/-! ## Runs on given inputs -/

/-- Nothing is later than `t`, and every id starts with one of the tags. -/
structure Backend.Stamped (t : Time) (tags : List Char) (w : World) : Prop where
  now_le : w.now ≤ t
  tagged : ∀ id ∈ w.issued, ∃ c ∈ tags, id.toList.head? = some c

namespace Backend.Stamped
variable {t t' : Time} {tag : Char} {tags : List Char} {w : World}

theorem empty : Backend.empty.Stamped 0 [] := ⟨le_refl _, by simp [Backend.empty]⟩

theorem valid (h : w.Stamped t tags) (ht : t ≤ t') (htag : tag ∉ tags) : (Input.at t' tag).Valid w := by
  refine Input.at_valid (h.now_le.trans ht) (fun id hid hhead => ?_)
  obtain ⟨c, hc, hidc⟩ := h.tagged id hid
  rw [hhead] at hidc
  cases hidc
  exact htag hc

theorem perform (h : w.Stamped t tags) (ht : t ≤ t') (tag : Char) (ag : Agent) (S : Services) (op : Op) :
    (ag.perform S op (w.given (.at t' tag))).2.Stamped t' (tag :: tags) := by
  have ha := after_exec S (ag.act (op.rounds (w.given (.at t' tag))) op) (w := w.given (.at t' tag))
  refine ⟨?_, fun id hid => ?_⟩
  · rcases ha.now with hnow | ⟨n, hnow⟩
    · exact hnow.le.trans (h.now_le.trans ht)
    · exact hnow.le
  · rcases ha.issued_from id hid with hid | ⟨n, rfl⟩
    · obtain ⟨c, hc, hidc⟩ := h.tagged id hid
      exact ⟨c, List.mem_cons_of_mem _ hc, hidc⟩
    · exact ⟨tag, List.mem_cons_self, by simp [Backend.given, Input.at, List.replicate_succ]⟩

end Backend.Stamped

end Engram
