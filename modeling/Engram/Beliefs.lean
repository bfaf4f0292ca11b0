import Engram.Chats
import Engram.Executions
import Engram.LastStatement
/-!
# What the manager comes to believe

Over a whole run the memory manager keeps one belief for each slot: the last
value stated that differed from the one held then, with the time it lasts and
the thread it was stated on. `Beliefs.Step` says what an operation does to them;
`run_beliefs` that the live records of every user are these and nothing else.
-/

namespace Engram

open MemoryManager Backend Text

variable [Host]

/-! ## Beliefs -/

/-- What is believed of a slot, with the record that holds it, its expiry and the
thread it was stated on. -/
structure Belief where
  id : String
  value : String
  expiresAt : Option Time
  threadId : Option String
  deriving DecidableEq

namespace Belief

def fact (b : Belief) : Fact := ⟨b.id, b.value, b.expiresAt⟩

/-- It has not expired at `T`. -/
def holds (b : Belief) (T : Time) : Bool := b.expiresAt.all (fun e => T < e)

omit [Host] in
theorem holds_iff {b : Belief} {T : Time} : b.holds T ↔ ∀ e, b.expiresAt = some e → T < e := by
  unfold holds
  cases b.expiresAt <;> simp

end Belief

def Memory.belief (m : Memory) : Belief := ⟨m.id, m.value, m.expiresAt, m.threadId⟩

omit [Host] in
theorem isActive_iff_holds {m : Memory} {T : Time} : m.isActive T ↔ m.supersededBy = none ∧ m.belief.holds T := by
  rw [Memory.isActive_iff, Belief.holds_iff]
  rfl

/-- Of each user and slot, the belief held if any. -/
abbrev Beliefs := String → String × String → Option Belief

/-- An operation at the time `time`, and the candidates it takes from a turn's text. -/
structure Heard where
  done : Done
  time : Time
  said : List CandidateFact

namespace Beliefs

def none : Beliefs := fun _ _ => Option.none

def set (k : Beliefs) (u : String) (σ : String × String) (b : Belief) : Beliefs :=
  Function.update k u (Function.update (k u) σ (some b))

/-- Of `u`'s beliefs, those in `p`. -/
def keep (k : Beliefs) (u : String) (p : Belief → Bool) : Beliefs := Function.update k u (fun σ => (k u σ).filter p)

/-- `c` states what is believed already. -/
def Knows (k : Beliefs) (u : String) (T : Time) (c : CandidateFact) : Prop :=
  ∃ b, k u c.slot = some b ∧ b.holds T ∧ norm b.value = norm c.value

/-- `u` states `c` at `T` on a thread. What has no slot is no belief. -/
inductive Tell (u : String) (T : Time) (threadId : Option String) : Beliefs → CandidateFact → Beliefs → Prop
  | unslotted {k c} (h : c.attr = "") : Tell u T threadId k c k
  | known {k c} (h : c.attr ≠ "") (hk : k.Knows u T c) : Tell u T threadId k c k
  | new {k c} (id : String) (h : c.attr ≠ "") (hk : ¬ k.Knows u T c) (hid : ∀ v σ b, k v σ = some b → b.id ≠ id) :
      Tell u T threadId k c (k.set u c.slot ⟨id, c.value, c.expiryAt T, threadId⟩)

/-- What a turn on a thread does: it is told all that it heard, or what came before an error. -/
def Turn (u : String) (threadId : Option String) (k : Beliefs) (l : Heard) (k' : Beliefs) : Prop :=
  ∃ told rest, l.said = told ++ rest ∧ ((∃ r, l.done.result = .ok r) → rest = []) ∧
    Steps (Tell u l.time threadId) k told k'

def Step (k : Beliefs) (l : Heard) (k' : Beliefs) : Prop :=
  match l.done.op with
  | .chat u t _ => k.Turn u (some t) l k'
  | .observe u _ t _ => k.Turn u t l k'
  | .forgetMemory u id => k' = k.keep u (fun b => b.id ≠ id)
  | .forgetThread u t => k' = k.keep u (fun b => b.threadId ≠ some t)
  | .forgetUser u => k' = k.keep u (fun _ => false)
  | .wait => k' = k

variable {k k' : Beliefs} {u v : String} {σ σ' : String × String} {b : Belief} {T : Time} {threadId : Option String}

omit [Host]

theorem set_self : k.set u σ b u σ = some b := by simp [set]

theorem set_of_ne (h : (v, σ') ≠ (u, σ)) : k.set u σ b v σ' = k v σ' := by
  unfold set
  by_cases hv : v = u
  · subst hv
    rw [Function.update_self, Function.update_of_ne]
    rintro rfl
    exact h rfl
  · rw [Function.update_of_ne hv]

theorem keep_self {p : Belief → Bool} : k.keep u p u σ = (k u σ).filter p := by simp [keep]

theorem keep_of_ne {p : Belief → Bool} (h : v ≠ u) : k.keep u p v σ = k v σ := by simp [keep, h]

end Beliefs

/-! ## Runs in time -/

/-- The candidates that an operation resolves. -/
def Agent.said (ag : Agent) (mm : MemoryManager) (S : Services) : Op → List CandidateFact
  | .chat _ _ message => if ag.memory then told mm S message .user else []
  | .observe _ text _ source => told mm S text source
  | _ => []

/-- One operation of an agent with the manager `mm`, at one moment, no earlier
than the one before, for a user with at most 500 records. -/
structure Agent.Hears (ag : Agent) (mm : MemoryManager) (s : World × Time) (l : Heard) (s' : World × Time) : Prop where
  later : s.2 ≤ l.time
  moment : s'.2 = l.time
  valid : l.done.input.Valid s.1
  clock : ∀ n, l.done.input.clock n = l.time
  small : ∀ u, (s.1.mem u).size ≤ maxExisting
  run : ∃ S, ag.perform S l.done.op (s.1.given l.done.input) = (l.done.result, s'.1) ∧ l.said = ag.said mm S l.done.op

/-- Up to `τ` the live records of slots are the beliefs `k`. -/
structure Backend.Believes (w : World) (τ : Time) (k : Beliefs) : Prop where
  now_le : w.now ≤ τ
  keyed : w.Keyed
  paired : w.Paired
  issued : ∀ u σ b, k u σ = some b → b.id ∈ w.issued
  held : ∀ u σ, σ.1 ≠ "" → ∀ b : Belief, k u σ = some b ∧ b.holds τ ↔
    ∃ m, (w.mem u).get b.id = some m ∧ m.slot = σ ∧ m.isActive τ ∧ m.belief = b

namespace Backend.Believes
variable {w w' : World} {τ T : Time} {k : Beliefs} {u : String} {σ : String × String}

theorem empty : Backend.empty.Believes 0 Beliefs.none where
  now_le := Nat.le_refl 0
  keyed := keyed_empty
  paired := paired_empty
  issued _ _ _ h := by cases h
  held _ _ _ _ := ⟨fun h => (by cases h.1), fun ⟨_, h, _⟩ => (by cases h)⟩

/-- Time only ends what is held. -/
theorem advance (h : w.Believes τ k) (hT : τ ≤ T) : w.Believes T k where
  now_le := h.now_le.trans hT
  keyed := h.keyed
  paired := h.paired
  issued := h.issued
  held u σ hσ b := by
    constructor
    · rintro ⟨hb, hholds⟩
      have hearlier : b.holds τ := Belief.holds_iff.2 (fun e he => lt_of_le_of_lt hT (Belief.holds_iff.1 hholds e he))
      obtain ⟨m, hget, hslot, hact, rfl⟩ := (h.held u σ hσ b).1 ⟨hb, hearlier⟩
      exact ⟨m, hget, hslot, isActive_iff_holds.2 ⟨(isActive_iff_holds.1 hact).1, hholds⟩, rfl⟩
    · rintro ⟨m, hget, hslot, hact, rfl⟩
      exact ⟨((h.held u σ hσ m.belief).2 ⟨m, hget, hslot, Memory.isActive_of_le hT hact, rfl⟩).1,
        (isActive_iff_holds.1 hact).2⟩

/-- What changes no memory changes no belief. -/
theorem same (h : w.Believes τ k) (hmem : ∀ v, w'.mem v = w.mem v) (hnow : w'.now ≤ τ) (hi : w.issued ⊆ w'.issued) :
    w'.Believes τ k where
  now_le := hnow
  keyed := h.keyed.congr hmem hi
  paired := h.paired.of_mem hmem
  issued u σ b hb := hi (h.issued u σ b hb)
  held u σ hσ b := by rw [hmem]; exact h.held u σ hσ b

/-- Forgetting some of `u`'s records forgets the beliefs they hold. -/
theorem keep (h : w.Believes τ k) {p : Belief → Bool} (hnow : w'.now ≤ τ) (hi : w.issued ⊆ w'.issued)
    (hu : ∀ key m, (w'.mem u).get key = some m ↔ (w.mem u).get key = some m ∧ p m.belief)
    (ho : ∀ v, v ≠ u → w'.mem v = w.mem v) : w'.Believes τ (k.keep u p) where
  now_le := hnow
  keyed := by
    refine ⟨fun {v key m} hget => ?_, fun {v key m} hget => ?_, fun {v key m} hget => ?_⟩
    all_goals
      have hold : (w.mem v).get key = some m := by
        by_cases hv : v = u
        · subst hv
          exact ((hu key m).1 hget).1
        · rwa [ho v hv] at hget
    · exact h.keyed.id_eq hold
    · exact h.keyed.user_eq hold
    · exact hi (h.keyed.issued hold)
  paired v key m hget := by
    by_cases hv : v = u
    · subst hv
      exact h.paired v key m ((hu key m).1 hget).1
    · rw [ho v hv] at hget
      exact h.paired v key m hget
  issued v σ b hb := by
    by_cases hv : v = u
    · subst hv
      rw [Beliefs.keep_self] at hb
      exact hi (h.issued v σ b (Option.filter_eq_some_iff.1 hb).1)
    · rw [Beliefs.keep_of_ne hv] at hb
      exact hi (h.issued v σ b hb)
  held v σ hσ b := by
    by_cases hv : v = u
    · subst hv
      rw [Beliefs.keep_self, Option.filter_eq_some_iff, and_right_comm, h.held v σ hσ b]
      constructor
      · rintro ⟨⟨m, hget, hslot, hact, rfl⟩, hp⟩
        exact ⟨m, (hu _ m).2 ⟨hget, hp⟩, hslot, hact, rfl⟩
      · rintro ⟨m, hget, hslot, hact, rfl⟩
        obtain ⟨hget, hp⟩ := (hu _ m).1 hget
        exact ⟨⟨m, hget, hslot, hact, rfl⟩, hp⟩
    · rw [Beliefs.keep_of_ne hv, ho v hv]
      exact h.held v σ hσ b

end Backend.Believes

/-! ## Where records come from -/

/-- From `w` to `w'` only records of `u` were written, the new ones on the given thread. -/
structure WrittenOn (u : String) (threadId : Option String) (w w' : World) : Prop where
  others : ∀ v, v ≠ u → w'.mem v = w.mem v
  origin : ∀ key m, (w'.mem u).get key = some m → m.id = key ∧ m.userId = u ∧
    ((∃ m₀, (w.mem u).get key = some m₀ ∧ m.threadId = m₀.threadId) ∨ m.threadId = threadId)

section Written
variable {u : String} {threadId : Option String} {w w' : World}

/-- The record is `u`'s, and of the given thread unless it was there. -/
def FromThread (u : String) (threadId : Option String) (w : World) (m : Memory) : Prop :=
  m.userId = u ∧ ((∃ m₀, (w.mem u).get m.id = some m₀ ∧ m.threadId = m₀.threadId) ∨ m.threadId = threadId)

def FindsFrom (u : String) (threadId : Option String) (w : World) : (i : Call) → i.Ans → Prop
  | .search (.memories v) _ _ _, items => v = u → ∀ item ∈ items, FromThread u threadId w item.value
  | _, _ => True

def PutsFrom (u : String) (threadId : Option String) (w : World) : Call → Prop
  | .put (.memories v) key m => v = u ∧ m.id = key ∧ FromThread u threadId w m
  | .put (.threads _) _ _ | .delete _ _ => False
  | _ => True

theorem writes_from (u : String) (threadId : Option String) (w : World) :
    Writes u threadId (FromThread u threadId w) (FindsFrom u threadId w) (PutsFrom u threadId w) where
  clock := trivial
  newId := trivial
  embed _ := trivial
  extract _ := trivial
  search _ _ _ := trivial
  searchOf _ _ _ _ _ := trivial
  put _ hm := ⟨hm.1, rfl, hm⟩
  quarantine _ _ := trivial
  found _ _ _ _ h := h rfl
  reinforced _ _ hm := hm
  retired _ _ _ hm := hm
  new _ _ hu ht := ⟨hu, .inr ht⟩

theorem writer_writes (S : Services) (writer : MemoryWriter) (text : String) (source : Provenance) (hw : w.Keyed) :
    WrittenOn u threadId w (exec S (writer.apply u text threadId source) w).2 := by
  refine ((only_writer (writes_from u threadId w) writer text source).run_inv (h := handle S)
    (I := WrittenOn u threadId w) (fun i w' hi h => ?_) ⟨fun _ _ => rfl, fun key m hget =>
      ⟨hw.id_eq hget, hw.user_eq hget, .inl ⟨m, hget, rfl⟩⟩⟩).1
  have hsame : ∀ {w'' : World}, (∀ v, w''.mem v = w'.mem v) → WrittenOn u threadId w w'' := fun hmem =>
    ⟨fun v hv => (hmem v).trans (h.others v hv), fun key m hget => h.origin key m (hmem u ▸ hget)⟩
  cases i with
  | search ns q limit offset =>
    refine ⟨?_, h⟩
    cases ns with
    | memories v =>
      rintro rfl item hitem
      have hget := S.search_mem (List.mem_of_mem_drop (List.mem_of_mem_take hitem))
      obtain ⟨hid, huser, horigin⟩ := h.origin _ _ hget
      exact ⟨huser, hid ▸ horigin⟩
    | _ => trivial
  | put ns key value =>
    cases ns with
    | memories v =>
      obtain ⟨rfl, rfl, huser, horigin⟩ := hi
      refine ⟨trivial, fun v' hv => (mem_put_of_ne _ _ _ hv).trans (h.others v' hv), fun key' m hget => ?_⟩
      rcases get_put hget with ⟨-, rfl, hm⟩ | hget
      · obtain rfl := eq_of_heq hm
        exact ⟨rfl, huser, horigin⟩
      · exact h.origin key' m hget
    | quarantine v => exact ⟨trivial, hsame (fun v' => mem_put_quarantine _ _ _ _ _)⟩
    | threads v => cases hi
  | delete => cases hi
  | embed text' => exact ⟨trivial, hsame (fun v => w'.mem_embed S text' v)⟩
  | _ => exact ⟨trivial, hsame (fun _ => rfl)⟩

end Written

/-! ## A turn -/

/-- What a turn has made of the beliefs `k` after the candidates in `done`. -/
structure Learning (u : String) (T : Time) (threadId : Option String) (w₀ : World) (first : List Memory) (k : Beliefs)
    (done : List CandidateFact) (w : World) (existing : List Memory) (k' : Beliefs) : Prop where
  steps : Steps (Beliefs.Tell u T threadId) k done k'
  known : ∀ σ, σ.1 ≠ "" → facts σ existing = ((k' u σ).filter (·.holds T)).toList.map Belief.fact
  others : ∀ v, v ≠ u → k' v = k v
  issued : ∀ v σ b, k' v σ = some b → b.id ∈ w.issued
  origin : ∀ σ b, k' u σ = some b → k u σ = some b ∨ b.threadId = threadId ∧ b.id ∉ w₀.issued
  hidden : ∀ key m, Hidden u existing w key m ↔ Hidden u first w₀ key m

section Turn
variable {S : Services} {u text : String} {T : Time} {threadId : Option String} {source : Provenance}
  {w w' w₀ w₁ : World} {first existing existing' last : List Memory} {k k' : Beliefs} {σ : String × String}

/-- What a turn looks at in a slot is what is believed of it. -/
theorem Snapshot.facts_eq (hs : Snapshot S u w first w₁) (hw : w.Fed) (ha : w.After w₁) (hT : ∀ n, w.clock n = T)
    (hb : w.Believes T k) (hsmall : (w.mem u).size ≤ maxExisting) (hσ : σ.1 ≠ "") :
    facts σ first = ((k u σ).filter (·.holds T)).toList.map Belief.fact := by
  have hmem : ∀ m, m ∈ first.filter (fun m => m.slot = σ) ↔ k u σ = some m.belief ∧ m.belief.holds T ∧
      (w.mem u).get m.id = some m := by
    intro m
    rw [List.mem_filter, decide_eq_true_eq, hs.mem_iff hw ha hT]
    constructor
    · rintro ⟨⟨hwin, hact⟩, hslot⟩
      obtain ⟨key, hget⟩ := mem_window hwin
      obtain rfl := hb.keyed.id_eq hget
      obtain ⟨hk, hholds⟩ := (hb.held u σ hσ m.belief).2 ⟨m, hget, hslot, hact, rfl⟩
      exact ⟨hk, hholds, hget⟩
    · rintro ⟨hk, hholds, hget⟩
      obtain ⟨m', hget', hslot, hact, -⟩ := (hb.held u σ hσ m.belief).1 ⟨hk, hholds⟩
      obtain rfl := Option.some.inj (hget.symm.trans hget')
      exact ⟨⟨mem_window_of_small hsmall hget, hact⟩, hslot⟩
  have hnd : (first.filter (fun m => m.slot = σ)).Nodup :=
    (hs.mirror.nodup.of_map).sublist List.filter_sublist
  unfold facts
  cases hk : (k u σ).filter (·.holds T) with
  | none =>
    rw [List.map_eq_nil_iff.2]
    · rfl
    · refine List.eq_nil_iff_forall_not_mem.2 (fun m hm => ?_)
      obtain ⟨hm, hholds, -⟩ := (hmem m).1 hm
      rw [hm, Option.filter_some, if_pos hholds] at hk
      cases hk
  | some b =>
    obtain ⟨hku, hholds⟩ := Option.filter_eq_some_iff.1 hk
    obtain ⟨m, hget, -, -, rfl⟩ := (hb.held u σ hσ b).1 ⟨hku, hholds⟩
    -- The record of the belief is there, and there is no other.
    have hone : first.filter (fun m => m.slot = σ) = [m] := by
      refine List.perm_singleton.1 ((List.perm_ext_iff_of_nodup hnd (List.nodup_singleton m)).2 (fun m' => ?_))
      rw [hmem, List.mem_singleton]
      constructor
      · rintro ⟨hk', -, hget'⟩
        have hsame : m'.belief = m.belief := Option.some.inj (hk'.symm.trans hku)
        rw [show m'.id = m.belief.id from congrArg Belief.id hsame] at hget'
        exact Option.some.inj (hget'.symm.trans hget)
      · rintro rfl
        exact ⟨hku, hholds, hget⟩
    rw [hone]
    rfl

theorem Learning.start (hs : Snapshot S u w first w₁) (hw : w.Fed) (ha : w.After w₁) (hT : ∀ n, w.clock n = T)
    (hb : w.Believes T k) (hsmall : (w.mem u).size ≤ maxExisting) : Learning u T threadId w₁ first k [] w₁ first k where
  steps := .nil
  known _ hσ := hs.facts_eq hw ha hT hb hsmall hσ
  others _ _ := rfl
  issued v σ b h := ha.issued (hb.issued v σ b h)
  origin _ _ h := .inl h
  hidden _ _ := .rfl

/-- The turn knows a value exactly when it is believed. -/
theorem Learning.knows_iff {done : List CandidateFact} (hI : Learning u T threadId w₀ first k done w existing k')
    {c : CandidateFact} (hc : c.attr ≠ "") :
    norm c.value ∈ (facts c.slot existing).map (norm ·.value) ↔ k'.Knows u T c := by
  rw [hI.known c.slot hc, List.map_map]
  unfold Beliefs.Knows
  constructor
  · intro hmem
    obtain ⟨b, hb, hval⟩ := List.mem_map.1 hmem
    obtain ⟨hk, hholds⟩ := Option.filter_eq_some_iff.1 (Option.mem_toList.1 hb)
    exact ⟨b, hk, hholds, hval⟩
  · rintro ⟨b, hk, hholds, hval⟩
    exact List.mem_map.2 ⟨b, Option.mem_toList.2 (Option.filter_eq_some_iff.2 ⟨hk, hholds⟩), hval⟩

theorem New.belief_fact {c : CandidateFact} {m : Memory} (h : New c u threadId source w w' m)
    (hT : ∀ n, w.clock n = T) : m.fact = (Belief.mk m.id c.value (c.expiryAt T) threadId).fact := by
  obtain ⟨n, hn⟩ := h.expiresAt
  rw [hT n] at hn
  unfold Memory.fact Belief.fact CandidateFact.expiryAt
  rw [h.value, hn]

/-- A candidate is told to the beliefs as it is to the store. -/
theorem Learning.step {c : CandidateFact} {decision : MemoryDecision} {memory : Option Memory}
    {done : List CandidateFact} (hI : Learning u T threadId w₀ first k done w existing k')
    (h : Resolved c u threadId source existing w (.ok (decision, memory, existing'), w')) (hk : w.Keyed)
    (hm : Mirror u existing w) (hT : ∀ n, w.clock n = T) (h₀ : w₀.issued ⊆ w.issued) (ha : w.After w') :
    ∃ k'', Learning u T threadId w₀ first k (done ++ [c]) w' (existing' ++ memory.toList) k'' := by
  have hidden : ∀ key m, Hidden u (existing' ++ memory.toList) w' key m ↔ Hidden u first w₀ key m :=
    fun key m => (h.hidden hk hm key m).trans (hI.hidden key m)
  -- Where nothing was written to any slot, the beliefs stay.
  have hstay : Beliefs.Tell u T threadId k' c k' →
      (∀ σ : String × String, σ.1 ≠ "" → facts σ (existing' ++ memory.toList) = facts σ existing) →
      ∃ k'', Learning u T threadId w₀ first k (done ++ [c]) w' (existing' ++ memory.toList) k'' :=
    fun htell hsame => ⟨k', ⟨.snoc hI.steps htell, fun σ hσ => (hsame σ hσ).trans (hI.known σ hσ), hI.others,
      fun v σ b hb => ha.issued (hI.issued v σ b hb), hI.origin, hidden⟩⟩
  by_cases hattr : c.attr = ""
  · refine hstay (.unslotted hattr) (fun σ hσ => ?_)
    rcases h.facts hm hσ with ⟨hsame, -, -⟩ | ⟨new, -, rfl, -⟩
    · exact hsame
    · exact absurd hattr hσ
  · rcases h.facts hm (σ := c.slot) hattr with ⟨-, hmemory, hheld⟩ | ⟨new, hmemory, -, hnew, hunknown, hone⟩
    · refine hstay (.known hattr ((hI.knows_iff hattr).1 (hheld rfl))) (fun σ hσ => ?_)
      rcases h.facts hm hσ with ⟨hsame, -, -⟩ | ⟨new, hnew, -⟩
      · exact hsame
      · rw [hmemory rfl] at hnew
        cases hnew
    · have hid : ∀ v σ b, k' v σ = some b → b.id ≠ new.id := by
        rintro v σ b hb he
        exact hnew.id_new (he ▸ hI.issued v σ b hb)
      refine ⟨k'.set u c.slot ⟨new.id, c.value, c.expiryAt T, threadId⟩, ⟨.snoc hI.steps (.new new.id hattr
        (fun hkn => hunknown ((hI.knows_iff hattr).2 hkn)) hid), fun σ hσ => ?_, fun v hv => ?_, fun v σ b hb => ?_,
        fun σ b hb => ?_, hidden⟩⟩
      · by_cases hslot : σ = c.slot
        · subst hslot
          have hholds : (Belief.mk new.id c.value (c.expiryAt T) threadId).holds T :=
            Belief.holds_iff.2 (fun e he => CandidateFact.lt_of_expiryAt he)
          rw [hone, Beliefs.set_self, Option.filter_some, if_pos hholds, hnew.belief_fact hT]
          rfl
        · rw [Beliefs.set_of_ne (fun he => hslot (Prod.mk.inj he).2), ← hI.known σ hσ]
          rcases h.facts hm hσ with ⟨hsame, -, -⟩ | ⟨_, -, hc, -⟩
          · exact hsame
          · exact absurd hc.symm hslot
      · funext σ
        rw [Beliefs.set_of_ne (fun he => hv (Prod.mk.inj he).1), hI.others v hv]
      · by_cases hvσ : (v, σ) = (u, c.slot)
        · obtain ⟨rfl, rfl⟩ := Prod.mk.inj hvσ
          rw [Beliefs.set_self] at hb
          cases hb
          exact hnew.id_issued
        · rw [Beliefs.set_of_ne hvσ] at hb
          exact ha.issued (hI.issued v σ b hb)
      · by_cases hslot : σ = c.slot
        · subst hslot
          rw [Beliefs.set_self] at hb
          cases hb
          exact .inr ⟨rfl, fun hin => hnew.id_new (h₀ hin)⟩
        · rw [Beliefs.set_of_ne (fun he => hslot (Prod.mk.inj he).2)] at hb
          exact hI.origin σ b hb

/-- At its end what is believed is what is live. -/
theorem Learning.believes {done : List CandidateFact} (hI : Learning u T threadId w₁ first k done w' last k')
    (hs : Snapshot S u w first w₁) (hw : w.Fed) (ha : w.After w₁) (hT : ∀ n, w.clock n = T) (hb : w.Believes T k)
    (hsmall : (w.mem u).size ≤ maxExisting) (hm : Mirror u last w') (hkept : w.Remembers w') (hk' : w'.Keyed)
    (hp : w'.Paired) (hwritten : WrittenOn u threadId w w') (hnow : w'.now ≤ T) : w'.Believes T k' := by
  -- The belief of a record that the turn holds is that record's.
  have hlast : ∀ σ : String × String, σ.1 ≠ "" → ∀ b, k' u σ = some b → b.holds T → ∀ m ∈ last, m.fact = b.fact →
      m.belief = b := by
    intro σ hσ b hbel hholds m hmem hfact
    have hid : m.id = b.id := congrArg Fact.id hfact
    have hval : m.value = b.value := congrArg Fact.value hfact
    have hexp : m.expiresAt = b.expiresAt := congrArg Fact.expiresAt hfact
    have hget := hm.stored m hmem
    have hthread : m.threadId = b.threadId := by
      rcases hI.origin σ b hbel with hold | ⟨ht, hnew⟩
      · obtain ⟨m₀, hget₀, -, -, rfl⟩ := (hb.held u σ hσ b).1 ⟨hold, hholds⟩
        obtain ⟨m', hget', hkm⟩ := hkept u _ m₀ hget₀
        rw [← hid, hget] at hget'
        cases hget'
        exact hkm.threadId
      · rw [ht]
        rcases (hwritten.origin m.id m hget).2.2 with ⟨m₀, hget₀, -⟩ | ht'
        · exact absurd (ha.issued (hb.keyed.issued hget₀)) (hid ▸ hnew)
        · exact ht'
    obtain ⟨id, value, expiresAt, threadId⟩ := b
    dsimp only at hid hval hexp hthread
    unfold Memory.belief
    rw [hid, hval, hexp, hthread]
  refine ⟨hnow, hk', hp, hI.issued, fun v σ hσ b => ?_⟩
  by_cases hv : v = u
  · subst hv
    constructor
    · rintro ⟨hbel, hholds⟩
      have hfact : b.fact ∈ facts σ last := by
        rw [hI.known σ hσ]
        exact List.mem_map.2 ⟨b, Option.mem_toList.2 (Option.filter_eq_some_iff.2 ⟨hbel, hholds⟩), rfl⟩
      obtain ⟨m, hmem, hslot, hfact⟩ := mem_facts.1 hfact
      obtain rfl := hlast σ hσ b hbel hholds m hmem hfact
      exact ⟨m, hm.stored m hmem, hslot, isActive_iff_holds.2 ⟨hm.live m hmem, hholds⟩, rfl⟩
    · rintro ⟨m, hget, hslot, hact, rfl⟩
      rcases hm.mem_or_hidden hget (Memory.isActive_iff.1 hact).1 with hmem | hhid
      · have hfact : m.fact ∈ facts σ last := mem_facts.2 ⟨m, hmem, hslot, rfl⟩
        rw [hI.known σ hσ] at hfact
        obtain ⟨b, hbmem, hfact⟩ := List.mem_map.1 hfact
        obtain ⟨hbel, hholds⟩ := Option.filter_eq_some_iff.1 (Option.mem_toList.1 hbmem)
        rw [hlast σ hσ b hbel hholds m hmem hfact.symm]
        exact ⟨hbel, hholds⟩
      · -- A live record out of sight would have been out of sight at the start.
        have hhid := (hI.hidden m.id m).1 hhid
        have hget₀ : (w.mem v).get m.id = some m := hs.same.mem ▸ hhid.stored
        have hfirst := (hs.mem_iff hw ha hT m).2 ⟨mem_window_of_small hsmall hget₀, hact⟩
        exact absurd (List.mem_map_of_mem hfirst) hhid.unseen
  · rw [hI.others v hv, hwritten.others v hv]
    exact hb.held v σ hσ b

theorem After.now_le_of_clock (h : w.After w') (hT : ∀ n, w.clock n = T) (hnow : w.now ≤ T) : w'.now ≤ T := by
  rcases h.now with hn | ⟨n, hn⟩
  · rwa [hn]
  · rw [hn, hT]

/-- A turn tells the beliefs what it takes from its text. -/
theorem apply_believes (mm : MemoryManager) (hw : w.Fed) (hT : ∀ n, w.clock n = T) (hb : w.Believes T k)
    (hsmall : (w.mem u).size ≤ maxExisting) {r : Except Error WriteReport}
    (hr : exec S (mm.apply u text threadId source) w = (r, w')) :
    ∃ k' said rest, told mm S text source = said ++ rest ∧ ((∃ report, r = .ok report) → rest = []) ∧
      Steps (Beliefs.Tell u T threadId) k said k' ∧ w'.Believes T k' := by
  obtain ⟨hkept, hk', hp⟩ := apply_remembers S mm u text threadId source hw hb.keyed hb.paired hr
  have hwritten : WrittenOn u threadId w w' := by
    have h : WrittenOn u threadId w (exec S ((MemoryWriter.manager mm).apply u text threadId source) w).2 :=
      writer_writes S (.manager mm) text source hb.keyed
    rwa [show (MemoryWriter.manager mm).apply u text threadId source =
      mm.apply u text threadId source from rfl, hr] at h
  have hafter : w.After w' := After.of_exec hr
  have hnow : w'.now ≤ T := After.now_le_of_clock hafter hT hb.now_le
  have hcases := apply_cases S mm u text threadId source hw hb.keyed
  rw [hr] at hcases
  generalize hres : (r, w') = rw' at hcases
  -- A turn that resolves nothing tells nothing.
  have hidle : told mm S text source = [] → (∀ v, w'.mem v = w.mem v) → ∃ k' said rest,
      told mm S text source = said ++ rest ∧ ((∃ report, r = .ok report) → rest = []) ∧
        Steps (Beliefs.Tell u T threadId) k said k' ∧ w'.Believes T k' :=
    fun hnone hmem => ⟨k, [], [], hnone, fun _ => rfl, .nil, hb.same hmem hnow hafter.issued⟩
  cases hcases with
  | blank h => cases hres; exact hidle (if_neg (by simp [h])) (fun _ => rfl)
  | blocked h hg => cases hres; exact hidle (if_neg (by simp [hg])) (fun v => mem_put_quarantine _ _ _ _ _)
  | idle h hg hc => cases hres; exact hidle ((if_pos ⟨h, hg⟩).trans hc) (fun _ => rfl)
  | @resolved hstrip hg hc first w₁ hs hw₁ ha =>
    have htold : told mm S text source = usable (S.extract (strip text)) (strip text) := if_pos ⟨hstrip, hg⟩
    rw [htold]
    obtain ⟨said, w₂, last, report, ⟨⟨k', hI⟩, ⟨rest, hrest⟩, -, -⟩, -, hk₂, hm₂, -, hend⟩ :=
      resolveAll_inv S mm u threadId source
      (fun said w existing _ => (∃ k', Learning u T threadId w₁ first k said w existing k') ∧
        (∃ rest, usable (S.extract (strip text)) (strip text) = said ++ rest) ∧
          (∀ n, w.clock n = T) ∧ w₁.issued ⊆ w.issued)
      (fun said c rest w w' existing report decision memory existing' hall _ hk hm ha hI hres => by
        obtain ⟨⟨k', hI⟩, -, hT, hissued⟩ := hI
        exact ⟨hI.step hres hk hm hT hissued ha, ⟨rest, by simp [hall]⟩, After.clock_eq ha hT,
          fun _ h => ha.issued (hissued h)⟩)
      (show usable (S.extract (strip text)) (strip text) = [] ++ usable (S.extract (strip text)) (strip text) from rfl)
      hw₁ (hb.keyed.congr (fun _ => hs.same.mem) ha.issued) hs.mirror
      ⟨⟨k, .start hs hw ha hT hb hsmall⟩, ⟨_, rfl⟩, After.clock_eq ha hT, List.Subset.refl _⟩
    refine ⟨k', said, rest, hrest, fun hok => ?_, hI.steps, ?_⟩
    · rcases hend with ⟨rfl, -⟩ | ⟨c, -, d, n, w₃, -, -, -, -, hrun⟩
      · simpa using hrest
      · rw [hrun] at hres
        obtain ⟨report, rfl⟩ := hok
        cases hres
    · rcases hend with ⟨-, hrun⟩ | ⟨c, -, d, n, w₃, -, -, hsame, ha₃, hrun⟩
      · rw [hrun] at hres
        obtain ⟨-, rfl⟩ := Prod.mk.inj hres
        exact hI.believes hs hw ha hT hb hsmall hm₂ hkept hk' hp hwritten hnow
      · -- an expiry past the calendar: what was told before it stays
        rw [hrun] at hres
        obtain ⟨-, rfl⟩ := Prod.mk.inj hres
        have hmem : w'.mem u = w₂.mem u := hsame.mem
        have hI' : Learning u T threadId w₁ first k said w' last k' := ⟨hI.steps, hI.known, hI.others,
          fun v σ b h => ha₃.issued (hI.issued v σ b h), hI.origin, fun key m =>
            (Hidden.congr hmem).trans (hI.hidden key m)⟩
        have hm' : Mirror u last w' := ⟨hm₂.nodup, fun m h => by rw [hmem]; exact hm₂.stored m h, hm₂.live⟩
        exact hI'.believes hs hw ha hT hb hsmall hm' hkept hk' hp hwritten hnow

end Turn

/-! ## Runs -/

section Runs
variable {ag : Agent} {mm : MemoryManager} {S : Services} {w w' : World} {T : Time} {k : Beliefs} {u t : String}

theorem chat_believes (hmm : ag.writer = .manager mm) (message : String) (hc : w.Canonical) (hw : w.Fed)
    (hT : ∀ n, w.clock n = T) (hb : w.Believes T k) (hsmall : (w.mem u).size ≤ maxExisting) {r : Except Error TurnTrace}
    (hr : exec S (ag.chat u t message) w = (r, w')) :
    ∃ k' said rest, ag.said mm S (.chat u t message) = said ++ rest ∧ ((∃ trace, r = .ok trace) → rest = []) ∧
      Steps (Beliefs.Tell u T (some t)) k said k' ∧ w'.Believes T k' := by
  have hafter : w.After w' := After.of_exec hr
  unfold Agent.said
  cases hmem : ag.memory with
  | false =>
    rw [Agent.exec_chat_stateless S ag message hmem hc] at hr
    obtain ⟨-, rfl⟩ := Prod.mk.inj hr
    exact ⟨k, [], [], rfl, fun _ => rfl, .nil, hb.same (w.mem_received u t message)
      (After.now_le_of_clock hafter hT hb.now_le) hafter.issued⟩
  | true =>
    obtain ⟨recalled, -, w₂, -, hsame, -, ha₂, hfed, hrun⟩ :=
      Agent.exec_chat_memory S ag message hmem hc (u := u) (t := t)
    have hmem₂ : ∀ v, w₂.mem v = w.mem v := fun v => hsame.mem.trans (w.mem_received u t message v)
    have hb₂ : w₂.Believes T k := hb.same hmem₂ (After.now_le_of_clock ha₂ hT hb.now_le) ha₂.issued
    obtain ⟨k', said, rest, hsaid, hrest, hsteps, hb'⟩ := apply_believes mm (hfed hw) (After.clock_eq ha₂ hT) hb₂
      (by rw [hmem₂]; exact hsmall) (Prod.eta (exec S (mm.apply u message (some t) .user) w₂)).symm
    rw [hrun, hmm] at hr
    obtain ⟨rfl, rfl⟩ := Prod.mk.inj hr
    refine ⟨k', said, rest, hsaid, fun hok => hrest ?_, hsteps, hb'⟩
    obtain ⟨trace, hok⟩ := hok
    change Except.map _ (exec S (mm.apply u message (some t) .user) w₂).1 = _ at hok
    rcases hwrite : (exec S (mm.apply u message (some t) .user) w₂).1 with e | report
    · rw [hwrite] at hok
      cases hok
    · exact ⟨report, rfl⟩

theorem perform_forgetMemory {S : Services} {w w' : World} {u id : String} {result : Except Error Outcome}
    (hw : w.Keyed) (hrun : ag.perform S (.forgetMemory u id) w = (result, w')) :
    (∀ key m, (w'.mem u).get key = some m ↔ (w.mem u).get key = some m ∧ m.id ≠ id) ∧
    ∀ v, v ≠ u → w'.mem v = w.mem v := by
  have hmap : ag.perform S (.forgetMemory u id) w = _ := exec_map S w _ _
  rw [hrun, exec_forgetMemory] at hmap
  split at hmap
  · next hnone =>
    obtain ⟨-, rfl⟩ := Prod.mk.inj hmap
    refine ⟨fun key m => ⟨fun hget => ⟨hget, ?_⟩, fun h => h.1⟩, fun _ _ => rfl⟩
    rintro rfl
    rw [hw.id_eq hget, hget] at hnone
    cases hnone
  · obtain ⟨-, rfl⟩ := Prod.mk.inj hmap
    refine ⟨fun key m => ?_, fun v hv => w.store_dropKeys_of_ne _ (by simpa using hv)⟩
    rw [show (w.dropKeys (.memories u) [id]).mem u = _ from store_dropKeys_self _ _ _, Dict.get_eraseAll]
    split
    · next hin =>
      obtain rfl := List.mem_singleton.1 hin
      exact ⟨fun h => (by cases h), fun h => absurd (hw.id_eq h.1) h.2⟩
    · next hnotin =>
      refine ⟨fun hget => ⟨hget, fun he => hnotin (List.mem_singleton.2 ?_)⟩, fun h => h.1⟩
      exact (hw.id_eq hget).symm.trans he

/-- Each operation does to the beliefs what it says. -/
theorem Agent.Hears.believes {s s' : World × Time} {l : Heard} (hmm : ag.writer = .manager mm) (hl : ag.Hears mm s l s')
    (hacc : s.1.Accounted) (hb : s.1.Believes s.2 k) : ∃ k', k.Step l k' ∧ s'.1.Believes s'.2 k' := by
  obtain ⟨hlater, hmoment, hi, hclock, hsmall, S, hrun, hsaid⟩ := hl
  obtain ⟨w, τ⟩ := s
  obtain ⟨w', τ'⟩ := s'
  obtain ⟨⟨op, i, result⟩, T, said⟩ := l
  dsimp only at hlater hmoment hi hclock hsmall hrun hsaid hacc hb ⊢
  subst hmoment hsaid
  have hg : (w.given i).Believes τ' k :=
    (hb.advance hlater).same (fun _ => rfl) (hb.now_le.trans hlater) (List.Subset.refl _)
  have hfed : (w.given i).Fed := fed_given hi
  have hafter : (w.given i).After w' := by
    have h := after_exec S (ag.act (op.rounds (w.given i)) op) (w := w.given i)
    rwa [show (exec S (ag.act (op.rounds (w.given i)) op) (w.given i)).2 = w' from congrArg Prod.snd hrun] at h
  have hnow : w'.now ≤ τ' := After.now_le_of_clock hafter hclock hg.now_le
  cases op with
  | chat u t message =>
    have hmap : ag.perform S (.chat u t message) (w.given i) = _ := exec_map S (w.given i) _ _
    rw [hrun] at hmap
    obtain ⟨k', said, rest, hsaid, hrest, hsteps, hb'⟩ :=
      chat_believes hmm message (hacc.given i).canonical hfed hclock hg
      (hsmall u) (Prod.eta (exec S (ag.chat u t message) (w.given i))).symm
    obtain ⟨rfl, rfl⟩ := Prod.mk.inj hmap
    refine ⟨k', ⟨said, rest, hsaid, fun hok => hrest ?_, hsteps⟩, hb'⟩
    obtain ⟨r, hok⟩ := hok
    dsimp only at hok
    rcases hchat : (exec S (ag.chat u t message) (w.given i)).1 with e | trace
    · rw [hchat] at hok
      cases hok
    · exact ⟨trace, rfl⟩
  | observe u text t source =>
    have hmap : ag.perform S (.observe u text t source) (w.given i) = _ := exec_map S (w.given i) _ _
    rw [hrun, Agent.observe, hmm] at hmap
    obtain ⟨k', said, rest, hsaid, hrest, hsteps, hb'⟩ := apply_believes mm hfed hclock hg (hsmall u)
      (Prod.eta (exec S (mm.apply u text t source) (w.given i))).symm
    obtain ⟨rfl, rfl⟩ := Prod.mk.inj hmap
    refine ⟨k', ⟨said, rest, hsaid, fun hok => hrest ?_, hsteps⟩, hb'⟩
    obtain ⟨r, hok⟩ := hok
    dsimp only at hok
    change Except.map _ (exec S (mm.apply u text t source) (w.given i)).1 = _ at hok
    rcases hwrite : (exec S (mm.apply u text t source) (w.given i)).1 with e | report
    · rw [hwrite] at hok
      cases hok
    · exact ⟨report, rfl⟩
  | forgetMemory u id =>
    obtain ⟨hleft, hothers⟩ := perform_forgetMemory hg.keyed hrun
    refine ⟨_, rfl, hg.keep hnow hafter.issued (fun key m => ?_) hothers⟩
    rw [hleft, decide_eq_true_eq]
    rfl
  | forgetThread u t =>
    obtain ⟨r, rfl⟩ := forgetThread_returns ag (hacc.given i).canonical hrun
    obtain ⟨-, hleft⟩ := perform_forgetThread ag hrun
    refine ⟨_, rfl, hg.keep hnow hafter.issued (fun key m => ?_) (fun v hv => hleft.others (.memories v) hv)⟩
    rw [hleft.mem, get_eraseLearned, decide_eq_true_eq]
    rfl
  | forgetUser u =>
    have hmap := exec_forgetUser_accounted ag S i u hacc
    rw [hrun] at hmap
    obtain ⟨-, rfl⟩ := Prod.mk.inj hmap
    refine ⟨_, rfl, hg.keep hnow hafter.issued (fun key m => ?_) (fun v hv => if_neg hv)⟩
    rw [show ((w.given i).forgotten u).mem u = .empty from if_pos rfl]
    exact ⟨fun h => (by cases h), fun h => (by cases h.2)⟩
  | wait =>
    have hmap : ag.perform S .wait (w.given i) = _ := exec_map S (w.given i) _ _
    rw [hrun] at hmap
    obtain ⟨-, rfl⟩ := Prod.mk.inj hmap
    exact ⟨k, rfl, hg.same (fun _ => rfl) hnow hafter.issued⟩

/-- Over every run of the memory manager, of any operations of any users, the
live records of slots are the beliefs that `Beliefs.Step` makes of what was said
and forgotten: one for each slot, with the last value stated that differed from
the one held, the time it expires if it was stated for a while, and the thread it
was stated on. -/
theorem run_beliefs (hmm : ag.writer = .manager mm) {ls : List Heard} {τ : Time}
    (h : Steps (ag.Hears mm) (Backend.empty, 0) ls (w, τ)) :
    ∃ k, Steps Beliefs.Step Beliefs.none ls k ∧ ∀ u σ, σ.1 ≠ "" → ∀ T, τ ≤ T → ∀ b : Belief,
      k u σ = some b ∧ b.holds T ↔ ∃ m, (w.mem u).get b.id = some m ∧ m.slot = σ ∧ m.isActive T ∧ m.belief = b := by
  have hstep : ∀ s l s' k, s.1.Accounted ∧ s.1.Believes s.2 k → ag.Hears mm s l s' →
      ∃ k', Beliefs.Step k l k' ∧ s'.1.Accounted ∧ s'.1.Believes s'.2 k' := by
    intro s l s' k hs hl
    obtain ⟨k', hstep, hb⟩ := hl.believes hmm hs.1 hs.2
    obtain ⟨S, hrun, -⟩ := hl.run
    exact ⟨k', hstep, Agent.Executes.accounted ⟨hl.valid, S, hrun⟩ hs.1, hb⟩
  obtain ⟨k, hk, -, hb⟩ := h.simulated (t := Beliefs.none) hstep ⟨accounted_empty, .empty⟩
  exact ⟨k, hk, fun u σ hσ T hT => (hb.advance hT).held u σ hσ⟩

end Runs

end Engram

/-! ## A user who moved -/

namespace Engram

open Backend MemoryManager

attribute [local instance] ascii

def movingAgent : Agent := ⟨⟨5⟩, .manager lenient, true⟩

/-- "payments" at time 1, then "platform" at time 2. -/
def movingTurns : List Heard :=
  [⟨⟨.observe "alice" "payments" none .user, .at 1 'a',
      (movingAgent.perform teamBackend (.observe "alice" "payments" none .user) (Backend.empty.given (.at 1 'a'))).1⟩,
      1, movingAgent.said lenient teamBackend (.observe "alice" "payments" none .user)⟩,
    ⟨⟨.observe "alice" "platform" none .user, .at 2 'b',
      (movingAgent.perform teamBackend (.observe "alice" "platform" none .user) (joined.given (.at 2 'b'))).1⟩,
      2, movingAgent.said lenient teamBackend (.observe "alice" "platform" none .user)⟩]

theorem moving_hears : Steps (movingAgent.Hears lenient) (Backend.empty, 0) movingTurns (moved, 2) := by
  have hvalid : (Input.at 1 'a').Valid Backend.empty := Stamped.empty.valid (by decide) (by decide)
  have hjoined : joined.Stamped 1 ['a'] := Stamped.empty.perform (by decide) 'a' _ teamBackend _
  have hfirst : Steps (movingAgent.Hears lenient) (Backend.empty, 0) [movingTurns[0]] (joined, 1) :=
    .snoc .nil ⟨by decide, rfl, hvalid, fun _ => rfl, fun u => Nat.zero_le _, _, rfl, rfl⟩
  refine hfirst.snoc ⟨by decide, rfl, hjoined.valid (by decide) (by decide), fun _ => rfl, fun u => ?_, _, rfl, rfl⟩
  by_cases hu : u = "alice"
  · subst hu
    decide +kernel
  · have hmem : joined.mem u = .empty := by
      unfold joined
      simp only [perform_observe]
      exact (writer_writes teamBackend (.manager lenient) "payments" .user (keyed_empty.given _)).others u hu
    change (joined.mem u).size ≤ maxExisting
    rw [hmem]
    exact Nat.zero_le _

/-- The second team is believed, under the id of its record. -/
theorem run_beliefs_moved : ∃ k, Steps Beliefs.Step Beliefs.none movingTurns k ∧
    k "alice" ("team", "") = some ⟨"b", "platform", none, none⟩ := by
  obtain ⟨k, hk, hbeliefs⟩ := run_beliefs rfl moving_hears
  obtain ⟨m, hget, hfields⟩ : ∃ m, (moved.mem "alice").get "b" = some m ∧
      (m.belief, m.slot, m.supersededBy) = (⟨"b", "platform", none, none⟩, ("team", ""), none) := by
    have h : ((moved.mem "alice").get "b").map (fun m => (m.belief, m.slot, m.supersededBy)) =
        some (⟨"b", "platform", none, none⟩, ("team", ""), none) := by decide +kernel
    exact Option.map_eq_some_iff.1 h
  obtain ⟨hbelief, hfields⟩ := Prod.mk.inj hfields
  obtain ⟨hslot, hlive⟩ := Prod.mk.inj hfields
  exact ⟨k, hk, ((hbeliefs "alice" ("team", "") (by decide) 2 (le_refl _) _).2
    ⟨m, hget, hslot, isActive_iff_holds.2 ⟨hlive, by rw [hbelief]; rfl⟩, hbelief⟩).1⟩

end Engram
