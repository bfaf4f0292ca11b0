import Engram.Routes
import Engram.Records
/-!
# The calls of each function

Which calls a function makes, on whose records, and under which ids it writes.
`G` is any property that the ids of the user's records and all new ids have;
what the function writes then has it, too.
-/

namespace Engram

open MemoryManager Text

variable [Host]

/-! ## One call -/

section Primitives
variable {β : Type} {A : (i : Call) → i.Ans → Prop} {P : Call → Prop} {Q : β → Prop}

theorem only_storeGet {ns : Namespace} {key : String} {f : Option ns.Val → Act β} (h : P (.get ns key))
    (hf : ∀ o, A (.get ns key) o → (f o).Only A P Q) : (storeGet ns key >>= f).Only A P Q := .call h hf
theorem only_storeSearch {ns : Namespace} {q : Option String} {limit offset : Nat}
    {f : List (SearchItem ns.Val) → Act β} (h : P (.search ns q limit offset))
    (hf : ∀ o, A (.search ns q limit offset) o → (f o).Only A P Q) :
    (storeSearch ns q limit offset >>= f).Only A P Q := .call h hf
theorem only_storePut {ns : Namespace} {key : String} {value : ns.Val} {f : Unit → Act β} (h : P (.put ns key value))
    (hf : (f ()).Only A P Q) : (storePut ns key value >>= f).Only A P Q := .call h (fun _ _ => hf)
theorem only_storeDelete {ns : Namespace} {key : String} {f : Unit → Act β} (h : P (.delete ns key))
    (hf : (f ()).Only A P Q) : (storeDelete ns key >>= f).Only A P Q := .call h (fun _ _ => hf)
theorem only_getState {t : String} {f : Option (List Message) → Act β} (h : P (.getState t))
    (hf : ∀ o, A (.getState t) o → (f o).Only A P Q) : (getState t >>= f).Only A P Q := .call h hf
theorem only_saveState {t : String} {ms : List Message} {f : Unit → Act β} (h : P (.saveState t ms))
    (hf : (f ()).Only A P Q) : (saveState t ms >>= f).Only A P Q := .call h (fun _ _ => hf)
theorem only_deleteThread {t : String} {f : Unit → Act β} (h : P (.deleteThread t))
    (hf : (f ()).Only A P Q) : (deleteThread t >>= f).Only A P Q := .call h (fun _ _ => hf)
theorem only_utcnow {f : Time → Act β} (h : P .utcnow) (hf : ∀ o, (f o).Only A P Q) :
    (utcnow >>= f).Only A P Q := .call h (fun o _ => hf o)
theorem only_uuid4 {f : String → Act β} (h : P .uuid4) (hf : ∀ o, A .uuid4 o → (f o).Only A P Q) :
    (uuid4 >>= f).Only A P Q := .call h hf
theorem only_embed {text : String} {f : Vec → Act β} (h : P (.embed text)) (hf : ∀ o, (f o).Only A P Q) :
    (embed text >>= f).Only A P Q := .call h (fun o _ => hf o)
theorem only_extract {turn : String} {f : List CandidateFact → Act β} (h : P (.extract turn))
    (hf : ∀ o, A (.extract turn) o → (f o).Only A P Q) : (extract turn >>= f).Only A P Q := .call h hf
theorem only_invoke {prompt : List Message} {f : Option String → Act β} (h : P (.invoke prompt))
    (hf : ∀ o, (f o).Only A P Q) : (invoke prompt >>= f).Only A P Q := .call h (fun o _ => hf o)

end Primitives

/-! ## The write path -/

/-- Answers from a store that keeps `u`'s records under their ids, all `G`. -/
def Answered (u : String) (G : String → Prop) : (i : Call) → i.Ans → Prop
  | .search (.memories v) _ _ _, items =>
    v = u → ∀ item ∈ items, item.value.id = item.key ∧ item.value.userId = u ∧ G item.key
  | .uuid4, id => G id
  | _, _ => True

/-- The calls of the write path for `u`. -/
def WriteCall (u : String) (G : String → Prop) : Call → Prop
  | .search (.memories v) _ _ _ => v = u
  | .put (.memories v) key m => v = u ∧ m.userId = u ∧ m.id = key ∧ G key
  | .put (.quarantine v) _ _ => v = u
  | .utcnow | .uuid4 | .embed _ | .extract _ => True
  | _ => False

/-- A record of `u` under a `G` id. -/
def Own (u : String) (G : String → Prop) (m : Memory) : Prop := m.userId = u ∧ G m.id

omit [Host] in
theorem mem_of_mem_replace {x n : Memory} {l : List Memory} (h : n ∈ replace x l) : n = x ∨ n ∈ l := by
  induction l with
  | nil => cases h
  | cons a l ih =>
    unfold replace at h
    split at h
    · rcases List.mem_cons.1 h with rfl | h
      · exact .inl rfl
      · exact .inr (List.mem_cons_of_mem _ h)
    · rcases List.mem_cons.1 h with rfl | h
      · exact .inr List.mem_cons_self
      · exact (ih h).imp_right (List.mem_cons_of_mem _)

theorem only_isActiveNow {A : (i : Call) → i.Ans → Prop} {P : Call → Prop} (h : P .utcnow) (m : Memory)
    (now : Option Time) : (isActiveNow m now).Only A P (fun _ => True) := by
  unfold isActiveNow
  split
  · exact .pure trivial
  split
  · exact .pure trivial
  split
  · exact .pure trivial
  · exact only_utcnow h (fun _ => .pure trivial)

theorem only_activeOnly {A : (i : Call) → i.Ans → Prop} {P : Call → Prop} (h : P .utcnow) (ms : List Memory) :
    (activeOnly ms).Only A P (fun ms' => ms'.Sublist ms) := by
  induction ms with
  | nil => exact .pure .slnil
  | cons m ms ih =>
    refine .seq (only_isActiveNow h m none) (fun active _ => ?_)
    refine .seq ih (fun rest hrest => ?_)
    cases active with
    | false => exact .pure (hrest.cons m)
    | true => exact .pure (hrest.cons_cons m)

theorem only_expiry {A : (i : Call) → i.Ans → Prop} {P : Call → Prop} (h : P .utcnow) (ttlDays : Option PNat) :
    (expiry ttlDays).Only A P (fun _ => True) := by
  unfold expiry
  split
  · exact .pure trivial
  · refine only_utcnow h (fun t => ?_)
    split
    · exact .pure trivial
    · exact .raise

theorem only_closest {A : (i : Call) → i.Ans → Prop} {P : Call → Prop} (h : ∀ text, P (.embed text)) (query : Vec)
    (ms : List Memory) (best : Option Memory × Rat) :
    (closest query ms best).Only A P (fun best' => ∀ m, best'.1 = some m → best.1 = some m ∨ m ∈ ms) := by
  induction ms generalizing best with
  | nil => exact .pure (fun m hm => .inl hm)
  | cons a ms ih =>
    refine only_embed (h _) (fun v => ?_)
    refine (ih _).mono (fun _ => id) (fun best' hbest m hm => ?_)
    rcases hbest m hm with h | h
    · split at h
      · exact .inr (Option.some.inj h ▸ List.mem_cons_self)
      · exact .inl h
    · exact .inr (List.mem_cons_of_mem _ h)

/-- A near-duplicate is looked for with one query, and is in the working list. -/
theorem only_nearest {A : (i : Call) → i.Ans → Prop} {P : Call → Prop} {existing : List Memory}
    (hembed : ∀ text, P (.embed text))
    (hsearch : ∀ m ∈ existing, ∀ q limit, P (.search (.memories m.userId) (some q) limit 0)) (mm : MemoryManager)
    (text : String) : (mm.nearest text existing).Only A P (fun near => ∀ m, near = some m → m ∈ existing) := by
  unfold nearest
  cases existing with
  | nil => exact .pure (by simp)
  | cons a rest =>
    refine only_storeSearch (hsearch a List.mem_cons_self _ _) (fun items _ => ?_)
    have hlive : ∀ m ∈ items.filterMap (fun item => live (a :: rest) item.key), m ∈ a :: rest := by
      intro m hm
      obtain ⟨item, -, hitem⟩ := List.mem_filterMap.1 hm
      exact List.mem_reverse.1 (List.mem_of_find?_eq_some hitem)
    dsimp only
    split
    · exact .pure (by simp)
    · refine only_embed (hembed _) (fun query => ?_)
      refine .seq (only_closest hembed query _ (none, 0)) (fun best hbest => .pure (fun m hm => ?_))
      split at hm
      · rcases hbest m hm with h | h
        · cases h
        · exact hlive m h
      · cases hm

/-- Of the candidate `c` of a turn of `u`. -/
structure MadeOf (u : String) (threadId : Option String) (source : Provenance) (c : CandidateFact)
    (m : Memory) : Prop where
  user : m.userId = u
  thread : m.threadId = threadId
  source : m.source = source
  text : m.text = c.text
  slot : (m.attr, m.value, m.scope) = (c.attr, c.value, c.scope)
  kind : m.kind = c.kind
  expires : m.expiresAt = none ↔ c.ttlDays = none

/-- What is kept of a blocked turn. -/
def InjectionGate.record (g : InjectionGate) (text : String) (threadId : Option String) (source : Provenance)
    (now : Time) : Quarantined :=
  ⟨text, (g.inspect text source).source, (g.inspect text source).decision, (g.inspect text source).reason,
    (g.inspect text source).markers, threadId, now⟩

/-- `P` allows the calls of resolving the candidates of a turn of `u`, and with
answers of the kind `A` only records in `M` are met. -/
structure Keeps (u : String) (M : Memory → Prop) (A : (i : Call) → i.Ans → Prop) (P : Call → Prop) : Prop where
  clock : P .utcnow
  newId : P .uuid4
  embed : ∀ text, P (.embed text)
  extract : ∀ turn, P (.extract turn)
  search : ∀ q limit offset, P (.search (.memories u) q limit offset)
  searchOf : ∀ m q limit offset, M m → P (.search (.memories m.userId) q limit offset)
  put : ∀ m, M m → P (.put m.namespace m.id m)
  found : ∀ q limit offset items, A (.search (.memories u) q limit offset) items → ∀ item ∈ items, M item.value
  reinforced : ∀ m t, M m → M (reinforced m t)
  retired : ∀ m id t, M m → M (retired m id t)

/-- `P` allows the calls of a write path for `u` and a thread. -/
structure Writes (u : String) (threadId : Option String) (M : Memory → Prop) (A : (i : Call) → i.Ans → Prop)
    (P : Call → Prop) : Prop extends Keeps u M A P where
  quarantine : ∀ key q, P (.put (.quarantine u) key q)
  new : ∀ m, A .uuid4 m.id → m.userId = u → m.threadId = threadId → M m

section Write
variable {u : String} {threadId : Option String} {source : Provenance} {M : Memory → Prop}
  {A : (i : Call) → i.Ans → Prop} {P : Call → Prop} {existing : List Memory} {c : CandidateFact}
  {cs : List CandidateFact}

theorem Writes.mono {P' : Call → Prop} (hw : Writes u threadId M A P) (hP : ∀ i, P i → P' i) :
    Writes u threadId M A P' where
  clock := hP _ hw.clock
  newId := hP _ hw.newId
  embed text := hP _ (hw.embed text)
  extract turn := hP _ (hw.extract turn)
  search q limit offset := hP _ (hw.search q limit offset)
  searchOf m q limit offset hm := hP _ (hw.searchOf m q limit offset hm)
  put m hm := hP _ (hw.put m hm)
  quarantine key q := hP _ (hw.quarantine key q)
  found := hw.found
  reinforced := hw.reinforced
  retired := hw.retired
  new := hw.new

theorem only_reinforce (hk : Keeps u M A P) {m : Memory} (hm : M m) (he : ∀ n ∈ existing, M n) :
    (reinforce m existing).Only A P (fun ex => ∀ n ∈ ex, M n) := by
  refine only_utcnow hk.clock (fun t => ?_)
  have hm' : M (reinforced m t) := hk.reinforced m t hm
  refine only_storePut (hk.put _ hm') (.pure (fun n hn => ?_))
  rcases mem_of_mem_replace hn with rfl | hn
  · exact hm'
  · exact he n hn

theorem only_supersedeAll (hk : Keeps u M A P) {id : String} {stale : List Memory} (hs : ∀ n ∈ stale, M n)
    (he : ∀ n ∈ existing, M n) : (supersedeAll id stale existing).Only A P (fun ex => ∀ n ∈ ex, M n) := by
  induction stale generalizing existing with
  | nil => exact .pure he
  | cons m stale ih =>
    have hone : (supersede m id existing).Only A P (fun ex => ∀ n ∈ ex, M n) :=
      only_utcnow hk.clock (fun t => only_storePut (hk.put _ (hk.retired m id t (hs m List.mem_cons_self)))
        (.pure (fun n hn => he n (List.mem_filter.1 hn).1)))
    exact .seq hone (fun ex hex => ih (fun n hn => hs n (List.mem_cons_of_mem _ hn)) hex)

/-- What is built is made of its candidate, under a new id. -/
theorem made_build (hk : Keeps u M A P) (c : CandidateFact) :
    (build c u threadId source).Only A P (fun m => A .uuid4 m.id ∧ MadeOf u threadId source c m) := by
  have hexpiry : (expiry c.ttlDays).Only A P (fun e => e = none ↔ c.ttlDays = none) := by
    unfold expiry
    cases c.ttlDays with
    | none => exact .pure (by simp)
    | some d =>
      refine only_utcnow hk.clock (fun t => ?_)
      split
      · exact .pure (by simp)
      · exact .raise
  refine .seq hexpiry (fun e he => only_uuid4 hk.newId (fun id hid => only_utcnow hk.clock (fun _ => ?_)))
  exact only_utcnow hk.clock (fun _ => .pure ⟨hid, rfl, rfl, rfl, rfl, rfl, rfl, he⟩)

/-- What a resolved candidate hands on is in `M`. -/
def ResultIn (M : Memory → Prop) (r : MemoryDecision × Option Memory × List Memory) : Prop :=
  (∀ m, r.2.1 = some m → M m) ∧ ∀ n ∈ r.2.2, M n

/-- ... and what it writes is made of it. -/
def ResultOf (u : String) (threadId : Option String) (source : Provenance) (c : CandidateFact) (M : Memory → Prop)
    (r : MemoryDecision × Option Memory × List Memory) : Prop :=
  ResultIn M r ∧ ∀ m, r.2.1 = some m → MadeOf u threadId source c m

theorem made_writeNew (hk : Keeps u M A P) (hnew : ∀ m, A .uuid4 m.id → MadeOf u threadId source c m → M m)
    (he : ∀ n ∈ existing, M n) : (writeNew c existing u threadId source).Only A P (ResultOf u threadId source c M) := by
  refine .seq (made_build hk c) (fun m hm => only_storePut (hk.put m (hnew m hm.1 hm.2)) (.pure ⟨⟨?_, he⟩, ?_⟩))
  · rintro _ ⟨⟩
    exact hnew m hm.1 hm.2
  · rintro _ ⟨⟩
    exact hm.2

theorem made_resolve (hk : Keeps u M A P) (mm : MemoryManager)
    (hnew : ∀ m, A .uuid4 m.id → MadeOf u threadId source c m → M m) (he : ∀ n ∈ existing, M n) :
    (mm.resolve c existing u threadId source).Only A P (ResultOf u threadId source c M) := by
  have hslot : ∀ m ∈ sameSlot c existing, M m := fun m hm => he m (List.mem_filter.1 hm).1
  have hreinforce : ∀ {m : Memory} (d : MemoryDecision), M m → (do
      let existing ← reinforce m existing
      return (d, none, existing)).Only A P (ResultOf u threadId source c M) :=
    fun d hm => .seq (only_reinforce hk hm he) (fun ex hex => .pure ⟨⟨by simp, hex⟩, by simp⟩)
  unfold resolve
  split
  · split
    · next m hdup => exact hreinforce _ (hslot m (List.mem_of_find?_eq_some hdup))
    · split
      · refine .seq (made_build hk c) (fun m hm => only_storePut (hk.put m (hnew m hm.1 hm.2)) ?_)
        refine .seq (only_supersedeAll hk hslot he) (fun ex hex => .pure ⟨⟨?_, hex⟩, ?_⟩)
        · rintro _ ⟨⟩
          exact hnew m hm.1 hm.2
        · rintro _ ⟨⟩
          exact hm.2
      · exact made_writeNew hk hnew he
  · refine .seq (only_nearest hk.embed (fun m hm q limit => hk.searchOf m _ _ _ (he m hm)) mm c.text)
      (fun near hnear => ?_)
    cases near with
    | none => exact made_writeNew hk hnew he
    | some m => exact hreinforce _ (he m (hnear m rfl))

/-- What is written beyond `report` is made of the candidates. -/
theorem made_resolveAll (hk : Keeps u M A P) (mm : MemoryManager)
    (hnew : ∀ c ∈ cs, ∀ m, A .uuid4 m.id → MadeOf u threadId source c m → M m) (report : WriteReport)
    (he : ∀ n ∈ existing, M n) : (mm.resolveAll u threadId source cs existing report).Only A P (fun report' =>
      ∀ m ∈ report'.written, m ∈ report.written ∨ M m ∧ ∃ c ∈ cs, MadeOf u threadId source c m) := by
  induction cs generalizing existing report with
  | nil => exact .pure (fun m hm => .inl hm)
  | cons c cs ih =>
    obtain ⟨hc, hcs⟩ := List.forall_mem_cons.1 hnew
    refine .seq (made_resolve hk mm hc he) ?_
    rintro ⟨decision, memory, existing'⟩ ⟨⟨hmem, hex⟩, hmade⟩
    refine (ih hcs _ (fun n hn => ?_)).mono (fun _ => id) (fun report' h m hm => ?_)
    · rcases List.mem_append.1 hn with hn | hn
      · exact hex n hn
      · exact hmem n (Option.mem_toList.1 hn)
    · rcases h m hm with hold | ⟨hin, c', hc', hm'⟩
      · rcases List.mem_append.1 hold with hold | hone
        · exact .inl hold
        · exact .inr ⟨hmem m (Option.mem_toList.1 hone), c, List.mem_cons_self, hmade m (Option.mem_toList.1 hone)⟩
      · exact .inr ⟨hin, c', List.mem_cons_of_mem c hc', hm'⟩

/-- A turn the gate lets through writes what its candidates make; of another one a record is kept. -/
theorem made_apply (hk : Keeps u M A P) (mm : MemoryManager) {text : String}
    (hnew : (mm.gate.inspect (strip text) source).allowed → ∀ candidates, A (.extract (strip text)) candidates →
      ∀ c ∈ usable candidates (strip text), ∀ m, A .uuid4 m.id → MadeOf u threadId source c m → M m)
    (hblocked : ¬ (mm.gate.inspect (strip text) source).allowed → ∀ key now,
      P (.put (.quarantine u) key (mm.gate.record (strip text) threadId source now))) :
    (mm.apply u text threadId source).Only A P (fun report => ∀ m ∈ report.written, M m ∧
      ∃ candidates, A (.extract (strip text)) candidates ∧
        ∃ c ∈ usable candidates (strip text), MadeOf u threadId source c m) := by
  unfold apply
  split
  · exact .pure (by simp [WriteReport.empty])
  split
  · next hg =>
    refine .seq (R := fun _ => True) ?_ (fun _ _ => .pure (by simp))
    exact only_utcnow hk.clock
      (fun _ => only_utcnow hk.clock (fun now => .call (hblocked hg _ now) (fun _ _ => .ret trivial)))
  · next hallowed =>
    refine only_extract (hk.extract _) (fun candidates hcandidates => ?_)
    split
    · exact .pure (by simp [WriteReport.empty])
    · refine .seq (R := fun existing => ∀ n ∈ existing, M n) ?_ (fun existing he =>
        (made_resolveAll hk mm (hnew (not_not.1 hallowed) candidates hcandidates) _ he).mono (fun _ => id)
          (fun report h m hm => ?_))
      · refine only_storeSearch (hk.search _ _ _) (fun items hitems => ?_)
        refine (only_activeOnly hk.clock _).mono (fun _ => id) (fun ms hms m hm => ?_)
        obtain ⟨item, hitem, rfl⟩ := List.mem_map.1 (hms.subset hm)
        exact hk.found _ _ _ items hitems item hitem
      · rcases h m hm with hold | ⟨hin, c, hc, hmade⟩
        · simp [WriteReport.empty] at hold
        · exact ⟨hin, candidates, hcandidates, c, hc, hmade⟩

theorem only_apply (hw : Writes u threadId M A P) (mm : MemoryManager) (text : String) (source : Provenance) :
    (mm.apply u text threadId source).Only A P (fun report => ∀ m ∈ report.written, M m) :=
  (made_apply hw.toKeeps mm (fun _ _ _ _ _ m hid hm => hw.new m hid hm.user hm.thread)
    (fun _ _ _ => hw.quarantine _ _)).mono (fun _ => id) (fun _ h m hm => (h m hm).1)

theorem only_naiveApply (hw : Writes u threadId M A P) (text : String) (source : Provenance) :
    (naiveApply u text threadId source).Only A P (fun report => ∀ m ∈ report.written, M m) := by
  unfold naiveApply
  split
  · exact .pure (by simp [WriteReport.empty])
  · refine only_uuid4 hw.newId (fun id hid => ?_)
    refine only_utcnow hw.clock (fun _ => only_utcnow hw.clock (fun _ => ?_))
    refine only_storePut (hw.put _ (hw.new _ hid rfl rfl)) (.pure (fun m hm => ?_))
    rw [List.mem_singleton.1 hm]
    exact hw.new _ hid rfl rfl

theorem only_writer (hw : Writes u threadId M A P) (writer : MemoryWriter) (text : String) 
    (source : Provenance) :
    (writer.apply u text threadId source).Only A P (fun report => ∀ m ∈ report.written, M m) := by
  cases writer with
  | naive => exact only_naiveApply hw text source
  | manager mm => exact only_apply hw mm text source

theorem own_writes (u : String) (threadId : Option String) (G : String → Prop) :
    Writes u threadId (Own u G) (Answered u G) (WriteCall u G) where
  clock := trivial
  newId := trivial
  embed _ := trivial
  extract _ := trivial
  search _ _ _ := rfl
  searchOf _ _ _ _ hm := hm.1
  put _ hm := ⟨hm.1, hm.1, rfl, hm.2⟩
  quarantine _ _ := rfl
  found _ _ _ _ hitems item hitem :=
    have ⟨hid, huser, hgood⟩ := hitems rfl item hitem
    ⟨huser, hid ▸ hgood⟩
  reinforced _ _ hm := hm
  retired _ _ _ hm := hm
  new _ hid huser _ := ⟨huser, hid⟩

end Write

/-! ## Chat -/

/-- The calls of a chat of `u` on thread `t`. -/
def ChatCall (u t : String) (G : String → Prop) : Call → Prop
  | .get (.threads v) s => v = u ∧ s = t
  | .put (.threads v) s e => v = u ∧ s = t ∧ e.checkpointId = some (checkpointKey u t)
  | .getState c | .saveState c _ => c = checkpointKey u t
  | .invoke _ => True
  | i => WriteCall u G i

theorem ChatCall.of_write {u t : String} {G : String → Prop} (i : Call) (h : WriteCall u G i) :
    ChatCall u t G i := by
  cases i with
  | get | getState | saveState | invoke => cases h
  | put ns =>
    cases ns with
    | threads => cases h
    | _ => exact h
  | _ => exact h

theorem only_checkpointThreadId {A : (i : Call) → i.Ans → Prop} {P : Call → Prop} {u t : String}
    (h : P (.get (.threads u) t)) : (checkpointThreadId u t).Only A P (· = checkpointKey u t) := by
  refine only_storeGet h (fun entry _ => ?_)
  split
  · exact .raise
  · exact .pure rfl

/-- ... those of a chat of `u` on thread `t` before and after its write, ... -/
structure Converses (u t : String) (M : Memory → Prop) (A : (i : Call) → i.Ans → Prop) (P : Call → Prop) : Prop where
  clock : P .utcnow
  search : ∀ q limit offset, P (.search (.memories u) q limit offset)
  found : ∀ q limit offset items, A (.search (.memories u) q limit offset) items → ∀ item ∈ items, M item.value
  entry : P (.get (.threads u) t)
  index : ∀ e : ThreadEntry, e.threadId = t → e.checkpointId = some (checkpointKey u t) → P (.put (.threads u) t e)
  state : P (.getState (checkpointKey u t))
  save : ∀ messages, P (.saveState (checkpointKey u t) messages)
  invoke : ∀ prompt, P (.invoke prompt)

/-- ... and those of a chat. -/
structure Chats (u t : String) (M : Memory → Prop) (A : (i : Call) → i.Ans → Prop) (P : Call → Prop) : Prop
    extends Writes u (some t) M A P, Converses u t M A P

section Chat
variable {u t : String} {M : Memory → Prop} {A : (i : Call) → i.Ans → Prop} {P : Call → Prop}

theorem only_recallFrom (hc : P .utcnow) (k : Nat) (now : Option Time) {items : List (SearchItem Memory)}
    {acc : List Recall} (hi : ∀ item ∈ items, M item.value) (ha : ∀ r ∈ acc, M r.memory) :
    (MemoryReader.recallFrom k now items acc).Only A P (fun recalls => ∀ r ∈ recalls, M r.memory) := by
  induction items generalizing acc with
  | nil => exact .pure ha
  | cons item items ih =>
    have hi' : ∀ i ∈ items, M i.value := fun i h => hi i (List.mem_cons_of_mem _ h)
    have hacc : ∀ r ∈ acc ++ [⟨item.value, item.score.getD 0⟩], M r.memory := by
      intro r hr
      rcases List.mem_append.1 hr with hr | hr
      · exact ha r hr
      · rw [List.mem_singleton.1 hr]
        exact hi item List.mem_cons_self
    refine .seq (only_isActiveNow hc item.value now) (fun active _ => ?_)
    split
    · exact ih hi' ha
    · dsimp only
      split
      · exact .pure hacc
      · exact ih hi' hacc

theorem only_recallFor (hc : P .utcnow) (hs : ∀ q limit offset, P (.search (.memories u) q limit offset))
    (hfound : ∀ q limit offset items, A (.search (.memories u) q limit offset) items → ∀ item ∈ items, M item.value)
    (r : MemoryReader) (query : String) (limit : Option Nat) (now : Option Time) :
    (r.recallFor u query limit now).Only A P (fun recalls => ∀ r ∈ recalls, M r.memory) := by
  unfold MemoryReader.recallFor
  dsimp only
  split
  · exact .pure (by simp)
  · exact only_storeSearch (hs _ _ _)
      (fun items hitems => only_recallFrom hc _ now (hfound _ _ _ items hitems) (by simp))

theorem only_recordThread (hc : Converses u t M A P) : (recordThread u t).Only A P (fun _ => True) := by
  refine .seq (only_checkpointThreadId hc.entry) ?_
  rintro _ rfl
  exact only_utcnow hc.clock (fun now => .call (hc.index _ rfl rfl) (fun _ _ => .ret trivial))

/-- What the graph returns is in `M` if what it writes is. -/
theorem only_runGraph (hc : Converses u t M A P) (ag : Agent) {message : String}
    (hwrite : (ag.writer.apply u message (some t) .user).Only A P (fun report => ∀ m ∈ report.written, M m)) :
    (ag.runGraph u t (checkpointKey u t) message).Only A P
      (fun s => (∀ r ∈ s.recalled, M r.memory) ∧ ∀ m ∈ s.report.written, M m) := by
  unfold Agent.runGraph
  refine only_getState hc.state (fun saved _ => ?_)
  refine only_saveState (hc.save _) ?_
  split
  · refine .seq (only_recallFor hc.clock hc.search hc.found ag.reader _ none none) (fun recalled hrec => ?_)
    refine only_saveState (hc.save _) (only_invoke (hc.invoke _) (fun reply => only_saveState (hc.save _) ?_))
    rw [lastHumanText_turn]
    exact .seq hwrite (fun report hrep => only_saveState (hc.save _) (.pure ⟨hrec, hrep⟩))
  · exact only_invoke (hc.invoke _)
      (fun reply => only_saveState (hc.save _) (.pure ⟨by simp, by simp [WriteReport.empty]⟩))

theorem only_chat_of (hc : Converses u t M A P) (ag : Agent) {message : String}
    (hwrite : (ag.writer.apply u message (some t) .user).Only A P (fun report => ∀ m ∈ report.written, M m)) :
    (ag.chat u t message).Only A P
      (fun trace => (∀ r ∈ trace.recalled, M r.memory) ∧ ∀ m ∈ trace.written, M m) := by
  refine .seq (only_checkpointThreadId hc.entry) ?_
  rintro _ rfl
  refine .seq (only_recordThread hc) (fun _ _ => ?_)
  exact .seq (only_runGraph hc ag hwrite) (fun result h => .pure h)

theorem only_chat (hc : Chats u t M A P) (ag : Agent) (message : String) :
    (ag.chat u t message).Only A P
      (fun trace => (∀ r ∈ trace.recalled, M r.memory) ∧ ∀ m ∈ trace.written, M m) :=
  only_chat_of hc.toConverses ag (only_writer hc.toWrites ag.writer message .user)

theorem own_chats (u t : String) (G : String → Prop) :
    Chats u t (Own u G) (Answered u G) (ChatCall u t G) where
  toWrites := (own_writes u (some t) G).mono ChatCall.of_write
  entry := ⟨rfl, rfl⟩
  index _ _ he := ⟨rfl, rfl, he⟩
  state := rfl
  save _ := rfl
  invoke _ := trivial

/-- The calls of a chat of `u` on thread `t`, whatever they are answered with. -/
def ChatShape (u t : String) : Call → Prop
  | .get (.threads v) s => v = u ∧ s = t
  | .put (.threads v) s e => v = u ∧ s = t ∧ e.threadId = t ∧ e.checkpointId = some (checkpointKey u t)
  | .search (.memories _) _ _ _ | .put (.memories _) _ _ => True
  | .put (.quarantine v) _ _ => v = u
  | .getState c | .saveState c _ => c = checkpointKey u t
  | .utcnow | .uuid4 | .embed _ | .extract _ | .invoke _ => True
  | _ => False

theorem shape_chats (u t : String) : Chats u t (fun _ => True) (fun _ _ => True) (ChatShape u t) where
  clock := trivial
  newId := trivial
  embed _ := trivial
  extract _ := trivial
  search _ _ _ := trivial
  searchOf _ _ _ _ _ := trivial
  put _ _ := trivial
  quarantine _ _ := rfl
  found _ _ _ _ _ _ _ := trivial
  reinforced _ _ _ := trivial
  retired _ _ _ _ := trivial
  new _ _ _ _ := trivial
  entry := ⟨rfl, rfl⟩
  index _ ht he := ⟨rfl, rfl, ht, he⟩
  state := rfl
  save _ := rfl
  invoke _ := trivial

end Chat

/-! ## Forgetting -/

/-- The calls of forgetting `u` or part of it. -/
def ForgetCall (u : String) : Call → Prop
  | .get ns _ | .search ns none _ _ | .delete ns _ => ns.user = u
  | .deleteThread c => ∃ t, c = checkpointKey u t
  | _ => False

section Forget
variable {A : (i : Call) → i.Ans → Prop} {u : String}

theorem only_allKeysFrom {P : Call → Prop} (ns : Namespace) (hP : ∀ limit offset, P (.search ns none limit offset))
    (rounds offset : Nat) (out : List (String × ns.Val)) :
    (allKeysFrom ns rounds offset out).Only A P (fun _ => True) := by
  induction rounds generalizing offset out with
  | zero => exact .raise
  | succ rounds ih =>
    refine only_storeSearch (hP _ _) (fun page _ => ?_)
    split
    · exact .pure trivial
    · exact ih _ _

theorem only_allKeys {P : Call → Prop} (ns : Namespace) (hP : ∀ limit offset, P (.search ns none limit offset))
    (rounds : Nat) : (allKeys rounds ns).Only A P (fun _ => True) := only_allKeysFrom ns hP rounds 0 []

theorem only_knownThreads {P : Call → Prop} (hP : ∀ limit offset, P (.search (.threads u) none limit offset))
    (rounds : Nat) : (knownThreads rounds u).Only A P (fun _ => True) :=
  .seq (only_allKeys (.threads u) hP rounds) (fun _ _ => .pure trivial)

theorem only_deleteAll {P : Call → Prop} (ns : Namespace) (hP : ∀ key, P (.delete ns key)) (keys : List String) :
    (deleteAll ns keys).Only A P (fun _ => True) := by
  induction keys with
  | nil => exact .pure trivial
  | cons k keys ih => exact only_storeDelete (hP k) ih

theorem only_checkpointIds {P : Call → Prop} (hP : ∀ t, P (.get (.threads u) t)) (threads : List String) :
    (checkpointIds u threads).Only A P (· = threads.map (checkpointKey u)) := by
  induction threads with
  | nil => exact .pure rfl
  | cons t threads ih =>
    refine .seq (only_checkpointThreadId (hP t)) ?_
    rintro _ rfl
    refine .seq ih ?_
    rintro _ rfl
    exact .pure rfl

theorem only_deleteThreads {pairs : List (String × String)} (h : ∀ p ∈ pairs, ∃ t, p.2 = checkpointKey u t) :
    (deleteThreads u pairs).Only A (ForgetCall u) (fun _ => True) := by
  induction pairs with
  | nil => exact .pure trivial
  | cons p pairs ih =>
    exact only_deleteThread (h p List.mem_cons_self)
      (only_storeDelete rfl (ih (fun q hq => h q (List.mem_cons_of_mem _ hq))))

theorem only_forgetMemory (id : String) : (forgetMemory u id).Only A (ForgetCall u) (fun _ => True) := by
  refine only_storeGet rfl (fun item _ => ?_)
  split
  · exact .pure trivial
  · exact only_storeDelete rfl (.pure trivial)

theorem only_forgetThread (rounds : Nat) (t : String) :
    (forgetThread rounds u t).Only A (ForgetCall u) (fun _ => True) := by
  refine .seq (only_checkpointThreadId rfl) ?_
  rintro _ rfl
  refine .seq (only_allKeys (.memories u) (fun _ _ => rfl) rounds) (fun memories _ => ?_)
  refine .seq (only_deleteAll (.memories u) (fun _ => rfl) _) (fun _ _ => ?_)
  exact only_deleteThread ⟨t, rfl⟩ (only_storeDelete rfl (.pure trivial))

theorem only_forgetUser (rounds : Nat) : (forgetUser rounds u).Only A (ForgetCall u) (fun _ => True) := by
  refine .seq (only_knownThreads (fun _ _ => rfl) rounds) (fun threads _ => ?_)
  refine .seq (only_checkpointIds (fun _ => rfl) threads) ?_
  rintro _ rfl
  refine .seq (only_allKeys (.memories u) (fun _ _ => rfl) rounds) (fun memories _ => ?_)
  refine .seq (only_deleteAll (.memories u) (fun _ => rfl) _) (fun _ _ => ?_)
  refine .seq (only_allKeys (.quarantine u) (fun _ _ => rfl) rounds) (fun quarantined _ => ?_)
  refine .seq (only_deleteAll (.quarantine u) (fun _ => rfl) _) (fun _ _ => ?_)
  refine .seq (only_deleteThreads (fun p hp => ?_)) (fun _ _ => .pure trivial)
  obtain ⟨t, -, ht⟩ := List.mem_map.1 (List.of_mem_zip hp).2
  exact ⟨t, ht.symm⟩

end Forget

/-! ## What the backend answers -/

/-- Every memory lies under its id, for the user it is about. -/
def Backend.Matched (w : World) : Prop := ∀ u k m, (w.mem u).get k = some m → m.id = k ∧ m.userId = u

theorem matched_empty : Backend.empty.Matched := fun _ _ _ h => by cases h

theorem Backend.Matched.put {w : World} (hw : w.Matched) {u k : String} {m : Memory} (hu : m.userId = u)
    (hk : m.id = k) : (w.put (.memories u) k m).Matched := by
  intro v k' m' hget
  rcases get_put hget with ⟨hns, rfl, hm⟩ | hget
  · cases hns
    obtain rfl := eq_of_heq hm
    exact ⟨hk, hu⟩
  · exact hw v k' m' hget

theorem Backend.Matched.delete {w : World} (hw : w.Matched) (ns : Namespace) (k : String) : (w.delete ns k).Matched :=
  fun v k' m' hget => hw v k' m' (get_delete hget)

theorem Backend.Matched.congr {w w' : World} (hw : w.Matched) (h : ∀ u, w'.mem u = w.mem u) : w'.Matched :=
  fun u k m hget => hw u k m (h u ▸ hget)

/-- Memories are only ever put under their ids, for the users they are about. -/
theorem matched_handle (S : Services) {i : Call} {w : World} (hw : w.Matched)
    (hi : ∀ u k m, i = .put (.memories u) k m → m.userId = u ∧ m.id = k) : (handle S i w).2.Matched := by
  cases i with
  | put ns k v =>
    cases ns with
    | memories u => exact hw.put (hi u k v rfl).1 (hi u k v rfl).2
    | _ => exact hw.congr (fun u => Backend.store_put_of_ne _ _ _ (by simp))
  | delete ns k => exact hw.delete ns k
  | embed text =>
    exact w.embed_inv S text (I := Backend.Matched) (fun _ => hw)
  | _ => exact hw

/-- A matched store answers with the user's own records. -/
theorem answered (S : Services) {u : String} {G : String → Prop} {w : World} (hw : w.Matched)
    (hgood : ∀ k m, (w.mem u).get k = some m → G k) (i : Call) (hnew : i = .uuid4 → G (w.ids 0)) :
    Answered u G i (handle S i w).1 := by
  cases i with
  | search ns q limit offset =>
    cases ns with
    | memories v =>
      rintro rfl item hitem
      have hget := S.search_mem (List.mem_of_mem_drop (List.mem_of_mem_take hitem))
      obtain ⟨hid, huser⟩ := hw _ _ _ hget
      exact ⟨hid, huser, hgood _ _ hget⟩
    | _ => trivial
  | uuid4 => exact hnew rfl
  | _ => trivial

/-! ## Operations -/

/-- The user an operation is about. -/
def Op.user : Op → String
  | chat u _ _ | observe u _ _ _ | forgetMemory u _ | forgetThread u _ | forgetUser u => u
  | wait => ""

/-- Memories are put for `u` only, each under its own, `G`, id. -/
def PutsOwn (u : String) (G : String → Prop) : Call → Prop
  | .put (.memories v) key m => v = u ∧ m.userId = u ∧ m.id = key ∧ G key
  | _ => True

section Op
variable {u t : String} {G : String → Prop} {i : Call}

omit [Host] in
theorem PutsOwn.of_write (h : WriteCall u G i) : PutsOwn u G i := by
  cases i with
  | put ns =>
    cases ns with
    | memories => exact h
    | _ => trivial
  | _ => trivial

theorem PutsOwn.of_chat (h : ChatCall u t G i) : PutsOwn u G i := by
  cases i with
  | put ns =>
    cases ns with
    | memories => exact h
    | _ => trivial
  | _ => trivial

theorem PutsOwn.of_forget (h : ForgetCall u i) : PutsOwn u G i := by
  cases i with
  | put => cases h
  | _ => trivial

theorem only_act (ag : Agent) (rounds : Nat) (op : Op) :
    (ag.act rounds op).Only (Answered op.user G) (PutsOwn op.user G) (fun _ => True) := by
  cases op with
  | chat u t message =>
    exact .map _ ((only_chat (own_chats u t G) ag message).mono (fun _ => .of_chat) (fun _ _ => trivial))
  | observe u text t source =>
    exact .map _ ((only_writer (own_writes u t G) ag.writer text source).mono (fun _ => .of_write) (fun _ _ => trivial))
  | forgetMemory u id => exact .map _ ((only_forgetMemory id).mono (fun _ => .of_forget) (fun _ _ => trivial))
  | forgetThread u t => exact .map _ ((only_forgetThread rounds t).mono (fun _ => .of_forget) (fun _ _ => trivial))
  | forgetUser u => exact .map _ ((only_forgetUser rounds).mono (fun _ => .of_forget) (fun _ _ => trivial))
  | wait => exact .map _ (.call trivial (fun _ _ => .ret trivial))

end Op

namespace Backend

theorem Keyed.matched {w : World} (h : w.Keyed) : w.Matched := fun _ _ _ hget => ⟨h.id_eq hget, h.user_eq hget⟩

/-- No call stores a record of `u` under `k` unless it is one that may. -/
theorem absent_handle (S : Services) {u k v : String} {G : String → Prop} {i : Call} {w : World}
    (hw : (w.mem u).get k = none) (hi : PutsOwn v G i) (hgood : v = u → ¬ G k) :
    ((handle S i w).2.mem u).get k = none := by
  cases i with
  | put ns k' m =>
    refine (get_put_of_ne ?_).trans hw
    rintro ⟨rfl, rfl⟩
    exact hgood hi.1.symm hi.2.2.2
  | delete ns k' =>
    refine Option.eq_none_iff_forall_ne_some.2 (fun m hm => ?_)
    cases hw.symm.trans (get_delete hm)
  | embed text =>
    exact (congrArg (Dict.get · k) (w.mem_embed S text u)).trans hw
  | _ => exact hw

theorem matched_puts (S : Services) {u : String} {G : String → Prop} {i : Call} {w : World} (hw : w.Matched)
    (hi : PutsOwn u G i) : (handle S i w).2.Matched :=
  matched_handle S hw (fun v k m h => by subst h; exact ⟨hi.2.1.trans hi.1.symm, hi.2.2.1⟩)

/-- Under `id`, not issued yet, nothing is stored. -/
def Unused (id : String) (w : World) : Prop := w.Matched ∧ ∀ u, (w.mem u).get id = none

/-- Either `id` is handed out, or nothing is put under it. -/
theorem Unused.handle (S : Services) {id u : String} {i : Call} {w : World} (hw : w.Unused id)
    (hi : PutsOwn u (· ≠ id) i) :
    id ∈ (handle S i w).2.issued ∨ Answered u (· ≠ id) i (handle S i w).1 ∧ (handle S i w).2.Unused id := by
  by_cases hnext : i = .uuid4 ∧ w.ids 0 = id
  · obtain ⟨rfl, rfl⟩ := hnext
    exact .inl List.mem_cons_self
  · refine .inr ⟨answered S hw.1 (fun k n hn hk => ?_) i (fun hi hid => hnext ⟨hi, hid⟩),
      matched_puts S hw.1 hi, fun v => absent_handle S (hw.2 v) hi (fun _ h => h rfl)⟩
    rw [hk, hw.2] at hn
    cases hn

theorem Keyed.unused {w : World} (hw : w.Keyed) {id : String} (hid : id ∉ w.issued) : w.Unused id := by
  refine ⟨hw.matched, fun v => ?_⟩
  cases hv : (w.mem v).get id with
  | none => rfl
  | some m => exact absurd (hw.issued hv) hid

/-- `u` has nothing under `k`, and no new record will get that id. -/
structure Gone (u k : String) (w : World) : Prop where
  matched : w.Matched
  absent : (w.mem u).get k = none
  unissued : ∀ n, w.ids n ≠ k

/-- What a user may be handed and may put while `u`'s `k` is gone. -/
theorem Gone.handle (S : Services) {u k v : String} {i : Call} {w : World} (hw : w.Gone u k)
    (hi : PutsOwn v (fun id => v = u → id ≠ k) i) :
    Answered v (fun id => v = u → id ≠ k) i (handle S i w).1 ∧ (handle S i w).2.Gone u k := by
  refine ⟨answered S hw.matched (fun k' m hget hv hk => ?_) i (fun _ _ => hw.unissued 0),
    matched_puts S hw.matched hi, absent_handle S hw.absent hi (fun hv h => h hv rfl), fun n => ?_⟩
  · subst hv hk
    cases hget.symm.trans hw.absent
  · obtain ⟨m, hm⟩ := (after_handle S i w).ids n
    rw [hm]
    exact hw.unissued m

theorem matched_perform (ag : Agent) (S : Services) (op : Op) {w : World} (hw : w.Matched) :
    (ag.perform S op w).2.Matched := by
  refine (Prog.Only.run_inv (I := Matched) (only_act (G := fun _ => True) ag (op.rounds w) op)
    (fun i w hi hw => ⟨answered S hw (fun _ _ _ => trivial) i (fun _ => trivial), matched_puts S hw hi⟩) hw).1

/-- No operation stores a memory under an id that was not issued. -/
theorem Keyed.perform (ag : Agent) (S : Services) (op : Op) {w : World} (hw : w.Keyed) :
    (ag.perform S op w).2.Keyed := by
  have hmatched := matched_perform ag S op hw.matched
  refine ⟨fun h => (hmatched _ _ _ h).1, fun h => (hmatched _ _ _ h).2, fun {u k m} hget => ?_⟩
  by_contra hk
  have hstart : w.Unused k := hw.unused (fun h => hk ((after_exec S (ag.act (op.rounds w) op)).issued h))
  rcases Prog.Only.run_inv_or (E := fun w => k ∈ w.issued) (only_act (G := (· ≠ k)) ag (op.rounds w) op)
    (fun i w h => (after_handle S i w).issued h) (fun i w hi hw => hw.handle S hi) hstart with h | h
  · exact hk h
  · cases hget.symm.trans (h.2 u)

end Backend

end Engram
