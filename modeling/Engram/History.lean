import Engram.Turn
/-!
# History is kept

No `apply` loses a record, changes what it says, or takes a retirement back.
-/

namespace Engram

open MemoryManager Backend

variable [Host]

/-! ## Versions of a record -/

/-- `m'` is a later version of `m`. -/
structure Kept (m m' : Memory) : Prop where
  id : m'.id = m.id
  userId : m'.userId = m.userId
  text : m'.text = m.text
  attr : m'.attr = m.attr
  value : m'.value = m.value
  scope : m'.scope = m.scope
  kind : m'.kind = m.kind
  source : m'.source = m.source
  createdAt : m'.createdAt = m.createdAt
  expiresAt : m'.expiresAt = m.expiresAt
  threadId : m'.threadId = m.threadId
  evidence : m'.evidence = m.evidence
  importance : m.importance.val ≤ m'.importance.val
  retired : (m'.supersededBy = m.supersededBy ∧ m'.supersededAt = m.supersededAt) ∨
    (m.supersededBy = none ∧ m.supersededAt = none ∧ m'.supersededBy.isSome ∧ m'.supersededAt.isSome)

namespace Kept
variable {m m' m'' : Memory}

omit [Host]

theorem refl (m : Memory) : Kept m m :=
  ⟨rfl, rfl, rfl, rfl, rfl, rfl, rfl, rfl, rfl, rfl, rfl, rfl, le_refl _, .inl ⟨rfl, rfl⟩⟩

theorem trans (h : Kept m m') (h' : Kept m' m'') : Kept m m'' where
  id := h'.id.trans h.id
  userId := h'.userId.trans h.userId
  text := h'.text.trans h.text
  attr := h'.attr.trans h.attr
  value := h'.value.trans h.value
  scope := h'.scope.trans h.scope
  kind := h'.kind.trans h.kind
  source := h'.source.trans h.source
  createdAt := h'.createdAt.trans h.createdAt
  expiresAt := h'.expiresAt.trans h.expiresAt
  threadId := h'.threadId.trans h.threadId
  evidence := h'.evidence.trans h.evidence
  importance := h.importance.trans h'.importance
  retired := by
    rcases h'.retired with ⟨hb', ha'⟩ | ⟨hb', ha', hs⟩
    · rw [hb', ha']
      exact h.retired
    · rcases h.retired with ⟨hb, ha⟩ | ⟨-, -, hsome, -⟩
      · exact .inr ⟨hb ▸ hb', ha ▸ ha', hs⟩
      · rw [hb'] at hsome
        cases hsome

theorem of_reinforced (m : Memory) (t : Time) : Kept m (reinforced m t) :=
  ⟨rfl, rfl, rfl, rfl, rfl, rfl, rfl, rfl, rfl, rfl, rfl, rfl, m.importance.le_bump, .inl ⟨rfl, rfl⟩⟩

theorem of_retired (id : String) (t : Time) (hb : m.supersededBy = none) (ha : m.supersededAt = none) :
    Kept m (MemoryManager.retired m id t) :=
  ⟨rfl, rfl, rfl, rfl, rfl, rfl, rfl, rfl, rfl, rfl, rfl, rfl, le_refl _, .inr ⟨hb, ha, rfl, rfl⟩⟩

/-- A record inactive once is inactive ever after. -/
theorem inactive (h : Kept m m') {s t : Time} (hst : s ≤ t) (hm : ¬ m.isActive s) : ¬ m'.isActive t := by
  intro ha
  obtain ⟨hb', he'⟩ := Memory.isActive_iff.1 (Memory.isActive_of_le hst ha)
  apply hm
  rw [Memory.isActive_iff, ← h.expiresAt]
  refine ⟨?_, he'⟩
  rcases h.retired with ⟨hb, -⟩ | ⟨hb, -⟩
  · exact hb ▸ hb'
  · exact hb

end Kept

namespace Backend

/-- A record is superseded by another when it has the time of that, and only then. -/
def Paired (w : World) : Prop :=
  ∀ u k m, (w.mem u).get k = some m → (m.supersededBy = none ↔ m.supersededAt = none)

/-- Every record of `w` has a later version in `w'`. -/
def Remembers (w w' : World) : Prop :=
  ∀ u k m, (w.mem u).get k = some m → ∃ m', (w'.mem u).get k = some m' ∧ Kept m m'

theorem Remembers.refl (w : World) : w.Remembers w := fun _ _ m h => ⟨m, h, .refl m⟩

theorem Remembers.trans {w w' w'' : World} (h : w.Remembers w') (h' : w'.Remembers w'') : w.Remembers w'' := by
  intro u k m hm
  obtain ⟨m', hm', hk⟩ := h u k m hm
  obtain ⟨m'', hm'', hk'⟩ := h' u k m' hm'
  exact ⟨m'', hm'', hk.trans hk'⟩

theorem Remembers.of_mem {w w' : World} (h : ∀ u, w'.mem u = w.mem u) : w.Remembers w' :=
  fun u _ m hm => ⟨m, by rw [h u]; exact hm, .refl m⟩

theorem Paired.of_mem {w w' : World} (hp : w.Paired) (h : ∀ u, w'.mem u = w.mem u) : w'.Paired :=
  fun u k m hm => hp u k m (h u ▸ hm)

theorem paired_empty : Backend.empty.Paired := fun _ _ _ h => by cases h

theorem Paired.given {w : World} (hp : w.Paired) (i : Input) : (w.given i).Paired := hp.of_mem (fun _ => rfl)

theorem Remembers.given {w w' : World} {i : Input} (h : (w.given i).Remembers w') : w.Remembers w' :=
  fun u k m hm => h u k m hm

end Backend

/-! ## One candidate -/

section Step
variable {c : CandidateFact} {u : String} {threadId : Option String} {source : Provenance}
  {existing existing' : List Memory} {w w' : World} {decision : MemoryDecision} {memory : Option Memory}

theorem Resolved.remembers (h : Resolved c u threadId source existing w (.ok (decision, memory, existing'), w'))
    (hk : w.Keyed) (hm : Mirror u existing w) (hp : w.Paired) : w.Remembers w' ∧ w'.Paired := by
  have other : ∀ v, v ≠ u → w'.mem v = w.mem v := fun v hv => h.store_of_ne (fun he => hv (by cases he; rfl))
  refine ⟨fun v k m hget => ?_, fun v k m' hget => ?_⟩
  · by_cases hv : v = u
    · subst hv
      have hfate := h.fate hk hm k
      rw [hget] at hfate
      generalize (w'.mem v).get k = o' at hfate ⊢
      cases hfate with
      | same => exact ⟨m, rfl, .refl m⟩
      | reinforced _ t hmem => exact ⟨_, rfl, .of_reinforced m t⟩
      | retired _ id t hmem =>
        -- Only a live record is retired, so no link is overwritten.
        have hb := hm.live m (rivals_subset hmem).1
        exact ⟨_, rfl, .of_retired _ _ hb ((hp v k m hget).1 hb)⟩
    · rw [other v hv]
      exact ⟨m, hget, .refl m⟩
  · by_cases hv : v = u
    · subst hv
      have hfate := h.fate hk hm k
      rw [hget] at hfate
      generalize ho : (w.mem v).get k = o at hfate
      cases hfate with
      | same => exact hp v k m' ho
      | reinforced m t hmem => exact hp v k m ho
      | retired m id t hmem => simp [MemoryManager.retired]
      | new _ hnew => simp [hnew.supersededBy, hnew.supersededAt]
    · rw [other v hv] at hget
      exact hp v k m' hget

end Step

/-! ## A turn -/

/-- One `apply`, whatever its outcome. -/
theorem apply_remembers (S : Services) (mm : MemoryManager) (u text : String) (threadId : Option String)
    (source : Provenance) {w w' : World} {r : Except Error WriteReport} (hw : w.Fed) (hk : w.Keyed) (hp : w.Paired)
    (h : exec S (mm.apply u text threadId source) w = (r, w')) : w.Remembers w' ∧ w'.Keyed ∧ w'.Paired := by
  have hcases := apply_cases S mm u text threadId source hw hk
  rw [h] at hcases
  generalize hr : (r, w') = rw' at hcases
  cases hcases with
  | blank _ | idle _ _ _ =>
    cases hr
    exact ⟨.refl w, hk, hp⟩
  | blocked _ _ value =>
    cases hr
    have hmem := fun v => mem_put_quarantine w.tick.tick u v
      (InjectionGate.quarantineKey (w.clock 0) (Text.strip text)) value
    exact ⟨.of_mem hmem, hk.congr hmem (List.Subset.refl _), hp.of_mem hmem⟩
  | resolved _ _ _ hs hw₁ ha =>
    have hsame := fun v => hs.same.mem (u := v)
    obtain ⟨done, w₂, existing₂, report₂, hI, hw₂, hk₂, hm₂, ha₂, hend⟩ := resolveAll_inv S mm u threadId source
      (fun _ w' _ _ => w.Remembers w' ∧ w'.Paired)
      (fun done c rest w₁ w₂ existing report decision memory existing' _ _ hk hm _ hI hres =>
        have hnext := hres.remembers hk hm hI.2
        ⟨hI.1.trans hnext.1, hnext.2⟩)
      (List.nil_append _).symm hw₁ (hk.congr hsame ha.issued) hs.mirror ⟨.of_mem hsame, hp.of_mem hsame⟩
    rcases hend with ⟨-, hrun⟩ | ⟨c, -, d, n, w₃, -, -, hs₃, ha₃, hrun⟩
    · rw [hrun] at hr
      cases hr
      exact ⟨hI.1, hk₂, hI.2⟩
    · rw [hrun] at hr
      cases hr
      have hsame₃ := fun v => hs₃.mem (u := v)
      -- An expiry left the calendar: what was written before stays.
      exact ⟨hI.1.trans (.of_mem hsame₃), hk₂.congr hsame₃ ha₃.issued, hI.2.of_mem hsame₃⟩

/-! ## Runs -/

/-- What every run of `apply` calls keeps: no record is lost, none says anything
new, and what is inactive stays so. -/
theorem apply_run_kept (reader : MemoryReader) (mm : MemoryManager) (memory : Bool) {w₀ w w' : World}
    (hk : w₀.Keyed) (hp : w₀.Paired)
    (h : Run ⟨reader, .manager mm, memory⟩ (fun _ op _ => op.isApply) w₀ w)
    (h' : Run ⟨reader, .manager mm, memory⟩ (fun _ op _ => op.isApply) w w') (u k : String) (m : Memory)
    (hm : (w.mem u).get k = some m) :
    ∃ m', (w'.mem u).get k = some m' ∧ Kept m m' ∧ 0 ≤ m'.importance.val ∧ m'.importance.val ≤ 1 ∧
      ∀ s t, s ≤ t → ¬ m.isActive s → ¬ m'.isActive t := by
  have hstep : ∀ S op i (w : World), w.Keyed ∧ w.Paired → i.Valid w → op.isApply →
      w.Remembers (Agent.perform ⟨reader, .manager mm, memory⟩ S op (w.given i)).2 ∧
        (Agent.perform ⟨reader, .manager mm, memory⟩ S op (w.given i)).2.Keyed ∧
        (Agent.perform ⟨reader, .manager mm, memory⟩ S op (w.given i)).2.Paired := by
    intro S op i w hw hi hop
    cases op with
    | observe u text t source =>
      simp only [perform_observe]
      obtain ⟨hr, hk', hp'⟩ :=
        apply_remembers S mm u text t source (fed_given hi) (hw.1.given i) (hw.2.given i) (Prod.eta _).symm
      exact ⟨hr.given, hk', hp'⟩
    | _ => cases hop
  have hw : w.Keyed ∧ w.Paired :=
    h.inv (fun v => v.Keyed ∧ v.Paired) ⟨hk, hp⟩ (fun S op i w hI hi hop => (hstep S op i w hI hi hop).2)
  have hkept : w.Remembers w' :=
    (h'.inv (fun v => w.Remembers v ∧ v.Keyed ∧ v.Paired) ⟨.refl w, hw⟩ (fun S op i v hI hi hop =>
      have hnext := hstep S op i v hI.2 hi hop
      ⟨hI.1.trans hnext.1, hnext.2⟩)).1
  obtain ⟨m', hm', hk'⟩ := hkept u k m hm
  exact ⟨m', hm', hk', m'.importance.nonneg, m'.importance.le_one, fun s t hst => hk'.inactive hst⟩

end Engram

/-! ## A run -/

namespace Engram

open Backend

attribute [local instance] ascii

/-- After "payments" at time 1. -/
def joined : World :=
  (Agent.perform ⟨⟨5⟩, .manager lenient, true⟩ teamBackend (.observe "alice" "payments" none .user)
    (Backend.empty.given (.at 1 'a'))).2

/-- After "platform" at time 2, too. -/
def moved : World :=
  (Agent.perform ⟨⟨5⟩, .manager lenient, true⟩ teamBackend (.observe "alice" "platform" none .user)
    (joined.given (.at 2 'b'))).2

/-- The first record is kept, superseded by the second. -/
theorem apply_run_kept_moved :
    ∃ m m', (joined.mem "alice").get "a" = some m ∧ (moved.mem "alice").get "a" = some m' ∧ Kept m m' ∧
      m.supersededBy = none ∧ m'.supersededBy = some "b" := by
  have hvalid : (Input.at 1 'a').Valid (Backend.empty : World) := Input.at_valid (by decide) (by decide)
  have hvalid' : (Input.at 2 'b').Valid joined := Input.at_valid (by decide +kernel) (by decide +kernel)
  obtain ⟨m, hm, hfresh⟩ : ∃ m, (joined.mem "alice").get "a" = some m ∧ m.supersededBy = none := by
    have h : ((joined.mem "alice").get "a").map (·.supersededBy) = some none := by decide +kernel
    exact Option.map_eq_some_iff.1 h
  obtain ⟨m', hm', hkept, -⟩ := apply_run_kept ⟨5⟩ lenient true keyed_empty paired_empty
    (.step .nil teamBackend (.observe "alice" "payments" none .user) _ hvalid rfl)
    (.step .nil teamBackend (.observe "alice" "platform" none .user) _ hvalid' rfl) "alice" "a" m hm
  have hm' : (moved.mem "alice").get "a" = some m' := hm'
  refine ⟨m, m', hm, hm', hkept, hfresh, ?_⟩
  have h : ((moved.mem "alice").get "a").map (·.supersededBy) = some (some "b") := by decide +kernel
  rw [hm'] at h
  exact Option.some.inj h

end Engram
