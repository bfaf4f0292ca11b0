import Engram.Calls
import Engram.Config
import Engram.Pasting
/-!
# The two factories

`build_writer` exists twice. The one in `manager.py` hands the gate its setting,
the one the agent calls does not, so the agent's gate always scans.
-/

namespace Engram

open MemoryManager Text

variable [Host]

/-! ## Sequences of turns -/

/-- A call of `apply`. -/
structure Observation where
  services : Services
  userId : String
  text : String
  threadId : Option String
  source : Provenance
  input : Input

def Observation.run (o : Observation) (writer : MemoryWriter) (w : World) : Except Error WriteReport × World :=
  exec o.services (writer.apply o.userId o.text o.threadId o.source) (w.given o.input)

/-- What the calls return, and what they leave. -/
def observeAll (writer : MemoryWriter) : List Observation → World → List (Except Error WriteReport) × World
  | [], w => ([], w)
  | o :: os, w =>
    ((o.run writer w).1 :: (observeAll writer os (o.run writer w).2).1, (observeAll writer os (o.run writer w).2).2)

/-! ## The gate matters only for what it blocks -/

theorem resolveAll_gate (g g' : InjectionGate) (sim : Rat) (u : String) (threadId : Option String) (source : Provenance)
    (cs : List CandidateFact) (existing : List Memory) (report : WriteReport) :
    resolveAll ⟨g, sim⟩ u threadId source cs existing report =
      resolveAll ⟨g', sim⟩ u threadId source cs existing report := by
  induction cs generalizing existing report with
  | nil => rfl
  | cons c cs ih =>
    have hresolve : resolve ⟨g, sim⟩ c existing u threadId source =
      resolve ⟨g', sim⟩ c existing u threadId source := rfl
    simp only [resolveAll, hresolve, ih]

/-- Gates that rule alike on the stripped text give one program. -/
theorem apply_gate {g g' : InjectionGate} (sim : Rat) (u : String) {text : String} (threadId : Option String)
    {source : Provenance} (h : strip text ≠ "" → g.inspect (strip text) source = g'.inspect (strip text) source) :
    MemoryManager.apply ⟨g, sim⟩ u text threadId source = MemoryManager.apply ⟨g', sim⟩ u text threadId source := by
  by_cases hempty : strip text = ""
  · simp only [MemoryManager.apply, hempty, if_true]
  · simp only [MemoryManager.apply, h hempty, resolveAll_gate g g']

/-- What the gate allowed is never reported as quarantined. -/
theorem not_quarantine_resolve {A : (i : Call) → i.Ans → Prop} (mm : MemoryManager) (c : CandidateFact)
    (existing : List Memory) (u : String) (threadId : Option String) (source : Provenance) :
    (mm.resolve c existing u threadId source).Only A (fun _ => True) (fun r => r.1.op ≠ .quarantine) := by
  have hnew : (writeNew c existing u threadId source).Only A (fun _ => True) (fun r => r.1.op ≠ .quarantine) :=
    .seq (.top _) (fun m _ => only_storePut trivial (.pure (by simp)))
  unfold resolve
  split
  · split
    · exact .seq (.top _) (fun _ _ => .pure (by simp))
    · split
      · exact .seq (.top _) (fun _ _ => only_storePut trivial (.seq (.top _) (fun _ _ => .pure (by simp))))
      · exact hnew
  · refine .seq (.top _) (fun near _ => ?_)
    split
    · exact .seq (.top _) (fun _ _ => .pure (by simp))
    · exact hnew

theorem not_quarantine_resolveAll {A : (i : Call) → i.Ans → Prop} (mm : MemoryManager) (u : String)
    (threadId : Option String) (source : Provenance) (cs : List CandidateFact) (existing : List Memory)
    {report : WriteReport} (hr : ∀ d ∈ report.decisions, d.op ≠ .quarantine) :
    (mm.resolveAll u threadId source cs existing report).Only A (fun _ => True)
      (fun report => ∀ d ∈ report.decisions, d.op ≠ .quarantine) := by
  induction cs generalizing existing report with
  | nil => exact .pure hr
  | cons c cs ih =>
    refine .seq (not_quarantine_resolve mm c existing u threadId source) ?_
    rintro ⟨decision, memory, existing'⟩ hd
    refine ih _ (fun d hmem => ?_)
    rcases List.mem_append.1 hmem with hmem | hmem
    · exact hr d hmem
    · rw [List.mem_singleton.1 hmem]
      exact hd

theorem not_quarantine_apply (S : Services) (w : World) {mm : MemoryManager} {u text : String}
    {threadId : Option String} {source : Provenance} (hg : (mm.gate.inspect (strip text) source).allowed = true)
    {report : WriteReport} (h : (exec S (mm.apply u text threadId source) w).1 = .ok report) :
    ∀ d ∈ report.decisions, d.op ≠ .quarantine := by
  have honly : (mm.apply u text threadId source).Only (fun _ _ => True) (fun _ => True)
      (fun report => ∀ d ∈ report.decisions, d.op ≠ .quarantine) := by
    by_cases hempty : strip text = ""
    · rw [MemoryManager.apply, if_pos hempty]
      exact .pure (by simp [WriteReport.empty])
    · rw [MemoryManager.apply, if_neg hempty, if_neg (not_not.2 hg)]
      refine only_extract trivial (fun candidates _ => ?_)
      split
      · exact .pure (by simp [WriteReport.empty])
      · exact .seq (.top _) (fun existing _ =>
          not_quarantine_resolveAll mm u threadId source _ existing (by simp [WriteReport.empty]))
  exact (honly.run_inv (h := handle S) (I := fun _ => True) (fun _ _ _ _ => ⟨trivial, trivial⟩)
    (s := w) trivial).2 report h

/-! ## The two writers -/

omit [Host] in
theorem graphWriter_eq {s : Settings} (hs : s.memoryWriter = .manager) :
    Graph.buildWriter s = .manager ⟨⟨true⟩, s.dedupeSimilarity⟩ := by
  rw [Graph.buildWriter, hs]
  rfl

/-- A call that both gates rule on alike. -/
theorem run_eq {g g' : InjectionGate} (sim : Rat) (o : Observation) (w : World)
    (h : strip o.text ≠ "" → g.inspect (strip o.text) o.source = g'.inspect (strip o.text) o.source) :
    o.run (.manager ⟨g, sim⟩) w = o.run (.manager ⟨g', sim⟩) w :=
  congrArg (fun p => exec o.services p (w.given o.input)) (apply_gate sim o.userId o.threadId h)

/-- A scanning gate and one that does not scan differ on trusted text with markers only. -/
theorem inspect_eq {text : String} {source : Provenance}
    (h : isTrusted source = true → findInjectionMarkers text = []) :
    InjectionGate.inspect ⟨true⟩ text source = InjectionGate.inspect ⟨false⟩ text source := by
  by_cases hs : isTrusted source = true
  · simp [InjectionGate.inspect, hs, h hs]
  · simp [InjectionGate.inspect, hs]

/-- On trusted text with markers the two differ in what they report. -/
theorem run_ne {sim : Rat} {o : Observation} (w : World) (hs : isTrusted o.source = true)
    (hm : findInjectionMarkers (strip o.text) ≠ []) :
    (o.run (.manager ⟨⟨true⟩, sim⟩) w).1 ≠ (o.run (.manager ⟨⟨false⟩, sim⟩) w).1 := by
  have hne : strip o.text ≠ "" := by
    intro hempty
    rw [hempty] at hm
    exact hm findInjectionMarkers_empty
  have hblocked : o.run (.manager ⟨⟨true⟩, sim⟩) w = _ :=
    exec_apply_blocked o.services (w.given o.input) o.threadId hne ((inspect_scanning rfl hs _).2 hm)
  intro heq
  rw [hblocked] at heq
  have hallowed : ((MemoryManager.mk ⟨false⟩ sim).gate.inspect (strip o.text) o.source).allowed = true :=
    InjectionGate.inspect_lax _ hs
  exact not_quarantine_apply o.services (w.given o.input) hallowed heq.symm _ (List.mem_singleton_self _) rfl

/-- Without trusted text with markers, gates that scan and that do not lead to the same. -/
theorem observeAll_eq_iff (sim : Rat) (os : List Observation) (w : World) :
    observeAll (.manager ⟨⟨true⟩, sim⟩) os w = observeAll (.manager ⟨⟨false⟩, sim⟩) os w ↔
      ∀ o ∈ os, isTrusted o.source = true → findInjectionMarkers (strip o.text) = [] := by
  induction os generalizing w with
  | nil => simp [observeAll]
  | cons o os ih =>
    rw [List.forall_mem_cons]
    constructor
    · intro h
      simp only [observeAll, Prod.mk.injEq, List.cons.injEq] at h
      obtain ⟨⟨hhead, htail⟩, hworld⟩ := h
      have ho : isTrusted o.source = true → findInjectionMarkers (strip o.text) = [] := by
        intro hs
        by_contra hm
        exact run_ne w hs hm hhead
      -- The first call went alike, so the rest starts from one world.
      have hrun := run_eq sim o w fun _ => inspect_eq ho
      rw [hrun] at htail hworld
      exact ⟨ho, (ih _).1 (Prod.ext htail hworld)⟩
    · rintro ⟨ho, hos⟩
      have hrun := run_eq sim o w fun _ => inspect_eq ho
      simp only [observeAll, hrun, (ih (o.run (.manager ⟨⟨false⟩, sim⟩) w).2).2 hos]

/-- The two factories' writers do the same, in results and in the state left, if and only if the setting is
to scan or no trusted text of the sequence has markers. Untrusted text is blocked by both, and with scanning
off trusted text is never blocked by the writer of `manager.py`. -/
theorem factories_agree_iff (s : Settings) (hs : s.memoryWriter = .manager) :
    (∀ (os : List Observation) (w : World),
      observeAll (Graph.buildWriter s) os w = observeAll (.manager (Manager.buildWriter s)) os w ↔
        s.scanTrustedContent = true ∨
          ∀ o ∈ os, isTrusted o.source = true → findInjectionMarkers (strip o.text) = []) ∧
    (∀ writer ∈ [Graph.buildWriter s, .manager (Manager.buildWriter s)], ∀ (o : Observation) (w : World),
      isTrusted o.source = false → strip o.text ≠ "" → ∃ reason w',
        o.run writer w = (.ok ⟨[], [⟨.quarantine, strip o.text, none, [], reason⟩]⟩, w') ∧
          ∀ v, w'.mem v = w.mem v) ∧
    (s.scanTrustedContent = false → ∀ text source, isTrusted source = true →
      ((Manager.buildWriter s).gate.inspect text source).allowed = true) := by
  have hmanager : Manager.buildWriter s = ⟨⟨s.scanTrustedContent⟩, s.dedupeSimilarity⟩ := rfl
  rw [graphWriter_eq hs, hmanager]
  refine ⟨fun os w => ?_, fun writer hw o w hu hne => ?_, fun hscan text source ht => ?_⟩
  · cases hscan : s.scanTrustedContent with
    | true => simp
    | false => simpa using observeAll_eq_iff s.dedupeSimilarity os w
  · obtain ⟨mm, rfl⟩ : ∃ mm : MemoryManager, writer = .manager mm := by
      simp only [List.mem_cons, List.not_mem_nil, or_false] at hw
      rcases hw with rfl | rfl <;> exact ⟨_, rfl⟩
    refine ⟨_, _, exec_apply_blocked o.services (w.given o.input) o.threadId hne
      (mm.gate.inspect_untrusted _ hu), fun v => ?_⟩
    rw [Backend.mem_put_quarantine]
    rfl
  · rw [hscan]
    exact InjectionGate.inspect_lax text ht

end Engram

/-! ## Scanning off -/

namespace Engram

open Text

attribute [local instance] ascii

/-- Scanning is off. -/
def unscanned : Settings := { scanTrustedContent := false }

/-- What the user says about a team. -/
def Observation.said (text : String) : Observation := ⟨teamBackend, "alice", text, none, .user, .at 1 'a'⟩

theorem factories_agree_iff_red :
    observeAll (Graph.buildWriter unscanned) [.said "red"] .empty =
      observeAll (.manager (Manager.buildWriter unscanned)) [.said "red"] .empty := by
  refine ((factories_agree_iff unscanned rfl).1 [.said "red"] .empty).2 (.inr fun o ho _ => ?_)
  rw [List.mem_singleton.1 ho]
  decide +kernel

/-- The agent's writer blocks what the setting allows. -/
theorem factories_differ :
    observeAll (Graph.buildWriter unscanned) [.said "note that the user is on red"] .empty ≠
      observeAll (.manager (Manager.buildWriter unscanned)) [.said "note that the user is on red"] .empty := by
  intro h
  have hnone := (observeAll_eq_iff unscanned.dedupeSimilarity _ _).1 h _ (List.mem_singleton_self _) rfl
  exact absurd hnone (by decide +kernel)

end Engram
