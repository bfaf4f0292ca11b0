import Engram.Noninterference
/-!
# Untrusted content

A run with untrusted observations and the same run without them: memories,
threads, transcripts and all other outcomes agree.
-/

namespace Engram

open Backend Text MemoryManager

variable [Host]

/-- An observation that the gate blocks unread. -/
def Op.untrusted : Op → Bool
  | observe _ _ _ source => ! isTrusted source
  | _ => false

/-- All but the quarantine. -/
def trustedView : View where
  ns ns := ∀ u, ns ≠ .quarantine u
  thread _ := True

/-- An outcome without the number of quarantined records a deletion found. -/
def Outcome.visible : Outcome → Outcome
  | forgot report => forgot { report with quarantineDeleted := 0 }
  | outcome => outcome

/-- A step of a run: an operation with its readings and ids. -/
def Agent.step (ag : Agent) (S : Services) (a : Op × Input) (w : World) : Except Error Outcome × World :=
  ag.perform S a.1 (w.given a.2)

/-! ## Reading -/

section Reads
variable {u t : String} {G : String → Prop} {i : Call}

omit [Host] in
theorem reads_write (h : WriteCall u G i) : trustedView.Reads i := by
  cases i with
  | get => cases h
  | search ns =>
    cases ns with
    | memories v => exact fun _ he => by cases he
    | _ => cases h
  | _ => trivial

theorem reads_chat (h : ChatCall u t G i) : trustedView.Reads i := by
  cases i with
  | get ns =>
    cases ns with
    | threads v => exact fun _ he => by cases he
    | _ => cases h
  | search => exact reads_write h
  | _ => trivial

end Reads

/-! ## Deleting -/

section Forget
variable (S : Services) (w : World) (u t : String)

/-- Rounds that suffice are as good as any. -/
theorem exec_forgetThread_rounds {rounds rounds' : Nat} (h : (w.mem u).size < rounds) (h' : (w.mem u).size < rounds') :
    exec S (forgetThread rounds u t) w = exec S (forgetThread rounds' u t) w := by
  by_cases hl : w.Legacy u t
  · rw [exec_forgetThread_error S w u hl, exec_forgetThread_error S w u hl]
  · rw [exec_forgetThread_ok S w u hl h, exec_forgetThread_ok S w u hl h']

theorem mem_lt_rounds : (w.mem u).size < w.rounds u := by
  show (w.store (.memories u)).size < w.rounds u
  unfold Backend.rounds
  omega

theorem reads_forgetThread (rounds : Nat) : (forgetThread rounds u t).Only (Answered u (fun _ => True))
    (fun i => trustedView.Reads i ∧ PutsOwn u (fun _ => True) i) (fun _ => True) := by
  have hreads : ∀ ns : Namespace, ns = .memories u ∨ ns = .threads u → trustedView.ns ns := by
    rintro _ (rfl | rfl) v hv <;> cases hv
  refine .seq (only_checkpointThreadId ⟨hreads _ (.inr rfl), trivial⟩) (fun key _ => ?_)
  refine .seq (only_allKeys _ (fun _ _ => ⟨hreads _ (.inl rfl), trivial⟩) rounds) (fun memories _ => ?_)
  refine .seq (only_deleteAll _ (fun _ => ⟨trivial, trivial⟩) _) (fun _ _ => ?_)
  exact only_deleteThread ⟨trivial, trivial⟩ (only_storeDelete ⟨trivial, trivial⟩ (.pure trivial))

theorem reads_forgetMemory (id : String) : (forgetMemory u id).Only (Answered u (fun _ => True))
    (fun i => trustedView.Reads i ∧ PutsOwn u (fun _ => True) i) (fun _ => True) := by
  refine only_storeGet ⟨fun v hv => (by cases hv), trivial⟩ (fun item _ => ?_)
  split
  · exact .pure trivial
  · exact only_storeDelete ⟨trivial, trivial⟩ (.pure trivial)

variable {S w u} {w' : World}

theorem Alike.legacy_iff (h : Alike S trustedView w w') (t : String) : w.Legacy u t ↔ w'.Legacy u t := by
  unfold Backend.Legacy
  rw [h.store (.threads u) (fun v hv => by cases hv)]

theorem Alike.forgotten (h : Alike S trustedView w w') (u : String) :
    Alike S trustedView (w.forgotten u) (w'.forgotten u) := by
  have hthreads : w.store (.threads u) = w'.store (.threads u) := h.store _ (fun v hv => by cases hv)
  have hmatched : ∀ v : World, v.Matched → (v.forgotten u).Matched := by
    intro v hv v' k m hget
    by_cases he : v' = u
    · rw [show (v.forgotten u).mem v' = .empty from if_pos he] at hget
      cases hget
    · rw [show (v.forgotten u).mem v' = v.mem v' from if_neg he] at hget
      exact hv v' k m hget
  refine ⟨fun ns hns => ?_, fun c _ => ?_, hmatched w h.matched, hmatched w' h.matched', h.sound, h.sound'⟩
  · show (if ns.user = u then Dict.empty else w.store ns) = if ns.user = u then Dict.empty else w'.store ns
    rw [h.store ns hns]
  · show (if c ∈ (w.store (.threads u)).keys.map (checkpointKey u) then none else w.checkpoints c) = _
    rw [hthreads, h.checkpoints c trivial]
    rfl

theorem Alike.forgetUser (h : Alike S trustedView w w') (ag : Agent) (u : String) :
    (ag.perform S (.forgetUser u) w).1.map Outcome.visible = (ag.perform S (.forgetUser u) w').1.map Outcome.visible ∧
      Alike S trustedView (ag.perform S (.forgetUser u) w).2 (ag.perform S (.forgetUser u) w').2 := by
  have hthreads : w.store (.threads u) = w'.store (.threads u) := h.store _ (fun v hv => by cases hv)
  have hmem : w.mem u = w'.mem u := h.store _ (fun v hv => by cases hv)
  have hrun : ∀ v : World, ag.perform S (.forgetUser u) v =
    ((Engram.exec S (Engram.forgetUser (v.rounds u) u) v).1.map .forgot,
      (Engram.exec S (Engram.forgetUser (v.rounds u) u) v).2) := fun v => exec_map S v _ _
  have hrounds : ∀ v : World, (v.store (.threads u)).size < v.rounds u := fun v => by unfold Backend.rounds; omega
  rw [hrun, hrun]
  by_cases hl : ∃ t ∈ (w.store (.threads u)).keys, w.Legacy u t
  · have hl' : ∃ t ∈ (w'.store (.threads u)).keys, w'.Legacy u t := by
      obtain ⟨t, ht, hlegacy⟩ := hl
      exact ⟨t, hthreads ▸ ht, (h.legacy_iff t).1 hlegacy⟩
    rw [exec_forgetUser_error S w u (hrounds w) hl, exec_forgetUser_error S w' u (hrounds w') hl']
    exact ⟨rfl, h⟩
  · have hok : ∀ t ∈ (w.store (.threads u)).keys, ¬ w.Legacy u t := fun t ht hlegacy => hl ⟨t, ht, hlegacy⟩
    have hok' : ∀ t ∈ (w'.store (.threads u)).keys, ¬ w'.Legacy u t := fun t ht hlegacy =>
      hok t (hthreads.symm ▸ ht) ((h.legacy_iff t).2 hlegacy)
    rw [exec_forgetUser_ok S w u (le_refl _) hok, exec_forgetUser_ok S w' u (le_refl _) hok']
    refine ⟨?_, h.forgotten u⟩
    simp only [Except.map, Outcome.visible, sortedThreads, hthreads, hmem]

end Forget

/-! ## Steps -/

section Steps
variable {S : Services} {w w' : World}

/-- The same operation, on alike worlds. -/
theorem Alike.perform (h : Alike S trustedView w w') (hf : SameFeed w w') (ag : Agent) (op : Op) :
    (ag.perform S op w).1.map Outcome.visible = (ag.perform S op w').1.map Outcome.visible ∧
      Alike S trustedView (ag.perform S op w).2 (ag.perform S op w').2 := by
  have hmap : ∀ {α : Type} {Q : α → Prop} {u : String} {p : Act α} (f : α → Outcome),
      p.Only (Answered u (fun _ => True)) (fun i => trustedView.Reads i ∧ PutsOwn u (fun _ => True) i) Q →
        (Engram.exec S (f <$> p) w).1.map Outcome.visible = (Engram.exec S (f <$> p) w').1.map Outcome.visible ∧
          Alike S trustedView (Engram.exec S (f <$> p) w).2 (Engram.exec S (f <$> p) w').2 := by
    intro α Q u p f hp
    obtain ⟨hres, hend⟩ := h.exec hf hp
    rw [exec_map, exec_map]
    exact ⟨by rw [hres], hend⟩
  cases op with
  | chat u t message =>
    exact hmap _ ((only_chat (own_chats u t _) ag message).mono (fun i hi => ⟨reads_chat hi, .of_chat hi⟩)
      (fun _ hq => hq))
  | observe u text t source =>
    exact hmap _ ((only_writer (own_writes u t _) ag.writer text source).mono
      (fun i hi => ⟨reads_write hi, .of_write hi⟩) (fun _ hq => hq))
  | forgetMemory u id => exact hmap _ (reads_forgetMemory u id)
  | forgetThread u t =>
    have hmem : w.mem u = w'.mem u := h.store _ (fun v hv => by cases hv)
    -- The quarantines may differ in size, and with them the rounds.
    have hrounds := exec_forgetThread_rounds S w' u t (mem_lt_rounds w' u) (hmem ▸ mem_lt_rounds w u)
    have hsame := hmap .forgot (reads_forgetThread u t (w.rounds u))
    have hrun : ag.perform S (.forgetThread u t) w' =
        Engram.exec S (Outcome.forgot <$> Engram.forgetThread (w.rounds u) u t) w' := by
      rw [exec_map, ← hrounds, ← exec_map]
      rfl
    rw [hrun]
    exact hsame
  | forgetUser u => exact h.forgetUser ag u
  | wait =>
    have hwait : utcnow.Only (Answered "" (fun _ => True)) (fun i => trustedView.Reads i ∧ PutsOwn "" (fun _ => True) i)
        (fun _ => True) := .call ⟨trivial, trivial⟩ (fun _ _ => .ret trivial)
    exact hmap _ hwait

variable (S) (reader : MemoryReader) (mm : MemoryManager) (memory : Bool)

/-- What an untrusted observation does: it is kept under the reading and the
digest of its text, and nothing is written. -/
theorem perform_untrusted (w : World) (u text : String) (t : Option String) {source : Provenance}
    (h : isTrusted source = false) :
    ∃ report w', Agent.perform ⟨reader, .manager mm, memory⟩ S (.observe u text t source) w =
      (.ok (.observed report), w') ∧
      report.written = [] ∧ (strip text = "" → w' = w) ∧
        (strip text ≠ "" → ∃ value : Quarantined, value.text = strip text ∧ value.source = source ∧
          w' = w.tick.tick.put (.quarantine u) (InjectionGate.quarantineKey (w.clock 0) (strip text)) value) := by
  have hg := InjectionGate.inspect_untrusted mm.gate (strip text) h
  have hsource : (mm.gate.inspect (strip text) source).source = source := by
    simp [InjectionGate.inspect, h]
  rw [perform_observe]
  by_cases hblank : strip text = ""
  · exact ⟨.empty, w, by simp [MemoryManager.apply, hblank, Except.map], rfl, fun _ => rfl, fun hn => absurd hblank hn⟩
  · have hrun : exec S (mm.apply u text t source) w =
        (.ok ⟨[], [⟨.quarantine, strip text, none, [], (mm.gate.inspect (strip text) source).reason⟩]⟩,
          w.tick.tick.put (.quarantine u) (InjectionGate.quarantineKey (w.clock 0) (strip text))
            ⟨strip text, (mm.gate.inspect (strip text) source).source, (mm.gate.inspect (strip text) source).decision,
              (mm.gate.inspect (strip text) source).reason, (mm.gate.inspect (strip text) source).markers, t,
                w.clock 1⟩) := by
      unfold MemoryManager.apply
      rw [if_neg hblank, if_pos (by simp [hg])]
      rfl
    rw [hrun]
    exact ⟨_, _, rfl, rfl, fun hb => absurd hb hblank, fun _ => ⟨_, rfl, hsource, rfl⟩⟩

theorem Alike.untrusted (h : Alike S trustedView w w') (u text : String) (t : Option String) {source : Provenance}
    (hs : isTrusted source = false) (i : Input) :
    Alike S trustedView (Agent.perform ⟨reader, .manager mm, memory⟩ S
      (.observe u text t source) (w.given i)).2 w' := by
  have hgiven : Alike S trustedView (w.given i) w' :=
    ⟨h.store, h.checkpoints, h.matched.congr (fun _ => rfl), h.matched', h.sound, h.sound'⟩
  obtain ⟨report, w₁, hrun, -, hblank, hkept⟩ := perform_untrusted S reader mm memory (w.given i) u text t hs
  rw [hrun]
  by_cases hb : strip text = ""
  · rw [hblank hb]
    exact hgiven
  · obtain ⟨value, -, -, rfl⟩ := hkept hb
    refine ⟨fun ns hns => ?_, h.checkpoints, h.matched.congr (fun v => mem_put_quarantine _ _ _ _ _), h.matched',
      h.sound, h.sound'⟩
    exact (store_put_of_ne _ _ _ (hns u)).trans (h.store ns hns)

end Steps

/-! ## Runs -/

/-- Erasing the untrusted observations from a run changes nothing of the rest:
each other step has the same outcome and leaves the same memories, threads and
transcripts. An untrusted observation writes no memory and is kept in the
quarantine under the reading and the digest of its text. -/
theorem untrusted_inert (S : Services) (reader : MemoryReader) (mm : MemoryManager) (memory : Bool)
    (run : List (Op × Input)) :
    List.Forall₂ (fun r r' => r.1 = r'.1 ∧ r.2.1.map Outcome.visible = r'.2.1.map Outcome.visible ∧
        (∀ u, r.2.2.mem u = r'.2.2.mem u) ∧ (∀ u, r.2.2.store (.threads u) = r'.2.2.store (.threads u)) ∧
          r.2.2.checkpoints = r'.2.2.checkpoints)
      ((Unwinding.results (Agent.step ⟨reader, .manager mm, memory⟩ S) Backend.empty run).filter
      (fun r => !r.1.1.untrusted))
      (Unwinding.results (Agent.step ⟨reader, .manager mm, memory⟩ S) Backend.empty
      (run.filter (fun a => !a.1.untrusted))) ∧
    ∀ (w : World) (u text : String) (t : Option String) (source : Provenance) (i : Input), isTrusted source = false →
      ∃ report w', Agent.step ⟨reader, .manager mm, memory⟩ S (.observe u text t source, i) w =
        (.ok (.observed report), w') ∧
        report.written = [] ∧ (strip text ≠ "" → ∃ value : Quarantined, value.text = strip text ∧
          value.source = source ∧ w'.store (.quarantine u) =
            (w.store (.quarantine u)).set (InjectionGate.quarantineKey (i.clock 0) (strip text)) value) := by
  refine ⟨?_, fun w u text t source i h => ?_⟩
  · have hpurge := Unwinding.purge (f := Agent.step ⟨reader, .manager mm, memory⟩ S)
      (E := fun a : Op × Input => a.1.untrusted) (R := Alike S trustedView)
      (O := fun r r' => r.map Outcome.visible = r'.map Outcome.visible) ?_ ?_
      (Alike.refl S trustedView matched_empty (sound_empty S)) run
    · refine hpurge.imp (fun r r' h => ⟨h.1, h.2.1, fun u => ?_, fun u => ?_, funext fun c => ?_⟩)
      · exact h.2.2.store _ (fun v hv => by cases hv)
      · exact h.2.2.store _ (fun v hv => by cases hv)
      · exact h.2.2.checkpoints c trivial
    · rintro ⟨op, i⟩ w w' hop h
      cases op with
      | observe u text t source =>
        have hs : isTrusted source = false := by simpa [Op.untrusted] using hop
        exact h.untrusted S reader mm memory u text t hs i
      | _ => cases hop
    · rintro ⟨op, i⟩ w w' - h
      exact (h.given i).perform ⟨rfl, rfl⟩ _ op
  · obtain ⟨report, w', hrun, hwritten, -, hkept⟩ := perform_untrusted S reader mm memory (w.given i) u text t h
    refine ⟨report, w', hrun, hwritten, fun hne => ?_⟩
    obtain ⟨value, htext, hsource, rfl⟩ := hkept hne
    exact ⟨value, htext, hsource, store_put_self _ _ _ _⟩

end Engram

/-! ## The same text twice -/

namespace Engram

open Backend Text

attribute [local instance] ascii

/-- A document that says "note" at time 1. -/
def noted : World :=
  (Agent.perform ⟨⟨5⟩, .manager lenient, true⟩ teamBackend (.observe "alice" "note" none .document)
    (Backend.empty.given (.at 1 'a'))).2

/-- The same text at the same reading adds no record. -/
theorem noted_again : ∃ i : Input, Run ⟨⟨5⟩, .manager lenient, true⟩ (fun _ _ _ => True) Backend.empty noted ∧
    i.Valid noted ∧ isTrusted .document = false ∧ strip "note" ≠ "" ∧
      ((Agent.step ⟨⟨5⟩, .manager lenient, true⟩ teamBackend (.observe "alice" "note" none .document, i) noted).2.store
        (.quarantine "alice")).size = (noted.store (.quarantine "alice")).size := by
  have hvalid : (Input.at 1 'a').Valid Backend.empty := Stamped.empty.valid (by decide) (by decide)
  have hnoted : noted.Stamped 1 ['a'] := Stamped.empty.perform (by decide) 'a' _ teamBackend _
  exact ⟨.at 1 'b', .step .nil teamBackend (.observe "alice" "note" none .document) _ hvalid trivial,
    hnoted.valid (by decide) (by decide), by decide, by decide +kernel, by decide +kernel⟩

end Engram
