import Engram.Executions
import Engram.Factories
import Engram.Sources
/-!
# The quarantine is an audit log

What the gate blocks is kept where it can be inspected. Over a whole run the
quarantine of a user is the list of the turns that were blocked, each with its
verdict and a time: a turn is reported as blocked if and only if it is there,
and nothing but forgetting the user removes it.
-/

namespace Engram

open Backend Text InjectionGate

variable [Host]

/-! ## The log -/

/-- The blocked turns of each user, oldest first. -/
abbrev AuditLog := String → List Quarantined

/-- What an operation takes to the write path: its user, text, thread and source. -/
def Op.turn (memory : Bool) : Op → Option (String × String × Option String × Provenance)
  | .chat u t message => if memory then some (u, message, some t, .user) else none
  | .observe u text t source => some (u, text, t, source)
  | _ => none

/-- What the operation returns of its decisions. -/
def Done.decisions (d : Done) : List MemoryDecision :=
  match d.result with
  | .ok (.turn trace) => trace.decisions
  | .ok (.observed report) => report.decisions
  | _ => []

def AuditLog.blank : AuditLog := fun _ => []

/-- What an operation does to the log. -/
inductive AuditLog.Step (mm : MemoryManager) (memory : Bool) (log : AuditLog) (d : Done) : AuditLog → Prop
  | blocked {u text t source} (n : Nat) (hturn : d.op.turn memory = some (u, text, t, source))
      (hblank : strip text ≠ "") (hg : ¬ (mm.gate.inspect (strip text) source).allowed)
      (hdecided : d.decisions = [⟨.quarantine, strip text, none, [], (mm.gate.inspect (strip text) source).reason⟩]) :
      Step mm memory log d (Function.update log u (log u ++ [mm.gate.record (strip text) t source (d.input.clock n)]))
  | passed {u text t source} (hturn : d.op.turn memory = some (u, text, t, source))
      (hg : strip text = "" ∨ (mm.gate.inspect (strip text) source).allowed)
      (hdecided : ∀ x ∈ d.decisions, x.op ≠ .quarantine) : Step mm memory log d log
  | forgotten {u} (hop : d.op = .forgetUser u) : Step mm memory log d (Function.update log u [])
  | other (hturn : d.op.turn memory = none) (hop : ∀ u, d.op ≠ .forgetUser u) : Step mm memory log d log

/-! ## Worlds that hold it -/

/-- The quarantine is the log, under keys of times up to `T`. -/
structure Backend.Audits (w : World) (log : AuditLog) (T : Time) : Prop where
  held : ∀ u, (w.store (.quarantine u)).values = log u
  dated : ∀ u key q, (w.store (.quarantine u)).get key = some q → ∃ now text, key = quarantineKey now text ∧ now ≤ T

/-- It removes nothing. -/
def Removes : Call → Prop
  | .delete _ _ => True
  | _ => False

section Turn
variable {S : Services} {mm : MemoryManager} {w w' : World} {log : AuditLog} {T : Time} {u text : String}
  {threadId : Option String} {source : Provenance}

theorem Backend.Audits.same {T' : Time} (h : w.Audits log T)
    (hs : ∀ u, w'.store (.quarantine u) = w.store (.quarantine u)) (hT : T ≤ T') : w'.Audits log T' where
  held u := by rw [hs, h.held]
  dated u key q hget := by
    rw [hs] at hget
    obtain ⟨now, text, hk, hnow⟩ := h.dated u key q hget
    exact ⟨now, text, hk, hnow.trans hT⟩

/-- A later record goes to the end. -/
theorem Backend.Audits.put {now T' : Time}
    (hkeys : ∀ {now text now' text'}, quarantineKey now text = quarantineKey now' text' → now = now')
    (h : w.Audits log T) (hnow : T < now) (hT' : now ≤ T') (text : String) (q : Quarantined) :
    (w.put (.quarantine u) (quarantineKey now text) q).Audits (Function.update log u (log u ++ [q])) T' := by
  have hnew : quarantineKey now text ∉ (w.store (.quarantine u)).keys := by
    intro hmem
    obtain ⟨q', hget⟩ := Dict.mem_keys_iff.1 hmem
    obtain ⟨now', text', hk, hle⟩ := h.dated u _ q' hget
    rw [← hkeys hk] at hle
    exact absurd hle (not_le.2 hnow)
  constructor
  · intro v
    by_cases hv : v = u
    · subst hv
      rw [store_put_self, Dict.values_set_new _ hnew, h.held, Function.update_self]
    · rw [store_put_of_ne _ _ _ (by simpa using hv), Function.update_of_ne hv, h.held]
  · intro v key q' hget
    rcases get_put hget with ⟨-, rfl, -⟩ | hget
    · exact ⟨now, text, rfl, hT'⟩
    · obtain ⟨now', text', hk, hle⟩ := h.dated v key q' hget
      exact ⟨now', text', hk, hle.trans (hnow.le.trans hT')⟩

theorem Backend.Audits.forgotten {T' : Time} (h : w.Audits log T) (hT : T ≤ T') (u : String) :
    (w.forgotten u).Audits (Function.update log u []) T' := by
  have hstore : ∀ v, (w.forgotten u).store (.quarantine v) = if v = u then .empty else w.store (.quarantine v) :=
    fun _ => rfl
  refine ⟨fun v => ?_, fun v key q hget => ?_⟩
  · rw [hstore]
    by_cases hv : v = u
    · rw [if_pos hv, hv, Function.update_self]
      rfl
    · rw [if_neg hv, Function.update_of_ne hv, h.held]
  · rw [hstore] at hget
    split at hget
    · cases hget
    · obtain ⟨now, text, hk, hle⟩ := h.dated v key q hget
      exact ⟨now, text, hk, hle.trans hT⟩

theorem removes_writes (u : String) (threadId : Option String) :
    Writes u threadId (fun _ => True) (fun _ _ => True) (fun i => ¬ Removes i) where
  clock := id
  newId := id
  embed _ := id
  extract _ := id
  search _ _ _ := id
  searchOf _ _ _ _ _ := id
  put _ _ := id
  quarantine _ _ := id
  found _ _ _ _ _ _ _ := trivial
  reinforced _ _ _ := trivial
  retired _ _ _ _ := trivial
  new _ _ _ _ := trivial

/-- A turn the gate lets through leaves the quarantine alone. -/
theorem quarantine_apply (S : Services) (w : World) (threadId : Option String)
    (hg : strip text = "" ∨ (mm.gate.inspect (strip text) source).allowed) (v : String) :
    (exec S (mm.apply u text threadId source) w).2.store (.quarantine v) = w.store (.quarantine v) := by
  rcases hg with hblank | hg
  · rw [MemoryManager.apply, if_pos hblank]
    rfl
  · have hsources : (mm.apply u text threadId source).Only (FoundIn (fun _ => True) (fun _ => True))
        (PutsIn (fun _ => True) (fun _ _ => False)) (fun _ => True) :=
      sources_apply ⟨fun _ _ _ => trivial, fun _ _ _ _ => trivial⟩ mm
        (fun _ _ _ _ _ _ _ => trivial) (fun h => absurd hg h)
    have hwrites : (mm.apply u text threadId source).Only (FoundIn (fun _ => True) (fun _ => True)) _ _ :=
      (only_apply (removes_writes u threadId) mm text source).of_answers (fun _ _ _ => trivial)
    refine ((hsources.and hwrites).run_inv (h := handle S)
      (I := fun w' => w'.store (.quarantine v) = w.store (.quarantine v))
      (fun i w' hi hw' => ?_) rfl).1
    obtain ⟨hputs, hremoves⟩ := hi
    cases i with
    | search ns =>
      refine ⟨?_, hw'⟩
      cases ns with
      | memories => exact fun _ _ => trivial
      | _ => trivial
    | put ns key value =>
      refine ⟨trivial, ?_⟩
      cases ns with
      | quarantine => cases hputs
      | _ => exact (w'.store_put_of_ne key value (by simp)).trans hw'
    | delete => exact absurd trivial hremoves
    | embed t => exact ⟨trivial, (congrFun (w'.store_embed S t) _).trans hw'⟩
    | extract => exact ⟨⟨S, trivial, rfl⟩, hw'⟩
    | _ => exact ⟨trivial, hw'⟩

theorem Backend.quarantine_received (w : World) (u t message v : String) :
    (w.received u t message).store (.quarantine v) = w.store (.quarantine v) := by
  change (w.tick.put (.threads u) t ⟨t, some (checkpointKey u t), some (w.clock 0)⟩).store (.quarantine v) = _
  rw [store_put_of_ne _ _ _ (by simp)]
  rfl

/-- A blocked turn is added to the log, and reported. -/
theorem apply_audits (hkeys : ∀ {now text now' text'}, quarantineKey now text = quarantineKey now' text' → now = now')
    (S : Services) (mm : MemoryManager) (u text : String) (threadId : Option String) (source : Provenance) (hw : w.Fed)
    (h : w.Audits log T) (hT : ∀ n, T < w.clock n) {r : Except Error WriteReport}
    (hrun : exec S (mm.apply u text threadId source) w = (r, w')) :
    (strip text ≠ "" ∧ ¬ (mm.gate.inspect (strip text) source).allowed ∧
        r = .ok ⟨[], [⟨.quarantine, strip text, none, [], (mm.gate.inspect (strip text) source).reason⟩]⟩ ∧
        w'.Audits (Function.update log u (log u ++ [mm.gate.record (strip text) threadId source (w.clock 1)])) w'.now) ∨
      ((strip text = "" ∨ (mm.gate.inspect (strip text) source).allowed) ∧
        (∀ report, r = .ok report → ∀ x ∈ report.decisions, x.op ≠ .quarantine) ∧ w'.Audits log T) := by
  by_cases hg : strip text = "" ∨ (mm.gate.inspect (strip text) source).allowed
  · refine .inr ⟨hg, fun report hr => ?_, h.same (fun v => ?_) le_rfl⟩
    · rcases hg with hblank | hg
      · rw [MemoryManager.apply, if_pos hblank] at hrun
        obtain ⟨rfl, -⟩ := Prod.mk.inj hrun
        cases hr
        simp [WriteReport.empty]
      · exact not_quarantine_apply S w hg (by rw [hrun, hr])
    · rw [← quarantine_apply S w threadId hg v, hrun]
  · obtain ⟨hblank, hg⟩ := not_or.1 hg
    rw [MemoryManager.apply, if_neg hblank, if_pos hg] at hrun
    obtain ⟨rfl, rfl⟩ := Prod.mk.inj hrun
    refine .inl ⟨hblank, hg, rfl, ?_⟩
    exact Backend.Audits.put (w := w.tick.tick) hkeys (h.same (fun _ => rfl) le_rfl) (hT 0)
      (hw.clock_mono (Nat.zero_le 1)) (strip text) _

end Turn

/-! ## Runs -/

/-- An operation that begins later than all before. -/
def Agent.ExecutesLater (ag : Agent) (w : World) (d : Done) (w' : World) : Prop :=
  ag.Executes w d w' ∧ w.now < d.input.clock 0

theorem steps_later {ag : Agent} {w : World} {ds : List Done} (h : Steps ag.ExecutesLater Backend.empty ds w)
    (S : Services) (op : Op) {i : Input} (hi : i.Valid w) (hlater : w.now < i.clock 0) :
    Steps ag.ExecutesLater Backend.empty (ds ++ [⟨op, i, (ag.perform S op (w.given i)).1⟩])
      (ag.perform S op (w.given i)).2 :=
  .snoc h ⟨⟨hi, S, rfl⟩, hlater⟩

section Runs
variable {reader : MemoryReader} {mm : MemoryManager} {memory : Bool} {w w' : World} {log : AuditLog} {d : Done}

/-- An operation that takes this turn to the write path, in `w₂`, and returns its decisions. -/
theorem turn_audits (hkeys : ∀ {now text now' text'}, quarantineKey now text = quarantineKey now' text' → now = now')
    {S : Services} {u text : String} {t : Option String} {source : Provenance} {w₂ : World} {T : Time}
    {written : Except Error WriteReport} (hturn : d.op.turn memory = some (u, text, t, source))
    (hrun : exec S (mm.apply u text t source) w₂ = (written, w')) (hfed : w₂.Fed) (h : w₂.Audits log T)
    (hclock : ∀ n, ∃ k, w₂.clock n = d.input.clock k) (hlater : ∀ n, T < d.input.clock n) (hnow : T ≤ w'.now)
    (hok : ∀ report, written = .ok report → d.decisions = report.decisions)
    (herror : ∀ e, written = .error e → d.decisions = []) :
    ∃ log', AuditLog.Step mm memory log d log' ∧ w'.Audits log' w'.now := by
  have hT : ∀ n, T < w₂.clock n := by
    intro n
    obtain ⟨k, hk⟩ := hclock n
    exact hk ▸ hlater k
  rcases apply_audits hkeys S mm u text t source hfed h hT hrun with ⟨hblank, hblocked, rfl, haudits⟩ |
    ⟨hpassed, hdecided, haudits⟩
  · obtain ⟨n, hn⟩ := hclock 1
    rw [hn] at haudits
    exact ⟨_, .blocked n hturn hblank hblocked (hok _ rfl), haudits⟩
  · refine ⟨log, .passed hturn hpassed ?_, haudits.same (fun _ => rfl) hnow⟩
    cases written with
    | error e => simp [herror e rfl]
    | ok report =>
      rw [hok report rfl]
      exact hdecided report rfl

theorem chat_audits (hkeys : ∀ {now text now' text'}, quarantineKey now text = quarantineKey now' text' → now = now')
    {S : Services} {u t message : String} {i : Input} {result : Except Error Outcome}
    (hrun : (Agent.mk reader (.manager mm) memory).perform S (.chat u t message) (w.given i) = (result, w'))
    (hfed : (w.given i).Fed) (hlater : ∀ n, w.now < i.clock n) (hnow : w.now ≤ w'.now) (hacc : w.Accounted)
    (h : (w.given i).Audits log w.now) :
    ∃ log', AuditLog.Step mm memory log ⟨.chat u t message, i, result⟩ log' ∧ w'.Audits log' w'.now := by
  have hmap : (Agent.mk reader (.manager mm) memory).perform S (.chat u t message) (w.given i) = _ :=
    exec_map S (w.given i) _ _
  cases memory with
  | false =>
    rw [hrun, Agent.exec_chat_stateless S _ message rfl (hacc.given i).canonical] at hmap
    obtain ⟨-, rfl⟩ := Prod.mk.inj hmap
    refine ⟨log, .other rfl (by simp), h.same (fun v => ?_) hnow⟩
    exact (w.given i).quarantine_received u t message v
  | true =>
    obtain ⟨recalled, -, w₂, -, hsame, -, hafter, hfed₂, hchat⟩ :=
      Agent.exec_chat_memory S (Agent.mk reader (.manager mm) true) message rfl
        (hacc.given i).canonical (u := u) (t := t)
    have hstore : ∀ v, w₂.store (.quarantine v) = (w.given i).store (.quarantine v) :=
      fun v => (congrFun hsame.store _).trans ((w.given i).quarantine_received u t message v)
    rw [hrun, hchat] at hmap
    rcases happly : exec S (mm.apply u message (some t) .user) w₂ with ⟨written, w₃⟩
    rw [show exec S ((Agent.mk reader (.manager mm) true).writer.apply u message (some t) .user) w₂ =
      (written, w₃) from happly] at hmap
    obtain ⟨rfl, rfl⟩ := Prod.mk.inj hmap
    refine turn_audits hkeys rfl happly (hfed₂ hfed) (h.same hstore le_rfl) hafter.clock hlater hnow ?_ ?_
    · rintro report rfl
      rfl
    · rintro e rfl
      rfl

theorem observe_audits (hkeys : ∀ {now text now' text'}, quarantineKey now text = quarantineKey now' text' → now = now')
    {S : Services} {u text : String} {t : Option String} {source : Provenance} {i : Input}
    {result : Except Error Outcome}
    (hrun : (Agent.mk reader (.manager mm) memory).perform S (.observe u text t source) (w.given i) = (result, w'))
    (hfed : (w.given i).Fed) (hlater : ∀ n, w.now < i.clock n) (hnow : w.now ≤ w'.now)
    (h : (w.given i).Audits log w.now) :
    ∃ log', AuditLog.Step mm memory log ⟨.observe u text t source, i, result⟩ log' ∧ w'.Audits log' w'.now := by
  rcases happly : exec S (mm.apply u text t source) (w.given i) with ⟨written, w₃⟩
  rw [perform_observe, happly] at hrun
  obtain ⟨rfl, rfl⟩ := Prod.mk.inj hrun
  refine turn_audits hkeys rfl happly hfed h (fun n => ⟨n, rfl⟩) hlater hnow ?_ ?_
  · rintro report rfl
    rfl
  · rintro e rfl
    rfl

/-- Each operation does to the log what it says. -/
theorem Agent.ExecutesLater.audits
    (hkeys : ∀ {now text now' text'}, quarantineKey now text = quarantineKey now' text' → now = now')
    (hd : (Agent.mk reader (.manager mm) memory).ExecutesLater w d w') (hacc : w.Accounted) (h : w.Audits log w.now) :
    ∃ log', AuditLog.Step mm memory log d log' ∧ w'.Audits log' w'.now := by
  obtain ⟨⟨hi, S, hrun⟩, hlater⟩ := hd
  obtain ⟨op, i, result⟩ := d
  dsimp only at hrun hi hlater
  have hfed : (w.given i).Fed := fed_given hi
  have hclock : ∀ n, w.now < i.clock n := fun n => hlater.trans_le (hi.clock_mono (Nat.zero_le n))
  have hnow : w.now ≤ w'.now := (After.of_exec hrun).now_le hfed
  have hg : (w.given i).Audits log w.now := h.same (fun _ => rfl) le_rfl
  cases op with
  | chat u t message => exact chat_audits hkeys hrun hfed hclock hnow hacc hg
  | observe u text t source => exact observe_audits hkeys hrun hfed hclock hnow hg
  | forgetMemory u id =>
    have hmap : (Agent.mk reader (.manager mm) memory).perform S (.forgetMemory u id) (w.given i) = _ :=
      exec_map S (w.given i) _ _
    rw [hrun, exec_forgetMemory] at hmap
    refine ⟨log, .other rfl (by simp), hg.same (fun v => ?_) hnow⟩
    split at hmap
    · obtain ⟨-, rfl⟩ := Prod.mk.inj hmap
      rfl
    · obtain ⟨-, rfl⟩ := Prod.mk.inj hmap
      exact (w.given i).store_dropKeys_of_ne _ (by simp)
  | forgetThread u t =>
    obtain ⟨r, rfl⟩ := forgetThread_returns _ (hacc.given i).canonical hrun
    obtain ⟨-, hleft⟩ := perform_forgetThread _ hrun
    refine ⟨log, .other rfl (by simp), hg.same (fun v => ?_) hnow⟩
    by_cases hv : v = u
    · subst hv
      exact hleft.quarantine
    · exact hleft.others (.quarantine v) hv
  | forgetUser u =>
    have hmap := exec_forgetUser_accounted (Agent.mk reader (.manager mm) memory) S i u hacc
    rw [hrun] at hmap
    obtain ⟨-, rfl⟩ := Prod.mk.inj hmap
    exact ⟨_, .forgotten rfl, hg.forgotten hnow u⟩
  | wait =>
    have hmap : (Agent.mk reader (.manager mm) memory).perform S .wait (w.given i) = _ := exec_map S (w.given i) _ _
    rw [hrun] at hmap
    obtain ⟨-, rfl⟩ := Prod.mk.inj hmap
    exact ⟨log, .other rfl (by simp), hg.same (fun _ => rfl) hnow⟩

/-- Over every run of the manager's agent, each operation later than those before, the
quarantine of a user is exactly the turns of that user the gate blocked since the user
was last forgotten, in order, with their verdicts and their threads; and a turn is
reported as blocked if and only if it was added. -/
theorem run_audits (hkeys : ∀ {now text now' text'}, quarantineKey now text = quarantineKey now' text' → now = now')
    {ds : List Done} (h : Steps (Agent.mk reader (.manager mm) memory).ExecutesLater Backend.empty ds w) :
    ∃ log, Steps (AuditLog.Step mm memory) AuditLog.blank ds log ∧ ∀ u, (w.store (.quarantine u)).values = log u := by
  have hstart : Backend.empty.Audits AuditLog.blank (Backend.empty : World).now :=
    ⟨fun _ => rfl, fun _ _ _ hget => by cases hget⟩
  obtain ⟨log, hlog, -, haudits⟩ := h.simulated (R := fun w log => w.Accounted ∧ w.Audits log w.now)
    (fun w d w' log hw hd => by
      obtain ⟨log', hstep, haudits⟩ := hd.audits hkeys hw.1 hw.2
      exact ⟨log', hstep, hd.1.accounted hw.1, haudits⟩) ⟨accounted_empty, hstart⟩
  exact ⟨log, hlog, haudits.held⟩

end Runs

end Engram

/-! ## A document and a greeting -/

namespace Engram

open Backend InjectionGate

attribute [local instance] ascii

/-- A key begins with the digits of its time. -/
theorem quarantineKey_ascii {now now' : Time} {text text' : String}
    (h : quarantineKey now text = quarantineKey now' text') : now = now' := by
  have hlist : (quarantineKey now text).toList = (quarantineKey now' text').toList := congrArg String.toList h
  have hkey : ∀ (now : Time) (text : String), (quarantineKey now text).toList =
      't' :: (Nat.toDigits 10 now ++ ':' :: '#' :: text.toList) := by
    intro now text
    rw [show quarantineKey now text = "t" ++ toString now ++ ":" ++ ("#" ++ text) from rfl]
    simp
  have hdigits : ∀ (now : Time) (rest : List Char),
      (Nat.toDigits 10 now ++ ':' :: rest).takeWhile Char.isDigit = Nat.toDigits 10 now := by
    intro now rest
    rw [List.takeWhile_append_of_pos (fun c hc => Nat.isDigit_of_mem_toDigits (by decide) (by decide) hc),
      List.takeWhile_cons_of_neg (by decide), List.append_nil]
  rw [hkey, hkey] at hlist
  have htake := congrArg (List.takeWhile Char.isDigit) (List.cons.inj hlist).2
  rw [hdigits, hdigits] at htake
  have hback := congrArg (Nat.ofDigitChars 10 · 0) htake
  simpa using hback

def readPage : World :=
  (chattingAgent.perform teamBackend (.observe "alice" " tea " none .document) (Backend.empty.given (.at 1 'a'))).2

def readAndGreeted : World :=
  (chattingAgent.perform teamBackend (.chat "alice" "t1" "hi") (readPage.given (.at 2 'b'))).2

/-- Only the document is in the log. -/
theorem run_audits_page : ∃ log ds, Steps (AuditLog.Step lenient true) AuditLog.blank ds log ∧
    log "alice" = [lenient.gate.record "tea" none .document 1] := by
  have hvalid : (Input.at 1 'a').Valid Backend.empty := Stamped.empty.valid (by decide) (by decide)
  have hvalid' : (Input.at 2 'b').Valid readPage :=
    (Stamped.empty.perform (by decide) 'a' chattingAgent teamBackend _).valid (by decide) (by decide)
  have hrun : Steps chattingAgent.ExecutesLater Backend.empty _ readAndGreeted :=
    steps_later (steps_later .nil teamBackend (.observe "alice" " tea " none .document) hvalid (by decide)) teamBackend
      (.chat "alice" "t1" "hi") hvalid' (by decide)
  obtain ⟨log, hlog, hheld⟩ := run_audits quarantineKey_ascii hrun
  refine ⟨log, _, hlog, ?_⟩
  rw [← hheld "alice"]
  decide +kernel

end Engram
