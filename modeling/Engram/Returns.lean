import Engram.Calls
/-!
# When a turn returns

Nothing in the write path raises but the expiry of a new record, so a candidate
goes through if what it says is known already or its expiry is within the
calendar.
-/

namespace Engram

open MemoryManager Text

variable [Host]

/-! ## What never raises -/

/-- The program raises nothing. -/
def Returns {α : Type} (p : Act α) : Prop := p.Raises (fun _ => False)

theorem Returns.exec {α : Type} {p : Act α} (hp : Returns p) (S : Services) (w : World) :
    ∃ a w', exec S p w = (.ok a, w') := Prog.Raises.returns hp w

theorem returns_reinforce (m : Memory) (existing : List Memory) : Returns (reinforce m existing) :=
  .next (fun _ => .next (fun _ => .pure))

theorem returns_supersedeAll (id : String) (stale existing : List Memory) :
    Returns (supersedeAll id stale existing) := by
  induction stale generalizing existing with
  | nil => exact .pure
  | cons m stale ih => exact .bind (.next (fun _ => .next (fun _ => .pure))) (fun existing => ih existing)

theorem returns_isActiveNow (m : Memory) (now : Option Time) : Returns (isActiveNow m now) := by
  unfold isActiveNow
  split
  · exact .pure
  split
  · exact .pure
  split
  · exact .pure
  · exact .next (fun _ => .pure)

theorem returns_activeOnly (ms : List Memory) : Returns (activeOnly ms) := by
  induction ms with
  | nil => exact .pure
  | cons m ms ih => exact .bind (returns_isActiveNow m none) (fun _ => .bind ih (fun _ => .pure))

theorem returns_activeMemories (u : String) : Returns (activeMemories u) := .next (fun _ => returns_activeOnly _)

theorem returns_closest (query : Vec) (ms : List Memory) (best : Option Memory × Rat) :
    Returns (closest query ms best) := by
  induction ms generalizing best with
  | nil => exact .pure
  | cons m ms ih => exact .next (fun _ => ih _)

theorem returns_nearest (mm : MemoryManager) (text : String) (existing : List Memory) :
    Returns (mm.nearest text existing) := by
  unfold nearest
  split
  · exact .pure
  · refine .next (fun items => ?_)
    dsimp only
    split
    · exact .pure
    · exact .next (fun query => .bind (returns_closest query _ _) (fun _ => .pure))

theorem returns_naiveApply (u text : String) (threadId : Option String) (source : Provenance) :
    Returns (naiveApply u text threadId source) := by
  unfold naiveApply
  split
  · exact .pure
  · exact .next (fun _ => .next (fun _ => .next (fun _ => .next (fun _ => .pure))))

theorem returns_recallFor {u : String} (r : MemoryReader) (query : String) (limit : Option Nat) (now : Option Time) :
    Returns (r.recallFor u query limit now) := by
  have hfrom : ∀ k items acc, Returns (MemoryReader.recallFrom k now items acc) := by
    intro k items
    induction items with
    | nil => exact fun acc => .pure
    | cons item items ih =>
      refine fun acc => .bind (returns_isActiveNow item.value now) (fun active => ?_)
      split
      · exact ih acc
      · dsimp only
        split
        · exact .pure
        · exact ih _
  unfold MemoryReader.recallFor
  dsimp only
  split
  · exact .pure
  · exact .next (fun items => hfrom _ items _)

/-! ## The clock -/

/-- Whether the clock is left alone. -/
def CallOn.timeless : Call → Prop
  | .utcnow => False
  | _ => True

theorem clock_handle (S : Services) {i : Call} (hi : i.timeless) (w : World) : (handle S i w).2.clock = w.clock := by
  cases i with
  | utcnow => exact hi.elim
  | embed text => exact w.clock_embed S text
  | _ => rfl

theorem clock_nearest (S : Services) (mm : MemoryManager) (text : String) (existing : List Memory) (w : World) :
    (exec S (mm.nearest text existing) w).2.clock = w.clock := by
  have honly : (mm.nearest text existing).Only (fun _ _ => True) CallOn.timeless
      (fun near => ∀ m, near = some m → m ∈ existing) :=
    only_nearest (fun _ => trivial) (fun _ _ _ _ => trivial) mm text
  refine (honly.run_inv (h := handle S) (I := fun w' => w'.clock = w.clock) (fun i w' hi hw' => ⟨trivial, ?_⟩)
    (s := w) rfl).1
  rw [clock_handle S hi, hw']

/-! ## One candidate -/

/-- At `t`, the candidate's expiry is within the calendar. -/
def CandidateFact.Fits (c : CandidateFact) (t : Time) : Prop := ∀ d, c.ttlDays = some d → addDays t d ≠ none

/-- What `c` says is in the working list: its value in its slot or, without a slot, a near-duplicate. -/
def Known (S : Services) (mm : MemoryManager) (c : CandidateFact) (existing : List Memory) (w : World) : Prop :=
  if c.attr ≠ "" then ∃ m ∈ sameSlot c existing, norm m.value = norm c.value
  else ∃ m, (exec S (mm.nearest c.text existing) w).1 = .ok (some m)

section Resolve
variable (S : Services) {c : CandidateFact} {u : String} {threadId : Option String} {source : Provenance}
  {existing : List Memory} {w : World}

theorem exec_expiry_fits (h : c.Fits (w.clock 0)) : ∃ e w', exec S (expiry c.ttlDays) w = (.ok e, w') := by
  cases hc : c.ttlDays with
  | none => exact ⟨none, w, rfl⟩
  | some d =>
    obtain ⟨e, he⟩ := Option.ne_none_iff_exists'.1 (h d hc)
    refine ⟨some e, w.tick, ?_⟩
    rw [expiry, exec_utcnow, he, exec_pure]

theorem exec_expiry_overflow (h : ¬ c.Fits (w.clock 0)) : exec S (expiry c.ttlDays) w = (.error .overflow, w.tick) := by
  simp only [CandidateFact.Fits, not_forall, not_not] at h
  obtain ⟨d, hc, he⟩ := h
  rw [hc, expiry, exec_utcnow, he, exec_raise]

/-- What starts with building a record returns if and only if the expiry fits. -/
theorem build_returns_iff {β : Type} {f : Memory → Act β} (hf : ∀ m, Returns (f m)) :
    (∃ r w', exec S (build c u threadId source >>= f) w = (.ok r, w')) ↔ c.Fits (w.clock 0) := by
  unfold build
  rw [bind_assoc]
  constructor
  · rintro ⟨r, w', hr⟩
    by_contra h
    rw [exec_bind_of_error S w (exec_expiry_overflow S h)] at hr
    cases hr
  · intro h
    obtain ⟨e, w₁, he⟩ := exec_expiry_fits S h
    rw [exec_bind_of_ok S w he]
    exact Returns.exec (.next (fun _ => .next (fun _ => .next (fun _ => hf _)))) S w₁

theorem writeNew_returns_iff :
    (∃ r w', exec S (writeNew c existing u threadId source) w = (.ok r, w')) ↔ c.Fits (w.clock 0) :=
  build_returns_iff S (fun _ => .next (fun _ => .pure))

/-- A candidate goes through if and only if it is known or its expiry is within the calendar. -/
theorem resolve_returns_iff (mm : MemoryManager) :
    (∃ r w', exec S (resolve mm c existing u threadId source) w = (.ok r, w')) ↔
      Known S mm c existing w ∨ c.Fits (w.clock 0) := by
  unfold resolve Known
  split
  · cases hdup : (sameSlot c existing).find? (fun m => norm m.value = norm c.value) with
    | some m =>
      refine iff_of_true ?_ (.inl ⟨m, List.mem_of_find?_eq_some hdup, by simpa using List.find?_some hdup⟩)
      exact Returns.exec (.bind (returns_reinforce m existing) (fun _ => .pure)) S w
    | none =>
      have hnew : ¬ ∃ m ∈ sameSlot c existing, norm m.value = norm c.value := by
        rintro ⟨m, hm, hval⟩
        exact absurd hval (by simpa using List.find?_eq_none.1 hdup m hm)
      rw [or_iff_right hnew]
      dsimp only
      split
      · exact build_returns_iff S
          (fun m => .next (fun _ => .bind (returns_supersedeAll m.id _ existing) (fun _ => .pure)))
      · exact writeNew_returns_iff S
  · obtain ⟨near, w₁, hn, -, -⟩ := exec_nearest S mm c.text existing w
    -- The search reads no clock, so the expiry is judged at the same reading.
    have hclock : w₁.clock = w.clock := by
      have := clock_nearest S mm c.text existing w
      rwa [hn] at this
    rw [exec_bind_of_ok S w hn, hn]
    cases near with
    | some m =>
      refine iff_of_true ?_ (.inl ⟨m, rfl⟩)
      exact Returns.exec (.bind (returns_reinforce m existing) (fun _ => .pure)) S w₁
    | none =>
      rw [or_iff_right (by rintro ⟨m, hm⟩; cases hm), ← hclock]
      exact writeNew_returns_iff S

end Resolve

/-! ## All candidates -/

section All
variable (S : Services) (mm : MemoryManager) (u : String) (threadId : Option String) (source : Provenance)

/-- Each candidate, in the state in which its turn comes, is known or has an
expiry within the calendar. -/
def EachFits : List CandidateFact → List Memory → World → Prop
  | [], _, _ => True
  | c :: cs, existing, w => (Known S mm c existing w ∨ c.Fits (w.clock 0)) ∧
      ∀ decision memory existing' w',
        exec S (resolve mm c existing u threadId source) w = (.ok (decision, memory, existing'), w') →
        EachFits cs (existing' ++ memory.toList) w'

/-- The loop returns, with a decision for each candidate, if and only if each of them goes through. -/
theorem resolveAll_returns_iff (cs : List CandidateFact) (existing : List Memory) (report : WriteReport) (w : World) :
    (∃ report' w', exec S (resolveAll mm u threadId source cs existing report) w = (.ok report', w') ∧
      report'.decisions.length = report.decisions.length + cs.length) ↔
      EachFits S mm u threadId source cs existing w := by
  induction cs generalizing existing report w with
  | nil => exact iff_of_true ⟨report, w, rfl, rfl⟩ trivial
  | cons c cs ih =>
    rcases hr : exec S (resolve mm c existing u threadId source) w with ⟨e | ⟨decision, memory, existing'⟩, w'⟩
    · -- The loop ends with the error, and the candidate does not go through.
      refine iff_of_false ?_ (fun h => ?_)
      · rintro ⟨report', w'', h, -⟩
        rw [resolveAll, exec_bind_of_error S w hr] at h
        cases h
      · obtain ⟨r, w'', h'⟩ := (resolve_returns_iff S mm).2 h.1
        rw [hr] at h'
        cases h'
    · have hthrough : Known S mm c existing w ∨ c.Fits (w.clock 0) := (resolve_returns_iff S mm).1 ⟨_, _, hr⟩
      have hcount : (report.decisions ++ [decision]).length + cs.length =
          report.decisions.length + (c :: cs).length := by
        simp only [List.length_append, List.length_cons, List.length_nil]
        omega
      rw [resolveAll, exec_bind_of_ok S w hr]
      dsimp only
      rw [← hcount, ih]
      constructor
      · intro h
        refine ⟨hthrough, fun decision₁ memory₁ existing₁ w₁ h₁ => ?_⟩
        rw [hr] at h₁
        cases h₁
        exact h
      · intro h
        exact h.2 decision memory existing' w' hr

/-- Candidates whose expiries are within the calendar at every reading go through. -/
theorem eachFits_of_fits {cs : List CandidateFact} (existing : List Memory) {w : World}
    (h : ∀ c ∈ cs, ∀ n, c.Fits (w.clock n)) : EachFits S mm u threadId source cs existing w := by
  induction cs generalizing existing w with
  | nil => trivial
  | cons c cs ih =>
    refine ⟨.inr (h c List.mem_cons_self 0), fun decision memory existing' w' hr => ih _ (fun c' hc' n => ?_)⟩
    obtain ⟨k, hk⟩ := (After.of_exec hr).clock n
    rw [hk]
    exact h c' (List.mem_cons_of_mem c hc') k

end All

/-! ## A turn -/

/-- The candidates `apply` puts to the resolver; a blank turn is not read. -/
def turnCandidates (S : Services) (text : String) : List CandidateFact :=
  if strip text = "" then [] else usable (S.extract (strip text)) (strip text)

/-- The candidates are put to the resolver with the live memories at hand. -/
theorem apply_iff_eachFits (S : Services) (mm : MemoryManager) (u text : String) (threadId : Option String)
    (source : Provenance) (w : World) (hg : (mm.gate.inspect (strip text) source).allowed = true) :
    (∃ report w', exec S (mm.apply u text threadId source) w = (.ok report, w') ∧
      report.decisions.length = (turnCandidates S text).length) ↔
      ∀ existing w₁, exec S (activeMemories u) w = (.ok existing, w₁) →
        EachFits S mm u threadId source (turnCandidates S text) existing w₁ := by
  unfold turnCandidates apply
  split
  · exact iff_of_true ⟨.empty, w, rfl, rfl⟩ (fun _ _ _ => trivial)
  · rw [exec_extract]
    split
    · next hc =>
      rw [hc]
      exact iff_of_true ⟨.empty, w, rfl, rfl⟩ (fun _ _ _ => trivial)
    · obtain ⟨existing, w₁, hrun⟩ := (returns_activeMemories u).exec S w
      rw [exec_bind_of_ok S w hrun]
      have hloop := resolveAll_returns_iff S mm u threadId source (usable (S.extract (strip text)) (strip text))
        existing .empty w₁
      simp only [WriteReport.empty, List.length_nil, Nat.zero_add] at hloop ⊢
      rw [hloop]
      constructor
      · intro h existing' w' hrun'
        rw [hrun] at hrun'
        cases hrun'
        exact h
      · intro h
        exact h existing w₁ hrun

/-- A turn that the gate allows returns, with a decision for each candidate, if
and only if each of them is known or has an expiry within the calendar when its
turn comes. That is so if the expiries are, at every reading of the clock. -/
theorem apply_returns_iff (S : Services) (mm : MemoryManager) (u text : String) (threadId : Option String)
    (source : Provenance) (w : World) (hg : (mm.gate.inspect (strip text) source).allowed = true) :
    ((∃ report w', exec S (mm.apply u text threadId source) w = (.ok report, w') ∧
        report.decisions.length = (turnCandidates S text).length) ↔
      ∀ existing w₁, exec S (activeMemories u) w = (.ok existing, w₁) →
        EachFits S mm u threadId source (turnCandidates S text) existing w₁) ∧
    ((∀ c ∈ turnCandidates S text, ∀ n, c.Fits (w.clock n)) →
      ∃ report w', exec S (mm.apply u text threadId source) w = (.ok report, w') ∧
        report.decisions.length = (turnCandidates S text).length) := by
  have hiff := apply_iff_eachFits S mm u text threadId source w hg
  refine ⟨hiff, fun hfits => hiff.2 (fun existing w₁ hrun => eachFits_of_fits S mm u threadId source existing ?_)⟩
  intro c hc n
  obtain ⟨k, hk⟩ := (After.of_exec hrun).clock n
  rw [hk]
  exact hfits c hc k

end Engram

/-! ## A long expiry -/

namespace Engram

open MemoryManager Backend Text

attribute [local instance] ascii

/-- A turn on a lasting team and a project for a thousand million days. -/
def longBackend : Services :=
  .inMemory (fun _ => [.stating "team" "red" none, .stating "project" "atlas" (some 1000000000)]) (fun _ _ => 1)
    (fun _ => some "ok")

/-- The first reading of the year 9000. -/
def year9000 : Time := 3286817 * day

/-- In 2026 the second candidate aborts the turn, with the first one stored. -/
theorem apply_aborts : ∃ w, w.Fed ∧ w.Keyed ∧ (∀ n, w.clock n < year9000) ∧
    (lenient.gate.inspect (strip "today") .user).allowed = true ∧
    ∃ w', exec longBackend (lenient.apply "alice" "today" none .user) w = (.error .overflow, w') ∧
      (w'.mem "alice").size = 1 := by
  refine ⟨Backend.empty.given (.at (739616 * day) 'a'), fed_given (Input.at_valid (Nat.zero_le _) (by decide)),
    keyed_empty.given _, fun n => ?_, by decide +kernel, _, Prod.ext ?_ rfl, ?_⟩
  · show 739616 * day < 3286817 * day
    have := day_pos
    omega
  · decide +kernel
  · decide +kernel

/-- A team without an expiry is stored. -/
theorem apply_returns_iff_team : ∃ report w',
    exec teamBackend (lenient.apply "alice" "payments" none .user) (Backend.empty.given (.at 1 'a')) =
      (.ok report, w') ∧ report.decisions.length = 1 := by
  have hone : turnCandidates teamBackend "payments" = [.stating "team" "payments" none] := by decide +kernel
  have h := (apply_returns_iff teamBackend lenient "alice" "payments" none .user (Backend.empty.given (.at 1 'a'))
    (by decide +kernel)).2
  rw [hone] at h
  refine h (fun c hc n d hd => ?_)
  obtain rfl := List.mem_singleton.1 hc
  cases hd

end Engram
