import Engram.History
import Engram.Slots
/-!
# Where expiries come from

An extractor may propose any lifetime. A record gets one only when it is created,
and only if the user's words say that it will pass.
-/

namespace Engram

open MemoryManager Backend Text

variable [Host]

/-! ## Candidates as proposed -/

/-- What a `CandidateFact` is made from; the TTL is any number. -/
structure FactArgs where
  text : String
  text_ne : text ≠ ""
  attr : String
  value : String
  scope : String
  kind : MemoryKind
  importance : Importance
  ttlDays : Option Int

/-- `CandidateFact(...)`, with its validator. -/
def CandidateFact.make (a : FactArgs) : CandidateFact where
  text := a.text
  text_ne := a.text_ne
  attr := a.attr
  value := a.value
  scope := a.scope
  kind := a.kind
  importance := a.importance
  ttlDays := zeroMeansDurable a.ttlDays

omit [Host] in
/-- The validator lets through positive lifetimes, unchanged, and no others. -/
theorem zeroMeansDurable_eq_some {o : Option Int} {d : PNat} : zeroMeansDurable o = some d ↔ o = some (d : Int) := by
  cases o with
  | none => simp [zeroMeansDurable]
  | some v =>
    have hd := d.pos
    by_cases hv : v ≤ 0
    · have hnone : zeroMeansDurable (some v) = none := dif_pos hv
      rw [hnone, Option.some.injEq]
      exact ⟨fun h => (by cases h), fun h => (by omega)⟩
    · have hsome : zeroMeansDurable (some v) = some ⟨v.toNat, by omega⟩ := dif_neg hv
      rw [hsome]
      refine ⟨fun h => ?_, fun h => congrArg some (PNat.eq ?_)⟩
      · have hval : v.toNat = (d : Nat) := congrArg PNat.val (Option.some.inj h)
        exact congrArg some (by omega)
      · have hval := Option.some.inj h
        show v.toNat = (d : Nat)
        omega

/-- A candidate keeps its lifetime only in a turn with a temporal marker. -/
theorem verifyTtl_eq_some {c : CandidateFact} {turn : String} {d : PNat} (h : (verifyTtl c turn).ttlDays = some d) :
    c.ttlDays = some d ∧ hasTemporalMarker turn := by
  unfold verifyTtl at h
  split at h
  · next hor =>
    refine ⟨h, hor.resolve_left (fun hnone => ?_)⟩
    rw [hnone] at h
    cases h
  · cases h

/-! ## One turn -/

/-- What became of the expiry of a record: kept from the version `o`, or set for
a candidate in `cs` when the record was created. -/
inductive Expires (cs : List CandidateFact) (clock : Nat → Time) : Option Memory → Memory → Prop
  | kept {m m'} (h : m'.expiresAt = m.expiresAt) : Expires cs clock (some m) m'
  | set {m' c} (n : Nat) (hc : c ∈ cs) (hslot : m'.slot = c.slot) (hvalue : m'.value = c.value)
      (h : m'.expiresAt = c.ttlDays.map (fun d : PNat => clock n + d * day)) : Expires cs clock none m'

section Step
variable {c : CandidateFact} {u : String} {threadId : Option String} {source : Provenance}
  {existing existing' : List Memory} {w w' : World} {decision : MemoryDecision} {memory : Option Memory}
  {cs : List CandidateFact} {clock : Nat → Time}

omit [Host] in
theorem Expires.congr {o : Option Memory} {m m' : Memory} (h : Expires cs clock o m) (hm : m'.expiresAt = m.expiresAt)
    (hslot : m'.slot = m.slot) (hvalue : m'.value = m.value) : Expires cs clock o m' := by
  cases h with
  | kept h => exact .kept (hm.trans h)
  | set n hc hs hv h => exact .set n hc (hslot.trans hs) (hvalue.trans hv) (hm.trans h)

/-- Each record of `u` in `w'` has an expiry that `Expires` explains from `w₀`. -/
structure Explained (u : String) (cs : List CandidateFact) (w₀ w' : World) : Prop where
  own : ∀ k m', (w'.mem u).get k = some m' → Expires cs w₀.clock ((w₀.mem u).get k) m'
  others : ∀ v, v ≠ u → w'.mem v = w₀.mem v

theorem Explained.of_mem {w₀ : World} (h : ∀ v, w'.mem v = w₀.mem v) : Explained u cs w₀ w' where
  own k m' hget := by
    rw [← h u, hget]
    exact .kept rfl
  others v _ := h v

theorem Resolved.expires {w₀ : World}
    (h : Resolved c u threadId source existing w (.ok (decision, memory, existing'), w')) (hk : w.Keyed)
    (hm : Mirror u existing w) (hc : c ∈ cs) (h₀ : w₀.After w) (hkept : w₀.Remembers w) (hI : Explained u cs w₀ w) :
    Explained u cs w₀ w' := by
  refine ⟨fun k m' hget => ?_, fun v hv => ?_⟩
  · have hfate := h.fate hk hm k
    rw [hget] at hfate
    generalize ho : (w.mem u).get k = o at hfate
    cases hfate with
    | same => exact hI.own k m' ho
    | reinforced m t hmem => exact (hI.own k m ho).congr rfl rfl rfl
    | retired m id t hmem => exact (hI.own k m ho).congr rfl rfl rfl
    | new m hnew =>
      have hold : (w₀.mem u).get k = none := by
        cases hget₀ : (w₀.mem u).get k with
        | none => rfl
        | some m₀ =>
          obtain ⟨m, hm, -⟩ := hkept u k m₀ hget₀
          rw [ho] at hm
          cases hm
      obtain ⟨n, hn⟩ := hnew.expiresAt
      obtain ⟨j, hj⟩ := h₀.clock n
      rw [hold]
      exact .set j hc hnew.slot hnew.value (by rw [hn, hj])
  · have hns : (Namespace.memories v) ≠ .memories u := by simpa using hv
    exact (h.store_of_ne hns).trans (hI.others v hv)

end Step

/-- A turn, whatever its outcome, gives an expiry only to records it creates. -/
theorem apply_expires (S : Services) (mm : MemoryManager) (u text : String) (threadId : Option String)
    (source : Provenance) {w w' : World} {r : Except Error WriteReport} (hw : w.Fed) (hk : w.Keyed) (hp : w.Paired)
    (h : exec S (mm.apply u text threadId source) w = (r, w')) : Explained u (told mm S text source) w w' := by
  have hcases := apply_cases S mm u text threadId source hw hk
  rw [h] at hcases
  generalize hr : (r, w') = rw' at hcases
  cases hcases with
  | blank _ | idle _ _ _ =>
    cases hr
    exact .of_mem (fun _ => rfl)
  | blocked _ _ value =>
    cases hr
    exact .of_mem (fun v => mem_put_quarantine w.tick.tick u v _ value)
  | @resolved hstrip hg _ existing w₁ hs hw₁ ha =>
    have hsame := fun v => hs.same.mem (u := v)
    have htold : told mm S text source = usable (S.extract (strip text)) (strip text) := if_pos ⟨hstrip, hg⟩
    rw [htold]
    obtain ⟨done, w₂, existing₂, report₂, hI, hw₂, hk₂, hm₂, ha₂, hend⟩ := resolveAll_inv S mm u threadId source
      -- To be explained at the end, a record must have been kept on the way.
      (fun _ w' _ _ => w.After w' ∧ w.Remembers w' ∧ w'.Paired ∧
        Explained u (usable (S.extract (strip text)) (strip text)) w w')
      (fun done c rest w₁ w₂ existing report decision memory existing'
          (hall : usable (S.extract (strip text)) (strip text) = done ++ c :: rest) _ hk hm ha hI hres =>
        have hnext := hres.remembers hk hm hI.2.2.1
        have hc : c ∈ usable (S.extract (strip text)) (strip text) := hall ▸ List.mem_append_right _ List.mem_cons_self
        ⟨hI.1.trans ha, hI.2.1.trans hnext.1, hnext.2, hres.expires hk hm hc hI.1 hI.2.1 hI.2.2.2⟩)
      (List.nil_append _).symm hw₁ (hk.congr hsame ha.issued) hs.mirror
      ⟨ha, .of_mem hsame, hp.of_mem hsame, .of_mem hsame⟩
    rcases hend with ⟨-, hrun⟩ | ⟨c, -, d, n, w₃, -, -, hs₃, ha₃, hrun⟩
    · rw [hrun] at hr
      cases hr
      exact hI.2.2.2
    · rw [hrun] at hr
      cases hr
      have hsame₃ := fun v => hs₃.mem (u := v)
      -- The turn raised: what it wrote before stays.
      exact ⟨fun k m' hget => hI.2.2.2.own k m' (hsame₃ u ▸ hget), fun v hv => (hsame₃ v).trans (hI.2.2.2.others v hv)⟩

/-! ## Runs -/

/-- One `apply`, with an extractor that proposes what it likes. -/
structure Turn where
  services : Services
  proposed : String → List FactArgs
  manager : MemoryManager
  userId : String
  text : String
  threadId : Option String
  source : Provenance
  input : Input

def Turn.backend (t : Turn) : Services := { t.services with extract := fun text => (t.proposed text).map .make }

/-- What is left of `w` after the turn, whatever its outcome. -/
def Turn.after (t : Turn) (w : World) : World :=
  (exec t.backend (t.manager.apply t.userId t.text t.threadId t.source) (w.given t.input)).2

/-- The turns so far, from an empty store, and the world after them. -/
inductive Turns : List Turn → World → Prop
  | nil : Turns [] Backend.empty
  | snoc {ts w} (h : Turns ts w) (t : Turn) (hi : t.input.Valid w) : Turns (ts ++ [t]) (t.after w)

theorem Turns.sound {ts : List Turn} {w : World} (h : Turns ts w) : w.Keyed ∧ w.Paired := by
  induction h with
  | nil => exact ⟨keyed_empty, paired_empty⟩
  | snoc _ t hi ih =>
    exact (apply_remembers t.backend t.manager t.userId t.text t.threadId t.source (fed_given hi) (ih.1.given _)
      (ih.2.given _) (Prod.eta _).symm).2

/-- The turn `t`, from `w₀`, created the record `k` of `u` with the expiry `e`,
for a proposal of a positive lifetime and with a temporal marker in its text. -/
structure Grounds (t : Turn) (w₀ : World) (u k : String) (e : Time) : Prop where
  userId : t.userId = u
  absent : (w₀.mem u).get k = none
  marker : hasTemporalMarker (strip t.text)
  proposal : ∃ m a v n, ((t.after w₀).mem u).get k = some m ∧ m.expiresAt = some e ∧ a ∈ t.proposed (strip t.text) ∧
    m.slot = (a.attr, a.scope) ∧ m.value = a.value ∧ a.ttlDays = some v ∧ 1 ≤ v ∧
    e = t.input.clock n + v.toNat * day ∧ t.input.clock n < e

section Turns
variable {ts : List Turn} {w : World}

/-- A turn keeps the expiries of the records there are, and grounds those of the
records it creates. -/
theorem Turns.step (h : Turns ts w) {t : Turn} (hi : t.input.Valid w) (u k : String) :
    (∀ m, (w.mem u).get k = some m → ∃ m', ((t.after w).mem u).get k = some m' ∧ m'.expiresAt = m.expiresAt) ∧
      ∀ m' e, ((t.after w).mem u).get k = some m' →
        (w.mem u).get k = none → m'.expiresAt = some e → Grounds t w u k e := by
  obtain ⟨hk, hp⟩ := h.sound
  have hkept : (w.given t.input).Remembers (t.after w) :=
    (apply_remembers t.backend t.manager t.userId t.text t.threadId
    t.source (fed_given hi) (hk.given _) (hp.given _) (Prod.eta _).symm).1
  have hexpires : Explained t.userId (told t.manager t.backend t.text t.source) (w.given t.input) (t.after w) :=
    apply_expires t.backend t.manager t.userId t.text t.threadId t.source (fed_given hi) (hk.given _) (hp.given _)
      (Prod.eta _).symm
  refine ⟨fun m hget => ?_, fun m' e hget habsent he => ?_⟩
  · obtain ⟨m', hm', hm⟩ := hkept u k m hget
    exact ⟨m', hm', hm.expiresAt⟩
  · obtain rfl : t.userId = u := by
      by_contra hu
      have hsame : (t.after w).mem u = w.mem u := hexpires.others u (Ne.symm hu)
      rw [hsame, habsent] at hget
      cases hget
    have hown := hexpires.own k m' hget
    rw [show ((w.given t.input).mem t.userId).get k = none from habsent] at hown
    cases hown with
    | @set _ c n hc hslot hvalue hexp =>
      rw [he] at hexp
      obtain ⟨d, hd, hde⟩ := Option.map_eq_some_iff.1 hexp.symm
      -- Back through `_verify_ttl` to what the extractor proposed.
      obtain ⟨c₀, hc₀, rfl⟩ : ∃ c₀ ∈ t.backend.extract (strip t.text), verifyTtl c₀ (strip t.text) = c := by
        unfold told at hc
        split at hc
        · exact List.mem_map.1 (List.mem_filter.1 hc).1
        · cases hc
      obtain ⟨a, ha, rfl⟩ := List.mem_map.1 hc₀
      obtain ⟨hproposed, hmarker⟩ := verifyTtl_eq_some hd
      have hsame : ∀ c : CandidateFact, (verifyTtl c (strip t.text)).slot = c.slot ∧
          (verifyTtl c (strip t.text)).value = c.value := by
        intro c
        unfold verifyTtl
        split <;> exact ⟨rfl, rfl⟩
      have hpos := d.pos
      refine ⟨rfl, habsent, hmarker, m', a, d, n, hget, he, ha, hslot.trans (hsame _).1, hvalue.trans (hsame _).2,
        zeroMeansDurable_eq_some.1 hproposed, by omega, hde.symm, ?_⟩
      rw [← hde]
      exact Nat.lt_add_of_pos_right (Nat.mul_pos hpos day_pos)

/-- Every expiry in the store was grounded in a turn of the run, no turn changes
one that is there, and a turn without a temporal marker sets none. -/
theorem expiry_grounded (h : Turns ts w) :
    (∀ u k m e, (w.mem u).get k = some m → m.expiresAt = some e →
      ∃ before t after w₀, ts = before ++ t :: after ∧ Turns before w₀ ∧ Grounds t w₀ u k e) ∧
    ∀ t : Turn, t.input.Valid w → ∀ u k,
      (∀ m, (w.mem u).get k = some m → ∃ m', ((t.after w).mem u).get k = some m' ∧ m'.expiresAt = m.expiresAt) ∧
      (¬ hasTemporalMarker (strip t.text) → ∀ m', ((t.after w).mem u).get k = some m' → (w.mem u).get k = none →
        m'.expiresAt = none) := by
  refine ⟨?_, fun t hi u k => ⟨(h.step hi u k).1, fun hmarker m' hget habsent => ?_⟩⟩
  · induction h with
    | nil => exact fun _ _ _ _ hget _ => (by cases hget)
    | @snoc ts w h t hi ih =>
      intro u k m' e hget he
      obtain ⟨hkept, hnew⟩ := h.step hi u k
      cases hold : (w.mem u).get k with
      | none => exact ⟨ts, t, [], w, rfl, h, hnew m' e hget hold he⟩
      | some m =>
        obtain ⟨m'', hget', hsame⟩ := hkept m hold
        rw [hget] at hget'
        cases hget'
        obtain ⟨before, t', after, w₀, hts, hbefore, hgrounds⟩ := ih u k m e hold (hsame.symm.trans he)
        exact ⟨before, t', after ++ [t], w₀, by rw [hts, List.append_assoc]; rfl, hbefore, hgrounds⟩
  · cases he : m'.expiresAt with
    | none => rfl
    | some e => exact absurd ((h.step hi u k).2 m' e hget habsent he).marker hmarker

end Turns

end Engram

/-! ## A turn with a marker -/

namespace Engram

open Backend

attribute [local instance] ascii

/-- The user is on a team today, and the extractor proposes a day. -/
def redToday : Turn where
  services := teamBackend
  proposed := fun _ => [⟨"team=red", by decide, "team", "red", "", .semantic, .half, some 1⟩]
  manager := lenient
  userId := "alice"
  text := "today"
  threadId := none
  source := .user
  input := .at 1 'a'

theorem turns_redToday : Turns [redToday] (redToday.after Backend.empty) :=
  .snoc .nil redToday (Input.at_valid (by decide) (by decide))

/-- The record expires, as that turn says. -/
theorem expiry_grounded_redToday : ∃ m, ((redToday.after Backend.empty).mem "alice").get "a" = some m ∧
    m.expiresAt = some (1 + day) ∧
    ∃ before t after w₀, [redToday] = before ++ t :: after ∧ Turns before w₀ ∧ Grounds t w₀ "alice" "a" (1 + day) := by
  obtain ⟨m, hget, he⟩ : ∃ m, ((redToday.after Backend.empty).mem "alice").get "a" = some m ∧
      m.expiresAt = some (1 + day) := by
    have h : (((redToday.after Backend.empty).mem "alice").get "a").map (·.expiresAt) = some (some (1 + day)) := by
      decide +kernel
    exact Option.map_eq_some_iff.1 h
  exact ⟨m, hget, he, (expiry_grounded turns_redToday).1 "alice" "a" m (1 + day) hget he⟩

end Engram
