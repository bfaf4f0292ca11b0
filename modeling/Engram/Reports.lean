import Engram.LastStatement
/-!
# Reports

The report of a turn against the records before and after it.
-/

namespace Engram

open MemoryManager Backend Text

variable [Host]

/-! ## What a report says -/

/-- The decision came with a new record. -/
def MemoryDecision.creates (d : MemoryDecision) : Bool := d.op = .write ∨ d.op = .supersede

/-- The decision retired the record under `k`. -/
def MemoryDecision.Retires (d : MemoryDecision) (k : String) : Prop := k ∈ d.supersededIds

/-- The decision found the record under `k` to say the same. -/
def MemoryDecision.Restates (d : MemoryDecision) (k : String) : Prop := d.op = .dedupe ∧ d.memoryId = some k

/-- `m'` differs from `m` at most in importance and time of update. -/
def Touched (m m' : Memory) : Prop := m' = { m with importance := m'.importance, updatedAt := m'.updatedAt }

/-- The report says what happened to the records of `u` from `w₀` to `w`. -/
structure Explains (u : String) (w₀ w : World) (report : WriteReport) : Prop where
  written : report.written.map (fun m => some m.id) = (report.decisions.filter MemoryDecision.creates).map (·.memoryId)
  added : (w.mem u).keys = (w₀.mem u).keys ++ report.written.map (·.id)
  named : ∀ d ∈ report.decisions, ∀ k, d.Retires k → d.op = .supersede ∧ ∃ i r, d.memoryId = some i ∧
    (w.mem u).get k = some r ∧ r.supersededBy = some i ∧ ∀ r₀, (w₀.mem u).get k = some r₀ → r₀.supersededBy = none
  retired : ∀ k r i, (w.mem u).get k = some r → r.supersededBy = some i →
    (∃ r₀, (w₀.mem u).get k = some r₀ ∧ r₀.supersededBy = some i) ∨ ∃ d ∈ report.decisions, d.Retires k
  once : (report.decisions.flatMap (·.supersededIds)).Nodup
  kept : ∀ k r₀, (w₀.mem u).get k = some r₀ → ∃ r, (w.mem u).get k = some r ∧ (r = r₀ ∨
    (∃ d ∈ report.decisions, d.Retires k) ∨ (∃ d ∈ report.decisions, d.Restates k) ∧ Touched r₀ r)
  others : ∀ v, v ≠ u → w.mem v = w₀.mem v

theorem Explains.empty {u : String} {w₀ w : World} (h : ∀ v, w.mem v = w₀.mem v) : Explains u w₀ w .empty where
  written := rfl
  added := by simp [h u, WriteReport.empty]
  named _ hd := by cases hd
  retired k r i hget hr := .inl ⟨r, h u ▸ hget, hr⟩
  once := List.nodup_nil
  kept k r₀ hget := ⟨r₀, by rw [h u]; exact hget, .inl rfl⟩
  others v _ := h v

/-! ## One candidate -/

section Step
variable {c : CandidateFact} {u : String} {threadId : Option String} {source : Provenance}
  {existing existing' : List Memory} {w₀ w w' : World} {decision : MemoryDecision} {memory : Option Memory}
  {report : WriteReport}

/-- A record superseded in the turn is no longer in the working list. -/
theorem Explains.not_retired (h : Explains u w₀ w report) (hm : Mirror u existing w) {m : Memory} (hmem : m ∈ existing)
    {d : MemoryDecision} (hd : d ∈ report.decisions) : ¬ d.Retires m.id := by
  intro hk
  obtain ⟨-, i, r, -, hget, hr, -⟩ := h.named d hd _ hk
  rw [hm.stored m hmem] at hget
  cases hget
  rw [hm.live m hmem] at hr
  cases hr

/-- A record in the working list was not superseded before the turn either. -/
theorem Explains.supersededBy_of_existing (h : Explains u w₀ w report) (hm : Mirror u existing w) {m r₀ : Memory}
    (hmem : m ∈ existing) (hget : (w₀.mem u).get m.id = some r₀) : m.supersededBy = r₀.supersededBy := by
  obtain ⟨r, hr, hkept⟩ := h.kept m.id r₀ hget
  rw [hm.stored m hmem] at hr
  cases hr
  rcases hkept with rfl | ⟨d, hd, hret⟩ | ⟨-, htouched⟩
  · rfl
  · exact absurd hret (h.not_retired hm hmem hd)
  · rw [htouched]

omit [Host] in
theorem exists_more {ds : List MemoryDecision} {Q : MemoryDecision → Prop} (h : ∃ d ∈ ds, Q d) (d₁ : MemoryDecision) :
    ∃ d ∈ ds ++ [d₁], Q d := by
  obtain ⟨d, hd, hq⟩ := h
  exact ⟨d, List.mem_append_left _ hd, hq⟩

theorem Explains.others_of_wrote {d : Dict String Memory} (h : Explains u w₀ w report) (hw : Wrote u d w w')
    (v : String) (hv : v ≠ u) : w'.mem v = w₀.mem v := by
  have hns : (Namespace.memories v) ≠ .memories u := by simpa using hv
  exact (hw.store_of_ne hns).trans (h.others v hv)

omit [Host] in
theorem Touched.trans_reinforced {m₀ m : Memory} (h : m = m₀ ∨ Touched m₀ m) (t : Time) :
    Touched m₀ (reinforced m t) := by
  rcases h with rfl | h
  · rfl
  · unfold Touched at h ⊢
    rw [h]
    rfl

theorem Explains.reinforced (h : Explains u w₀ w report) (hm : Mirror u existing w) {m : Memory} {t : Time}
    (hmem : m ∈ existing) (hw : Wrote u ((w.mem u).set m.id (reinforced m t)) w w') (text reason : String) :
    Explains u w₀ w' ⟨report.written, report.decisions ++ [⟨.dedupe, text, some m.id, [], reason⟩]⟩ := by
  have hget := hm.stored m hmem
  have hold : ∀ {d : MemoryDecision} {k : String}, d ∈ report.decisions ++ [⟨.dedupe, text, some m.id, [], reason⟩] →
      d.Retires k → d ∈ report.decisions := by
    intro d k hd hk
    rcases List.mem_append.1 hd with hd | hd
    · exact hd
    · rw [List.mem_singleton.1 hd] at hk
      cases hk
  refine ⟨?_, ?_, fun d hd k hk => ?_, fun k r i hk hr => ?_, ?_, fun k r₀ hk => ?_, h.others_of_wrote hw⟩
  · rw [h.written, List.filter_append, List.map_append]
    simp [MemoryDecision.creates]
  · rw [hw.mem, Dict.keys_set, if_pos (Dict.mem_keys_iff.2 ⟨m, hget⟩)]
    exact h.added
  · have hd := hold hd hk
    obtain ⟨hop, i, r, hi, hr, hby, hfresh⟩ := h.named d hd k hk
    have hne : k ≠ m.id := by
      rintro rfl
      exact h.not_retired hm hmem hd hk
    refine ⟨hop, i, r, hi, ?_, hby, hfresh⟩
    rw [hw.mem, Dict.get_set_of_ne _ _ hne]
    exact hr
  · rw [hw.mem, Dict.get_set] at hk
    split at hk
    · cases hk
      rw [show (MemoryManager.reinforced m t).supersededBy = none from hm.live m hmem] at hr
      cases hr
    · exact (h.retired k r i hk hr).imp_right (exists_more · _)
  · rw [List.flatMap_append]
    simpa using h.once
  · obtain ⟨r, hr, hcases⟩ := h.kept k r₀ hk
    rw [hw.mem, Dict.get_set]
    by_cases hid : k = m.id
    · subst hid
      rw [hget] at hr
      cases hr
      have hnot : ¬ ∃ d ∈ report.decisions, d.Retires m.id := by
        rintro ⟨d, hd, hk⟩
        exact h.not_retired hm hmem hd hk
      have htouched : m = r₀ ∨ Touched r₀ m := hcases.imp_right (fun hc => (hc.resolve_left hnot).2)
      rw [if_pos rfl]
      exact ⟨_, rfl, .inr (.inr ⟨⟨_, List.mem_append_right _ (List.mem_singleton.2 rfl), rfl, rfl⟩,
        .trans_reinforced htouched t⟩)⟩
    · rw [if_neg hid]
      exact ⟨r, hr, hcases.imp_right (Or.imp (exists_more · _) (And.imp_left (exists_more · _)))⟩

omit [Host] in
theorem keys_retireAll {id : String} {rs : List (Memory × Time)} {d : Dict String Memory}
    (h : ∀ r ∈ rs, r.1.id ∈ d.keys) : (retireAll id rs d).keys = d.keys := by
  induction rs generalizing d with
  | nil => rfl
  | cons r rs ih =>
    have hkeys : (d.set r.1.id (MemoryManager.retired r.1 id r.2)).keys = d.keys := by
      rw [Dict.keys_set, if_pos (h r List.mem_cons_self)]
    rw [retireAll, List.foldl_cons, ← retireAll, ih, hkeys]
    intro r' hr'
    rw [hkeys]
    exact h r' (List.mem_cons_of_mem _ hr')

section Added
variable {new : Memory} {rs : List (Memory × Time)}

/-- Retiring adds no key. -/
theorem Explains.keys_added (h : Explains u w₀ w report) (hk : w.Keyed) (hm : Mirror u existing w)
    (hnew : New c u threadId source w w' new) (hrs : rs.map Prod.fst = rivals c existing)
    (hw : Wrote u (retireAll new.id rs ((w.mem u).set new.id new)) w w') :
    (w'.mem u).keys = (w₀.mem u).keys ++ (report.written ++ [new]).map (·.id) := by
  have hkeys : new.id ∉ (w.mem u).keys := Dict.get_eq_none_iff.1 (hnew.get_none hk)
  have hrivals : ∀ r ∈ rs, r.1.id ∈ ((w.mem u).set new.id new).keys := by
    intro r hr
    have hmem := (rivals_subset (mem_of_rivals hrs hr)).1
    exact Dict.mem_keys_set.2 (.inr (Dict.mem_keys_iff.2 ⟨r.1, hm.stored _ hmem⟩))
  rw [hw.mem, keys_retireAll hrivals, Dict.keys_set, if_neg hkeys, h.added, List.map_append, List.append_assoc]
  rfl

/-- What the turn retired before stays as it was. -/
theorem Explains.get_retired (h : Explains u w₀ w report) (hk : w.Keyed) (hm : Mirror u existing w)
    (hnew : New c u threadId source w w' new) (hrs : rs.map Prod.fst = rivals c existing)
    (hw : Wrote u (retireAll new.id rs ((w.mem u).set new.id new)) w w') {d : MemoryDecision}
    (hd : d ∈ report.decisions) {k : String} (hret : d.Retires k) {r : Memory} (hget : (w.mem u).get k = some r) :
    (w'.mem u).get k = some r := by
  rcases added_cases hnew hk hm hrs hw k with ⟨rfl, hnone, -⟩ | ⟨m, hmem, rfl, -⟩ | ⟨-, -, hsame⟩
  · rw [hnone] at hget
    cases hget
  · exact absurd hret (h.not_retired hm (rivals_subset hmem).1 hd)
  · rw [hsame]
    exact hget

/-- No record is retired twice. -/
theorem Explains.once_added (h : Explains u w₀ w report) (hm : Mirror u existing w) :
    (report.decisions.flatMap (·.supersededIds) ++ (rivals c existing).map (·.id)).Nodup := by
  rw [List.nodup_append]
  refine ⟨h.once, hm.nodup.sublist ((rivals_sublist c existing).map _), ?_⟩
  rintro k hk₁ _ hk₂ rfl
  obtain ⟨d, hd, hret⟩ := List.mem_flatMap.1 hk₁
  obtain ⟨m, hmem, rfl⟩ := List.mem_map.1 hk₂
  exact h.not_retired hm (rivals_subset hmem).1 hd hret

theorem Explains.added_step (h : Explains u w₀ w report) (hk : w.Keyed)
    (hm : Mirror u existing w) (hnew : New c u threadId source w w' new) (hrs : rs.map Prod.fst = rivals c existing)
    (hw : Wrote u (retireAll new.id rs ((w.mem u).set new.id new)) w w') (text reason : String) :
    Explains u w₀ w' ⟨report.written ++ [new], report.decisions ++
      [⟨if rivals c existing = [] then .write else .supersede, text, some new.id,
      (rivals c existing).map (·.id), reason⟩]⟩ := by
  set d₁ : MemoryDecision :=
    ⟨if rivals c existing = [] then .write else .supersede, text, some new.id, (rivals c existing).map (·.id), reason⟩
  have hcases := added_cases hnew hk hm hrs hw
  have hlast : d₁ ∈ report.decisions ++ [d₁] := List.mem_append_right _ (List.mem_singleton.2 rfl)
  refine ⟨?written, h.keys_added hk hm hnew hrs hw, ?named, ?retired, ?once, ?kept, h.others_of_wrote hw⟩
  case written =>
    have hcreates : d₁.creates = true := by
      simp only [MemoryDecision.creates, d₁]
      split <;> simp
    rw [List.map_append, h.written, List.filter_append, List.map_append, List.filter_cons_of_pos hcreates]
    rfl
  case named =>
    intro d hd k hret
    rcases List.mem_append.1 hd with hd | hd
    · obtain ⟨hop, i, r, hi, hget, hby, hfresh⟩ := h.named d hd k hret
      exact ⟨hop, i, r, hi, h.get_retired hk hm hnew hrs hw hd hret hget, hby, hfresh⟩
    · obtain rfl := List.mem_singleton.1 hd
      obtain ⟨m, hmem, rfl⟩ := List.mem_map.1 (show k ∈ (rivals c existing).map (·.id) from hret)
      have hexisting := (rivals_subset hmem).1
      obtain ⟨t, ht⟩ := get_added_rival new hm hrs hmem
      rw [← hw.mem] at ht
      refine ⟨if_neg (List.ne_nil_of_mem hmem), new.id, _, rfl, ht, rfl, fun r₀ hget => ?_⟩
      rw [← h.supersededBy_of_existing hm hexisting hget]
      exact hm.live m hexisting
  case retired =>
    intro k r i hget hr
    rcases hcases k with ⟨rfl, -, hget'⟩ | ⟨m, hmem, rfl, -, t, hget'⟩ | ⟨-, -, hsame⟩
    · rw [hget'] at hget
      cases hget
      rw [hnew.supersededBy] at hr
      cases hr
    · exact .inr ⟨d₁, hlast, List.mem_map.2 ⟨m, hmem, rfl⟩⟩
    · rw [hsame] at hget
      exact (h.retired k r i hget hr).imp_right (exists_more · _)
  case once =>
    rw [List.flatMap_append, List.flatMap_singleton]
    exact h.once_added hm
  case kept =>
    intro k r₀ hget
    obtain ⟨r, hr, hkept⟩ := h.kept k r₀ hget
    rcases hcases k with ⟨rfl, hnone, -⟩ | ⟨m, hmem, rfl, -, t, hget'⟩ | ⟨-, -, hsame⟩
    · rw [hnone] at hr
      cases hr
    · exact ⟨_, hget', .inr (.inl ⟨d₁, hlast, List.mem_map.2 ⟨m, hmem, rfl⟩⟩)⟩
    · rw [hsame]
      exact ⟨r, hr, hkept.imp_right (Or.imp (exists_more · _) (And.imp_left (exists_more · _)))⟩

end Added

/-- What is true of the report after the candidates in `done`. -/
structure Reported (u : String) (w₀ : World) (done : List CandidateFact) (w : World) (report : WriteReport) : Prop where
  explains : Explains u w₀ w report
  candidates : report.decisions.map (·.candidate) = done.map (·.text)
  ops : ∀ d ∈ report.decisions, d.op ≠ .quarantine

theorem Resolved.reported {done : List CandidateFact}
    (h : Resolved c u threadId source existing w (.ok (decision, memory, existing'), w')) (hk : w.Keyed)
    (hm : Mirror u existing w) (hI : Reported u w₀ done w report) :
    Reported u w₀ (done ++ [c]) w' ⟨report.written ++ memory.toList, report.decisions ++ [decision]⟩ := by
  have hcandidate : decision.candidate = c.text ∧ decision.op ≠ .quarantine := by
    cases h with
    | reinforced => exact ⟨rfl, by simp⟩
    | added =>
      refine ⟨rfl, ?_⟩
      dsimp only
      split <;> simp
  refine ⟨?_, ?_, fun d hd => ?_⟩
  · cases h with
    | reinforced reason hmem _ hw =>
      rw [Option.toList_none, List.append_nil]
      exact hI.explains.reinforced hm hmem hw c.text reason
    | added reason hnew hrs _ hw => exact hI.explains.added_step hk hm hnew hrs hw c.text reason
  · rw [List.map_append, List.map_append, hI.candidates]
    simp [hcandidate.1]
  · rcases List.mem_append.1 hd with hd | hd
    · exact hI.ops d hd
    · rw [List.mem_singleton.1 hd]
      exact hcandidate.2

end Step

/-! ## A turn -/

section Turn
variable (S : Services) (mm : MemoryManager) (u text : String) (threadId : Option String) (source : Provenance)
  {w w' : World} {report : WriteReport}

/-- Of a turn that returns, the report is of its candidates, unless the gate
blocked the turn. -/
theorem apply_reported (hw : w.Fed) (hk : w.Keyed)
    (h : exec S (mm.apply u text threadId source) w = (.ok report, w')) :
    (strip text ≠ "" ∧ (mm.gate.inspect (strip text) source).allowed = false ∧ w'.mem u = w.mem u ∧
    Explains u w w' report ∧
      ∃ reason, report = ⟨[], [⟨.quarantine, strip text, none, [], reason⟩]⟩) ∨
    ((strip text = "" ∨ (mm.gate.inspect (strip text) source).allowed = true) ∧
      Reported u w (told mm S text source) w' report) := by
  have hcases := apply_cases S mm u text threadId source hw hk
  rw [h] at hcases
  generalize hr : ((.ok report, w') : Except Error WriteReport × World) = rw' at hcases
  cases hcases with
  | blank hblank =>
    cases hr
    have htold : told mm S text source = [] := if_neg (fun hn => hn.1 hblank)
    exact .inr ⟨.inl hblank, htold ▸ ⟨.empty (fun _ => rfl), rfl, fun _ hd => (by cases hd)⟩⟩
  | idle hstrip hg hnone =>
    cases hr
    have htold : told mm S text source = [] := (if_pos ⟨hstrip, hg⟩).trans hnone
    exact .inr ⟨.inr hg, htold ▸ ⟨.empty (fun _ => rfl), rfl, fun _ hd => (by cases hd)⟩⟩
  | blocked hstrip hg value =>
    cases hr
    have hmem :=
      fun v => mem_put_quarantine w.tick.tick u v (InjectionGate.quarantineKey (w.clock 0) (strip text)) value
    refine .inl ⟨hstrip, hg, hmem u, ⟨rfl, ?_, ?_, fun k r i hget hr => .inl ⟨r, hmem u ▸ hget, hr⟩,
      List.nodup_nil, ?_, fun v _ => hmem v⟩, _, rfl⟩
    · show _ = (w.mem u).keys ++ []
      rw [List.append_nil, hmem u]
      rfl
    · intro d hd k hret
      rw [List.mem_singleton.1 hd] at hret
      cases hret
    · exact fun k r₀ hget => ⟨r₀, by rw [hmem u]; exact hget, .inl rfl⟩
  | @resolved hstrip hg _ existing w₁ hs hw₁ ha =>
    have hsame := fun v => hs.same.mem (u := v)
    have htold : told mm S text source = usable (S.extract (strip text)) (strip text) := if_pos ⟨hstrip, hg⟩
    obtain ⟨done, w₂, existing₂, report₂, hI, hw₂, hk₂, hm₂, ha₂, hend⟩ := resolveAll_inv S mm u threadId source
      (fun done w' _ report => Reported u w done w' report)
      (fun done c rest w₁ w₂ existing report decision memory existing' _ _ hk hm _ hI hres => hres.reported hk hm hI)
      (List.nil_append _).symm hw₁ (hk.congr hsame ha.issued) hs.mirror
      ⟨.empty hsame, rfl, fun _ hd => (by cases hd)⟩
    rcases hend with ⟨hdone, hrun⟩ | ⟨_, -, _, _, _, -, -, -, -, hrun⟩
    · rw [hrun] at hr
      cases hr
      rw [htold, ← hdone]
      exact .inr ⟨.inr hg, hI⟩
    · rw [hrun] at hr
      cases hr

/-- The report of a turn is a complete account of what it changed. -/
theorem apply_explained (hw : w.Fed) (hk : w.Keyed)
    (h : exec S (mm.apply u text threadId source) w = (.ok report, w')) :
    Explains u w w' report ∧
    (∀ k, ((∃ r, (w'.mem u).get k = some r ∧ r.supersededBy ≠ none) ∧
        ∀ r₀, (w.mem u).get k = some r₀ → r₀.supersededBy = none) ↔
      ∃ d ∈ report.decisions, d.op = .supersede ∧ d.Retires k) ∧
    (strip text ≠ "" ∧ (mm.gate.inspect (strip text) source).allowed = false → w'.mem u = w.mem u ∧
      ∃ reason, report = ⟨[], [⟨.quarantine, strip text, none, [], reason⟩]⟩) ∧
    (strip text = "" ∨ (mm.gate.inspect (strip text) source).allowed = true →
      report.decisions.map (·.candidate) = (told mm S text source).map (·.text) ∧
        ∀ d ∈ report.decisions, d.op ≠ .quarantine) := by
  have hreported := apply_reported S mm u text threadId source hw hk h
  have hexplains : Explains u w w' report := by
    rcases hreported with ⟨-, -, -, hexplains, -⟩ | ⟨-, hreported⟩
    · exact hexplains
    · exact hreported.explains
  refine ⟨hexplains, fun k => ⟨fun ⟨⟨r, hget, hr⟩, hfresh⟩ => ?_, fun ⟨d, hd, _, hret⟩ => ?_⟩,
    fun hblocked => ?_, fun hpassed => ?_⟩
  · obtain ⟨i, hi⟩ := Option.ne_none_iff_exists'.1 hr
    rcases hexplains.retired k r i hget hi with ⟨r₀, hget₀, hr₀⟩ | ⟨d, hd, hret⟩
    · rw [hfresh r₀ hget₀] at hr₀
      cases hr₀
    · exact ⟨d, hd, (hexplains.named d hd k hret).1, hret⟩
  · obtain ⟨-, i, r, -, hget, hr, hfresh⟩ := hexplains.named d hd k hret
    exact ⟨⟨r, hget, by simp [hr]⟩, hfresh⟩
  · rcases hreported with ⟨-, -, hmem, -, hreport⟩ | ⟨hpassed, -⟩
    · exact ⟨hmem, hreport⟩
    · rcases hpassed with hblank | hg
      · exact absurd hblank hblocked.1
      · rw [hblocked.2] at hg
        cases hg
  · rcases hreported with ⟨hstrip, hg, -⟩ | ⟨-, hreported⟩
    · rcases hpassed with hblank | hg'
      · exact absurd hblank hstrip
      · rw [hg] at hg'
        cases hg'
    · exact ⟨hreported.candidates, hreported.ops⟩

end Turn

end Engram

/-! ## A move -/

namespace Engram

open Backend

attribute [local instance] ascii

/-- The report of the user's move names the record it retired. -/
theorem apply_explained_moved : ∃ report w',
    exec teamBackend (lenient.apply "alice" "platform" none .user) (joined.given (.at 2 'b')) = (.ok report, w') ∧
      (w'.mem "alice").keys = (joined.mem "alice").keys ++ report.written.map (·.id) ∧
      ∃ d ∈ report.decisions, d.op = .supersede ∧ d.Retires "a" := by
  obtain ⟨report, w', hr⟩ : ∃ report w',
      exec teamBackend (lenient.apply "alice" "platform" none .user) (joined.given (.at 2 'b')) = (.ok report, w') :=
    apply_returns teamBackend lenient "alice" "platform" none .user (T := 2) moved_input.1
      (moved_input.2.given _) (fun _ => rfl) (by
        rw [told_platform]
        intro c hc d hd
        obtain rfl := List.mem_singleton.1 hc
        cases hd)
  obtain ⟨hexplains, hretired, -⟩ := apply_explained teamBackend lenient "alice" "platform" none .user moved_input.1
    (moved_input.2.given _) hr
  refine ⟨report, w', hr, hexplains.added, (hretired "a").1 ⟨?_, fun r₀ hget => ?_⟩⟩
  · have hafter :
      ∃ e ∈ ((exec teamBackend (lenient.apply "alice" "platform" none .user) (joined.given (.at 2 'b'))).2.mem
        "alice").entries, e.1 = "a" ∧ e.2.supersededBy ≠ none := by decide +kernel
    rw [hr] at hafter
    obtain ⟨⟨_, r⟩, he, rfl, hsome⟩ := hafter
    exact ⟨r, Dict.get_eq_some_iff.2 he, hsome⟩
  · have hbefore : ∀ e ∈ ((joined.given (.at 2 'b')).mem "alice").entries, e.2.supersededBy = none := by decide +kernel
    exact hbefore _ (Dict.get_eq_some_iff.1 hget)

end Engram
